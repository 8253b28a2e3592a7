import CoreFromDust.Os.Mm.Proofs.EnoughFrames
import CoreFromDust.Os.Mm.SpaceConsistency

/-!
# Fork copies

`sys_fork` makes a copy of the address space of a process that shares no frame with it but that
of the trampoline. The copy differs in two words of the trap context, and what is stored through
one of the two address spaces is never seen through the other.
-/

namespace CoreFromDust.Os.Mm

open SpaceWf

/-- The byte at an offset of a page, as the processor sees it through the address space. -/
def MemorySet.byte (set : MemorySet) (m : Memory) (vpn offset : Nat) : Option UInt8 :=
  (set.pageTable.lookup m vpn).map fun pte => m.bytes pte.ppn offset

/-- The frames of an address space: those of its trackers and tables, the tables that the links lead
to, and those that it maps on pages other than the trampoline. -/
def MemorySet.Uses (set : MemorySet) (m : Memory) (ppn : Nat) : Prop :=
  ppn ∈ set.dataFrames ∨ ppn ∈ set.pageTable.frames ∨
    Lib.Reaches m.next set.pageTable.rootPpn 2 ppn ∨
    ∃ vpn < 2 ^ 27, vpn ≠ trampolineVpn ∧
    ∃ pte, set.pageTable.lookup m vpn = some pte ∧ pte.ppn = ppn

/-- Store a byte through an address space; the page must be writable. -/
def MemorySet.store (set : MemorySet) (m : Memory) (vpn offset : Nat) (byte : UInt8) :
    Option Memory :=
  (set.pageTable.lookup m vpn).bind fun pte =>
    if pte.flags &&& PTEFlags.w ≠ 0 then some (m.writeBytes pte.ppn offset [byte]) else none

/-- Two address spaces have no frame in common, and what is stored through the first one is not
seen through the second one. -/
structure Isolated (m : Memory) (set other : MemorySet) : Prop where
  frames : ∀ ppn, set.Uses m ppn → ¬ other.Uses m ppn
  stores : ∀ vpn < 2 ^ 27, ∀ offset < 4096, ∀ byte m', set.store m vpn offset byte = some m' →
    ∀ vpn' < 2 ^ 27, ∀ offset' < 4096, other.byte m' vpn' offset' = other.byte m vpn' offset'

/-- The address space `copy` of the child is a copy of that of the parent; `k` is the state before
and `k'` the state after `sys_fork`. -/
structure ForkCopy {File : Type} (k k' : Processes File) (parent child : Pcb File)
    (set copy : MemorySet) : Prop where
  /-- the same pages are mapped, with the same flags -/
  pages : ∀ vpn < 2 ^ 27, (copy.pageTable.lookup k'.machine.phys.mem vpn).map PageTableEntry.flags =
    (set.pageTable.lookup k'.machine.phys.mem vpn).map PageTableEntry.flags
  /-- the pages of the parent stay as they are -/
  parentPages : ∀ vpn,
    set.pageTable.lookup k'.machine.phys.mem vpn = set.pageTable.lookup k.machine.phys.mem vpn
  parentBytes : ∀ vpn < 2 ^ 27, vpn ≠ trampolineVpn → ∀ offset < 4096,
    set.byte k'.machine.phys.mem vpn offset = set.byte k.machine.phys.mem vpn offset
  /-- every byte outside of two words of the trap context is copied -/
  bytes : ∀ vpn < 2 ^ 27, ∀ offset < 4096,
    ¬ (vpn = trapCxVpn ∧
      (offset / 8 = TrapContext.a0Index ∨ offset / 8 = TrapContext.kernelSpIndex)) →
    copy.byte k'.machine.phys.mem vpn offset = set.byte k'.machine.phys.mem vpn offset
  trapCx : ∃ pte, copy.pageTable.lookup k'.machine.phys.mem trapCxVpn = some pte ∧
    pte.ppn = child.trapCxPpn
  a0 : k'.machine.phys.mem.word child.trapCxPpn TrapContext.a0Index = 0
  kernelSp : k'.machine.phys.mem.word child.trapCxPpn TrapContext.kernelSpIndex =
    (kernelStackPosition child.kstack).2
  ownStack : ∀ id pcb, k.pcbs id = some pcb → pcb.kstack ≠ child.kstack
  fdTable : child.fdTable = parent.fdTable

section Isolation

variable {l tramp vpn ppn : Nat} {s : Phys} {set other : MemorySet}

/-- The entry of a mapped page of a user address space. -/
theorem SpaceWf.lookup_cases (wf : set.Wf l tramp s) (framed : set.Framed) (small : vpn < 2 ^ 27)
    {pte : PageTableEntry} (found : set.pageTable.lookup s.mem vpn = some pte) :
    (vpn = trampolineVpn ∧ pte = .new tramp (PTEFlags.r ||| PTEFlags.x ||| PTEFlags.v)) ∨
      ∃ area ∈ set.areas, area.Has vpn ∧ (vpn, pte.ppn) ∈ areaEntries set.areas ∧
        pte = .new pte.ppn (area.mapPerm.bits ||| PTEFlags.v) := by
  have isLast : trampolineVpn = 2 ^ 27 - 1 := by decide
  by_cases isTramp : vpn = trampolineVpn
  · rw [isTramp, isLast, wf.onTrampoline, Option.some.injEq] at found
    exact .inl ⟨isTramp, found.symm⟩
  · by_cases inArea : ∃ area ∈ set.areas, area.Has vpn
    · obtain ⟨area, mem, has⟩ := inArea
      obtain ⟨frame, isEntry, entry⟩ := wf.framedPage mem (framed area mem) has
      rw [found, Option.some.injEq] at entry
      have isFrame : pte.ppn = frame := by
        rw [entry, PageTableEntry.ppn_new _ (wf.entry_inUse isEntry).2.2]
      rw [← isFrame] at isEntry entry
      exact .inr ⟨area, mem, has, isEntry, entry⟩
    · rw [wf.onNone vpn (by omega) fun area mem has => inArea ⟨area, mem, has⟩] at found
      exact absurd found (by simp)

theorem SpaceWf.uses_mem (wf : set.Wf l tramp s) (framed : set.Framed) (uses : set.Uses s.mem ppn) :
    ppn ∈ set.own := by
  rcases uses with data | table | reached | ⟨vpn, small, notTramp, pte, found, rfl⟩
  · exact mem_own.mpr (.inr data)
  · exact mem_own.mpr (.inl table)
  · exact mem_own.mpr (.inl (wf.table.tree.mem ppn reached))
  · rcases wf.lookup_cases framed small found with ⟨isTramp, -⟩ | ⟨-, -, -, isEntry, -⟩
    · exact absurd isTramp notTramp
    · exact mem_own.mpr (.inr (mem_areaFrames isEntry))

/-- Two user address spaces with no frame in common are isolated. -/
theorem SpaceWf.isolated (wf : set.Wf l tramp s) (framed : set.Framed)
    (wfOther : other.Wf l tramp s)
    (framedOther : other.Framed) (small : tramp < 2 ^ 44) (low : tramp < l)
    (disjoint : ∀ ppn ∈ set.own, ppn ∉ other.own) : Isolated s.mem set other where
  frames := fun ppn uses usesOther =>
    disjoint ppn (wf.uses_mem framed uses) (wfOther.uses_mem framedOther usesOther)
  stores := by
    intro vpn below offset bound byte m' stored vpn' below' offset' bound'
    obtain ⟨pte, found, stored⟩ := Option.bind_eq_some_iff.mp stored
    split at stored
    · next writable =>
      obtain rfl := Option.some.inj stored
      -- the trampoline is not writable, so the frame is one of the address space
      have isFrame : pte.ppn ∈ areaFrames set.areas := by
        rcases wf.lookup_cases framed below found with ⟨-, rfl⟩ | ⟨-, -, -, isEntry, -⟩
        · rw [PageTableEntry.flags_new _ small] at writable
          exact absurd writable (by decide)
        · exact mem_areaFrames isEntry
      have used := wf.inUse pte.ppn isFrame
      have kept :
          ∀ ppn, ppn ≠ pte.ppn → SameFrame s.mem (s.mem.writeBytes pte.ppn offset [byte]) ppn :=
        fun ppn differ i inside =>
          Memory.bytes_writeBytes_other _ _ (by rw [List.length_singleton]; omega) differ inside
      have notOther : ∀ ppn ∈ other.own, ppn ≠ pte.ppn := by
        rintro ppn isOther rfl
        exact disjoint _ (mem_own.mpr (.inr isFrame)) isOther
      have sameLookup : other.pageTable.lookup (s.mem.writeBytes pte.ppn offset [byte]) vpn' =
          other.pageTable.lookup s.mem vpn' := by
        rw [PageTable.lookup, PageTable.lookup, wfOther.table.translate_congr fun ppn table =>
          kept ppn (notOther ppn (mem_own.mpr (.inl table)))]
      rw [MemorySet.byte, MemorySet.byte, sameLookup]
      cases isEntry : other.pageTable.lookup s.mem vpn' with
      | none => simp only [Option.map_none]
      | some entry =>
          rw [Option.map_some, Option.map_some, Option.some.injEq]
          refine kept entry.ppn ?_ offset' bound'
          rcases wfOther.lookup_cases framedOther below'
            isEntry with ⟨-, rfl⟩ | ⟨-, -, -, isEntry, -⟩
          · rw [PageTableEntry.ppn_new _ small]
            have lower := used.1
            omega
          · exact notOther _ (mem_own.mpr (.inr (mem_areaFrames isEntry)))
    · exact absurd stored (by simp)

theorem Machine.Inv.isolated {layout : KernelLayout} {k : Machine} {id id' : Nat}
    (inv : Machine.Inv l tramp k) (above : Above layout l tramp) (differ : id ≠ id')
    (isLive : k.live (.user id) = some set) (isOther : k.live (.user id') = some other) :
    Isolated k.phys.mem set other := by
  obtain ⟨found, ok⟩ := inv.live isLive
  obtain ⟨foundOther, okOther⟩ := inv.live isOther
  exact (ok.wf rfl).isolated (ok.framed (by simp)) (okOther.wf rfl)
    (okOther.framed (by simp)) above.small
    above.low (inv.disjoint _ _ _ _ (by simpa using differ) found foundOther)

end Isolation

section Copy

variable {File : Type} {l tramp id : Nat} {layout : KernelLayout} {k k' : Processes File}
  {parent child : Pcb File} {set copy : MemorySet} {s : Phys}

/-- Address spaces with the same areas map the same pages with the same flags. -/
theorem SpaceWf.sameFlags (wf : set.Wf l tramp s) (framed : set.Framed) (wfCopy : copy.Wf l tramp s)
    (same : List.Forall₂ SameArea set.areas copy.areas) {vpn : Nat} (below : vpn < 2 ^ 27) :
    (copy.pageTable.lookup s.mem vpn).map PageTableEntry.flags =
      (set.pageTable.lookup s.mem vpn).map PageTableEntry.flags := by
  by_cases isTramp : vpn = 2 ^ 27 - 1
  · rw [isTramp, wf.onTrampoline, wfCopy.onTrampoline]
  · by_cases inArea : ∃ area ∈ set.areas, area.Has vpn
    · obtain ⟨area, mem, has⟩ := inArea
      obtain ⟨area', mem', same⟩ := exists_of_forall₂ same.flip area mem
      have has' : area'.Has vpn := by rwa [MapArea.Has, same.startVpn, same.endVpn]
      have framed' : area'.mapType = .framed := same.mapType.trans (framed area mem)
      obtain ⟨ppn, isEntry, found⟩ := wf.framedPage mem (framed area mem) has
      obtain ⟨ppn', isEntry', found'⟩ := wfCopy.framedPage mem' framed' has'
      rw [found, found', Option.map_some, Option.map_some,
        PageTableEntry.flags_new _ (wf.entry_inUse isEntry).2.2,
        PageTableEntry.flags_new _ (wfCopy.entry_inUse isEntry').2.2, same.mapPerm]
    · have notCopy : ∀ area ∈ copy.areas, ¬ area.Has vpn := by
        intro area' mem' has'
        obtain ⟨area, mem, same⟩ := exists_of_forall₂ same area' mem'
        rw [MapArea.Has, same.startVpn, same.endVpn] at has'
        exact inArea ⟨area, mem, has'⟩
      rw [wf.onNone vpn (by omega) fun area mem has => inArea ⟨area, mem, has⟩,
        wfCopy.onNone vpn (by omega) notCopy]

/-- The byte of a page of an area. -/
theorem SpaceWf.byte_eq (wf : set.Wf l tramp s) {vpn ppn : Nat}
    (isEntry : (vpn, ppn) ∈ areaEntries set.areas)
    (offset : Nat) : set.byte s.mem vpn offset = some (s.mem.bytes ppn offset) := by
  obtain ⟨area, mem, inArea⟩ := List.mem_flatMap.mp isEntry
  rw [MemorySet.byte, wf.tracker_lookup mem inArea, Option.map_some,
    PageTableEntry.ppn_new _ (wf.entry_inUse isEntry).2.2]

/-- A byte of the copy, away from the two words that `fork` writes. -/
theorem Forked.byte (forked : Forked l tramp id k k' parent child set copy)
    (wfCopy : copy.Wf l tramp k'.machine.phys) {vpn source target offset : Nat}
    (bound : offset < 4096)
    (isSource : (vpn, source) ∈ areaEntries set.areas)
    (isTarget : (vpn, target) ∈ areaEntries copy.areas) (outside : ¬ (vpn = trapCxVpn ∧
      (offset / 8 = TrapContext.a0Index ∨ offset / 8 = TrapContext.kernelSpIndex))) :
    k'.machine.phys.mem.bytes target offset = k.machine.phys.mem.bytes source offset := by
  obtain ⟨m, copied, written⟩ := forked.copied
  rw [written, ← copied vpn source target isSource isTarget offset bound]
  by_cases isTrapCx : target = child.trapCxPpn
  · subst isTrapCx
    have isPage := wfCopy.page_unique isTarget forked.trapCx
    rw [not_and, not_or] at outside
    obtain ⟨notA0, notSp⟩ := outside isPage
    rw [Memory.bytes_setWord_apart _ notA0, Memory.bytes_setWord_apart _ notSp]
  · rw [Memory.bytes_setWord_other _ (by decide) isTrapCx bound,
      Memory.bytes_setWord_other _ (by decide) isTrapCx bound]

/-- What `sys_fork` makes is a copy. -/
theorem Forked.forkCopy (forked : Forked l tramp id k k' parent child set copy)
    (inv : Processes.Inv l tramp k) (notNext : id ≠ k.next) :
    ForkCopy k k' parent child set copy := by
  have ok := inv.machine.space _ _ forked.parentSpace
  have wf : set.Wf l tramp k.machine.phys := ok.wf rfl
  have framed := ok.framed (by simp)
  have found := (forked.spaces id notNext).trans forked.parentSpace
  have wf' : set.Wf l tramp k'.machine.phys := (forked.inv.machine.space _ _ found).wf rfl
  have wfCopy : copy.Wf l tramp k'.machine.phys :=
    (forked.inv.machine.space _ _ forked.childSpace).wf rfl
  have isLast : trampolineVpn = 2 ^ 27 - 1 := by decide
  have sameTables : ∀ vpn, set.pageTable.lookup k'.machine.phys.mem vpn =
      set.pageTable.lookup k.machine.phys.mem vpn := by
    intro vpn
    rw [PageTable.lookup, PageTable.lookup, wf.table.translate_congr fun ppn table =>
      forked.kept ppn (mem_own.mpr (.inl table))]
  obtain ⟨m, -, written⟩ := forked.copied
  refine ⟨fun vpn below => wf'.sameFlags framed wfCopy forked.areas below, sameTables, ?_, ?_,
    ?_, ?_, ?_, ?_, forked.fdTable⟩
  · intro vpn below notTramp offset bound
    rw [MemorySet.byte, MemorySet.byte, sameTables]
    cases isEntry : set.pageTable.lookup k.machine.phys.mem vpn with
    | none => simp only [Option.map_none]
    | some pte =>
        rcases wf.lookup_cases framed below isEntry with ⟨isTramp, -⟩ | ⟨-, -, -, isEntry, -⟩
        · exact absurd isTramp notTramp
        · rw [Option.map_some, Option.map_some, Option.some.injEq]
          exact forked.kept _ (mem_own.mpr (.inr (mem_areaFrames isEntry))) offset bound
  · intro vpn below offset bound outside
    by_cases isTramp : vpn = trampolineVpn
    · rw [MemorySet.byte, MemorySet.byte, isTramp, isLast, wf'.onTrampoline, wfCopy.onTrampoline]
    · by_cases inArea : ∃ area ∈ set.areas, area.Has vpn
      · obtain ⟨area, mem, has⟩ := inArea
        obtain ⟨area', mem', same⟩ := exists_of_forall₂ forked.areas.flip area mem
        have has' : area'.Has vpn := by rwa [MapArea.Has, same.startVpn, same.endVpn]
        obtain ⟨source, isSource, -⟩ := wf'.framedPage mem (framed area mem) has
        obtain ⟨target, isTarget, -⟩ :=
          wfCopy.framedPage mem' (same.mapType.trans (framed area mem)) has'
        rw [wf'.byte_eq isSource, wfCopy.byte_eq isTarget,
          forked.byte wfCopy bound isSource isTarget outside,
          forked.kept source (mem_own.mpr (.inr (mem_areaFrames isSource))) offset bound]
      · have unmapped := wf'.onNone vpn (by omega) fun area mem has => inArea ⟨area, mem, has⟩
        have flags := wf'.sameFlags framed wfCopy forked.areas below
        rw [unmapped, Option.map_none, Option.map_eq_none_iff] at flags
        rw [MemorySet.byte, MemorySet.byte, unmapped, flags]
  · obtain ⟨area, mem, inArea⟩ := List.mem_flatMap.mp forked.trapCx
    exact ⟨_, wfCopy.tracker_lookup mem inArea,
      PageTableEntry.ppn_new _ (wfCopy.entry_inUse forked.trapCx).2.2⟩
  · rw [written, Memory.word_setWord _ (by decide)]
  · have top : (kernelStackPosition child.kstack).2 < 2 ^ 64 := Nat.mod_lt _ (by decide)
    rw [written, Memory.word_setWord_other _ _ (by decide) (by decide) (.inr (by decide)),
      Memory.word_setWord _ top]
  · intro other pcb isPcb
    have older := (inv.process other pcb isPcb).1
    rw [forked.kstack]
    exact Nat.ne_of_lt older

/-- In every run of processes with one thread, `sys_fork` returns the pid of the child when there
are enough free frames. The address space of the child is a copy of that of the parent, and as long
as the two processes go on they are isolated. -/
theorem sysFork_isolatedCopy (mem : Memory) (booted : Processes File)
    (boot : Processes.boot mem layout = some booted) (events : List (ProcessEvent File))
    (run : booted.steps layout events = some k) (id : Nat) (parent : Pcb File)
    (isParent : k.pcbs id = some parent) (set : MemorySet)
    (isLive : k.machine.live (.user id) = some set)
    (enough : forkFrames set ≤ k.machine.phys.freeFrames) :
    ∃ k' child copy, k.sysFork layout id = some (child.pid, k') ∧ k.pcbs k.next = none ∧
      k'.pcbs k.next = some child ∧ k'.machine.live (.user k.next) = some copy ∧
      k'.machine.live (.user id) = some set ∧ ForkCopy k k' parent child set copy ∧
      ∀ later k'' set'' copy'', k'.steps layout later = some k'' →
        k''.machine.live (.user id) = some set'' → k''.machine.live (.user k.next) = some copy'' →
        Isolated k''.machine.phys.mem set'' copy'' ∧
        Isolated k''.machine.phys.mem copy'' set'' := by
  obtain ⟨invBoot, above⟩ := Processes.inv_boot boot
  have inv := invBoot.steps above run
  have found := Machine.live_eq_some.mp isLive
  obtain ⟨⟨pid, k'⟩, isForked⟩ :=
    Option.isSome_iff_exists.mp (inv.sysFork_isSome above isParent found enough)
  obtain ⟨parent', child, set', copy, rfl, forked⟩ := inv.sysFork above isForked
  obtain rfl : parent = parent' := Option.some.inj (isParent.symm.trans forked.isParent)
  obtain rfl : set = set' :=
    congrArg Space.set (Option.some.inj (found.symm.trans forked.parentSpace))
  have free := inv.fresh k.next (Nat.le_refl _)
  have notNext : id ≠ k.next := by
    rintro rfl
    rw [free.1] at isParent
    exact absurd isParent (by simp)
  refine ⟨k', child, copy, isForked, free.1, forked.isChild,
    Machine.live_eq_some.mpr forked.childSpace,
    Machine.live_eq_some.mpr ((forked.spaces id notNext).trans found),
    forked.forkCopy inv notNext, ?_⟩
  intro later k'' set'' copy'' runLater isSet isCopy
  have inv'' := (forked.inv.steps above runLater).machine
  exact ⟨inv''.isolated above notNext isSet isCopy, inv''.isolated above notNext.symm isCopy isSet⟩

end Copy

/-- A kernel of two pages, with 44 frames of memory above it. -/
def smallLayout : KernelLayout where
  stext := 0x807d2000
  etext := 0x807d3000
  srodata := 0x807d3000
  erodata := 0x807d3000
  sdata := 0x807d3000
  edata := 0x807d3001
  sbssWithStack := 0x807d4000
  ebss := 0x807d4000
  ekernel := 0x807d4000
  strampoline := 0x807d2000
  inText := by decide
  ordered := by decide
  fits := by decide

/-- A process with a page of code writes to its stack. -/
def smallRun : List (ProcessEvent Nat) :=
  [.new ⟨[⟨0x10000, 0x1000, true, false, true, [19]⟩], 0x10000⟩ [some 0, some 1, none] 0 0x80200000,
    .store 0 0x12 5 7]

theorem sysFork_isolatedCopy_small : ∃ booted k parent set k' child copy,
    Processes.boot (fun _ => 0) smallLayout = some booted ∧
    booted.steps smallLayout smallRun = some k ∧
    k.pcbs 0 = some parent ∧ k.sysFork smallLayout 0 = some (child.pid, k') ∧
    ForkCopy k k' parent child set copy := by
  have runs : ((Processes.boot (fun _ => 0) smallLayout).bind fun booted =>
      (booted.steps smallLayout smallRun).bind fun k => (k.pcbs 0).bind fun _ =>
        (k.machine.live (.user 0)).map fun set =>
          decide (forkFrames set ≤ k.machine.phys.freeFrames)) =
      some true := by decide +kernel
  obtain ⟨booted, boot, runs⟩ := Option.bind_eq_some_iff.mp runs
  obtain ⟨k, run, runs⟩ := Option.bind_eq_some_iff.mp runs
  obtain ⟨parent, isParent, runs⟩ := Option.bind_eq_some_iff.mp runs
  obtain ⟨set, isLive, enough⟩ := Option.map_eq_some_iff.mp runs
  obtain ⟨k', child, copy, isForked, -, -, -, -, isCopy, -⟩ :=
    sysFork_isolatedCopy (fun _ => 0) booted boot
    smallRun run 0 parent isParent set isLive (of_decide_eq_true enough)
  exact ⟨booted, k, parent, set, k', child, copy, boot, run, isParent, isForked, isCopy⟩

end CoreFromDust.Os.Mm
