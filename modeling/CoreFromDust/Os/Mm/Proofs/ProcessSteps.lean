import CoreFromDust.Os.Mm.Proofs.ProcessInv

/-!
# Steps of processes

`new`, `exec`, `sys_fork` and stores keep the invariant of processes and their memory.
-/

namespace CoreFromDust.Os.Mm

open SpaceWf

variable {File : Type} {l tramp : Nat} {layout : KernelLayout}
  {k k' added : Processes File} {id : Nat}
  {set set' copy : MemorySet} {s s' phys : Phys} {mem : Memory}

theorem mem_areaFrames {areas : List MapArea} {entry : Nat × Nat}
    (isEntry : entry ∈ areaEntries areas) :
    entry.2 ∈ areaFrames areas := by
  rw [areaFrames_eq]
  exact List.mem_map_of_mem isEntry

/-! ## New processes -/

/-- A process with a kernel stack gets its trap context and its entry in the table. -/
theorem StackAdded.setPcb (pcb : Pcb File) (stack : StackAdded l tramp k added pcb.kstack)
    (below : id < k.next) (found : k.machine.spaces (.user id) = some ⟨set, false⟩)
    (has : set.HasTrapCx)
    (writes : DataWrites l added.machine.phys set added.machine.phys.mem mem) :
    Processes.Inv l tramp { added with
      machine := added.machine.withMem mem
      pcbs := Function.update added.pcbs id (some pcb) } := by
  have found' : added.machine.spaces (.user id) = some ⟨set, false⟩ := (stack.spaces id).trans found
  have written := stack.inv.withMem found' writes
  refine written.setPcb pcb (by rw [stack.next]; exact below) ?_ ⟨set, found', has⟩
  change pcb.kstack < added.kstackAllocator.current
  rw [stack.current, stack.kstack]
  exact Nat.lt_succ_self _

theorem TrapContext.words_length (cx : TrapContext) : cx.words.length = 37 := by
  simp [TrapContext.words]

/-- An address space under the next name. -/
theorem Processes.Inv.putNext (inv : Processes.Inv l tramp k)
    (changes : Changes l k.machine.phys phys [] set.own) (wf : set.Wf l tramp phys)
    (framed : set.Framed) :
    Processes.Inv l tramp { k with
      machine := k.machine.put phys (.user k.next) (some ⟨set, false⟩)
      next := k.next + 1
      pidAllocator := k.pidAllocator.alloc.2 } := by
  obtain ⟨noPcb, noSpace⟩ := inv.fresh k.next (Nat.le_refl _)
  refine inv.put _ _ (Nat.le_succ _) (Nat.lt_succ_self _) ?_ wf framed ?_
  · rw [noSpace]
    exact changes
  · rw [noPcb]
    simp

/-- `ProcessControlBlock::new`. -/
theorem Processes.Inv.new (inv : Processes.Inv l tramp k) (above : Above layout l tramp) {elf : Elf}
    {files : List (Option File)} {sstatus trapHandler : Nat}
    (h : k.new layout elf files sstatus trapHandler = some k') : Processes.Inv l tramp k' := by
  obtain ⟨⟨phys, set, ustackBase, entryPoint⟩, isElf, h⟩ := Option.bind_eq_some_iff.mp h
  obtain ⟨⟨trapCxPpn, kstack, last⟩, isTask, rfl⟩ := Option.map_eq_some_iff.mp h
  obtain ⟨wf, framed, changes⟩ :=
    fromElf_spec inv.machine.ok above.small above.low above.isTramp isElf
  have placed := inv.putNext changes wf framed
  obtain ⟨phys', set', has, isEntry, stack⟩ := placed.newTask_true (Nat.lt_succ_self _)
    (k.machine.put_spaces_self _ _ _) isTask
  refine StackAdded.setPcb ⟨_, files, ustackBase, trapCxPpn, kstack⟩ stack (Nat.lt_succ_self _)
    (Machine.put_spaces_self _ _ _ _) has ?_
  exact .setWords _ (mem_areaFrames isEntry) (by rw [TrapContext.words_length]; omega)

/-! ## Forks -/

theorem copyFdTable_eq (fdTable : List (Option File)) : copyFdTable fdTable = fdTable := by
  induction fdTable with
  | nil => rfl
  | cons entry rest ih => cases entry <;> rw [copyFdTable, ih]

/-- What `sys_fork` does. -/
structure Forked (l tramp id : Nat) (k k' : Processes File) (parent child : Pcb File)
    (set copy : MemorySet) : Prop where
  inv : Processes.Inv l tramp k'
  isParent : k.pcbs id = some parent
  parentSpace : k.machine.spaces (.user id) = some ⟨set, false⟩
  isChild : k'.pcbs k.next = some child
  childSpace : k'.machine.spaces (.user k.next) = some ⟨copy, false⟩
  next : k'.next = k.next + 1
  pcbs : ∀ other, other ≠ k.next → k'.pcbs other = k.pcbs other
  spaces :
    ∀ other, other ≠ k.next → k'.machine.spaces (.user other) = k.machine.spaces (.user other)
  areas : List.Forall₂ SameArea set.areas copy.areas
  trapCx : (trapCxVpn, child.trapCxPpn) ∈ areaEntries copy.areas
  pid : child.pid = k.pidAllocator.alloc.1
  fdTable : child.fdTable = parent.fdTable
  kstack : child.kstack = k.kstackAllocator.current
  /-- the frames of the parent keep their bytes -/
  kept : ∀ ppn ∈ set.own, SameFrame k.machine.phys.mem k'.machine.phys.mem ppn
  /-- the frames of the child have those of the parent but for two words of the trap context -/
  copied : ∃ m : Memory,
    (∀ vpn source target, (vpn, source) ∈ areaEntries set.areas →
      (vpn, target) ∈ areaEntries copy.areas →
      ∀ offset < 4096, m.bytes target offset = k.machine.phys.mem.bytes source offset) ∧
    k'.machine.phys.mem = (m.setWord child.trapCxPpn TrapContext.kernelSpIndex
      (kernelStackPosition child.kstack).2).setWord child.trapCxPpn TrapContext.a0Index 0

theorem exists_of_forall₂ {α β : Type} {R : α → β → Prop} {xs : List α} {ys : List β}
    (related : List.Forall₂ R xs ys) : ∀ y ∈ ys, ∃ x ∈ xs, R x y := by
  induction related with
  | nil => exact fun y mem => absurd mem List.not_mem_nil
  | cons first _ ih =>
      intro y mem
      rcases List.mem_cons.mp mem with rfl | mem
      · exact ⟨_, List.mem_cons_self, first⟩
      · obtain ⟨x, isInput, related⟩ := ih y mem
        exact ⟨x, List.mem_cons_of_mem _ isInput, related⟩

/-- A page of a copied address space has the bytes of the same page of the source. -/
theorem SpaceWf.copied {m m' : Memory} (wf : set.Wf l tramp s) (framed : set.Framed)
    (wfCopy : copy.Wf l tramp s') (copies : List.Forall₂ (CopiedArea m m') set.areas copy.areas)
    {vpn source target : Nat} (isSource : (vpn, source) ∈ areaEntries set.areas)
    (isTarget : (vpn, target) ∈ areaEntries copy.areas) :
    ∀ offset < 4096, m'.bytes target offset = m.bytes source offset := by
  obtain ⟨area', mem', inCopy⟩ := List.mem_flatMap.mp isTarget
  obtain ⟨area, mem, copied⟩ := exists_of_forall₂ copies area' mem'
  have has : area.Has vpn := by
    have has' := ((wfCopy.shape area' mem').has inCopy).2
    rwa [MapArea.Has, copied.startVpn, copied.endVpn] at has'
  obtain ⟨ppn, isPpn, -⟩ := wf.onArea area mem vpn has
  simp only [MapArea.Target, framed area mem] at isPpn
  rw [wf.tracker_unique isSource (mem_areaEntries mem isPpn)]
  exact copied.bytes vpn ppn target isPpn inCopy

theorem hasTrapCx_of_same (same : List.Forall₂ SameArea set.areas copy.areas)
    (has : set.HasTrapCx) :
    copy.HasTrapCx := by
  obtain ⟨area, mem, has⟩ := has
  obtain ⟨area', mem', same⟩ := exists_of_forall₂ same.flip area mem
  exact ⟨area', mem', by rwa [MapArea.Has, same.startVpn, same.endVpn]⟩

/-- `sys_fork`. -/
theorem Processes.Inv.sysFork (inv : Processes.Inv l tramp k)
    (above : Above layout l tramp) {pid : Nat} (h : k.sysFork layout id = some (pid, k')) :
    ∃ parent child set copy, pid = child.pid ∧ Forked l tramp id k k' parent child set copy := by
  obtain ⟨new, isNew, h⟩ := Option.bind_eq_some_iff.mp h
  obtain ⟨child, isChild, h⟩ := Option.map_eq_some_iff.mp h
  obtain ⟨rfl, rfl⟩ := Prod.mk.inj h
  obtain ⟨parent, isParent, isNew⟩ := Option.bind_eq_some_iff.mp isNew
  obtain ⟨set, isLive, isNew⟩ := Option.bind_eq_some_iff.mp isNew
  obtain ⟨⟨phys, copy⟩, isCopy, isNew⟩ := Option.bind_eq_some_iff.mp isNew
  obtain ⟨⟨trapCxPpn, kstack, last⟩, isTask, rfl⟩ := Option.map_eq_some_iff.mp isNew
  simp only [Function.update_self, Option.some.injEq] at isChild
  subst isChild
  obtain ⟨parentSpace, ok⟩ := inv.machine.live isLive
  have wf : set.Wf l tramp k.machine.phys := ok.wf rfl
  have framed := ok.framed (by simp)
  obtain ⟨copies, wfCopy, framedCopy, changes⟩ :=
    fromExistedUser_spec wf framed above.small above.isTramp isCopy
  have same : List.Forall₂ SameArea set.areas copy.areas :=
    copies.imp fun _ _ copied => copied.toSameArea
  obtain ⟨-, set', parentSpace', has⟩ := inv.process id parent isParent
  rw [parentSpace] at parentSpace'
  obtain rfl : set = set' := congrArg Space.set (Option.some.inj parentSpace')
  have hasCopy := hasTrapCx_of_same same has
  have placed := inv.putNext changes wfCopy framedCopy
  have childSpace := k.machine.put_spaces_self phys (.user k.next) (some ⟨copy, false⟩)
  obtain ⟨isEntry, stack⟩ := placed.newTask_false childSpace hasCopy isTask
  have isFrame := mem_areaFrames isEntry
  have otherSpaces : ∀ other, other ≠ k.next →
      last.machine.spaces (.user other) = k.machine.spaces (.user other) := by
    intro other differ
    rw [stack.spaces]
    exact k.machine.put_spaces_of_ne _ _ (by simpa using differ)
  have notNext : id ≠ k.next := by
    rintro rfl
    rw [(inv.fresh k.next (Nat.le_refl _)).2] at parentSpace
    exact absurd parentSpace (by simp)
  have kernelSp : TrapContext.kernelSpIndex < 512 := by decide
  have a0 : TrapContext.a0Index < 512 := by decide
  refine ⟨parent, _, set, copy, rfl, ?_⟩
  have invChild :=
    StackAdded.setPcb ⟨k.pidAllocator.alloc.1, copyFdTable parent.fdTable, parent.ustackBase,
    trapCxPpn, kstack⟩ stack (Nat.lt_succ_self _) childSpace hasCopy
    (DataWrites.setWord isFrame (kernelStackPosition kstack).2 kernelSp)
  have invLast := invChild.withMem ((stack.spaces k.next).trans childSpace)
    (DataWrites.setWord isFrame 0 a0)
  -- the frames of the parent are in no one's way
  have notCopy : ∀ ppn ∈ set.own, ppn ∉ copy.own := fun ppn mem =>
    changes.not_mem (wf.own_inUse ppn mem) List.not_mem_nil
  have parentPlaced : (k.machine.put phys (.user k.next) (some ⟨copy, false⟩)).spaces (.user id) =
      some ⟨set, false⟩ :=
      (k.machine.put_spaces_of_ne _ _ (by simpa using notNext)).trans parentSpace
  have keptParent : ∀ ppn ∈ set.own, SameFrame k.machine.phys.mem last.machine.phys.mem ppn :=
    fun ppn mem => (changes.other ppn (wf.own_inUse ppn mem) List.not_mem_nil).trans
      (stack.kept id _ parentPlaced ppn mem)
  refine ⟨invLast, isParent, parentSpace, Function.update_self _ _ _,
    (stack.spaces k.next).trans childSpace, stack.next, ?_, otherSpaces, same, isEntry, rfl,
    copyFdTable_eq _, stack.kstack, ?_, last.machine.phys.mem, ?_, rfl⟩
  · intro other differ
    exact (Function.update_of_ne differ _ _).trans (congrFun stack.pcbs other)
  · intro ppn mem offset bound
    have differ : ppn ≠ trapCxPpn := by
      rintro rfl
      exact notCopy ppn mem (mem_own.mpr (.inr isFrame))
    change Memory.bytes (Memory.setWord (Memory.setWord _ _ _ _) _ _ _) ppn offset = _
    rw [Memory.bytes_setWord_other _ a0 differ bound,
      Memory.bytes_setWord_other _ kernelSp differ bound]
    exact keptParent ppn mem offset bound
  · intro vpn source target isSource isTarget offset bound
    have isOwn : target ∈ copy.own := mem_own.mpr (.inr (mem_areaFrames isTarget))
    rw [stack.kept k.next _ childSpace target isOwn offset bound]
    exact wf.copied framed wfCopy copies isSource isTarget offset bound

/-! ## Programs -/

/-- One address space is built, then another one is dropped. -/
theorem Changes.replace {old new : List Nat} (built : Changes l s phys [] new)
    (inUse : ∀ ppn ∈ old, s.InUse l ppn) (dropped : Changes l phys s' old []) :
    Changes l s s' old new := by
  have notNew : ∀ ppn ∈ old, ppn ∉ new :=
    fun ppn mem => built.not_mem (inUse ppn mem) List.not_mem_nil
  have first := built.frame inUse fun _ _ => List.not_mem_nil
  have second :=
    dropped.frame (fun ppn mem => built.mem_inUse mem) fun ppn mem isOld => notNew ppn isOld mem
  rw [List.append_nil] at first second
  refine first.trans (second.congr (fun ppn => ?_) fun _ => Iff.rfl)
  rw [List.mem_append, List.mem_append, or_comm]

/-- A new program gets its address space before the old one is dropped. -/
structure Replaced (l tramp : Nat) (s built dropped : Phys) (old set : MemorySet) : Prop where
  wf : set.Wf l tramp built
  framed : set.Framed
  builds : Changes l s built [] set.own
  drops : Changes l built dropped old.own []
  apart : ∀ ppn ∈ set.own, ppn ∉ old.own

theorem Replaced.wfDropped {built dropped : Phys} {old : MemorySet}
    (replaced : Replaced l tramp s built dropped old set) : set.Wf l tramp dropped :=
  replaced.wf.other replaced.drops replaced.apart

theorem Machine.Inv.replaced {k : Machine} {id : SpaceId} {elf : Elf} {built dropped : Phys}
    {old : MemorySet} {ustackBase entryPoint : Nat} (inv : Machine.Inv l tramp k)
    (above : Above layout l tramp) (isLive : k.live id = some old)
    (isElf : MemorySet.fromElf k.phys layout.strampoline elf =
      some (built, set, ustackBase, entryPoint))
    (isDropped : old.drop built = some dropped) :
      Replaced l tramp k.phys built dropped old set := by
  obtain ⟨-, ok⟩ := inv.live isLive
  obtain ⟨wf, framed, builds⟩ := fromElf_spec inv.ok above.small above.low above.isTramp isElf
  have inUse : ∀ ppn ∈ old.own, built.InUse l ppn := fun ppn mem =>
    (builds.inUse ppn).mpr (.inl ⟨ok.own_inUse ppn mem, List.not_mem_nil⟩)
  obtain ⟨dropped', isDropped', drops⟩ := drop_spec builds.ok ok.own_nodup inUse
  rw [isDropped, Option.some.injEq] at isDropped'
  subst isDropped'
  exact ⟨wf, framed, builds, drops, fun ppn mem isOld =>
    builds.not_mem (ok.own_inUse ppn isOld) List.not_mem_nil mem⟩

/-- The stack of a program starts at a page. -/
theorem fromElf_ustackBase {strampoline ustackBase entryPoint : Nat} {elf : Elf}
    (h : MemorySet.fromElf s strampoline elf = some (s', set, ustackBase, entryPoint)) :
    ustackTop ustackBase % 8 = 0 := by
  obtain ⟨⟨bare, bareSet⟩, -, h⟩ := Option.bind_eq_some_iff.mp h
  obtain ⟨⟨mapped, withTramp⟩, -, h⟩ := Option.bind_eq_some_iff.mp h
  obtain ⟨⟨pushed, last, maxEndVpn⟩, -, h⟩ := Option.map_eq_some_iff.mp h
  simp only [Prod.mk.injEq] at h
  obtain ⟨-, -, rfl, -⟩ := h
  have aligned : usizeOfVirtAddr (maxEndVpn * 4096) % 2 ^ 3 = 0 := by
    rw [usizeOfVirtAddr]
    split
    · rw [Nat.or_mod_two_pow]
      have low : maxEndVpn * 4096 % 2 ^ 3 = 0 := by omega
      rw [low]
      decide
    · omega
  have zero : mainTid = 0 := rfl
  simp only [ustackTop, ustackBottomFromTid, zero]
  omega

/-- `ProcessControlBlock::exec`. -/
theorem Processes.Inv.exec (inv : Processes.Inv l tramp k)
    (above : Above layout l tramp) {elf : Elf}
    {args : List (List UInt8)} {sstatus trapHandler : Nat}
    (h : k.exec layout id elf args sstatus trapHandler = some k') : Processes.Inv l tramp k' := by
  obtain ⟨pcb, isPcb, h⟩ := Option.bind_eq_some_iff.mp h
  obtain ⟨old, isLive, h⟩ := Option.bind_eq_some_iff.mp h
  obtain ⟨⟨built, set, ustackBase, entryPoint⟩, isElf, h⟩ := Option.bind_eq_some_iff.mp h
  obtain ⟨dropped, isDropped, h⟩ := Option.bind_eq_some_iff.mp h
  obtain ⟨⟨phys, withRes⟩, isRes, h⟩ := Option.bind_eq_some_iff.mp h
  obtain ⟨trapCxPpn, isTrapCx, h⟩ := Option.bind_eq_some_iff.mp h
  obtain ⟨⟨mem, userSp, argvBase⟩, isArgv, rfl⟩ := Option.map_eq_some_iff.mp h
  obtain ⟨found, ok⟩ := inv.machine.live isLive
  have replaced := inv.machine.replaced above isLive isElf isDropped
  have changes : Changes l k.machine.phys dropped old.own set.own :=
    replaced.builds.replace ok.own_inUse replaced.drops
  -- the stack, the trap context and the arguments
  obtain ⟨step, has⟩ := allocUserRes_spec replaced.wfDropped isRes
  have framed' := step.framed replaced.framed
  obtain ⟨ppn, isEntry, isPpn⟩ := step.wf.trapCx framed' has
  rw [isTrapCx, Option.some.injEq] at isPpn
  subst isPpn
  have user : UserSpace l tramp phys withRes := ⟨step.wf, framed', above.small, above.low⟩
  have pushed := user.pushArgv (fromElf_ustackBase isElf) isArgv
  have writes :
      ∀ cx : TrapContext, DataWrites l phys withRes phys.mem (mem.setWords trapCxPpn 0 cx.words) :=
    fun cx =>
      pushed.trans (.setWords cx.words (mem_areaFrames isEntry) (by rw [cx.words_length]; omega))
  have below : id < k.next := by
    by_contra notBelow
    rw [(inv.fresh id (Nat.not_lt.mp notBelow)).1] at isPcb
    exact absurd isPcb (by simp)
  refine (inv.put k.next k.pidAllocator (Nat.le_refl _) below ?_ ((writes _).wf step.wf) framed'
    fun _ => has).setPcb _ below ?_ ⟨withRes, k.machine.put_spaces_self _ _ _, has⟩
  · rw [found]
    exact (changes.trans step.changes).trans ((writes _).changes step.wf)
  · exact (inv.process id pcb isPcb).1

/-! ## Runs -/

theorem Processes.Inv.step (inv : Processes.Inv l tramp k) (above : Above layout l tramp)
    {event : ProcessEvent File} (h : k.step layout event = some k') : Processes.Inv l tramp k' := by
  cases event with
  | new elf files sstatus trapHandler => exact inv.new above h
  | exec id elf args sstatus trapHandler => exact inv.exec above h
  | fork id =>
      obtain ⟨⟨pid, forked⟩, isForked, rfl⟩ := Option.map_eq_some_iff.mp h
      obtain ⟨_, _, _, _, _, isFork⟩ := inv.sysFork above isForked
      exact isFork.inv
  | store id vpn offset byte =>
      obtain ⟨machine, isStored, rfl⟩ := Option.map_eq_some_iff.mp h
      have stored := inv.machine.step above isStored
      obtain ⟨set, -, isStored⟩ := Option.bind_eq_some_iff.mp isStored
      obtain ⟨pte, -, isStored⟩ := Option.bind_eq_some_iff.mp isStored
      split at isStored
      · obtain rfl := Option.some.inj isStored
        exact ⟨stored, inv.endPpn, inv.fresh, inv.process, inv.unrecycled, inv.kernel⟩
      · exact absurd isStored (by simp)
  | files id fdTable =>
      obtain ⟨pcb, isPcb, rfl⟩ := Option.map_eq_some_iff.mp h
      obtain ⟨kstack, space⟩ := inv.process id pcb isPcb
      refine inv.setPcb { pcb with fdTable := fdTable } ?_ kstack space
      by_contra notBelow
      rw [(inv.fresh id (Nat.not_lt.mp notBelow)).1] at isPcb
      exact absurd isPcb (by simp)

theorem Processes.Inv.steps {events : List (ProcessEvent File)} (inv : Processes.Inv l tramp k)
    (above : Above layout l tramp) (h : k.steps layout events = some k') :
    Processes.Inv l tramp k' := by
  induction events generalizing k with
  | nil =>
      obtain rfl := Option.some.inj h
      exact inv
  | cons event events ih =>
      obtain ⟨next, taken, h⟩ := Option.bind_eq_some_iff.mp h
      exact ih (inv.step above taken) h

/-- The areas that are pushed for sections. -/
theorem pushSections_areas {sections : List (Nat × Nat × MapPermission)} (wf : set.Wf l tramp s)
    (h : set.pushSections s sections = some (s', set')) : ∀ area ∈ set'.areas, area ∈ set.areas ∨
      ∃ sec ∈ sections, area.endVpn = ceil (virtAddr sec.2.1) := by
  induction sections generalizing s set with
  | nil =>
      obtain ⟨-, rfl⟩ := Prod.mk.inj (Option.some.inj h)
      exact fun area mem => .inl mem
  | cons first sections ih =>
      obtain ⟨start, stop, permission⟩ := first
      obtain ⟨new, isNew, h⟩ := Option.bind_eq_some_iff.mp h
      obtain ⟨⟨pushed, withArea⟩, isPushed, h⟩ := Option.bind_eq_some_iff.mp h
      obtain ⟨⟨entries, isAreas⟩, grown⟩ := push_spec wf (newArea_spec isNew).1 isPushed
      intro area mem
      rcases ih grown.wf h area mem with isOld | ⟨sec, isSection, isEnd⟩
      · rw [isAreas] at isOld
        rcases List.mem_append.mp isOld with isOld | isLast
        · exact .inl isOld
        · refine .inr ⟨_, List.mem_cons_self, ?_⟩
          rw [MapArea.new] at isNew
          split at isNew
          · obtain rfl := Option.some.inj isNew
            rw [List.mem_singleton.mp isLast]
          · exact absurd isNew (by simp)
      · exact .inr ⟨sec, List.mem_cons_of_mem _ isSection, isEnd⟩

/-- The sections of the kernel end below `MEMORY_END`. -/
theorem kernelSections_le (layout : KernelLayout) :
    ∀ sec ∈ MemorySet.kernelSections layout, ceil (virtAddr sec.2.1) ≤ 0x80800 := by
  have inText := layout.inText
  have ordered := layout.ordered
  have fits := layout.fits
  have low : ∀ address ≤ 0x80800000, ceil (virtAddr address) ≤ 0x80800 := by
    intro address le
    have kept : virtAddr address ≤ address := Nat.mod_le _ _
    unfold ceil
    split <;> omega
  intro sec isSection
  apply low
  simp only [MemorySet.kernelSections, mmio, memoryEnd, List.map_cons, List.map_nil,
    List.cons_append, List.nil_append, List.mem_cons, List.not_mem_nil, or_false] at isSection
  rcases isSection with rfl | rfl | rfl | rfl | rfl | rfl <;> simp only <;> omega

/-- After `mm::init` the kernel has its sections, and there is no other address space. -/
theorem Machine.boot_spaces {mem : Memory} {machine : Machine}
    (h : Machine.boot mem layout = some machine) :
    (∀ id, machine.spaces (.user id) = none) ∧
    ∃ kernel, machine.spaces .kernel = some ⟨kernel, false⟩ ∧
      ∀ area ∈ kernel.areas, area.endVpn ≤ 0x80800 := by
  obtain ⟨-, above⟩ := Machine.inv_boot h
  obtain ⟨⟨phys, kernel⟩, done, rfl⟩ := Option.map_eq_some_iff.mp h
  obtain ⟨ok, -⟩ := initFrameAllocator_ok mem layout
  obtain ⟨⟨bare, bareSet⟩, isBare, done⟩ := Option.bind_eq_some_iff.mp done
  obtain ⟨⟨mapped, withTramp⟩, isMapped, done⟩ := Option.bind_eq_some_iff.mp done
  obtain ⟨noAreas, wf, -⟩ := mapTrampoline_spec ok above.small above.isTramp isBare isMapped
  refine ⟨by simp, kernel, by simp, fun area mem => ?_⟩
  rcases pushSections_areas wf done area mem with isOld | ⟨sec, isSection, isEnd⟩
  · rw [noAreas] at isOld
    exact absurd isOld List.not_mem_nil
  · rw [isEnd]
    exact kernelSections_le layout sec isSection

theorem Processes.inv_boot {mem : Memory} (h : Processes.boot mem layout = some k) :
    Processes.Inv (firstFrame layout) (trampolineFrame layout) k ∧
      Above layout (firstFrame layout) (trampolineFrame layout) := by
  obtain ⟨machine, booted, rfl⟩ := Option.map_eq_some_iff.mp h
  obtain ⟨inv, above⟩ := Machine.inv_boot booted
  obtain ⟨noUser, kernel, isKernel, sections⟩ := Machine.boot_spaces booted
  refine ⟨⟨inv, Machine.boot_endPpn booted, fun id _ => ⟨rfl, noUser id⟩, by simp, rfl,
    kernel, isKernel, ?_, Nat.zero_le _⟩, above⟩
  exact fun area mem => .inl (sections area mem)

end CoreFromDust.Os.Mm
