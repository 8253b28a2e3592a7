import CoreFromDust.Os.Mm.Proofs.SpaceFork

/-!
# All address spaces of the machine

`KERNEL_SPACE` and the address spaces of the processes share the physical memory and the frame
allocator. A run builds, changes, copies and drops them in any order while programs and the
kernel store to their pages. The invariant holds for each of them, and no frame belongs to two.
-/

namespace CoreFromDust.Os.Mm

/-- `KERNEL_SPACE`, or the address space of a process. -/
inductive SpaceId where
  | kernel
  | user (id : Nat)
  deriving DecidableEq, Repr

/-- An address space; that of a zombie has lost its areas. -/
structure Space where
  set : MemorySet
  zombie : Bool
  deriving DecidableEq, Repr

/-- The physical memory with the address spaces that exist. -/
structure Machine where
  phys : Phys
  spaces : SpaceId → Option Space

/-- What happens to address spaces. -/
inductive SpaceEvent where
  /-- `from_elf`, for a process that has no address space -/
  | fromElf (id : Nat) (elf : Elf)
  | insertFramedArea (id : SpaceId) (start stop : Nat) (permission : MapPermission)
  | removeAreaWithStartVpn (id : SpaceId) (startVpn : Nat)
  /-- `from_existed_user`, for a process `child` that has no address space -/
  | fromExistedUser (id child : Nat)
  /-- `recycle_data_pages`, when the process becomes a zombie -/
  | recycleDataPages (id : Nat)
  | drop (id : Nat)
  /-- the program, or the kernel through `translate`, writes to a page of the address space; of
  its own pages the kernel writes to those of its stacks -/
  | store (id : SpaceId) (vpn offset : Nat) (byte : UInt8)

namespace Machine

/-- The machine after `mm::init`. -/
def boot (mem : Memory) (layout : KernelLayout) : Option Machine :=
  (MemorySet.newKernel (.initFrameAllocator mem layout.ekernel) layout).map fun (phys, set) =>
    ⟨phys, Function.update (fun _ => none) .kernel (some ⟨set, false⟩)⟩

/-- The address space of the kernel or of a process that is not a zombie. -/
def live (k : Machine) (id : SpaceId) : Option MemorySet :=
  (k.spaces id).bind fun space => if space.zombie then none else some space.set

/-- The machine with another address space under the name. -/
def put (k : Machine) (phys : Phys) (id : SpaceId) (space : Option Space) : Machine :=
  ⟨phys, Function.update k.spaces id space⟩

@[simp] theorem put_phys (k : Machine) (phys : Phys) (id : SpaceId) (space : Option Space) :
    (k.put phys id space).phys = phys := rfl

@[simp] theorem put_spaces_self (k : Machine) (phys : Phys) (id : SpaceId) (space : Option Space) :
    (k.put phys id space).spaces id = space := Function.update_self _ _ _

theorem put_spaces_of_ne (k : Machine) (phys : Phys) {id other : SpaceId} (space : Option Space)
    (differ : other ≠ id) : (k.put phys id space).spaces other = k.spaces other :=
  Function.update_of_ne differ _ _

/-- One step; `none` is a panic or a step that cannot be taken. -/
def step (layout : KernelLayout) (k : Machine) : SpaceEvent → Option Machine
  | .fromElf id elf =>
      if k.spaces (.user id) = none then
        (MemorySet.fromElf k.phys layout.strampoline elf).map fun (phys, set, _) =>
          k.put phys (.user id) (some ⟨set, false⟩)
      else none
  | .insertFramedArea id start stop permission =>
      (k.live id).bind fun set =>
        (set.insertFramedArea k.phys (virtAddr start) (virtAddr stop) permission).map
          fun (phys, set) =>
          k.put phys id (some ⟨set, false⟩)
  | .removeAreaWithStartVpn id startVpn =>
      (k.live id).bind fun set =>
        (set.removeAreaWithStartVpn k.phys startVpn).map fun (phys, set) =>
          k.put phys id (some ⟨set, false⟩)
  | .fromExistedUser id child =>
      if k.spaces (.user child) = none then
        (k.live (.user id)).bind fun set =>
          (MemorySet.fromExistedUser k.phys layout.strampoline set).map fun (phys, copy) =>
            k.put phys (.user child) (some ⟨copy, false⟩)
      else none
  | .recycleDataPages id =>
      (k.live (.user id)).bind fun set =>
        (set.recycleDataPages k.phys).map fun (phys, set) =>
          k.put phys (.user id) (some ⟨set, true⟩)
  | .drop id =>
      (k.spaces (.user id)).bind fun space =>
        (space.set.drop k.phys).map fun phys => k.put phys (.user id) none
  | .store id vpn offset byte =>
      (k.live id).bind fun set =>
        (set.translate k.phys.mem vpn).bind fun pte =>
          if offset < 4096 ∧ (id = .kernel → set.areas.any fun area =>
              area.mapType = .framed ∧ area.startVpn ≤ vpn ∧ vpn < area.endVpn) then
            some { k with phys :=
              { k.phys with mem := k.phys.mem.writeBytes pte.ppn offset [byte] } }
          else none

/-- The machine after a list of events. -/
def steps (layout : KernelLayout) (k : Machine) : List SpaceEvent → Option Machine
  | [] => some k
  | event :: events => (k.step layout event).bind fun k => k.steps layout events

end Machine

/-- A kernel of two pages, with 30 frames of memory above it. -/
def tinyLayout : KernelLayout where
  stext := 0x807e0000
  etext := 0x807e1000
  srodata := 0x807e1000
  erodata := 0x807e1000
  sdata := 0x807e1000
  edata := 0x807e1001
  sbssWithStack := 0x807e2000
  ebss := 0x807e2000
  ekernel := 0x807e2000
  strampoline := 0x807e0000
  inText := by decide
  ordered := by decide
  fits := by decide

/-! ## The invariant -/

/-- The frames of an address space that may exist. -/
def ownOf : Option Space → List Nat
  | none => []
  | some space => space.set.own

/-- An address space is well-formed; of that of a zombie the tables are left. -/
structure SpaceOk (l tramp : Nat) (phys : Phys) (id : SpaceId) (space : Space) : Prop where
  wf : space.zombie = false → space.set.Wf l tramp phys
  remains : space.zombie = true → space.set.areas = [] ∧ space.set.pageTable.frames.Nodup ∧
    ∀ ppn ∈ space.set.pageTable.frames, phys.InUse l ppn
  framed : id ≠ .kernel → space.set.Framed

/-- Every address space is in order and no two have a frame in common. -/
structure Machine.Inv (l tramp : Nat) (k : Machine) : Prop where
  ok : k.phys.Ok l
  space : ∀ id space, k.spaces id = some space → SpaceOk l tramp k.phys id space
  disjoint : ∀ id id' space space', id ≠ id' → k.spaces id = some space →
    k.spaces id' = some space' → ∀ ppn ∈ space.set.own, ppn ∉ space'.set.own

section Inv

open SpaceWf

variable {l tramp : Nat} {k k' : Machine} {id : SpaceId} {space : Space} {set : MemorySet}
  {phys phys' : Phys}

theorem own_of_areas_nil (empty : set.areas = []) : set.own = set.pageTable.frames := by
  simp [own, areaFrames, empty]

theorem SpaceOk.own_inUse (ok : SpaceOk l tramp phys id space) :
    ∀ ppn ∈ space.set.own, phys.InUse l ppn := by
  cases isZombie : space.zombie with
  | false => exact (ok.wf isZombie).own_inUse
  | true =>
      obtain ⟨empty, -, inUse⟩ := ok.remains isZombie
      rwa [own_of_areas_nil empty]

theorem SpaceOk.own_nodup (ok : SpaceOk l tramp phys id space) : space.set.own.Nodup := by
  cases isZombie : space.zombie with
  | false => exact (ok.wf isZombie).own_nodup
  | true =>
      obtain ⟨empty, nodup, -⟩ := ok.remains isZombie
      rwa [own_of_areas_nil empty]

/-- What is done to other frames leaves an address space in order. -/
theorem SpaceOk.other (ok : SpaceOk l tramp phys id space) {frames frames' : List Nat}
    (changes : Changes l phys phys' frames frames')
    (disjoint : ∀ ppn ∈ space.set.own, ppn ∉ frames) :
    SpaceOk l tramp phys' id space := by
  refine ⟨fun alive => (ok.wf alive).other changes disjoint, fun isZombie => ?_, ok.framed⟩
  obtain ⟨empty, nodup, inUse⟩ := ok.remains isZombie
  rw [own_of_areas_nil empty] at disjoint
  exact ⟨empty, nodup,
    fun ppn mem => (changes.inUse ppn).mpr (.inl ⟨inUse ppn mem, disjoint ppn mem⟩)⟩

theorem mem_ownOf {space : Option Space} {ppn : Nat} :
    ppn ∈ ownOf space ↔ ∃ found, space = some found ∧ ppn ∈ found.set.own := by
  cases space <;> simp [ownOf]

theorem Machine.Inv.ownOf_disjoint (inv : Machine.Inv l tramp k) {id' : SpaceId} {space' : Space}
    (differ : id' ≠ id) (found : k.spaces id' = some space') :
    ∀ ppn ∈ space'.set.own, ppn ∉ ownOf (k.spaces id) := by
  intro ppn mem isOther
  obtain ⟨space, isSpace, mem'⟩ := mem_ownOf.mp isOther
  exact inv.disjoint id' id space' space differ found isSpace ppn mem mem'

theorem Machine.Inv.ownOf_inUse (inv : Machine.Inv l tramp k) {ppn : Nat}
    (mem : ppn ∈ ownOf (k.spaces id)) : k.phys.InUse l ppn := by
  obtain ⟨space, isSpace, mem⟩ := mem_ownOf.mp mem
  exact (inv.space id space isSpace).own_inUse ppn mem

/-- One address space changes. -/
theorem Machine.Inv.put (inv : Machine.Inv l tramp k) (id : SpaceId) (new : Option Space)
    (changes : Changes l k.phys phys' (ownOf (k.spaces id)) (ownOf new))
    (newOk : ∀ space, new = some space → SpaceOk l tramp phys' id space) :
    Machine.Inv l tramp (k.put phys' id new) := by
  have others : ∀ id' space', id' ≠ id → (k.put phys' id new).spaces id' = some space' →
      k.spaces id' = some space' := by
    intro id' space' differ found
    rwa [Machine.put_spaces_of_ne _ _ _ differ] at found
  have self := k.put_spaces_self phys' id new
  have apart : ∀ id' space' space, id' ≠ id → k.spaces id' = some space' → new = some space →
      ∀ ppn ∈ space'.set.own, ppn ∉ space.set.own := by
    intro id' space' space differ found isNew ppn mem
    have used := (inv.space id' space' found).own_inUse ppn mem
    have notOwn := changes.not_mem used (inv.ownOf_disjoint differ found ppn mem)
    rwa [isNew] at notOwn
  refine ⟨changes.ok, ?_, ?_⟩
  · intro id' space' found
    by_cases same : id' = id
    · subst same
      rw [self] at found
      exact newOk space' found
    · have old := others id' space' same found
      exact (inv.space id' space' old).other changes (inv.ownOf_disjoint same old)
  · intro one two space space' differ foundOne foundTwo ppn mem memTwo
    by_cases isOne : one = id
    · subst isOne
      rw [self] at foundOne
      have old := others two space' differ.symm foundTwo
      exact apart two space' space differ.symm old foundOne ppn memTwo mem
    · have old := others one space isOne foundOne
      by_cases isTwo : two = id
      · subst isTwo
        rw [self] at foundTwo
        exact apart one space space' isOne old foundTwo ppn mem memTwo
      · exact inv.disjoint one two space space' differ old
          (others two space' isTwo foundTwo) ppn mem memTwo

theorem Machine.Inv.live (inv : Machine.Inv l tramp k) (found : k.live id = some set) :
    k.spaces id = some ⟨set, false⟩ ∧ SpaceOk l tramp k.phys id ⟨set, false⟩ := by
  obtain ⟨⟨set', zombie⟩, isSpace, found⟩ := Option.bind_eq_some_iff.mp found
  split at found
  · exact absurd found (by simp)
  · next alive =>
    obtain rfl := Option.some.inj found
    have isAlive : zombie = false := by simpa using alive
    subst isAlive
    exact ⟨isSpace, inv.space id _ isSpace⟩

/-- The frames that the machine hands out start above the trampoline. -/
structure Above (layout : KernelLayout) (l tramp : Nat) : Prop where
  isTramp : pageAt (physAddr layout.strampoline) = some tramp
  low : tramp < l
  small : tramp < 2 ^ 44

/-- Writes to the data frames of an address space, or to frames that are not in use, leave the
address spaces in order. -/
theorem Machine.Inv.write (inv : Machine.Inv l tramp k) (found : k.spaces id = some ⟨set, false⟩)
    {mem : Memory}
    (same : ∀ ppn, k.phys.InUse l ppn → ppn ∉ areaFrames set.areas → SameFrame k.phys.mem mem ppn) :
    Machine.Inv l tramp { k with phys := { k.phys with mem := mem } } := by
  have ok := inv.space id _ found
  have wf : set.Wf l tramp k.phys := ok.wf rfl
  have written := wf.write fun ppn table => same ppn (wf.table.inUse ppn table) fun data =>
    wf.notTable ppn data table
  have changes : Changes l k.phys { k.phys with mem := mem } set.own set.own := by
    refine .write wf.table.ok wf.own_inUse fun ppn used notOwn => same ppn used fun data => ?_
    exact notOwn (mem_own.mpr (.inr data))
  have put := inv.put id (some ⟨set, false⟩) (by rw [found]; exact changes) (by
    rintro space isSpace
    obtain rfl := Option.some.inj isSpace
    exact ⟨fun _ => written, by simp, ok.framed⟩)
  rwa [Machine.put, ← found, Function.update_eq_self] at put

variable {layout : KernelLayout}

/-- A store writes to the data frames of the address space, or to frames that are not in use. -/
theorem Machine.Inv.store (inv : Machine.Inv l tramp k) (above : Above layout l tramp)
    {vpn offset : Nat} {byte : UInt8} (h : k.step layout (.store id vpn offset byte) = some k') :
    ∃ set mem, k.spaces id = some ⟨set, false⟩ ∧
    k' = { k with phys := { k.phys with mem := mem } } ∧
      ∀ ppn, k.phys.InUse l ppn → ppn ∉ areaFrames set.areas → SameFrame k.phys.mem mem ppn := by
  obtain ⟨set, isLive, h⟩ := Option.bind_eq_some_iff.mp h
  obtain ⟨pte, isPte, h⟩ := Option.bind_eq_some_iff.mp h
  obtain ⟨found, ok⟩ := inv.live isLive
  have wf : set.Wf l tramp k.phys := ok.wf rfl
  split at h
  · next allowed =>
    obtain rfl := Option.some.inj h
    refine ⟨set, _, found, rfl, fun other used notData i below => ?_⟩
    refine Memory.bytes_writeBytes_other _ [byte] (by rw [List.length_singleton]; omega) ?_ below
    by_cases isKernel : id = .kernel
    · obtain ⟨area, mem, inArea⟩ := List.any_eq_true.mp (allowed.2 isKernel)
      simp only [Bool.decide_and, Bool.and_eq_true, decide_eq_true_eq] at inArea
      obtain ⟨ppn, isEntry, lookup⟩ := wf.framedPage mem inArea.1 inArea.2
      obtain ⟨isFrame, -, small⟩ := wf.entry_inUse isEntry
      rw [PageTable.lookup, Option.filter_eq_some_iff] at lookup
      have isPte : set.pageTable.translate k.phys.mem vpn = some pte := isPte
      rw [lookup.1, Option.some.injEq] at isPte
      rw [← isPte, PageTableEntry.ppn_new _ small]
      rintro rfl
      exact notData isFrame
    · exact wf.ne_target (ok.framed isKernel) above.small above.low isPte used notData
  · exact absurd h (by simp)

/-- Every step keeps the address spaces in order, and the end of the memory. -/
theorem Machine.Inv.step_spec (inv : Machine.Inv l tramp k) (above : Above layout l tramp)
    {event : SpaceEvent} (h : k.step layout event = some k') :
    Machine.Inv l tramp k' ∧ k'.phys.allocator.endPpn = k.phys.allocator.endPpn := by
  cases event with
  | fromElf id elf =>
      simp only [Machine.step] at h
      split at h
      · next free =>
        obtain ⟨⟨phys, set, base, entry⟩, done, rfl⟩ := Option.map_eq_some_iff.mp h
        obtain ⟨wf, framed, changes⟩ := fromElf_spec inv.ok above.small above.low above.isTramp done
        refine ⟨inv.put _ _ (by rw [free]; exact changes) ?_, changes.endPpn⟩
        rintro space isSpace
        obtain rfl := Option.some.inj isSpace
        exact ⟨fun _ => wf, by simp, fun _ => framed⟩
      · exact absurd h (by simp)
  | insertFramedArea id start stop permission =>
      obtain ⟨set, isLive, h⟩ := Option.bind_eq_some_iff.mp h
      obtain ⟨⟨phys, set'⟩, done, rfl⟩ := Option.map_eq_some_iff.mp h
      obtain ⟨found, ok⟩ := inv.live isLive
      have inserted := insertFramedArea_step (ok.wf rfl) done
      refine ⟨inv.put _ _ (by rw [found]; exact inserted.changes) ?_, inserted.changes.endPpn⟩
      rintro space isSpace
      obtain rfl := Option.some.inj isSpace
      exact ⟨fun _ => inserted.wf, by simp, fun isUser => inserted.framed (ok.framed isUser)⟩
  | removeAreaWithStartVpn id startVpn =>
      obtain ⟨set, isLive, h⟩ := Option.bind_eq_some_iff.mp h
      obtain ⟨⟨phys, table, areas⟩, done, rfl⟩ := Option.map_eq_some_iff.mp h
      obtain ⟨found, ok⟩ := inv.live isLive
      obtain ⟨rfl, sublist, shrunk⟩ := removeArea_spec (ok.wf rfl) done
      refine ⟨inv.put _ _ (by rw [found]; exact shrunk.changes) ?_, shrunk.changes.endPpn⟩
      rintro space isSpace
      obtain rfl := Option.some.inj isSpace
      exact ⟨fun _ => shrunk.wf, by simp,
        fun isUser other mem => ok.framed isUser other (sublist.subset mem)⟩
  | fromExistedUser id child =>
      simp only [Machine.step] at h
      split at h
      · next free =>
        obtain ⟨set, isLive, h⟩ := Option.bind_eq_some_iff.mp h
        obtain ⟨⟨phys, copy⟩, done, rfl⟩ := Option.map_eq_some_iff.mp h
        obtain ⟨found, ok⟩ := inv.live isLive
        obtain ⟨-, wf, framed, changes⟩ := fromExistedUser_spec (ok.wf rfl) (ok.framed (by simp))
          above.small above.isTramp done
        refine ⟨inv.put _ _ (by rw [free]; exact changes) ?_, changes.endPpn⟩
        rintro space isSpace
        obtain rfl := Option.some.inj isSpace
        exact ⟨fun _ => wf, by simp, fun _ => framed⟩
      · exact absurd h (by simp)
  | recycleDataPages id =>
      obtain ⟨set, isLive, h⟩ := Option.bind_eq_some_iff.mp h
      obtain ⟨⟨phys, set'⟩, done, rfl⟩ := Option.map_eq_some_iff.mp h
      obtain ⟨found, ok⟩ := inv.live isLive
      have wf : set.Wf l tramp k.phys := ok.wf rfl
      obtain ⟨recycled, isRecycled, changes⟩ := recycleDataPages_spec wf
      rw [done] at isRecycled
      obtain ⟨rfl, rfl⟩ := Prod.mk.inj (Option.some.inj isRecycled)
      refine ⟨inv.put _ _ ?_ ?_, changes.endPpn⟩
      · rw [found]
        refine changes.congr (fun _ => Iff.rfl) fun ppn => ?_
        rw [ownOf, own_of_areas_nil rfl]
      · rintro space isSpace
        obtain rfl := Option.some.inj isSpace
        refine ⟨by simp,
          fun _ => ⟨rfl, wf.table.tree.nodup, fun ppn mem => changes.mem_inUse mem⟩, ?_⟩
        exact fun _ other mem => absurd mem List.not_mem_nil
  | drop id =>
      obtain ⟨space, found, h⟩ := Option.bind_eq_some_iff.mp h
      obtain ⟨phys, done, rfl⟩ := Option.map_eq_some_iff.mp h
      have ok := inv.space _ space found
      obtain ⟨dropped, isDropped, changes⟩ := drop_spec inv.ok ok.own_nodup ok.own_inUse
      rw [done, Option.some.injEq] at isDropped
      subst isDropped
      exact ⟨inv.put _ none (by rw [found]; exact changes) (by simp), changes.endPpn⟩
  | store id vpn offset byte =>
      obtain ⟨set, mem, found, rfl, same⟩ := inv.store above h
      exact ⟨inv.write found same, rfl⟩

/-- The first frame that is handed out. -/
def firstFrame (layout : KernelLayout) : Nat := ceil (physAddr layout.ekernel)

/-- The frame of the trampoline. -/
def trampolineFrame (layout : KernelLayout) : Nat := floor (physAddr layout.strampoline)

/-- The kernel fits, so its addresses are kept. -/
theorem physAddr_of_fits {address : Nat} (le : address ≤ layout.ekernel) :
    physAddr address = address := by
  have fits := layout.fits
  exact Nat.mod_eq_of_lt (by omega)

theorem strampoline_le (layout : KernelLayout) : layout.strampoline < layout.ekernel := by
  have inText := layout.inText
  have ordered := layout.ordered
  omega

theorem initFrameAllocator_ok (mem : Memory) (layout : KernelLayout) :
    (Phys.initFrameAllocator mem layout.ekernel).Ok (firstFrame layout) ∧
      (Phys.initFrameAllocator mem layout.ekernel).allocator.endPpn = 0x80800 := by
  have fits := layout.fits
  have stop : floor (physAddr 0x80800000) = 0x80800 := by decide
  refine ⟨⟨Lib.FreeStack.Ok.new _, ?_, ?_⟩, stop⟩
  · change ceil (physAddr layout.ekernel) ≤ floor (physAddr 0x80800000)
    rw [stop, physAddr_of_fits (Nat.le_refl _), ceil]
    split <;> omega
  · simp [Phys.initFrameAllocator, StackFrameAllocator.init, floor, physAddr]

/-- `new_kernel` maps the trampoline, which starts a page. -/
theorem newKernel_above {phys phys' : Phys} {kernel : MemorySet}
    (h : MemorySet.newKernel phys layout = some (phys', kernel)) :
    Above layout (firstFrame layout) (trampolineFrame layout) := by
  obtain ⟨⟨bare, bareSet⟩, -, h⟩ := Option.bind_eq_some_iff.mp h
  obtain ⟨mapped, isMapped, -⟩ := Option.bind_eq_some_iff.mp h
  obtain ⟨vpn, -, isMapped⟩ := Option.bind_eq_some_iff.mp isMapped
  obtain ⟨ppn, isPpn, -⟩ := Option.bind_eq_some_iff.mp isMapped
  have fits := layout.fits
  have below := strampoline_le layout
  have kept : physAddr layout.ekernel = layout.ekernel := physAddr_of_fits (Nat.le_refl _)
  have kept' : physAddr layout.strampoline = layout.strampoline := physAddr_of_fits below.le
  rw [pageAt] at isPpn
  split at isPpn
  · next start =>
    rw [kept', pageOffset] at start
    refine ⟨by rw [pageAt, kept', pageOffset, if_pos start, trampolineFrame, kept'], ?_, ?_⟩
    · rw [firstFrame, trampolineFrame, kept, kept', ceil, floor]
      split <;> omega
    · rw [trampolineFrame, kept', floor]
      omega
  · exact absurd isPpn (by simp)

theorem Machine.inv_boot {mem : Memory} (h : Machine.boot mem layout = some k) :
    Machine.Inv (firstFrame layout) (trampolineFrame layout) k ∧
      Above layout (firstFrame layout) (trampolineFrame layout) := by
  obtain ⟨⟨phys, set⟩, done, rfl⟩ := Option.map_eq_some_iff.mp h
  have above := newKernel_above done
  have ok := (initFrameAllocator_ok mem layout).1
  obtain ⟨wf, changes⟩ := newKernel_spec ok above.small above.isTramp done
  refine ⟨?_, above⟩
  have empty : Machine.Inv (firstFrame layout) (trampolineFrame layout)
      ⟨.initFrameAllocator mem layout.ekernel, fun _ => none⟩ :=
    ⟨ok, by simp, by simp⟩
  refine empty.put .kernel (some ⟨set, false⟩) changes ?_
  rintro space isSpace
  obtain rfl := Option.some.inj isSpace
  exact ⟨fun _ => wf, by simp, by simp⟩

theorem Machine.boot_endPpn {mem : Memory} (h : Machine.boot mem layout = some k) :
    k.phys.allocator.endPpn = 0x80800 := by
  obtain ⟨⟨phys, set⟩, done, rfl⟩ := Option.map_eq_some_iff.mp h
  have above := newKernel_above done
  obtain ⟨ok, endPpn⟩ := initFrameAllocator_ok mem layout
  obtain ⟨-, changes⟩ := newKernel_spec ok above.small above.isTramp done
  exact changes.endPpn.trans endPpn

theorem Machine.Inv.step (inv : Machine.Inv l tramp k) (above : Above layout l tramp)
    {event : SpaceEvent} (h : k.step layout event = some k') : Machine.Inv l tramp k' :=
  (inv.step_spec above h).1

theorem Machine.Inv.steps {events : List SpaceEvent} (inv : Machine.Inv l tramp k)
    (above : Above layout l tramp) (h : k.steps layout events = some k') :
    Machine.Inv l tramp k' := by
  induction events generalizing k with
  | nil =>
      obtain rfl := Option.some.inj h
      exact inv
  | cons event events ih =>
      obtain ⟨next, taken, h⟩ := Option.bind_eq_some_iff.mp h
      exact ih (inv.step above taken) h

theorem Machine.Inv.steps_endPpn {events : List SpaceEvent} (inv : Machine.Inv l tramp k)
    (above : Above layout l tramp) (h : k.steps layout events = some k') :
    k'.phys.allocator.endPpn = k.phys.allocator.endPpn := by
  induction events generalizing k with
  | nil =>
      obtain rfl := Option.some.inj h
      rfl
  | cons event events ih =>
      obtain ⟨next, taken, h⟩ := Option.bind_eq_some_iff.mp h
      obtain ⟨invNext, same⟩ := inv.step_spec above taken
      exact (ih invNext h).trans same

end Inv

end CoreFromDust.Os.Mm
