import CoreFromDust.Os.Mm.Proofs.UserWrites

/-!
# The invariant of processes and their memory

Every process has an address space with a page for its trap context, and the areas of
`KERNEL_SPACE` are the sections of the kernel and one stack for each id that has been handed out.
-/

namespace CoreFromDust.Os.Mm

open SpaceWf

/-- The page of the trap context of the first thread. -/
def trapCxVpn : Nat := floor (virtAddr trapContextBase)

theorem trapCxVpn_eq : trapCxVpn = 2 ^ 27 - 2 := by decide

/-- An area of the address space has the page of the trap context. -/
def MemorySet.HasTrapCx (set : MemorySet) : Prop := ∃ area ∈ set.areas, area.Has trapCxVpn

/-- The area of the kernel stack `i`, in pages. -/
def IsStack (i : Nat) (area : MapArea) : Prop :=
  area.startVpn + 3 * i = 2 ^ 27 - 3 ∧ area.endVpn = area.startVpn + 2

/-- The areas of `KERNEL_SPACE` are sections that end below `MEMORY_END` and the stacks with the
ids below `n`, each of which has two frames. -/
structure KernelAreas (n : Nat) (kernel : MemorySet) : Prop where
  place : ∀ area ∈ kernel.areas, area.endVpn ≤ 0x80800 ∨ ∃ i < n, IsStack i area
  count : 2 * n ≤ (areaFrames kernel.areas).length

/-- The processes, their address spaces and the kernel stacks are in order. -/
structure Processes.Inv {File : Type} (l tramp : Nat) (k : Processes File) : Prop where
  machine : Machine.Inv l tramp k.machine
  endPpn : k.machine.phys.allocator.endPpn = 0x80800
  fresh : ∀ id, k.next ≤ id → k.pcbs id = none ∧ k.machine.spaces (.user id) = none
  process : ∀ id pcb, k.pcbs id = some pcb → pcb.kstack < k.kstackAllocator.current ∧
    ∃ set, k.machine.spaces (.user id) = some ⟨set, false⟩ ∧ set.HasTrapCx
  unrecycled : k.kstackAllocator.recycled = []
  kernel : ∃ set, k.machine.spaces .kernel = some ⟨set, false⟩ ∧
    KernelAreas k.kstackAllocator.current set

theorem Machine.live_eq_some {k : Machine} {id : SpaceId} {set : MemorySet} :
    k.live id = some set ↔ k.spaces id = some ⟨set, false⟩ := by
  rw [Machine.live]
  cases found : k.spaces id with
  | none => simp
  | some space =>
      obtain ⟨set', zombie⟩ := space
      cases zombie <;> simp

section Inv

variable {File : Type} {l tramp : Nat} {layout : KernelLayout} {k k' : Processes File} {id : Nat}
  {set set' : MemorySet} {s s' phys : Phys} {mem : Memory}

/-! ## Changes of one part -/

/-- The address space of a process is put in place. -/
theorem Processes.Inv.put (inv : Processes.Inv l tramp k) (n : Nat)
    (pidAllocator : RecycleAllocator) (le : k.next ≤ n) (below : id < n)
    (changes : Changes l k.machine.phys phys (ownOf (k.machine.spaces (.user id))) set.own)
    (wf : set.Wf l tramp phys) (framed : set.Framed) (trapCx : (k.pcbs id).isSome → set.HasTrapCx) :
    Processes.Inv l tramp { k with
      machine := k.machine.put phys (.user id) (some ⟨set, false⟩)
      next := n
      pidAllocator := pidAllocator } where
  machine := by
    refine inv.machine.put (.user id) (some ⟨set, false⟩) changes ?_
    rintro space isSpace
    obtain rfl := Option.some.inj isSpace
    exact ⟨fun _ => wf, by simp, fun _ => framed⟩
  endPpn := changes.endPpn.trans inv.endPpn
  fresh := by
    intro other above
    have differ : SpaceId.user other ≠ .user id := by
      rintro same
      cases same
      exact absurd below (Nat.not_lt.mpr above)
    simp only [Machine.put_spaces_of_ne _ _ _ differ]
    exact inv.fresh other (Nat.le_trans le above)
  process := by
    intro other pcb isPcb
    obtain ⟨kstack, otherSet, found, has⟩ := inv.process other pcb isPcb
    refine ⟨kstack, ?_⟩
    by_cases same : other = id
    · subst same
      exact ⟨set, k.machine.put_spaces_self _ _ _, trapCx (by rw [isPcb]; rfl)⟩
    · have differ : SpaceId.user other ≠ .user id := by simpa using same
      exact ⟨otherSet, (k.machine.put_spaces_of_ne _ _ differ).trans found, has⟩
  unrecycled := inv.unrecycled
  kernel := by
    obtain ⟨kernel, found, areas⟩ := inv.kernel
    exact ⟨kernel, (k.machine.put_spaces_of_ne _ _ (by simp)).trans found, areas⟩

/-- Data of an address space of a process is written. -/
theorem Processes.Inv.withMem (inv : Processes.Inv l tramp k)
    (found : k.machine.spaces (.user id) = some ⟨set, false⟩)
    (writes : DataWrites l k.machine.phys set k.machine.phys.mem mem) :
    Processes.Inv l tramp { k with machine := k.machine.withMem mem } :=
  ⟨inv.machine.write found writes, inv.endPpn, inv.fresh, inv.process, inv.unrecycled, inv.kernel⟩

/-- A process is put in place, or changed. -/
theorem Processes.Inv.setPcb (inv : Processes.Inv l tramp k) (pcb : Pcb File) (below : id < k.next)
    (kstack : pcb.kstack < k.kstackAllocator.current)
    (space : ∃ set, k.machine.spaces (.user id) = some ⟨set, false⟩ ∧ set.HasTrapCx) :
    Processes.Inv l tramp { k with pcbs := Function.update k.pcbs id (some pcb) } where
  machine := inv.machine
  endPpn := inv.endPpn
  fresh := by
    intro other above
    have differ : other ≠ id := by
      rintro rfl
      exact absurd below (Nat.not_lt.mpr above)
    simp only [Function.update_of_ne differ]
    exact inv.fresh other above
  process := by
    intro other pcb' isPcb
    by_cases same : other = id
    · subst same
      simp only [Function.update_self, Option.some.injEq] at isPcb
      subst isPcb
      exact ⟨kstack, space⟩
    · simp only [Function.update_of_ne same] at isPcb
      exact inv.process other pcb' isPcb
  unrecycled := inv.unrecycled
  kernel := inv.kernel

/-! ## Kernel stacks -/

theorem length_le_of_inUse (ok : s.Ok l) {frames : List Nat} (nodup : frames.Nodup)
    (inUse : ∀ ppn ∈ frames, s.InUse l ppn) : frames.length ≤ s.allocator.endPpn := by
  have subset : frames ⊆ List.range s.allocator.endPpn := by
    intro ppn mem
    exact List.mem_range.mpr ((inUse ppn mem).lt ok).2.1
  have length := (List.subperm_of_subset nodup subset).length_le
  rwa [List.length_range] at length

/-- There are few kernel stacks, since each has frames. -/
theorem KernelAreas.few {n : Nat} (areas : KernelAreas n set) (wf : set.Wf l tramp s)
    (endPpn : s.allocator.endPpn = 0x80800) : n < 2 ^ 20 := by
  have length := length_le_of_inUse wf.table.ok wf.nodup wf.inUse
  have count := areas.count
  omega

theorem kernelStackPosition_eq {i : Nat} (few : i < 2 ^ 20) :
    virtAddr (kernelStackPosition i).1 = (2 ^ 27 - 3 - 3 * i) * 4096 ∧
      virtAddr (kernelStackPosition i).2 = (2 ^ 27 - 1 - 3 * i) * 4096 := by
  simp only [kernelStackPosition, wrappingSub, trampoline, virtAddr]
  omega

/-- The pages of a kernel stack. -/
theorem newStack_eq {i : Nat} (few : i < 2 ^ 20) :
    MapArea.new (virtAddr (kernelStackPosition i).1) (virtAddr (kernelStackPosition i).2) .framed
      ⟨true, true, false, false⟩ =
      some ⟨2 ^ 27 - 3 - 3 * i, 2 ^ 27 - 1 - 3 * i, [], .framed, ⟨true, true, false, false⟩⟩ := by
  obtain ⟨bottom, top⟩ := kernelStackPosition_eq few
  have start : floor (virtAddr (kernelStackPosition i).1) = 2 ^ 27 - 3 - 3 * i := by
    rw [bottom, floor]
    omega
  have stop : ceil (virtAddr (kernelStackPosition i).2) = 2 ^ 27 - 1 - 3 * i := by
    rw [top, ceil, if_neg (by omega)]
    omega
  rw [MapArea.new, start, stop, if_pos (by omega)]

theorem newStack_spec {i : Nat} (few : i < 2 ^ 20) {area : MapArea}
    (h : MapArea.new (virtAddr (kernelStackPosition i).1)
      (virtAddr (kernelStackPosition i).2) .framed ⟨true, true, false, false⟩ = some area) :
    IsStack i area ∧ area.mapType = .framed := by
  rw [newStack_eq few] at h
  obtain rfl := Option.some.inj h
  simp only [IsStack, and_true]
  omega

/-- What `kstack_alloc` does. -/
structure StackAdded {File : Type} (l tramp : Nat) (k k' : Processes File)
    (kstack : Nat) : Prop where
  inv : Processes.Inv l tramp k'
  kstack : kstack = k.kstackAllocator.current
  current : k'.kstackAllocator.current = k.kstackAllocator.current + 1
  pcbs : k'.pcbs = k.pcbs
  next : k'.next = k.next
  pids : k'.pidAllocator = k.pidAllocator
  spaces : ∀ id, k'.machine.spaces (.user id) = k.machine.spaces (.user id)
  kept : ∀ id space, k.machine.spaces (.user id) = some space → ∀ ppn ∈ space.set.own,
    SameFrame k.machine.phys.mem k'.machine.phys.mem ppn

theorem Processes.Inv.alloc_eq (inv : Processes.Inv l tramp k) :
    k.kstackAllocator.alloc =
      (k.kstackAllocator.current, ⟨k.kstackAllocator.current + 1, []⟩) := by
  rw [RecycleAllocator.alloc, inv.unrecycled]

theorem Processes.Inv.kstackAlloc (inv : Processes.Inv l tramp k) {kstack : Nat}
    (h : k.kstackAlloc = some (kstack, k')) : StackAdded l tramp k k' kstack := by
  obtain ⟨kernel, isLive, h⟩ := Option.bind_eq_some_iff.mp h
  rw [inv.alloc_eq] at h
  obtain ⟨⟨phys, kernel'⟩, done, h⟩ := Option.map_eq_some_iff.mp h
  simp only [Prod.mk.injEq] at h
  obtain ⟨rfl, rfl⟩ := h
  obtain ⟨found, ok⟩ := inv.machine.live isLive
  have wf : kernel.Wf l tramp k.machine.phys := ok.wf rfl
  obtain ⟨kernel'', found', areas⟩ := inv.kernel
  rw [found] at found'
  obtain rfl : kernel = kernel'' := congrArg Space.set (Option.some.inj found')
  have few := areas.few wf inv.endPpn
  obtain ⟨⟨area, entries, isArea, isAreas⟩, grown⟩ := insertFramedArea_spec wf done
  obtain ⟨isStack, isFramed⟩ := newStack_spec few isArea
  -- the new area has a frame for each of its two pages
  have shape := grown.wf.shape { area with dataFrames := entries } (by rw [isAreas]; simp)
  have keys := congrArg List.length shape.keys
  have count : entries.length = 2 := by
    simp only [isFramed, if_true, MapArea.pages, List.length_map, List.length_range'] at keys
    have size := isStack.2
    omega
  have areas' : KernelAreas (k.kstackAllocator.current + 1) kernel' := by
    refine ⟨?_, ?_⟩
    · intro other mem
      rw [isAreas] at mem
      rcases List.mem_append.mp mem with isOld | isLast
      · rcases areas.place other isOld with low | ⟨i, below, isStack⟩
        · exact .inl low
        · exact .inr ⟨i, by omega, isStack⟩
      · rw [List.mem_singleton.mp isLast]
        exact .inr ⟨_, Nat.lt_succ_self _, isStack⟩
    · have old := areas.count
      rw [isAreas, areaFrames, List.flatMap_append, List.length_append, ← areaFrames]
      simp only [List.flatMap_singleton, MapArea.frames, List.length_map, count]
      omega
  have machine : Machine.Inv l tramp (k.machine.put phys .kernel (some ⟨kernel', false⟩)) := by
    refine inv.machine.put .kernel (some ⟨kernel', false⟩) (by rw [found]; exact grown.changes) ?_
    rintro space isSpace
    obtain rfl := Option.some.inj isSpace
    exact ⟨fun _ => grown.wf, by simp, by simp⟩
  have spaces : ∀ id, (k.machine.put phys .kernel (some ⟨kernel', false⟩)).spaces (.user id) =
      k.machine.spaces (.user id) := fun id => k.machine.put_spaces_of_ne _ _ (by simp)
  refine ⟨⟨machine, grown.changes.endPpn.trans inv.endPpn, ?_, ?_, rfl, ?_⟩, rfl,
    rfl, rfl, rfl, rfl, spaces, ?_⟩
  · intro id above
    simp only [spaces]
    exact inv.fresh id above
  · intro id pcb isPcb
    simp only [spaces]
    obtain ⟨kstack, space⟩ := inv.process id pcb isPcb
    exact ⟨Nat.lt_succ_of_lt kstack, space⟩
  · exact ⟨kernel', k.machine.put_spaces_self _ _ _, areas'⟩
  · intro id space isSpace ppn mem
    have used := (inv.machine.space _ space isSpace).own_inUse ppn mem
    exact grown.changes.other ppn used
      (inv.machine.disjoint _ _ space _ (by simp) isSpace found ppn mem)

/-! ## Threads -/

theorem trapCxPage : pageAt (virtAddr (trapCxBottomFromTid mainTid)) = some trapCxVpn := by decide

/-- The frame of the trap context. -/
theorem SpaceWf.trapCx (wf : set.Wf l tramp s) (framed : set.Framed) (has : set.HasTrapCx) :
    ∃ ppn, (trapCxVpn, ppn) ∈ areaEntries set.areas ∧ set.trapCxPpn s.mem mainTid = some ppn := by
  obtain ⟨area, mem, has⟩ := has
  obtain ⟨ppn, isEntry, -⟩ := wf.framedPage mem (framed area mem) has
  obtain ⟨pte, found, isPpn⟩ := wf.tracker_translate isEntry
  refine ⟨ppn, isEntry, ?_⟩
  rw [MemorySet.trapCxPpn, trapCxPage, Option.bind_some, MemorySet.translate, found,
    Option.map_some, isPpn]

/-- `alloc_user_res` inserts the stack and the page of the trap context. -/
theorem allocUserRes_spec {ustackBase : Nat} (wf : set.Wf l tramp s)
    (h : set.allocUserRes s ustackBase mainTid = some (s', set')) :
    SpaceStep l tramp s s' set set' ∧ set'.HasTrapCx := by
  obtain ⟨⟨phys, withStack⟩, isStack, h⟩ := Option.bind_eq_some_iff.mp h
  have first := insertFramedArea_step wf isStack
  have second := insertFramedArea_step first.wf h
  obtain ⟨⟨area, entries, isArea, isAreas⟩, -⟩ := insertFramedArea_spec first.wf h
  refine ⟨first.trans second, { area with dataFrames := entries }, by rw [isAreas]; simp, ?_⟩
  have isNew : MapArea.new (virtAddr (trapCxBottomFromTid mainTid))
      (virtAddr ((trapCxBottomFromTid mainTid + 4096) % 2 ^ 64)) .framed
      ⟨true, true, false, false⟩ =
      some ⟨2 ^ 27 - 2, 2 ^ 27 - 1, [], .framed, ⟨true, true, false, false⟩⟩ := by decide +kernel
  rw [isNew, Option.some.injEq] at isArea
  subst isArea
  simp only [trapCxVpn_eq, MapArea.Has]
  omega

/-- `TaskControlBlock::new` for a process that has its stack and trap context. -/
theorem Processes.Inv.newTask_false (inv : Processes.Inv l tramp k)
    (found : k.machine.spaces (.user id) = some ⟨set, false⟩) (has : set.HasTrapCx)
    {ustackBase ppn kstack : Nat} (h : k.newTask id ustackBase false = some (ppn, kstack, k')) :
    (trapCxVpn, ppn) ∈ areaEntries set.areas ∧ StackAdded l tramp k k' kstack := by
  rw [Processes.newTask, Machine.live_eq_some.mpr found] at h
  simp only [Option.bind_some, Bool.false_eq_true, if_false] at h
  obtain ⟨trapCxPpn, isTrapCx, h⟩ := Option.bind_eq_some_iff.mp h
  obtain ⟨⟨stack, last⟩, isLast, h⟩ := Option.map_eq_some_iff.mp h
  simp only [Prod.mk.injEq] at h
  obtain ⟨rfl, rfl, rfl⟩ := h
  have ok := inv.machine.space _ _ found
  obtain ⟨ppn, isEntry, isPpn⟩ := (ok.wf rfl).trapCx (ok.framed (by simp)) has
  change set.trapCxPpn k.machine.phys.mem mainTid = _ at isPpn
  rw [isTrapCx, Option.some.injEq] at isPpn
  subst isPpn
  have same : k.machine.put k.machine.phys (.user id) (some ⟨set, false⟩) = k.machine := by
    rw [Machine.put, ← found, Function.update_eq_self]
  rw [same] at isLast
  exact ⟨isEntry, inv.kstackAlloc isLast⟩

/-- `TaskControlBlock::new` with `alloc_user_res`. -/
theorem Processes.Inv.newTask_true (inv : Processes.Inv l tramp k) (below : id < k.next)
    (found : k.machine.spaces (.user id) = some ⟨set, false⟩)
    {ustackBase ppn kstack : Nat} (h : k.newTask id ustackBase true = some (ppn, kstack, k')) :
    ∃ phys set', set'.HasTrapCx ∧ (trapCxVpn, ppn) ∈ areaEntries set'.areas ∧
      StackAdded l tramp { k with machine := k.machine.put phys (.user id) (some ⟨set', false⟩) }
      k' kstack := by
  rw [Processes.newTask, Machine.live_eq_some.mpr found] at h
  simp only [Option.bind_some, if_true] at h
  obtain ⟨⟨phys, set'⟩, isRes, h⟩ := Option.bind_eq_some_iff.mp h
  obtain ⟨trapCxPpn, isTrapCx, h⟩ := Option.bind_eq_some_iff.mp h
  obtain ⟨⟨stack, last⟩, isLast, h⟩ := Option.map_eq_some_iff.mp h
  simp only [Prod.mk.injEq] at h
  obtain ⟨rfl, rfl, rfl⟩ := h
  have ok := inv.machine.space _ _ found
  obtain ⟨step, has⟩ := allocUserRes_spec (ok.wf rfl) isRes
  have framed := step.framed (ok.framed (by simp))
  obtain ⟨ppn, isEntry, isPpn⟩ := step.wf.trapCx framed has
  rw [isTrapCx, Option.some.injEq] at isPpn
  subst isPpn
  have inv' :=
    inv.put k.next k.pidAllocator (Nat.le_refl _) below (by rw [found]; exact step.changes)
    step.wf framed fun _ => has
  exact ⟨phys, set', has, isEntry, inv'.kstackAlloc isLast⟩

end Inv

end CoreFromDust.Os.Mm
