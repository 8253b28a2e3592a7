import CoreFromDust.Os.Mm.ThreadStacks
import CoreFromDust.Os.Mm.UserStackBase

/-!
# The places of stacks

The areas of an address space are those of the program, and a stack and a trap context for each
thread id that is in use; those of `KERNEL_SPACE` are its sections and a stack for each kernel-stack
id. So a new id finds its pages free, and the areas of an id that is given back can be found by
their first pages.
-/

namespace CoreFromDust.Os.Mm

open CoreFromDust.Lib SpaceWf

/-- `dealloc` of an id that is in use. -/
theorem RecycleAllocator.inUse_dealloc {a a' : RecycleAllocator} {id : Nat}
    (h : a.dealloc id = some a') :
    a.InUse id ∧ ∀ other, a'.InUse other ↔ a.InUse other ∧ other ≠ id := by
  unfold RecycleAllocator.dealloc at h
  split at h
  · next inUse =>
    obtain rfl := Option.some.inj h
    refine ⟨inUse, fun other => ?_⟩
    simp only [RecycleAllocator.InUse, List.mem_cons, not_or]
    tauto
  · exact absurd h (by simp)

theorem RecycleAllocator.dealloc_of_inUse {a : RecycleAllocator} {id : Nat} (inUse : a.InUse id) :
    a.dealloc id = some { a with recycled := id :: a.recycled } := if_pos inUse

section Areas

variable {l tramp b tid vpn : Nat} {s s' : Phys} {set set' : MemorySet} {area : MapArea}
  {areas : List MapArea} {ids ids' : RecycleAllocator}

/-! ## Inserting and removing one area -/

/-- An area that lies apart from the others is inserted, or there is another panic. -/
theorem insertArea_avoids {start stop : Nat} {permission : MapPermission} (wf : set.Wf l tramp s)
    (isNew : MapArea.new (virtAddr start) (virtAddr stop) .framed permission = some area)
    (bound : area.endVpn ≤ 2 ^ 27 - 1) (apart : ∀ other ∈ set.areas, other.Apart area) :
    Avoids .mapped (fun last => SpaceStep l tramp s last.1 set last.2 ∧
      ∃ entries, last.2.areas = set.areas ++ [{ area with dataFrames := entries }])
      (set.insertArea s (virtAddr start) (virtAddr stop) permission) := by
  have range : area.startVpn = floor (virtAddr start) ∧ area.endVpn = ceil (virtAddr stop) := by
    rw [MapArea.new] at isNew
    split at isNew
    · obtain rfl := Option.some.inj isNew
      exact ⟨rfl, rfl⟩
    · exact absurd isNew (by simp)
  unfold MemorySet.insertArea
  split
  · next hits =>
    obtain ⟨vpn, inRange, isMapped⟩ := List.any_eq_true.mp hits
    rw [List.mem_range'_1, ← range.1, ← range.2] at inRange
    have has : area.Has vpn := by
      unfold MapArea.Has
      omega
    have upper := has.2
    rw [wf.onNone vpn (by omega) fun other mem isOther =>
      apart other mem vpn isOther has] at isMapped
    exact absurd isMapped (by simp)
  · refine .orError (by simp) ?_
    rintro ⟨s', set'⟩ inserted
    obtain ⟨⟨area', entries, isNew', isAreas⟩, -⟩ := insertFramedArea_spec wf inserted
    rw [isNew, Option.some.injEq] at isNew'
    subst isNew'
    exact ⟨insertFramedArea_step wf inserted, entries, isAreas⟩

theorem removeArea_step {startVpn : Nat} (wf : set.Wf l tramp s)
    (h : set.removeAreaWithStartVpn s startVpn = some (s', set')) :
    SpaceStep l tramp s s' set set' := by
  obtain ⟨sameTable, sublist, shrunk⟩ := removeArea_spec wf h
  refine ⟨removeArea_wf wf h, ?_, fun framed area mem => framed area (sublist.subset mem)⟩
  · rw [MemorySet.own, MemorySet.own, sameTable]
    exact shrunk.changes

/-- When areas are removed, the pages of the other areas are mapped as before. -/
theorem lookup_of_mem (wf : set.Wf l tramp s) (wf' : set'.Wf l tramp s') (mem : area ∈ set.areas)
    (mem' : area ∈ set'.areas) (has : area.Has vpn) :
    set'.pageTable.lookup s'.mem vpn = set.pageTable.lookup s.mem vpn := by
  obtain ⟨ppn, target, found⟩ := wf.onArea area mem vpn has
  obtain ⟨ppn', target', found'⟩ := wf'.onArea area mem' vpn has
  have same : ppn = ppn' := by
    unfold MapArea.Target at target target'
    cases kind : area.mapType with
    | identical =>
        rw [kind] at target target'
        exact target.trans target'.symm
    | framed =>
        rw [kind] at target target'
        exact wf.tracker_unique (List.mem_flatMap.mpr ⟨area, mem, target⟩)
          (List.mem_flatMap.mpr ⟨area, mem, target'⟩)
  rw [found, found', same]

/-- Of the areas, those that start at one of some pages have been removed, so their pages are not
mapped any more, and all other pages are as before. -/
theorem lookup_removed (wf : set.Wf l tramp s) (wf' : set'.Wf l tramp s') {starts : List Nat}
    (remain : ∀ area, area ∈ set'.areas ↔ area ∈ set.areas ∧ area.startVpn ∉ starts)
    (small : vpn < 2 ^ 27) :
    ((∃ area ∈ set.areas, area.startVpn ∈ starts ∧ area.Has vpn) →
      set'.pageTable.lookup s'.mem vpn = none) ∧
    ((∀ area ∈ set.areas, area.startVpn ∈ starts → ¬ area.Has vpn) →
      set'.pageTable.lookup s'.mem vpn = set.pageTable.lookup s.mem vpn) := by
  constructor
  · rintro ⟨area, mem, isRemoved, has⟩
    have bound := (wf.shape area mem).bound
    have upper := has.2
    refine wf'.onNone vpn (by omega) fun other mem' hasOther => ?_
    obtain ⟨memOther, stays⟩ := (remain other).mp mem'
    have same : other = area := by
      by_contra differ
      have symm : Std.Symm MapArea.Apart := ⟨fun _ _ => MapArea.Apart.symm⟩
      exact wf.apart.forall memOther mem differ vpn hasOther has
    rw [same] at stays
    exact stays isRemoved
  · intro outside
    by_cases onArea : ∃ area ∈ set.areas, area.Has vpn
    · obtain ⟨area, mem, has⟩ := onArea
      have stays : area.startVpn ∉ starts := fun isRemoved => outside area mem isRemoved has
      exact lookup_of_mem wf wf' mem ((remain area).mpr ⟨mem, stays⟩) has
    · by_cases isTramp : vpn = 2 ^ 27 - 1
      · rw [isTramp, wf.onTrampoline, wf'.onTrampoline]
      · have none : ∀ area ∈ set.areas, ¬ area.Has vpn :=
          fun area mem has => onArea ⟨area, mem, has⟩
        rw [wf.onNone vpn (by omega) none, wf'.onNone vpn (by omega) fun area mem' =>
          none area ((remain area).mp mem').1]

/-! ## Stacks and trap contexts -/

/-- The areas of a process: the program ends a page before the page `b`, and each thread id that is
in use has a stack and a trap context. -/
structure Placed (b : Nat) (ids : RecycleAllocator) (areas : List MapArea) : Prop where
  pos : 1 ≤ b
  low : b < 2 ^ 25
  ok : ids.Ok
  few : ∀ tid, ids.InUse tid → tid < 2 ^ 20
  place : ∀ area ∈ areas, area.endVpn < b ∨
    ∃ tid, ids.InUse tid ∧ (IsUserStack b tid area ∨ IsTrapCx tid area)
  stack : ∀ tid, ids.InUse tid → ∃ area ∈ areas, IsUserStack b tid area
  trapCx : ∀ tid, ids.InUse tid → ∃ area ∈ areas, IsTrapCx tid area

namespace Placed

/-- The areas lie apart from those of a thread whose id is not in use. -/
theorem apart (placed : Placed b ids areas) (few : tid < 2 ^ 20) (free : ¬ ids.InUse tid)
    (isNew : IsUserStack b tid area ∨ IsTrapCx tid area) : ∀ other ∈ areas, other.Apart area := by
  have low := placed.low
  exact fun other mem =>
    AtPlace.apart (placed.place other mem) (by omega) placed.few few.le free isNew

/-- `alloc_user_res` finds its pages free. -/
theorem insertUserRes (placed : Placed b ids set.areas) (wf : set.Wf l tramp s) (few : tid < 2 ^ 20)
    (free : ¬ ids.InUse tid) (ok : ids'.Ok)
    (inUse : ∀ other, ids'.InUse other ↔ ids.InUse other ∨ other = tid) :
    Avoids .mapped (fun last => SpaceStep l tramp s last.1 set last.2 ∧ Placed b ids' last.2.areas)
      (set.insertUserRes s (b * 4096) tid) := by
  have low := placed.low
  have isStack := newUserStack_eq (b := b) (by omega) few.le
  have isTrapCx := newTrapCx_eq few.le
  have stackPlace : ∀ entries, IsUserStack b tid
      ⟨b + 3 * tid, b + 3 * tid + 2, entries, .framed, ⟨true, true, false, true⟩⟩ :=
    fun entries => ⟨rfl, rfl⟩
  refine (insertArea_avoids wf isStack (by simp only; omega)
    (placed.apart few free (.inl (stackPlace [])))).bind ?_
  rintro ⟨mid, withStack⟩ ⟨first, entries, isAreas⟩
  simp only at first isAreas
  have apart : ∀ other ∈ withStack.areas, other.Apart
      ⟨2 ^ 27 - 2 - tid, 2 ^ 27 - 1 - tid, [], .framed, ⟨true, true, false, false⟩⟩ := by
    intro other mem
    rw [isAreas] at mem
    rcases List.mem_append.mp mem with isOld | isLast
    · exact placed.apart few free (.inr (isTrapCx_new few.le [])) other isOld
    · rw [List.mem_singleton.mp isLast]
      intro vpn has hasNew
      simp only [MapArea.Has] at has hasNew
      omega
  refine (insertArea_avoids first.wf isTrapCx (by simp only; omega) apart).mono ?_
  rintro ⟨last, set'⟩ ⟨second, entries', isAreas'⟩
  simp only at second isAreas'
  rw [isAreas, List.append_assoc] at isAreas'
  refine ⟨first.trans second, placed.pos, low, ok, fun other isUsed => ?_, fun area mem => ?_,
    fun other isUsed => ?_, fun other isUsed => ?_⟩
  · rcases (inUse other).mp isUsed with isUsed | rfl
    · exact placed.few other isUsed
    · exact few
  · rw [isAreas', List.mem_append] at mem
    rcases mem with isOld | isNew
    · exact AtPlace.more (placed.place area isOld) fun other isUsed =>
        (inUse other).mpr (.inl isUsed)
    · refine .inr ⟨tid, (inUse tid).mpr (.inr rfl), ?_⟩
      simp only [List.singleton_append, List.mem_cons, List.not_mem_nil, or_false] at isNew
      rcases isNew with rfl | rfl
      · exact .inl (stackPlace _)
      · exact .inr (isTrapCx_new few.le _)
  · rw [isAreas']
    rcases (inUse other).mp isUsed with isUsed | rfl
    · obtain ⟨area, mem, isStack⟩ := placed.stack other isUsed
      exact ⟨area, List.mem_append_left _ mem, isStack⟩
    · exact ⟨_, List.mem_append_right _ List.mem_cons_self, stackPlace _⟩
  · rw [isAreas']
    rcases (inUse other).mp isUsed with isUsed | rfl
    · obtain ⟨area, mem, isTrapCx⟩ := placed.trapCx other isUsed
      exact ⟨area, List.mem_append_left _ mem, isTrapCx⟩
    · exact ⟨_, List.mem_append_right _ (List.mem_cons_of_mem _ List.mem_cons_self),
        isTrapCx_new few.le _⟩

/-- The pages of the stack and the trap context of a thread. -/
def OnPages (b tid vpn : Nat) : Prop :=
  b + 3 * tid ≤ vpn ∧ vpn < b + 3 * tid + 2 ∨ vpn + tid = 2 ^ 27 - 2

/-- The pages of a thread are mapped. -/
theorem maps (placed : Placed b ids set.areas) (wf : set.Wf l tramp s) (inUse : ids.InUse tid)
    (onPages : OnPages b tid vpn) : set.pageTable.Maps s.mem vpn := by
  have onArea : ∃ area ∈ set.areas, area.Has vpn := by
    rcases onPages with onStack | onTrapCx
    · obtain ⟨area, mem, start, stop⟩ := placed.stack tid inUse
      refine ⟨area, mem, ?_⟩
      unfold MapArea.Has
      omega
    · obtain ⟨area, mem, start, stop⟩ := placed.trapCx tid inUse
      refine ⟨area, mem, ?_⟩
      unfold MapArea.Has
      omega
  obtain ⟨area, mem, has⟩ := onArea
  obtain ⟨ppn, -, found⟩ := wf.onArea area mem vpn has
  rw [PageTable.Maps, found]
  rfl

/-- The page below a stack is not mapped. -/
theorem guardPage (placed : Placed b ids set.areas) (wf : set.Wf l tramp s)
    (inUse : ids.InUse tid) :
    ¬ set.pageTable.Maps s.mem (b + 3 * tid - 1) := by
  have pos := placed.pos
  have low := placed.low
  have few := placed.few tid inUse
  rw [PageTable.Maps, wf.onNone _ (by omega) fun area mem has => ?_]
  · simp
  · unfold MapArea.Has at has
    rcases placed.place area mem with below | ⟨other, isUsed, place⟩
    · omega
    · have few' := placed.few other isUsed
      unfold IsUserStack IsTrapCx at place
      omega

/-- `dealloc_user_res` removes the stack and the trap context, and no other page. -/
theorem deallocUserRes (placed : Placed b ids set.areas) (wf : set.Wf l tramp s)
    (isDealloc : ids.dealloc tid = some ids')
    (h : set.deallocUserRes s (b * 4096) tid = some (s', set')) :
    SpaceStep l tramp s s' set set' ∧ Placed b ids' set'.areas ∧
      ∀ vpn < 2 ^ 27, (OnPages b tid vpn → set'.pageTable.lookup s'.mem vpn = none) ∧
        (¬ OnPages b tid vpn →
          set'.pageTable.lookup s'.mem vpn = set.pageTable.lookup s.mem vpn) := by
  have low := placed.low
  obtain ⟨ok, -⟩ := placed.ok.dealloc isDealloc
  obtain ⟨wasUsed, inUse⟩ := RecycleAllocator.inUse_dealloc isDealloc
  have few := placed.few tid wasUsed
  obtain ⟨mid, without, isStack, isTrapCx, remain⟩ :=
    deallocUserRes_areas wf (by omega) few.le placed.place h
  have first := removeArea_step wf isStack
  have second := removeArea_step first.wf isTrapCx
  have stays : ∀ other, ids.InUse other → other ≠ tid → ∀ area ∈ set.areas,
      IsUserStack b other area ∨ IsTrapCx other area → area ∈ set'.areas := by
    intro other isUsed differ area mem place
    exact (remain area).mpr ⟨mem, stays_of_ne (by omega) few (placed.few other isUsed) differ place⟩
  refine ⟨first.trans second, ⟨placed.pos, low, ok, fun other isUsed => ?_, fun area mem => ?_,
    fun other isUsed => ?_, fun other isUsed => ?_⟩, fun vpn small => ?_⟩
  · exact placed.few other ((inUse other).mp isUsed).1
  · obtain ⟨mem, notStart⟩ := (remain area).mp mem
    exact AtPlace.remove (placed.place area mem) notStart inUse
  · obtain ⟨isUsed, differ⟩ := (inUse other).mp isUsed
    obtain ⟨area, mem, isStack⟩ := placed.stack other isUsed
    exact ⟨area, stays other isUsed differ area mem (.inl isStack), isStack⟩
  · obtain ⟨isUsed, differ⟩ := (inUse other).mp isUsed
    obtain ⟨area, mem, isTrapCx⟩ := placed.trapCx other isUsed
    exact ⟨area, stays other isUsed differ area mem (.inr isTrapCx), isTrapCx⟩
  · -- the areas that start there are the stack and the trap context
    obtain ⟨gone, kept⟩ := lookup_removed wf second.wf remain small
    refine ⟨fun onPages => gone ?_, fun outside => kept fun area mem isStart has => outside ?_⟩
    · rcases onPages with onStack | onTrapCx
      · obtain ⟨area, mem, start, stop⟩ := placed.stack tid wasUsed
        refine ⟨area, mem, by simp [start], ?_⟩
        unfold MapArea.Has
        omega
      · obtain ⟨area, mem, start, stop⟩ := placed.trapCx tid wasUsed
        refine ⟨area, mem, ?_, ?_⟩
        · simp only [List.mem_cons, List.not_mem_nil, or_false]
          omega
        · unfold MapArea.Has
          omega
    · simp only [List.mem_cons, List.not_mem_nil, or_false] at isStart
      have le := (wf.shape area mem).le
      unfold MapArea.Has at has
      unfold OnPages
      rcases placed.place area mem with below | ⟨other, isUsed, place⟩
      · omega
      · have few' := placed.few other isUsed
        unfold IsUserStack IsTrapCx at place
        omega

/-- `dealloc_user_res` does not panic. -/
theorem deallocUserRes_isSome (placed : Placed b ids set.areas) (wf : set.Wf l tramp s)
    (inUse : ids.InUse tid) : (set.deallocUserRes s (b * 4096) tid).isSome := by
  have low := placed.low
  obtain ⟨⟨mid, without⟩, isStack⟩ :=
    Option.isSome_iff_exists.mp (removeArea_isSome wf (b + 3 * tid))
  rw [deallocUserRes_eq (by omega) (placed.few tid inUse).le, isStack, Option.bind_some]
  exact removeArea_isSome (removeArea_step wf isStack).wf _

end Placed

/-! ## Kernel stacks -/

/-- The areas of `KERNEL_SPACE`: sections that end below `MEMORY_END`, and a stack for each
kernel-stack id that is in use. -/
structure KernelPlaced (ids : RecycleAllocator) (areas : List MapArea) : Prop where
  ok : ids.Ok
  few : ∀ i, ids.InUse i → i < 2 ^ 20
  place : ∀ area ∈ areas, area.endVpn ≤ 0x80800 ∨ ∃ i, ids.InUse i ∧ IsStack i area
  stack : ∀ i, ids.InUse i → ∃ area ∈ areas, IsStack i area

namespace KernelPlaced

variable {i : Nat}

/-- `kstack_alloc` finds its pages free. -/
theorem insertKstack (placed : KernelPlaced ids set.areas) (wf : set.Wf l tramp s)
    (few : ids.alloc.1 < 2 ^ 20) :
    Avoids .mapped (fun last => SpaceStep l tramp s last.1 set last.2 ∧
      KernelPlaced ids.alloc.2 last.2.areas) (set.insertKstack s ids.alloc.1) := by
  obtain ⟨ok, free, inUse⟩ := placed.ok.alloc
  have isStack : ∀ entries, IsStack ids.alloc.1 ⟨2 ^ 27 - 3 - 3 * ids.alloc.1,
      2 ^ 27 - 1 - 3 * ids.alloc.1, entries, .framed, ⟨true, true, false, false⟩⟩ := by
    intro entries
    unfold IsStack
    simp only
    omega
  have apart : ∀ other ∈ set.areas, other.Apart ⟨2 ^ 27 - 3 - 3 * ids.alloc.1,
      2 ^ 27 - 1 - 3 * ids.alloc.1, [], .framed, ⟨true, true, false, false⟩⟩ := by
    intro other mem vpn has hasNew
    simp only [MapArea.Has] at has hasNew
    rcases placed.place other mem with below | ⟨i, isUsed, start, stop⟩
    · omega
    · have few' := placed.few i isUsed
      have differ : i ≠ ids.alloc.1 := by
        rintro rfl
        exact free isUsed
      omega
  refine (insertArea_avoids wf (newStack_eq few) (by simp only; omega) apart).mono ?_
  rintro ⟨last, set'⟩ ⟨step, entries, isAreas⟩
  simp only at step isAreas
  refine ⟨step, ok, fun i isUsed => ?_, fun area mem => ?_, fun i isUsed => ?_⟩
  · rcases (inUse i).mp isUsed with isUsed | rfl
    · exact placed.few i isUsed
    · exact few
  · rw [isAreas, List.mem_append] at mem
    rcases mem with isOld | isNew
    · refine (placed.place area isOld).imp_right ?_
      rintro ⟨i, isUsed, place⟩
      exact ⟨i, (inUse i).mpr (.inl isUsed), place⟩
    · rw [List.mem_singleton.mp isNew]
      exact .inr ⟨_, (inUse _).mpr (.inr rfl), isStack _⟩
  · rw [isAreas]
    rcases (inUse i).mp isUsed with isUsed | rfl
    · obtain ⟨area, mem, place⟩ := placed.stack i isUsed
      exact ⟨area, List.mem_append_left _ mem, place⟩
    · exact ⟨_, List.mem_append_right _ List.mem_cons_self, isStack _⟩

/-- The pages of a kernel stack. -/
def OnPages (i vpn : Nat) : Prop := 2 ^ 27 ≤ vpn + 3 * i + 3 ∧ vpn + 3 * i + 1 < 2 ^ 27

/-- The pages of a kernel stack are mapped. -/
theorem maps (placed : KernelPlaced ids set.areas) (wf : set.Wf l tramp s) (inUse : ids.InUse i)
    (onPages : OnPages i vpn) : set.pageTable.Maps s.mem vpn := by
  obtain ⟨area, mem, start, stop⟩ := placed.stack i inUse
  have has : area.Has vpn := by
    unfold OnPages at onPages
    unfold MapArea.Has
    omega
  obtain ⟨ppn, -, found⟩ := wf.onArea area mem vpn has
  rw [PageTable.Maps, found]
  rfl

/-- The page below a kernel stack is not mapped. -/
theorem guardPage (placed : KernelPlaced ids set.areas) (wf : set.Wf l tramp s)
    (inUse : ids.InUse i) :
    ¬ set.pageTable.Maps s.mem (2 ^ 27 - 4 - 3 * i) := by
  have few := placed.few i inUse
  rw [PageTable.Maps, wf.onNone _ (by omega) fun area mem has => ?_]
  · simp
  · unfold MapArea.Has at has
    rcases placed.place area mem with below | ⟨other, isUsed, start, stop⟩
    · omega
    · have few' := placed.few other isUsed
      omega

/-- `KernelStack::drop` removes the stack, and no other page. -/
theorem removeKstack (placed : KernelPlaced ids set.areas) (wf : set.Wf l tramp s)
    (isDealloc : ids.dealloc i = some ids') (h : set.removeKstack s i = some (s', set')) :
    SpaceStep l tramp s s' set set' ∧ KernelPlaced ids' set'.areas ∧
      ∀ vpn < 2 ^ 27, (OnPages i vpn → set'.pageTable.lookup s'.mem vpn = none) ∧
        (¬ OnPages i vpn → set'.pageTable.lookup s'.mem vpn = set.pageTable.lookup s.mem vpn) := by
  obtain ⟨ok, -⟩ := placed.ok.dealloc isDealloc
  obtain ⟨wasUsed, inUse⟩ := RecycleAllocator.inUse_dealloc isDealloc
  have few := placed.few i wasUsed
  rw [MemorySet.removeKstack, (kernelStackPosition_eq few).1, pageAt_page, Option.bind_some] at h
  have step := removeArea_step wf h
  -- the only area that starts there is the stack
  have isStack : ∀ area ∈ set.areas, area.startVpn = 2 ^ 27 - 3 - 3 * i → IsStack i area := by
    intro area mem start
    have le := (wf.shape area mem).le
    rcases placed.place area mem with below | ⟨other, isUsed, place⟩
    · omega
    · have few' := placed.few other isUsed
      have same : other = i := by
        have start' := place.1
        omega
      rwa [same] at place
  have remain : ∀ area, area ∈ set'.areas ↔
      area ∈ set.areas ∧ area.startVpn ∉ [2 ^ 27 - 3 - 3 * i] := by
    intro area
    rw [List.mem_singleton]
    refine removeArea_mem_iff wf (fun area mem start => ?_) h
    have stop := (isStack area mem start).2
    omega
  refine ⟨step, ⟨ok, fun other isUsed => ?_, fun area mem => ?_, fun other isUsed => ?_⟩,
    fun vpn small => ?_⟩
  · exact placed.few other ((inUse other).mp isUsed).1
  · obtain ⟨mem, notStart⟩ := (remain area).mp mem
    refine (placed.place area mem).imp_right ?_
    rintro ⟨other, isUsed, place⟩
    refine ⟨other, (inUse other).mpr ⟨isUsed, ?_⟩, place⟩
    rintro rfl
    rw [List.mem_singleton] at notStart
    have start := place.1
    omega
  · obtain ⟨isUsed, differ⟩ := (inUse other).mp isUsed
    obtain ⟨area, mem, place⟩ := placed.stack other isUsed
    refine ⟨area, (remain area).mpr ⟨mem, ?_⟩, place⟩
    rw [List.mem_singleton]
    have few' := placed.few other isUsed
    have start := place.1
    omega
  · obtain ⟨gone, kept⟩ := lookup_removed wf step.wf remain small
    refine ⟨fun onPages => gone ?_, fun outside => kept fun area mem isStart has => outside ?_⟩
    · obtain ⟨area, mem, start, stop⟩ := placed.stack i wasUsed
      refine ⟨area, mem, List.mem_singleton.mpr (by omega), ?_⟩
      unfold OnPages at onPages
      unfold MapArea.Has
      omega
    · rw [List.mem_singleton] at isStart
      have stop := (isStack area mem isStart).2
      unfold MapArea.Has at has
      unfold OnPages
      omega

/-- `KernelStack::drop` does not panic. -/
theorem removeKstack_isSome (placed : KernelPlaced ids set.areas) (wf : set.Wf l tramp s)
    (inUse : ids.InUse i) : (set.removeKstack s i).isSome := by
  rw [MemorySet.removeKstack, (kernelStackPosition_eq (placed.few i inUse)).1, pageAt_page,
    Option.bind_some]
  exact removeArea_isSome wf _

end KernelPlaced

end Areas

end CoreFromDust.Os.Mm
