import CoreFromDust.Os.Mm.Proofs.EnoughFrames
import CoreFromDust.Os.Mm.Proofs.TightTables
import CoreFromDust.Os.Mm.UserFrames
import CoreFromDust.Os.Proofs.Placement

/-!
# The base of the user stacks

`from_elf` puts `ustack_base` one page behind the end of the segment that it loads last. The threads
of a process have their stacks from there on, with a page between two of them, and their trap
contexts from the trampoline down. The stacks lie above the program exactly when no other segment
ends behind the last one.
-/

namespace CoreFromDust.Os.Mm

open SpaceWf

/-! ## Threads -/

/-- The threads of a process: the machine, and the allocator of their ids. -/
structure Threads where
  machine : Machine
  taskResAllocator : RecycleAllocator

/-- What happens to the user resources of the threads. -/
inductive ThreadsEvent where
  /-- a new thread -/
  | new
  /-- the resources of a thread are dropped -/
  | drop (tid : Nat)
  /-- another step of the machine, which leaves the areas of the process as they are -/
  | other (event : SpaceEvent)

namespace Threads

/-- `TaskUserRes::new` in the process `id`. -/
def new (k : Threads) (id ustackBase : Nat) : Option Threads :=
  (k.machine.live (.user id)).bind fun set =>
    (set.allocUserRes k.machine.phys ustackBase k.taskResAllocator.alloc.1).map fun (phys, set) =>
      ⟨k.machine.put phys (.user id) (some ⟨set, false⟩), k.taskResAllocator.alloc.2⟩

/-- `TaskUserRes::drop` in the process `id`. -/
def drop (k : Threads) (id ustackBase tid : Nat) : Option Threads :=
  (k.taskResAllocator.dealloc tid).bind fun allocator =>
    (k.machine.live (.user id)).bind fun set =>
      (set.deallocUserRes k.machine.phys ustackBase tid).map fun (phys, set) =>
        ⟨k.machine.put phys (.user id) (some ⟨set, false⟩), allocator⟩

/-- One step; `none` is a panic or a step that cannot be taken. -/
def step (layout : KernelLayout) (id ustackBase : Nat) (k : Threads) : ThreadsEvent → Option Threads
  | .new => k.new id ustackBase
  | .drop tid => k.drop id ustackBase tid
  | .other event =>
      (k.machine.step layout event).bind fun machine =>
        if machine.live (.user id) = k.machine.live (.user id) then
          some { k with machine := machine }
        else none

/-- The threads after a list of events. -/
def steps (layout : KernelLayout) (id ustackBase : Nat) (k : Threads) :
    List ThreadsEvent → Option Threads
  | [] => some k
  | event :: events =>
      (k.step layout id ustackBase event).bind fun k => k.steps layout id ustackBase events

end Threads

/-- The page lies on the stack of the thread. -/
def OnUserStack (ustackBase tid vpn : Nat) : Prop :=
  floor (virtAddr (ustackBottomFromTid ustackBase tid)) ≤ vpn ∧
    vpn < ceil (virtAddr ((ustackBottomFromTid ustackBase tid + 8192) % 2 ^ 64))

/-- The base of the stacks is the start of a page, a page that is not mapped lies between it and the
segments, and in all that the threads of the process `id` do, a new thread has its stack on no page
of a segment and gets it when there are enough frames. -/
structure BaseAbove (layout : KernelLayout) (k : Machine) (id ustackBase : Nat) (set : MemorySet)
    (elf : Elf) : Prop where
  aligned : ustackBase % 4096 = 0
  above : ∀ ph ∈ elf.segments, ph.endVpn * 4096 + 4096 ≤ ustackBase
  guardPage : set.pageTable.lookup k.phys.mem (floor (virtAddr (ustackBase - 4096))) = none
  threads : ∀ events last, (⟨k, .new⟩ : Threads).steps layout id ustackBase events = some last →
    (∀ vpn, OnUserStack ustackBase last.taskResAllocator.alloc.1 vpn →
      ∀ ph ∈ elf.segments, ¬ ph.Has vpn) ∧
    (9 ≤ last.machine.phys.freeFrames → (last.new id ustackBase).isSome)

/-! ## Areas -/

/-- The area of the stack of a thread, when the first stack starts at the page `b`. -/
def IsUserStack (b tid : Nat) (area : MapArea) : Prop :=
  area.startVpn = b + 3 * tid ∧ area.endVpn = area.startVpn + 2

/-- The area of the trap context of a thread. -/
def IsTrapCx (tid : Nat) (area : MapArea) : Prop :=
  area.startVpn + tid = 2 ^ 27 - 2 ∧ area.endVpn = area.startVpn + 1

section Areas

variable {l tramp : Nat} {s s' : Phys} {set set' : MemorySet} {area : MapArea}

/-- `remove_area_with_start_vpn` when the areas that start there have pages: it removes the only
one. -/
theorem removeArea_mem_iff {startVpn : Nat} (wf : set.Wf l tramp s)
    (nonempty : ∀ area ∈ set.areas, area.startVpn = startVpn → startVpn < area.endVpn)
    (h : set.removeAreaWithStartVpn s startVpn = some (s', set')) :
    area ∈ set'.areas ↔ area ∈ set.areas ∧ area.startVpn ≠ startVpn := by
  unfold MemorySet.removeAreaWithStartVpn at h
  split at h
  · next notFound =>
    obtain ⟨rfl, rfl⟩ := Prod.mk.inj (Option.some.inj h)
    have absent := List.findIdx?_eq_none_iff.mp notFound
    simp only [decide_eq_false_iff_not] at absent
    exact ⟨fun mem => ⟨mem, absent area mem⟩, And.left⟩
  · next idx found =>
    obtain ⟨removed, isRemoved, h⟩ := Option.bind_eq_some_iff.mp h
    obtain ⟨⟨unmapped, withoutFrames⟩, -, h⟩ := Option.bind_eq_some_iff.mp h
    obtain ⟨dropped, -, h⟩ := Option.map_eq_some_iff.mp h
    simp only [Prod.mk.injEq] at h
    obtain ⟨-, rfl⟩ := h
    obtain ⟨below, isStart, -⟩ := List.findIdx?_eq_some_iff_getElem.mp found
    rw [List.getElem?_eq_getElem below, Option.some.injEq] at isRemoved
    subst isRemoved
    have isStart : set.areas[idx].startVpn = startVpn := by simpa using isStart
    have perm : set.areas.Perm (set.areas[idx] :: set.areas.eraseIdx idx) :=
      (List.getElem_cons_eraseIdx_perm below).symm
    have apart := (List.pairwise_cons.mp (wf.perm perm).apart).1
    have inside := nonempty _ (List.getElem_mem below) isStart
    rw [perm.mem_iff, List.mem_cons]
    constructor
    · intro mem
      refine ⟨.inr mem, fun same => ?_⟩
      -- two areas that start at the page have it in common
      refine apart area mem startVpn ⟨isStart.le, inside⟩ ⟨same.le, ?_⟩
      exact nonempty area (perm.mem_iff.mpr (List.mem_cons_of_mem _ mem)) same
    · rintro ⟨rfl | mem, differ⟩
      · exact absurd isStart differ
      · exact mem

/-- The pages of the stack of a thread. -/
theorem ustackBottom_eq {b tid : Nat} (low : b ≤ 2 ^ 25 + 1) (few : tid ≤ 2 ^ 20) :
    virtAddr (ustackBottomFromTid (b * 4096) tid) = (b + 3 * tid) * 4096 ∧
      virtAddr ((ustackBottomFromTid (b * 4096) tid + 8192) % 2 ^ 64) =
      (b + 3 * tid + 2) * 4096 := by
  unfold ustackBottomFromTid virtAddr
  omega

theorem onUserStack_iff {b tid vpn : Nat} (low : b ≤ 2 ^ 25 + 1) (few : tid ≤ 2 ^ 20) :
    OnUserStack (b * 4096) tid vpn ↔ b + 3 * tid ≤ vpn ∧ vpn < b + 3 * tid + 2 := by
  obtain ⟨bottom, top⟩ := ustackBottom_eq low few
  rw [OnUserStack, bottom, top, floor, ceil, if_neg (by omega)]
  omega

/-- The pages of the trap context of a thread. -/
theorem trapCxBottom_eq {tid : Nat} (few : tid ≤ 2 ^ 20) :
    virtAddr (trapCxBottomFromTid tid) = (2 ^ 27 - 2 - tid) * 4096 ∧
      virtAddr ((trapCxBottomFromTid tid + 4096) % 2 ^ 64) = (2 ^ 27 - 1 - tid) * 4096 := by
  have base : trapContextBase = 18446744073709543424 := rfl
  rw [trapCxBottomFromTid, wrappingSub, base]
  unfold virtAddr
  omega

theorem newArea_pages {start stop : Nat} {permission : MapPermission} (le : start ≤ stop)
    (positive : 0 < stop) :
    MapArea.new (start * 4096) (stop * 4096) .framed permission =
      some ⟨start, stop, [], .framed, permission⟩ := by
  have isStart : floor (start * 4096) = start := by
    rw [floor]
    omega
  have isStop : ceil (stop * 4096) = stop := by
    rw [ceil, if_neg (by omega)]
    omega
  rw [MapArea.new, isStart, isStop, if_pos le]

theorem pageAt_page (vpn : Nat) : pageAt (vpn * 4096) = some vpn := by
  have aligned : pageOffset (vpn * 4096) = 0 := by
    rw [pageOffset]
    omega
  have isFloor : floor (vpn * 4096) = vpn := by
    rw [floor]
    omega
  rw [pageAt, if_pos aligned, isFloor]

/-- The areas of a new thread. -/
theorem newUserStack_eq {b tid : Nat} (low : b ≤ 2 ^ 25 + 1) (few : tid ≤ 2 ^ 20) :
    MapArea.new (virtAddr (ustackBottomFromTid (b * 4096) tid))
      (virtAddr ((ustackBottomFromTid (b * 4096) tid + 8192) % 2 ^ 64)) .framed
      ⟨true, true, false, true⟩ =
      some ⟨b + 3 * tid, b + 3 * tid + 2, [], .framed, ⟨true, true, false, true⟩⟩ := by
  obtain ⟨bottom, top⟩ := ustackBottom_eq low few
  rw [bottom, top, newArea_pages (by omega) (by omega)]

theorem newTrapCx_eq {tid : Nat} (few : tid ≤ 2 ^ 20) :
    MapArea.new (virtAddr (trapCxBottomFromTid tid))
      (virtAddr ((trapCxBottomFromTid tid + 4096) % 2 ^ 64)) .framed ⟨true, true, false, false⟩ =
      some ⟨2 ^ 27 - 2 - tid, 2 ^ 27 - 1 - tid, [], .framed, ⟨true, true, false, false⟩⟩ := by
  obtain ⟨bottom, top⟩ := trapCxBottom_eq few
  rw [bottom, top, newArea_pages (by omega) (by omega)]

/-- The area ends before the page `b`, or it is the stack or the trap context of a thread with one
of the ids. -/
def AtPlace (b : Nat) (ids : Nat → Prop) (area : MapArea) : Prop :=
  area.endVpn < b ∨ ∃ tid, ids tid ∧ (IsUserStack b tid area ∨ IsTrapCx tid area)

variable {b tid : Nat} {ids ids' : Nat → Prop}

theorem isTrapCx_new (few : tid ≤ 2 ^ 20) (entries : List (Nat × Nat)) :
    IsTrapCx tid
      ⟨2 ^ 27 - 2 - tid, 2 ^ 27 - 1 - tid, entries, .framed, ⟨true, true, false, false⟩⟩ := by
  unfold IsTrapCx
  simp only
  omega

theorem AtPlace.more (place : AtPlace b ids area) (more : ∀ other, ids other → ids' other) :
    AtPlace b ids' area := by
  refine place.imp_right ?_
  rintro ⟨other, isId, place⟩
  exact ⟨other, more other isId, place⟩

/-- The area lies apart from those of a thread with another id. -/
theorem AtPlace.apart {new : MapArea} (place : AtPlace b ids area) (low : b ≤ 2 ^ 25 + 1)
    (fewIds : ∀ other, ids other → other < 2 ^ 20) (few : tid ≤ 2 ^ 20) (free : ¬ ids tid)
    (isNew : IsUserStack b tid new ∨ IsTrapCx tid new) : area.Apart new := by
  intro vpn has hasNew
  simp only [MapArea.Has] at has hasNew
  unfold IsUserStack IsTrapCx at isNew
  rcases place with below | ⟨other, isId, place⟩
  · omega
  · have few' := fewIds other isId
    have differ : other ≠ tid := by
      rintro rfl
      exact free isId
    unfold IsUserStack IsTrapCx at place
    omega

/-- `dealloc_user_res` removes the areas that start at the stack and at the trap context. -/
theorem deallocUserRes_eq {s : Phys} {tid : Nat} (low : b ≤ 2 ^ 25 + 1) (few : tid ≤ 2 ^ 20) :
    set.deallocUserRes s (b * 4096) tid = (set.removeAreaWithStartVpn s (b + 3 * tid)).bind
      fun (s, set) => set.removeAreaWithStartVpn s (2 ^ 27 - 2 - tid) := by
  rw [MemorySet.deallocUserRes, (ustackBottom_eq low few).1, (trapCxBottom_eq few).1,
    pageAt_page, pageAt_page]
  rfl

theorem removeArea_wf {startVpn : Nat} (wf : set.Wf l tramp s)
    (h : set.removeAreaWithStartVpn s startVpn = some (s', set')) : set'.Wf l tramp s' := by
  obtain ⟨sameTable, -, shrunk⟩ := removeArea_spec wf h
  rw [MemorySet.Wf, sameTable]
  exact shrunk.wf

/-- The areas that `dealloc_user_res` leaves. -/
theorem deallocUserRes_areas (wf : set.Wf l tramp s) (low : b ≤ 2 ^ 25 + 1) (few : tid ≤ 2 ^ 20)
    (places : ∀ area ∈ set.areas, AtPlace b ids area)
    (h : set.deallocUserRes s (b * 4096) tid = some (s', set')) :
    ∃ mid without, set.removeAreaWithStartVpn s (b + 3 * tid) = some (mid, without) ∧
      without.removeAreaWithStartVpn mid (2 ^ 27 - 2 - tid) = some (s', set') ∧
      ∀ area, area ∈ set'.areas ↔
        area ∈ set.areas ∧ area.startVpn ∉ [b + 3 * tid, 2 ^ 27 - 2 - tid] := by
  rw [deallocUserRes_eq low few] at h
  obtain ⟨⟨mid, without⟩, isStack, isTrapCx⟩ := Option.bind_eq_some_iff.mp h
  simp only at isTrapCx
  -- only areas of threads start at these pages, and they have pages
  have nonempty : ∀ vpn, b ≤ vpn → ∀ area ∈ set.areas, area.startVpn = vpn → vpn < area.endVpn := by
    rintro vpn lower area mem rfl
    have le := (wf.shape area mem).le
    rcases places area mem with below | ⟨other, -, place⟩
    · omega
    · unfold IsUserStack IsTrapCx at place
      omega
  have remains : ∀ area, area ∈ without.areas ↔ area ∈ set.areas ∧ area.startVpn ≠ b + 3 * tid :=
    fun area => removeArea_mem_iff wf (nonempty _ (by omega)) isStack
  have remains' : ∀ area, area ∈ set'.areas ↔
      area ∈ without.areas ∧ area.startVpn ≠ 2 ^ 27 - 2 - tid :=
    fun area => removeArea_mem_iff (removeArea_wf wf isStack)
      (fun other mem => nonempty _ (by omega) other ((remains other).mp mem).1) isTrapCx
  refine ⟨mid, without, isStack, isTrapCx, fun area => ?_⟩
  rw [remains', remains]
  simp only [List.mem_cons, List.not_mem_nil, or_false, not_or, and_assoc]

/-- An area that `dealloc_user_res` leaves has its place without the id. -/
theorem AtPlace.remove (place : AtPlace b ids area)
    (stays : area.startVpn ∉ [b + 3 * tid, 2 ^ 27 - 2 - tid])
    (less : ∀ other, ids' other ↔ ids other ∧ other ≠ tid) : AtPlace b ids' area := by
  refine place.imp_right ?_
  rintro ⟨other, isId, place⟩
  refine ⟨other, (less other).mpr ⟨isId, ?_⟩, place⟩
  rintro rfl
  simp only [List.mem_cons, List.not_mem_nil, or_false] at stays
  unfold IsUserStack IsTrapCx at place
  omega

/-- The areas of other threads stay. -/
theorem stays_of_ne {other : Nat} (low : b ≤ 2 ^ 25 + 1) (few : tid < 2 ^ 20)
    (fewOther : other < 2 ^ 20)
    (differ : other ≠ tid) (place : IsUserStack b other area ∨ IsTrapCx other area) :
    area.startVpn ∉ [b + 3 * tid, 2 ^ 27 - 2 - tid] := by
  simp only [List.mem_cons, List.not_mem_nil, or_false]
  unfold IsUserStack IsTrapCx at place
  omega

end Areas

/-! ## The areas of the threads -/

/-- The threads of the process `id` have their stacks from the page `b` on, behind all other areas,
and their trap contexts below the trampoline. -/
structure Threads.Inv (l tramp id b : Nat) (k : Threads) (set : MemorySet) : Prop where
  machine : Machine.Inv l tramp k.machine
  endPpn : k.machine.phys.allocator.endPpn = 0x80800
  live : k.machine.live (.user id) = some set
  allocator : k.taskResAllocator.Ok
  few : k.taskResAllocator.current ≤ 2 ^ 20
  place : ∀ area ∈ set.areas, area.endVpn < b ∨
    ∃ tid, k.taskResAllocator.InUse tid ∧ (IsUserStack b tid area ∨ IsTrapCx tid area)
  trapCx : ∀ tid, k.taskResAllocator.InUse tid → ∃ area ∈ set.areas, IsTrapCx tid area

section Runs

variable {l tramp id b : Nat} {layout : KernelLayout} {k k' : Threads} {set : MemorySet}

theorem Threads.Inv.wf (inv : Threads.Inv l tramp id b k set) : set.Wf l tramp k.machine.phys :=
  (inv.machine.live inv.live).2.wf rfl

theorem Threads.Inv.framed (inv : Threads.Inv l tramp id b k set) : set.Framed :=
  (inv.machine.live inv.live).2.framed (by simp)

theorem Threads.Inv.inUse_le (inv : Threads.Inv l tramp id b k set) {tid : Nat}
    (inUse : k.taskResAllocator.InUse tid) : tid < 2 ^ 20 :=
  inUse.1.trans_le inv.few

/-- There are few threads, since each has the frame of its trap context. -/
theorem Threads.Inv.current_le (inv : Threads.Inv l tramp id b k set)
    (unrecycled : k.taskResAllocator.recycled = []) : k.taskResAllocator.current ≤ 0x80800 := by
  have page : ∀ tid, tid < k.taskResAllocator.current →
      ∃ ppn, (2 ^ 27 - 2 - tid, ppn) ∈ areaEntries set.areas := by
    intro tid below
    obtain ⟨area, mem, start, stop⟩ :=
      inv.trapCx tid ⟨below, by rw [unrecycled]; exact List.not_mem_nil⟩
    have has : area.Has (2 ^ 27 - 2 - tid) := by
      unfold MapArea.Has
      omega
    obtain ⟨ppn, isEntry, -⟩ := inv.wf.framedPage mem (inv.framed area mem) has
    exact ⟨ppn, isEntry⟩
  choose! frame isEntry using page
  have few := inv.few
  have nodup : ((List.range k.taskResAllocator.current).map frame).Nodup := by
    refine List.Nodup.map_on (fun tid below tid' below' same => ?_) List.nodup_range
    rw [List.mem_range] at below below'
    have entry := isEntry tid below
    rw [same] at entry
    have samePage := inv.wf.page_unique entry (isEntry tid' below')
    omega
  have inUse : ∀ ppn ∈ (List.range k.taskResAllocator.current).map frame,
      k.machine.phys.InUse l ppn := by
    intro ppn mem
    obtain ⟨tid, below, rfl⟩ := List.mem_map.mp mem
    exact (inv.wf.entry_inUse (isEntry tid (List.mem_range.mp below))).2.1
  have length := length_le_of_inUse inv.wf.table.ok nodup inUse
  rwa [List.length_map, List.length_range, inv.endPpn] at length

/-- The id of the next thread. -/
theorem Threads.Inv.alloc_le (inv : Threads.Inv l tramp id b k set) :
    k.taskResAllocator.alloc.1 ≤ 2 ^ 20 ∧ k.taskResAllocator.alloc.2.current ≤ 2 ^ 20 := by
  have few := inv.few
  rw [RecycleAllocator.alloc]
  cases recycled : k.taskResAllocator.recycled with
  | nil =>
      have le := inv.current_le recycled
      simp only
      omega
  | cons first rest =>
      have below := inv.allocator.bound first (by rw [recycled]; exact List.mem_cons_self)
      simp only
      omega

/-- The areas lie apart from those of a thread whose id is not in use. -/
theorem Threads.Inv.apart (inv : Threads.Inv l tramp id b k set) (low : b ≤ 2 ^ 25 + 1) {tid : Nat}
    (few : tid ≤ 2 ^ 20) (free : ¬ k.taskResAllocator.InUse tid) {new : MapArea}
    (isNew : IsUserStack b tid new ∨ IsTrapCx tid new) : ∀ other ∈ set.areas, other.Apart new :=
  fun other mem => AtPlace.apart (inv.place other mem) low (fun _ => inv.inUse_le) few free isNew

/-- The areas of a new thread are added. -/
theorem Threads.Inv.new (inv : Threads.Inv l tramp id b k set) (above : Above layout l tramp)
    (low : b ≤ 2 ^ 25 + 1) (h : k.new id (b * 4096) = some k') :
    ∃ set', Threads.Inv l tramp id b k' set' := by
  obtain ⟨old, isLive, h⟩ := Option.bind_eq_some_iff.mp h
  obtain ⟨⟨phys, set'⟩, isRes, rfl⟩ := Option.map_eq_some_iff.mp h
  obtain rfl := Option.some.inj (inv.live.symm.trans isLive)
  obtain ⟨fewNext, few⟩ := inv.alloc_le
  obtain ⟨ok, -, inUse⟩ := inv.allocator.alloc
  have run : k.machine.steps layout (userResEvents id (b * 4096) k.taskResAllocator.alloc.1) =
      some (k.machine.put phys (.user id) (some ⟨set', false⟩)) := by
    rw [steps_userResEvents inv.live, isRes]
    rfl
  obtain ⟨stack, trapCx, entries, entries', isStack, isTrapCx, isAreas⟩ :=
    allocUserRes_areas inv.wf isRes
  rw [newUserStack_eq low fewNext, Option.some.injEq] at isStack
  rw [newTrapCx_eq fewNext, Option.some.injEq] at isTrapCx
  subst isStack isTrapCx
  refine ⟨set', inv.machine.steps above run, (inv.machine.steps_endPpn above run).trans inv.endPpn,
    Machine.live_eq_some.mpr (k.machine.put_spaces_self _ _ _), ok, few, ?_, ?_⟩
  · intro area mem
    rw [isAreas, List.mem_append] at mem
    rcases mem with isOld | isNew
    · exact AtPlace.more (inv.place area isOld) fun other isUsed => (inUse other).mpr (.inl isUsed)
    · refine .inr ⟨k.taskResAllocator.alloc.1, (inUse _).mpr (.inr rfl), ?_⟩
      simp only [List.mem_cons, List.not_mem_nil, or_false] at isNew
      rcases isNew with rfl | rfl
      · exact .inl ⟨rfl, rfl⟩
      · exact .inr (isTrapCx_new fewNext _)
  · intro tid isUsed
    rw [isAreas]
    rcases (inUse tid).mp isUsed with isUsed | rfl
    · obtain ⟨area, mem, isTrapCx⟩ := inv.trapCx tid isUsed
      exact ⟨area, List.mem_append_left _ mem, isTrapCx⟩
    · exact ⟨_, List.mem_append_right _ (List.mem_cons_of_mem _ List.mem_cons_self),
        isTrapCx_new fewNext _⟩

/-- With three free frames for each of its pages, a new thread gets its areas. -/
theorem Threads.Inv.new_isSome (inv : Threads.Inv l tramp id b k set) (low : b ≤ 2 ^ 25 + 1)
    (enough : 9 ≤ k.machine.phys.freeFrames) : (k.new id (b * 4096)).isSome := by
  obtain ⟨few, -⟩ := inv.alloc_le
  obtain ⟨-, free, -⟩ := inv.allocator.alloc
  have isStack := newUserStack_eq low few
  have isTrapCx := newTrapCx_eq few
  obtain ⟨isNew, framed, -⟩ := newArea_spec isStack
  obtain ⟨isNew', framed', -⟩ := newArea_spec isTrapCx
  simp only [Threads.new, inv.live, Option.bind_some, Option.isSome_map, MemorySet.allocUserRes,
    MemorySet.insertFramedArea, isStack, isTrapCx]
  generalize k.taskResAllocator.alloc.1 = tid at *
  have apart : ∀ other ∈ set.areas, other.Apart ⟨b + 3 * tid, b + 3 * tid + 2, [], .framed,
      ⟨true, true, false, true⟩⟩ := inv.apart low few free (.inl ⟨rfl, rfl⟩)
  have apart' : ∀ other ∈ set.areas, other.Apart ⟨2 ^ 27 - 2 - tid, 2 ^ 27 - 1 - tid, [], .framed,
      ⟨true, true, false, false⟩⟩ :=
    inv.apart low few free (.inr (isTrapCx_new few []))
  obtain ⟨⟨mid, withStack⟩, isPushed, takes⟩ :=
    push_takes inv.wf isNew framed (by simp only; omega) apart (by simp only; omega)
  obtain ⟨⟨entries, isAreas⟩, step⟩ := push_spec inv.wf isNew isPushed
  simp only at takes
  have apartBoth :
      ∀ other ∈ withStack.areas, other.Apart ⟨2 ^ 27 - 2 - tid, 2 ^ 27 - 1 - tid, [], .framed,
      ⟨true, true, false, false⟩⟩ := by
    intro other mem
    rw [isAreas] at mem
    rcases List.mem_append.mp mem with isOld | isLast
    · exact apart' other isOld
    · rw [List.mem_singleton.mp isLast]
      intro vpn has hasNew
      simp only [MapArea.Has] at has hasNew
      omega
  obtain ⟨last, isLast, -⟩ := push_takes step.wf isNew' framed' (by simp only; omega) apartBoth
    (by simp only; omega)
  rw [isPushed, Option.bind_some, isLast]
  rfl

/-- The machine after two areas of a process are removed. -/
theorem steps_removeAreas {k : Machine} {mid phys : Phys} {first second : Nat}
    {without set' : MemorySet} (isLive : k.live (.user id) = some set)
    (isFirst : set.removeAreaWithStartVpn k.phys first = some (mid, without))
    (isSecond : without.removeAreaWithStartVpn mid second = some (phys, set')) :
    k.steps layout
    [.removeAreaWithStartVpn (.user id) first, .removeAreaWithStartVpn (.user id) second] =
      some (k.put phys (.user id) (some ⟨set', false⟩)) := by
  have nowLive : (k.put mid (.user id) (some ⟨without, false⟩)).live (.user id) = some without :=
    Machine.live_eq_some.mpr (k.put_spaces_self _ _ _)
  simp only [Machine.steps, Machine.step, isLive, Option.bind_some, isFirst,
    Option.map_some, nowLive, Machine.put_phys, isSecond]
  simp only [Machine.put, Function.update_idem]

/-- The areas of a thread that exits are removed. -/
theorem Threads.Inv.drop (inv : Threads.Inv l tramp id b k set) (above : Above layout l tramp)
    (low : b ≤ 2 ^ 25 + 1) {tid : Nat} (h : k.drop id (b * 4096) tid = some k') :
    ∃ set', Threads.Inv l tramp id b k' set' := by
  obtain ⟨allocator, isDealloc, h⟩ := Option.bind_eq_some_iff.mp h
  obtain ⟨old, isLive, h⟩ := Option.bind_eq_some_iff.mp h
  obtain ⟨⟨phys, set'⟩, isRes, rfl⟩ := Option.map_eq_some_iff.mp h
  obtain rfl := Option.some.inj (inv.live.symm.trans isLive)
  obtain ⟨ok, -⟩ := inv.allocator.dealloc isDealloc
  rw [RecycleAllocator.dealloc] at isDealloc
  split at isDealloc
  · next wasUsed =>
    obtain rfl := Option.some.inj isDealloc
    have fewTid := inv.inUse_le wasUsed
    have inUse : ∀ other, RecycleAllocator.InUse
        { k.taskResAllocator with recycled := tid :: k.taskResAllocator.recycled } other ↔
        k.taskResAllocator.InUse other ∧ other ≠ tid := by
      intro other
      simp only [RecycleAllocator.InUse, List.mem_cons, not_or]
      tauto
    obtain ⟨mid, without, isStack, isTrapCx, remain⟩ :=
      deallocUserRes_areas inv.wf low fewTid.le inv.place isRes
    have run : k.machine.steps layout [.removeAreaWithStartVpn (.user id) (b + 3 * tid),
        .removeAreaWithStartVpn (.user id) (2 ^ 27 - 2 - tid)] = _ :=
      steps_removeAreas inv.live isStack isTrapCx
    refine ⟨set', inv.machine.steps above run,
      (inv.machine.steps_endPpn above run).trans inv.endPpn,
      Machine.live_eq_some.mpr (k.machine.put_spaces_self _ _ _), ok, inv.few, ?_, ?_⟩
    · intro area mem
      obtain ⟨mem, stays⟩ := (remain area).mp mem
      exact AtPlace.remove (inv.place area mem) stays inUse
    · intro other isUsed
      obtain ⟨isUsed, differ⟩ := (inUse other).mp isUsed
      obtain ⟨area, mem, isTrapCx⟩ := inv.trapCx other isUsed
      have stays := stays_of_ne low fewTid (inv.inUse_le isUsed) differ (.inr isTrapCx)
      exact ⟨area, (remain area).mpr ⟨mem, stays⟩, isTrapCx⟩
  · exact absurd isDealloc (by simp)

/-- A step of the threads or of the rest of the machine. -/
theorem Threads.Inv.step (inv : Threads.Inv l tramp id b k set) (above : Above layout l tramp)
    (low : b ≤ 2 ^ 25 + 1) {event : ThreadsEvent}
    (h : k.step layout id (b * 4096) event = some k') :
    ∃ set', Threads.Inv l tramp id b k' set' := by
  cases event with
  | new => exact inv.new above low h
  | drop tid => exact inv.drop above low h
  | other event =>
      obtain ⟨machine, taken, h⟩ := Option.bind_eq_some_iff.mp h
      split at h
      · next same =>
        obtain rfl := Option.some.inj h
        obtain ⟨invMachine, endPpn⟩ := inv.machine.step_spec above taken
        exact ⟨set, invMachine, endPpn.trans inv.endPpn, same.trans inv.live,
          inv.allocator, inv.few, inv.place, inv.trapCx⟩
      · exact absurd h (by simp)

theorem Threads.Inv.steps {events : List ThreadsEvent} (inv : Threads.Inv l tramp id b k set)
    (above : Above layout l tramp) (low : b ≤ 2 ^ 25 + 1)
    (h : k.steps layout id (b * 4096) events = some k') :
    ∃ set', Threads.Inv l tramp id b k' set' := by
  induction events generalizing k set with
  | nil =>
      obtain rfl := Option.some.inj h
      exact ⟨set, inv⟩
  | cons event events ih =>
      obtain ⟨next, taken, h⟩ := Option.bind_eq_some_iff.mp h
      obtain ⟨set', inv'⟩ := inv.step above low taken
      exact ih inv' h

end Runs

/-! ## The base -/

theorem foldl_endVpn_le {segments : List Segment} {start n : Nat} (le : start ≤ n)
    (each : ∀ ph ∈ segments, ph.endVpn ≤ n) : segments.foldl (fun _ ph => ph.endVpn) start ≤ n := by
  induction segments generalizing start with
  | nil => exact le
  | cons ph segments ih =>
      exact ih (each ph List.mem_cons_self) fun other mem => each other (List.mem_cons_of_mem _ mem)

/-- In every state that a run of the machine reaches, the base of the user stacks that `from_elf`
returns for a program below `2 ^ 37` lies above the program exactly when no segment ends behind the
last one. -/
theorem ustackBase_above_iff {layout : KernelLayout} {booted k : Machine} (mem : Memory)
    (boot : Machine.boot mem layout = some booted) (events : List SpaceEvent)
    (run : booted.steps layout events = some k) {id : Nat}
    (free : k.spaces (.user id) = none) {elf : Elf}
    (below : ∀ ph ∈ elf.segments, ph.virtualAddr + ph.memSize ≤ 2 ^ 37) {s : Phys} {set : MemorySet}
    {ustackBase entryPoint : Nat}
    (built : MemorySet.fromElf k.phys layout.strampoline elf =
      some (s, set, ustackBase, entryPoint)) :
    BaseAbove layout (k.put s (.user id) (some ⟨set, false⟩)) id ustackBase set elf ↔
      ∀ ph ∈ elf.segments, ph.endVpn ≤ elf.maxEndVpn := by
  obtain ⟨inv, above⟩ := Machine.inv_boot boot
  have invK := inv.steps above run
  obtain ⟨wf, -, -⟩ := fromElf_spec invK.ok above.small above.low above.isTramp built
  obtain ⟨_, _, _, start, maxEndVpn, -, -, noAreas, framedStart, wfStart, -, isPushed, isBase⟩ :=
    fromElf_parts invK.ok above.small above.isTramp built
  obtain ⟨pages, ranges, isEnd, -⟩ :=
    pushSegments_areas wfStart framedStart above.small above.low isPushed
  simp only [noAreas, List.not_mem_nil, false_and, exists_false, false_or] at pages ranges
  have isMax : maxEndVpn = elf.maxEndVpn := isEnd
  subst isMax
  have small : ∀ ph ∈ elf.segments, ph.endVpn ≤ 2 ^ 25 := by
    intro ph isSegment
    have bound := below ph isSegment
    unfold Segment.endVpn ceil virtAddr
    split <;> omega
  have low : elf.maxEndVpn ≤ 2 ^ 25 := foldl_endVpn_le (Nat.zero_le _) small
  rw [usizeOfVirtAddr_low (by omega)] at isBase
  have isPage : ustackBase = (elf.maxEndVpn + 1) * 4096 := by omega
  subst isPage
  constructor
  · intro base ph isSegment
    have le := base.above ph isSegment
    omega
  · intro last
    have step :
        k.step layout (.fromElf id elf) = some (k.put s (.user id) (some ⟨set, false⟩)) := by
      simp [Machine.step, free, built]
    obtain ⟨invNew, endPpn⟩ := invK.step_spec above step
    have start : Threads.Inv (firstFrame layout) (trampolineFrame layout) id (elf.maxEndVpn + 1)
        ⟨k.put s (.user id) (some ⟨set, false⟩), .new⟩ set := by
      refine ⟨invNew, endPpn.trans ((inv.steps_endPpn above run).trans (Machine.boot_endPpn boot)),
        Machine.live_eq_some.mpr (k.put_spaces_self _ _ _),
        ⟨List.nodup_nil, by simp [RecycleAllocator.new]⟩,
        Nat.zero_le _, fun area isArea => ?_, fun tid inUse => absurd inUse.1 (Nat.not_lt_zero _)⟩
      obtain ⟨ph, isSegment, -, stop⟩ := ranges area isArea
      rw [stop]
      exact .inl (Nat.lt_succ_of_le (last ph isSegment))
    refine ⟨by omega, fun ph isSegment => ?_, ?_, fun history k' runs => ?_⟩
    · have le := last ph isSegment
      omega
    · have isVpn : floor (virtAddr ((elf.maxEndVpn + 1) * 4096 - 4096)) = elf.maxEndVpn := by
        unfold floor virtAddr
        omega
      rw [isVpn]
      refine wf.onNone _ (by omega) fun area isArea has => ?_
      obtain ⟨ph, isSegment, has⟩ := (pages _).mp ⟨area, isArea, has⟩
      exact absurd (last ph isSegment) (Nat.not_le.mpr has.2)
    · obtain ⟨set', inv'⟩ := start.steps above (by omega) runs
      refine ⟨fun vpn onStack ph isSegment has => ?_, inv'.new_isSome (by omega)⟩
      have lower := ((onUserStack_iff (by omega) inv'.alloc_le.1).mp onStack).1
      have upper := has.2
      have le := last ph isSegment
      omega

/-- A program of two pages, the one of the code below that of the data. -/
def codeThenData : Elf :=
  ⟨[⟨0x10000, 0x1000, true, false, true, [19]⟩, ⟨0x12000, 0x800, true, true, false, [1]⟩], 0x10000⟩

/-- Its stacks start above the data. -/
theorem ustackBase_above_codeThenData : ∃ booted s set entryPoint,
    Machine.boot (fun _ => 0) tinyLayout = some booted ∧
    MemorySet.fromElf booted.phys tinyLayout.strampoline codeThenData =
    some (s, set, 0x14000, entryPoint) ∧
    BaseAbove tinyLayout (booted.put s (.user 0) (some ⟨set, false⟩))
    0 0x14000 set codeThenData := by
  have present : ((Machine.boot (fun _ => 0) tinyLayout).bind fun k =>
      (MemorySet.fromElf k.phys tinyLayout.strampoline codeThenData).map fun built =>
        ((k.spaces (.user 0)).isNone, built.2.2.1)) = some (true, 0x14000) := by decide +kernel
  obtain ⟨booted, boot, present⟩ := Option.bind_eq_some_iff.mp present
  obtain ⟨⟨s, set, base, entryPoint⟩, built, isBase⟩ := Option.map_eq_some_iff.mp present
  obtain ⟨free, rfl⟩ := Prod.mk.inj isBase
  refine ⟨booted, s, set, entryPoint, boot, built, ?_⟩
  exact (ustackBase_above_iff _ boot [] rfl (Option.isNone_iff_eq_none.mp free)
    (by decide) built).mpr (by decide)

/-- The same program with its headers the other way round. -/
def dataThenCode : Elf := ⟨codeThenData.segments.reverse, 0x10000⟩

/-- The stack of the main thread is to be mapped onto the data: `alloc_user_res` panics, with more
than enough frames. -/
theorem ustackBase_dataThenCode : ∃ booted s set entryPoint,
    Machine.boot (fun _ => 0) tinyLayout = some booted ∧
    MemorySet.fromElf booted.phys tinyLayout.strampoline dataThenCode =
    some (s, set, 0x12000, entryPoint) ∧
    9 ≤ s.freeFrames ∧ set.allocUserRes s 0x12000 mainTid = none ∧
    ¬ BaseAbove tinyLayout (booted.put s (.user 0) (some ⟨set, false⟩))
    0 0x12000 set dataThenCode := by
  have present : ((Machine.boot (fun _ => 0) tinyLayout).bind fun k =>
      (MemorySet.fromElf k.phys tinyLayout.strampoline dataThenCode).map fun built =>
        (built.2.2.1, decide (9 ≤ built.1.freeFrames),
          (built.2.1.allocUserRes built.1 0x12000 mainTid).isNone)) =
          some (0x12000, true, true) := by
    decide +kernel
  obtain ⟨booted, boot, present⟩ := Option.bind_eq_some_iff.mp present
  obtain ⟨⟨s, set, base, entryPoint⟩, built, result⟩ := Option.map_eq_some_iff.mp present
  simp only [Prod.mk.injEq] at result
  obtain ⟨rfl, enough, stops⟩ := result
  refine ⟨booted, s, set, entryPoint, boot, built, of_decide_eq_true enough,
    Option.isNone_iff_eq_none.mp stops, fun base => ?_⟩
  exact absurd (base.above _ List.mem_cons_self) (by decide)

end CoreFromDust.Os.Mm
