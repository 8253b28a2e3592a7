import CoreFromDust.Lib.FreeStack
import CoreFromDust.Os.Proofs.Placement

/-!
# Dense ids

Runs of one of the allocators `PID_ALLOCATOR`, `KSTACK_ALLOCATOR` and `task_res_allocator`. An id is
live from `alloc` on until it is deallocated, as by the drop of its `PidHandle`. As long as only
live ids are deallocated, the live ids and the recycled ones share out the range up to `current`,
and `current` is the greatest number of ids that were ever live together.
-/

namespace CoreFromDust.Os

/-- An allocator, the ids that are live, and the greatest number of them in the run so far. -/
structure Issued where
  allocator : RecycleAllocator
  live : List Nat
  peak : Nat

/-- A call of the allocator. -/
inductive IdEvent where
  | alloc
  | dealloc (id : Nat)
  deriving DecidableEq

namespace Issued

/-- A new allocator. -/
def start : Issued := ⟨.new, [], 0⟩

/-- One call; `none` is a failed assertion of `dealloc`. -/
def step (s : Issued) : IdEvent → Option Issued
  | .alloc =>
      some ⟨s.allocator.alloc.2, s.allocator.alloc.1 :: s.live, max s.peak (s.live.length + 1)⟩
  | .dealloc id =>
      (s.allocator.dealloc id).map fun allocator => ⟨allocator, s.live.erase id, s.peak⟩

/-- A sequence of calls. -/
def steps (s : Issued) : List IdEvent → Option Issued
  | [] => some s
  | event :: events => (s.step event).bind fun s => s.steps events

/-- Only live ids are deallocated. -/
def OnlyLive (s : Issued) : List IdEvent → Prop
  | [] => True
  | event :: events =>
      (∀ id, event = .dealloc id → id ∈ s.live) ∧ ∀ s', s.step event = some s' → OnlyLive s' events

/-- The live ids and the recycled ones share out the range up to `current`, which is the peak, and
the next id is below the peak that it makes. -/
structure Dense (s : Issued) : Prop where
  liveNodup : s.live.Nodup
  recycledNodup : s.allocator.recycled.Nodup
  disjoint : ∀ id ∈ s.live, id ∉ s.allocator.recycled
  shared : ∀ id, id ∈ s.live ∨ id ∈ s.allocator.recycled ↔ id < s.allocator.current
  peak : s.allocator.current = s.peak
  next : s.allocator.alloc.1 ∉ s.live ∧ s.allocator.alloc.1 < max s.peak (s.live.length + 1)
  dealloc : ∀ id, (s.allocator.dealloc id).isSome ↔ id ∈ s.live

/-- The live ids are those that the allocator has handed out. -/
structure Inv (s : Issued) : Prop where
  ok : s.allocator.Ok
  nodup : s.live.Nodup
  inUse : ∀ id, id ∈ s.live ↔ s.allocator.InUse id
  peak : s.allocator.current = s.peak

variable {s s' : Issued} {event : IdEvent}

theorem inv_start : start.Inv where
  ok := ⟨List.nodup_nil, fun _ mem => absurd mem List.not_mem_nil⟩
  nodup := List.nodup_nil
  inUse := by
    intro id
    exact ⟨fun mem => absurd mem List.not_mem_nil, fun inUse => absurd inUse.1 (Nat.not_lt_zero _)⟩
  peak := rfl

/-- Every id below `current` is live or recycled. -/
theorem Inv.length (inv : s.Inv) :
    s.live.length + s.allocator.recycled.length = s.allocator.current := by
  have stack : Lib.FreeStack.Ok 0 s.allocator.current s.allocator.recycled :=
    ⟨Nat.zero_le _, inv.ok.nodup, fun id mem => ⟨Nat.zero_le _, inv.ok.bound id mem⟩⟩
  have inUse : ∀ id, id ∈ s.live ↔
      Lib.FreeStack.InUse 0 s.allocator.current s.allocator.recycled id := by
    intro id
    rw [inv.inUse, Lib.FreeStack.InUse, RecycleAllocator.InUse]
    exact (and_iff_right (Nat.zero_le _)).symm
  exact stack.length_add_length inv.nodup inUse

theorem Inv.alloc (inv : s.Inv) (h : s.step .alloc = some s') : s'.Inv := by
  obtain rfl := Option.some.inj h
  obtain ⟨ok, fresh, inUse⟩ := inv.ok.alloc
  refine ⟨ok, List.nodup_cons.mpr ⟨fun mem => fresh ((inv.inUse _).mp mem), inv.nodup⟩, ?_, ?_⟩
  · intro id
    rw [inUse, List.mem_cons, inv.inUse]
    exact or_comm
  · have length := inv.length
    have peak := inv.peak
    simp only [RecycleAllocator.alloc]
    cases recycled : s.allocator.recycled with
    | nil =>
        -- all ids below `current` are live
        rw [recycled, List.length_nil] at length
        simp only
        omega
    | cons id rest =>
        rw [recycled, List.length_cons] at length
        simp only
        omega

theorem Inv.dealloc {id : Nat} (inv : s.Inv) (isLive : id ∈ s.live) :
    ∃ s', s.step (.dealloc id) = some s' ∧ s'.Inv := by
  have inUse := (inv.inUse id).mp isLive
  have done : s.allocator.dealloc id =
      some ⟨s.allocator.current, id :: s.allocator.recycled⟩ := if_pos inUse
  refine ⟨⟨⟨s.allocator.current, id :: s.allocator.recycled⟩, s.live.erase id, s.peak⟩, ?_,
    (inv.ok.dealloc done).1, inv.nodup.erase id, ?_, inv.peak⟩
  · rw [step, done, Option.map_some]
  · intro other
    rw [inv.nodup.mem_erase_iff, inv.inUse]
    simp only [RecycleAllocator.InUse, List.mem_cons, not_or]
    tauto

/-- A call on a live id does not panic, and each call keeps the invariant. -/
theorem Inv.step (inv : s.Inv) (live : ∀ id, event = .dealloc id → id ∈ s.live) :
    ∃ s', s.step event = some s' ∧ s'.Inv := by
  cases event with
  | alloc => exact ⟨_, rfl, inv.alloc rfl⟩
  | dealloc id => exact inv.dealloc (live id rfl)

theorem Inv.steps {events : List IdEvent} (inv : s.Inv) (live : s.OnlyLive events) :
    ∃ s', s.steps events = some s' ∧ s'.Inv := by
  induction events generalizing s with
  | nil => exact ⟨s, rfl, inv⟩
  | cons event events ih =>
      obtain ⟨next, taken, invNext⟩ := inv.step live.1
      obtain ⟨last, run, invLast⟩ := ih invNext (live.2 next taken)
      exact ⟨last, by rw [Issued.steps, taken, Option.bind_some, run], invLast⟩

theorem Inv.dense (inv : s.Inv) : s.Dense := by
  have fresh : s.allocator.alloc.1 ∉ s.live := fun mem => inv.ok.alloc.2.1 ((inv.inUse _).mp mem)
  refine ⟨inv.nodup, inv.ok.nodup, fun id mem => ((inv.inUse id).mp mem).2, ?_, inv.peak,
    ⟨fresh, ?_⟩, ?_⟩
  · intro id
    constructor
    · rintro (isLive | recycled)
      · exact ((inv.inUse id).mp isLive).1
      · exact inv.ok.bound id recycled
    · intro below
      by_cases recycled : id ∈ s.allocator.recycled
      · exact .inr recycled
      · exact .inl ((inv.inUse id).mpr ⟨below, recycled⟩)
  · have after := inv.alloc rfl
    have peak : s.allocator.alloc.2.current = max s.peak (s.live.length + 1) := after.peak
    rw [← peak]
    exact ((after.inUse _).mp List.mem_cons_self).1
  · intro id
    rw [inv.inUse, RecycleAllocator.InUse, RecycleAllocator.dealloc]
    split
    · next inUse => exact iff_of_true rfl inUse
    · next free => exact iff_of_false Bool.false_ne_true free

end Issued

/-- In every sequence of calls that deallocates live ids only, no assertion fails and the ids are
dense. -/
theorem ids_dense (events : List IdEvent) (live : Issued.start.OnlyLive events) :
    ∃ s, Issued.start.steps events = some s ∧ s.Dense := by
  obtain ⟨s, run, inv⟩ := Issued.inv_start.steps live
  exact ⟨s, run, inv.dense⟩

/-- Three ids, of which the first goes back and is handed out again. -/
theorem ids_dense_reuse :
    ∃ s, Issued.start.steps [.alloc, .alloc, .alloc, .dealloc 0, .alloc] = some s ∧
    s.live = [0, 2, 1] ∧ s.peak = 3 ∧ s.Dense := by
  have live : Issued.start.OnlyLive [.alloc, .alloc, .alloc, .dealloc 0, .alloc] := by
    simp [Issued.OnlyLive, Issued.step, Issued.start, RecycleAllocator.alloc, RecycleAllocator.new]
  obtain ⟨s, run, dense⟩ := ids_dense _ live
  obtain rfl := Option.some.inj run
  exact ⟨_, rfl, by decide, by decide, dense⟩

end CoreFromDust.Os
