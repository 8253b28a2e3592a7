import CoreFromDust.Os.Mm.FrameAllocator

/-!
# Frame exclusivity

Runs of the frame allocator: frames are allocated, trackers are dropped, each at most once, and
memory is written in between. The frames of the trackers that exist and the recycled frames
share out the range from the first frame to `current`.
-/

namespace CoreFromDust.Os.Mm

/-- The memory, and the frames of the `FrameTracker`s that exist. -/
structure Tracked where
  phys : Phys
  live : List Nat

/-- What happens in a run of the allocator. -/
inductive FrameEvent where
  /-- `frame_alloc` -/
  | alloc
  /-- one of the trackers is dropped -/
  | drop (index : Nat)
  /-- somebody writes to memory -/
  | write (address : Nat) (byte : UInt8)
  deriving DecidableEq

namespace Tracked

/-- The allocator with the range `[l, r)`. -/
def start (mem : Memory) (l r : Nat) : Tracked := ⟨⟨mem, StackFrameAllocator.new.init l r⟩, []⟩

/-- One step of a run; `none` is the panic of `dealloc`. -/
def step (s : Tracked) : FrameEvent → Option Tracked
  | .alloc =>
      match s.phys.frameAlloc with
      | none => some s
      | some (ppn, phys) => some ⟨phys, ppn :: s.live⟩
  | .drop index =>
      match s.live[index]? with
      | none => some s
      | some ppn => (s.phys.frameDealloc ppn).map fun phys => ⟨phys, s.live.eraseIdx index⟩
  | .write address byte =>
      some { s with phys := { s.phys with mem := Function.update s.phys.mem address byte } }

/-- A run. -/
def steps (s : Tracked) : List FrameEvent → Option Tracked
  | [] => some s
  | event :: events => (s.step event).bind fun s => s.steps events

/-- The trackers are the frames in use. -/
structure Inv (l r : Nat) (s : Tracked) : Prop where
  ok : s.phys.Ok l
  endPpn : s.phys.allocator.endPpn = r
  nodup : s.live.Nodup
  inUse : ∀ ppn, ppn ∈ s.live ↔ s.phys.InUse l ppn

variable {l r : Nat} {s : Tracked}

theorem inv_start (mem : Memory) (ordered : l ≤ r) (small : r ≤ 2 ^ 44) :
    Inv l r (start mem l r) where
  ok := ⟨Lib.FreeStack.Ok.new l, ordered, small⟩
  endPpn := rfl
  nodup := List.nodup_nil
  inUse := by
    intro ppn
    exact ⟨fun mem => absurd mem List.not_mem_nil,
      fun inUse => absurd inUse (Lib.FreeStack.not_inUse_new l ppn)⟩

/-- No step panics, and each keeps the invariant. -/
theorem Inv.step (inv : Inv l r s) (event : FrameEvent) :
    ∃ s', s.step event = some s' ∧ Inv l r s' := by
  cases event with
  | alloc =>
      cases found : s.phys.frameAlloc with
      | none => exact ⟨s, by simp only [Tracked.step, found], inv⟩
      | some result =>
          obtain ⟨ppn, phys⟩ := result
          have alloc := Phys.frameAlloc_spec inv.ok found
          refine ⟨⟨phys, ppn :: s.live⟩, by simp only [Tracked.step, found], alloc.ok,
            alloc.endPpn.trans inv.endPpn, ?_, ?_⟩
          · refine List.nodup_cons.mpr ⟨fun mem => ?_, inv.nodup⟩
            exact alloc.fresh ((inv.inUse ppn).mp mem)
          · intro other
            rw [alloc.inUse, List.mem_cons, inv.inUse, or_comm]
  | drop index =>
      cases found : s.live[index]? with
      | none => exact ⟨s, by simp only [Tracked.step, found], inv⟩
      | some ppn =>
          have mem : ppn ∈ s.live := List.mem_of_getElem? found
          obtain ⟨phys, done, freed⟩ := Phys.frameDealloc_spec inv.ok ((inv.inUse ppn).mp mem)
          obtain ⟨below, isPpn⟩ := List.getElem?_eq_some_iff.mp found
          have erased : s.live.eraseIdx index = s.live.erase ppn := by
            rw [← isPpn, List.Nodup.erase_getElem inv.nodup]
          refine ⟨⟨phys, s.live.eraseIdx index⟩,
            by simp only [Tracked.step, found, done, Option.map_some], freed.ok,
            freed.endPpn.trans inv.endPpn, inv.nodup.eraseIdx index, ?_⟩
          intro other
          rw [freed.inUse, erased, inv.nodup.mem_erase_iff, inv.inUse, and_comm]
  | write address byte =>
      exact ⟨_, rfl, ⟨inv.ok.stack, inv.ok.le, inv.ok.small⟩, inv.endPpn, inv.nodup, inv.inUse⟩

theorem Inv.steps (inv : Inv l r s) (events : List FrameEvent) :
    ∃ s', s.steps events = some s' ∧ Inv l r s' := by
  induction events generalizing s with
  | nil => exact ⟨s, rfl, inv⟩
  | cons event events ih =>
      obtain ⟨next, taken, invNext⟩ := inv.step event
      obtain ⟨last, run, invLast⟩ := ih invNext
      exact ⟨last, by rw [Tracked.steps, taken, Option.bind_some, run], invLast⟩

/-- The frames between `l` and `current` are shared out between the trackers and `recycled`, and
`frame_alloc` returns clean frames of the range until all of them have trackers. -/
structure Exclusive (l r : Nat) (s : Tracked) : Prop where
  recycledNodup : s.phys.allocator.recycled.Nodup
  recycledRange : ∀ ppn ∈ s.phys.allocator.recycled, l ≤ ppn ∧ ppn < s.phys.allocator.current
  liveNodup : s.live.Nodup
  disjoint : ∀ ppn ∈ s.live, ppn ∉ s.phys.allocator.recycled
  shared : ∀ ppn, ppn ∈ s.live ∨ ppn ∈ s.phys.allocator.recycled ↔
    l ≤ ppn ∧ ppn < s.phys.allocator.current
  returned : ∀ ppn phys, s.phys.frameAlloc = some (ppn, phys) →
    l ≤ ppn ∧ ppn < r ∧ ∀ offset < 4096, phys.mem.bytes ppn offset = 0
  deallocs : ∀ ppn ∈ s.live, (s.phys.frameDealloc ppn).isSome
  exhausted : s.phys.frameAlloc = none ↔ s.live.length = r - l

theorem Inv.shared (inv : Inv l r s) (ppn : Nat) :
    ppn ∈ s.live ∨ ppn ∈ s.phys.allocator.recycled ↔ l ≤ ppn ∧ ppn < s.phys.allocator.current := by
  constructor
  · rintro (isLive | isFree)
    · have inUse := (inv.inUse ppn).mp isLive
      exact ⟨inUse.1, inUse.2.1⟩
    · exact inv.ok.stack.bound ppn isFree
  · rintro ⟨lower, upper⟩
    by_cases isFree : ppn ∈ s.phys.allocator.recycled
    · exact .inr isFree
    · exact .inl ((inv.inUse ppn).mpr ⟨lower, upper, isFree⟩)

/-- `frame_alloc` fails exactly when every frame of the range has a tracker. -/
theorem Inv.exhausted (inv : Inv l r s) :
    s.phys.frameAlloc = none ↔ s.live.length = r - l := by
  have total := inv.ok.stack.length_add_length inv.nodup inv.inUse
  have start := inv.ok.stack.le
  have le := inv.ok.le
  have isEnd := inv.endPpn
  rw [Phys.frameAlloc_eq_none, ← List.length_eq_zero_iff]
  omega

theorem Inv.exclusive (inv : Inv l r s) : Exclusive l r s where
  recycledNodup := inv.ok.stack.nodup
  recycledRange := inv.ok.stack.bound
  liveNodup := inv.nodup
  disjoint := fun ppn mem => ((inv.inUse ppn).mp mem).2.2
  shared := inv.shared
  returned := by
    intro ppn phys found
    have alloc := Phys.frameAlloc_spec inv.ok found
    have range := ((alloc.inUse ppn).mpr (.inr rfl)).lt alloc.ok
    rw [alloc.endPpn, inv.endPpn] at range
    refine ⟨range.1, range.2.1, fun offset bound => ?_⟩
    rw [alloc.mem, Memory.bytes_fill _ _ bound]
  deallocs := by
    intro ppn mem
    obtain ⟨phys, done, -⟩ := Phys.frameDealloc_spec inv.ok ((inv.inUse ppn).mp mem)
    rw [done, Option.isSome_some]
  exhausted := inv.exhausted

/-- In every run from an initialised range no `dealloc` panics, and the frames are shared out. -/
theorem frames_exclusive (mem : Memory) (l r : Nat) (ordered : l ≤ r) (small : r ≤ 2 ^ 44)
    (events : List FrameEvent) :
    ∃ s, (start mem l r).steps events = some s ∧ Exclusive l r s := by
  obtain ⟨s, run, inv⟩ := (inv_start mem ordered small).steps events
  exact ⟨s, run, inv.exclusive⟩

theorem frames_exclusive_three : ∃ s, (start (fun _ => 7) 3 6).steps
    [.alloc, .alloc, .drop 1, .write 12300 1, .alloc, .alloc, .alloc] = some s ∧ Exclusive 3 6 s :=
  frames_exclusive (fun _ => 7) 3 6 (by decide) (by decide) _

end Tracked

end CoreFromDust.Os.Mm
