import CoreFromDust.Lib.Drain
import CoreFromDust.Os.Task
import Mathlib.Algebra.Group.Int.Defs
import Mathlib.Tactic.SplitIfs

/-!
# The queue of timers

`check_timer` drains `TIMERS` as long as the first entry has expired. `BinaryHeap` orders the
entries by the negated expiration time as an `isize`, and `check_timer` compares the time as a
`usize`. From `2 ^ 63` on the two orders differ: such an entry comes before the earlier ones and
hides them.
-/

namespace CoreFromDust.Os

open Kernel Lib

/-! ## Calls -/

/-- A call that works on `TIMERS`. -/
inductive TimerCall where
  /-- `add_timer` of the thread by `sys_sleep`, at the time `now` -/
  | sleep (now ms : UInt64) (task : TaskId)
  | removeTimer (task : TaskId)
  /-- `check_timer` at the time `now`; `due` are the entries in the order in which they expire -/
  | checkTimer (now : UInt64) (due : List TimerCondVar)

/-- The kernel after a call. -/
def Kernel.timerCall (k : Kernel) : TimerCall → Option Kernel
  | .sleep now ms task => some (k.addTimer (now + ms) task)
  | .removeTimer task => some (k.removeTimer task)
  | .checkTimer now due => checkTimer now due k

/-- `check_timer` at the time `now` wakes the threads of exactly the entries that are due, in the
order of their times, and leaves the others. -/
structure FiresDue (now : UInt64) (due : List TimerCondVar) (k k' : Kernel) : Prop where
  noneLeft : ∀ c ∈ k'.timers, now < c.expireMs
  exact : due.Perm (k.timers.filter fun c => c.expireMs ≤ now)
  ordered : due.Pairwise fun c d => c.expireMs ≤ d.expireMs
  woken : k'.readyQueue = k.readyQueue ++ due.map TimerCondVar.task
  kept : k'.timers.Perm (k.timers.filter fun c => now < c.expireMs)

/-- What the call should do to the timers. -/
def TimerCall.Right (k k' : Kernel) : TimerCall → Prop
  | .sleep now ms task => k'.timers.Perm (⟨now + ms, task⟩ :: k.timers)
  | .removeTimer task => ∀ c, k'.timers.count c = if c.task = task then 0 else k.timers.count c
  | .checkTimer now due => FiresDue now due k k'

/-- Every call of the sequence that returns does what it should. -/
def TimersRight (k : Kernel) : List TimerCall → Prop
  | [] => True
  | call :: calls => ∀ k', k.timerCall call = some k' → call.Right k k' ∧ TimersRight k' calls

/-- No entry after `2 ^ 63` is in the queue together with one that has expired and is not after
it. -/
def InOrder (now : UInt64) (timers : List TimerCondVar) : Prop :=
  ∀ c ∈ timers, c.expireMs ≤ now → c.expireMs.toNat ≤ 2 ^ 63 →
  ∀ d ∈ timers, d.expireMs.toNat ≤ 2 ^ 63

/-- The entries are in order at each `check_timer` of the sequence. -/
def ChecksInOrder (k : Kernel) : List TimerCall → Prop
  | [] => True
  | call :: calls => ∀ k', k.timerCall call = some k' →
      (∀ now due, call = .checkTimer now due → InOrder now k.timers) ∧ ChecksInOrder k' calls

/-! ## The order of the heap -/

theorem TimerCondVar.toInt_key (c : TimerCondVar) : c.key.toInt =
    if c.expireMs.toNat ≤ 2 ^ 63 then -(c.expireMs.toNat : Int) else
    2 ^ 64 - (c.expireMs.toNat : Int) := by
  have small := c.expireMs.toNat_lt
  have signed : c.expireMs.toInt64.toInt = (c.expireMs.toNat : Int).bmod (2 ^ 64) :=
    BitVec.toInt_eq_toNat_bmod _
  rw [TimerCondVar.key, Int64.toInt_neg, signed]
  generalize c.expireMs.toNat = n at *
  have modulus : ((2 ^ 64 : Nat) : Int) = 18446744073709551616 := by decide
  rw [Int.bmod_def, Int.bmod_def, modulus]
  split_ifs <;> omega

/-- On one side of `2 ^ 63` the heap has the entries in the order of their times; the ones after it
come first. -/
theorem TimerCondVar.key_le_iff (c d : TimerCondVar) : d.key ≤ c.key ↔
    if c.expireMs.toNat ≤ 2 ^ 63 then
      d.expireMs.toNat ≤ 2 ^ 63 ∧ c.expireMs.toNat ≤ d.expireMs.toNat
    else d.expireMs.toNat ≤ 2 ^ 63 ∨ c.expireMs.toNat ≤ d.expireMs.toNat := by
  have small := c.expireMs.toNat_lt
  have small' := d.expireMs.toNat_lt
  rw [Int64.le_iff_toInt_le, toInt_key, toInt_key]
  generalize c.expireMs.toNat = m at *
  generalize d.expireMs.toNat = n at *
  split_ifs <;> omega

/-! ## `check_timer` -/

section Check

variable {k k' : Kernel} {now : UInt64} {due : List TimerCondVar}

theorem isPeek_iff {timers : List TimerCondVar} {c : TimerCondVar} :
    isPeek timers c = true ↔ c ∈ timers ∧ ∀ d ∈ timers, d.key.toInt ≤ c.key.toInt := by
  simp only [isPeek, Bool.and_eq_true, List.contains_iff_mem, List.all_eq_true, decide_eq_true_eq,
    Int64.le_iff_toInt_le]

/-- The loop of `check_timer` drains the heap. -/
theorem checkTimer_drains (h : checkTimer now due k = some k') :
    Drains (fun c => c.key.toInt) (fun c => c.expireMs ≤ now) k.timers due k'.timers ∧
      k'.readyQueue = k.readyQueue ++ due.map TimerCondVar.task := by
  induction due generalizing k with
  | nil =>
      simp only [checkTimer] at h
      split at h
      · exact absurd h (by simp)
      · next stops =>
        obtain rfl := Option.some.inj h
        refine ⟨.stop fun c mem greatest expired =>
          stops (List.any_eq_true.mpr ⟨c, mem, ?_⟩), by simp⟩
        rw [isPeek_iff.mpr ⟨mem, greatest⟩, Bool.true_and]
        exact decide_eq_true expired
  | cons c due ih =>
      simp only [checkTimer] at h
      split at h
      · next goes =>
        rw [Bool.and_eq_true, isPeek_iff, decide_eq_true_eq] at goes
        obtain ⟨⟨mem, greatest⟩, expired⟩ := goes
        obtain ⟨drains, woken⟩ := ih h
        refine ⟨.pop mem greatest expired drains, woken.trans ?_⟩
        simp [wakeupTask]
      · exact absurd h (by simp)

/-- What drains the heap is a run of `check_timer`. -/
theorem checkTimer_of_drains {rest : List TimerCondVar}
    (drains : Drains (fun c => c.key.toInt) (fun c => c.expireMs ≤ now) k.timers due rest) :
    (checkTimer now due k).isSome := by
  induction due generalizing k with
  | nil =>
      cases drains with
      | stop stops =>
          have notAny : ¬ (k.timers.any fun c => isPeek k.timers c && c.expireMs ≤ now) = true := by
            intro any
            obtain ⟨c, mem, goes⟩ := List.any_eq_true.mp any
            rw [Bool.and_eq_true, isPeek_iff, decide_eq_true_eq] at goes
            exact stops c mem goes.1.2 goes.2
          simp only [checkTimer]
          rw [if_neg notAny]
          rfl
  | cons c due ih =>
      cases drains with
      | pop mem greatest expired drains =>
          have goes : (isPeek k.timers c && decide (c.expireMs ≤ now)) = true := by
            rw [isPeek_iff.mpr ⟨mem, greatest⟩, Bool.true_and]
            exact decide_eq_true expired
          simp only [checkTimer]
          rw [if_pos goes]
          exact ih drains

/-- The entries that are due fire exactly when the entries are in order. -/
theorem firesDue_iff (h : checkTimer now due k = some k') :
    FiresDue now due k k' ↔ InOrder now k.timers := by
  obtain ⟨drains, woken⟩ := checkTimer_drains h
  constructor
  · intro fires c mem expired low d isEntry
    by_contra high
    have first : c ∈ due :=
      fires.exact.mem_iff.mpr (List.mem_filter.mpr ⟨mem, decide_eq_true expired⟩)
    have before : ¬ d.key.toInt ≤ c.key.toInt := by
      rw [← Int64.le_iff_toInt_le, TimerCondVar.key_le_iff, if_pos low]
      exact fun le => high le.1
    by_cases isDue : d.expireMs ≤ now
    · -- `d` is taken before `c`, and it is later
      have later : d ∈ due :=
        fires.exact.mem_iff.mpr (List.mem_filter.mpr ⟨isEntry, decide_eq_true isDue⟩)
      let Sorted (c d : TimerCondVar) : Prop := c.expireMs ≤ d.expireMs ∧ d.key.toInt ≤ c.key.toInt
      have either : due.Pairwise fun c d => Sorted c d ∨ Sorted d c :=
        (fires.ordered.and drains.sorted).imp .inl
      have symmetric : Std.Symm fun c d => Sorted c d ∨ Sorted d c := ⟨fun _ _ => Or.symm⟩
      have differ : c ≠ d := by
        rintro rfl
        exact high low
      rcases either.forall first later differ with ⟨-, le⟩ | ⟨le, -⟩
      · exact before le
      · rw [UInt64.le_iff_toNat_le] at le
        omega
    · have left : d ∈ k'.timers := fires.kept.mem_iff.mpr
        (List.mem_filter.mpr ⟨isEntry, decide_eq_true (UInt64.not_le.mp isDue)⟩)
      exact before (drains.before c first d left)
  · intro inOrder
    -- for an entry that is due the order of the heap is that of the times
    have agree : ∀ c ∈ k.timers, c.expireMs ≤ now → ∀ d ∈ k.timers,
        d.key.toInt ≤ c.key.toInt ↔ c.expireMs ≤ d.expireMs := by
      intro c mem expired d isEntry
      rw [← Int64.le_iff_toInt_le, TimerCondVar.key_le_iff, UInt64.le_iff_toNat_le]
      split
      · next low =>
        have low' := inOrder c mem expired low d isEntry
        omega
      · next high =>
        have high' : ¬ d.expireMs.toNat ≤ 2 ^ 63 := by
          intro low
          refine high (inOrder d isEntry ?_ low c mem)
          rw [UInt64.le_iff_toNat_le] at expired ⊢
          omega
        omega
    have none : ∀ c ∈ k'.timers, ¬ c.expireMs ≤ now := by
      refine drains.none_left_iff.mpr fun c mem expired d isEntry later => ?_
      exact (agree c mem expired d isEntry).mpr
        (UInt64.le_of_lt (UInt64.lt_of_le_of_lt expired (UInt64.not_le.mp later)))
    obtain ⟨exact, kept⟩ := drains.filters none
    refine ⟨fun c mem => UInt64.not_le.mp (none c mem), exact, ?_, woken, ?_⟩
    · refine drains.sorted.imp_of_mem fun {c d} first later le => ?_
      exact (agree c (drains.popped_subset first) (drains.popped_meets c first) d
        (drains.popped_subset later)).mp le
    · simpa only [UInt64.not_le] using kept

end Check

/-! ## Sequences of calls -/

theorem count_removeTimer (k : Kernel) (task : TaskId) (c : TimerCondVar) :
    (k.removeTimer task).timers.count c = if c.task = task then 0 else k.timers.count c := by
  rw [Kernel.removeTimer]
  split
  · next same =>
    exact List.count_eq_zero.mpr fun mem => by simpa [same] using (List.mem_filter.mp mem).2
  · next differ =>
    exact List.count_filter (by simpa using differ)

/-- A call does what it should exactly when, if it is `check_timer`, the entries are in order. -/
theorem TimerCall.right_iff {k k' : Kernel} {call : TimerCall} (h : k.timerCall call = some k') :
    call.Right k k' ↔ ∀ now due, call = .checkTimer now due → InOrder now k.timers := by
  cases call with
  | sleep now ms task =>
      obtain rfl := Option.some.inj h
      exact iff_of_true (List.Perm.refl _) (by simp)
  | removeTimer task =>
      obtain rfl := Option.some.inj h
      exact iff_of_true (count_removeTimer k task) (by simp)
  | checkTimer now due =>
      rw [TimerCall.Right, firesDue_iff h]
      constructor
      · rintro inOrder _ _ ⟨⟩
        exact inOrder
      · exact fun inOrder => inOrder now due rfl

/-- For every sequence of `sys_sleep`, `remove_timer` and `check_timer`: each call does what it
should exactly when at each `check_timer` the entries are in order. And `check_timer` returns. -/
theorem timers_fire_iff (k : Kernel) (calls : List TimerCall) :
    (TimersRight k calls ↔ ChecksInOrder k calls) ∧
      ∀ now, ∃ due, (k.timerCall (.checkTimer now due)).isSome := by
  refine ⟨?_, fun now => ?_⟩
  · induction calls generalizing k with
    | nil => exact Iff.rfl
    | cons call calls ih =>
        refine forall₂_congr fun k' taken => ?_
        rw [TimerCall.right_iff taken, ih k']
  · obtain ⟨due, rest, drains⟩ := Drains.total (fun c : TimerCondVar => c.key.toInt)
      (fun c => c.expireMs ≤ now) k.timers
    exact ⟨due, checkTimer_of_drains drains⟩

/-- One thread sleeps for more than `2 ^ 63` ms and another one for 10 ms. -/
def longSleep : List TimerCall := [.sleep 5 0x8000000000000000 1, .sleep 6 10 2, .checkTimer 16 []]

/-- At the time 16 the entry of the other thread is due, `check_timer` wakes no thread and the entry
is left. -/
theorem timers_fire_longSleep : ∃ k,
    ((Kernel.start.addTimer (5 + 0x8000000000000000) 1).addTimer (6 + 10) 2).timerCall
    (.checkTimer 16 []) =
      some k ∧ (⟨16, 2⟩ : TimerCondVar) ∈ k.timers ∧ ¬ TimersRight Kernel.start longSleep := by
  refine ⟨_, rfl, by decide, fun right => ?_⟩
  have fires := (((right _ rfl).2 _ rfl).2 _ rfl).1.noneLeft ⟨16, 2⟩ (by decide)
  exact absurd fires (by decide)

end CoreFromDust.Os
