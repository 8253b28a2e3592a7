import CoreFromDust.Lib.Interleaving
import CoreFromDust.Os.SemaphoreCount
import Mathlib.Algebra.Order.BigOperators.Group.Finset

/-!
# The tokens of a semaphore

A semaphore that some threads use as a supply of tokens: `down` takes one, `up` gives one back. The
supply changes when a thread makes a token of one semaphore into one of another one. However the
calls are interleaved, no more threads have a token than there are, and nobody waits for a token
that is there.
-/

namespace CoreFromDust.User

open CoreFromDust.Lib CoreFromDust.Os

/-- What a thread has to do with a semaphore. -/
inductive Use where
  | free
  /-- it has been blocked in `down` and has not returned from it -/
  | waits
  /-- it has a token -/
  | holds
  deriving DecidableEq, Repr

variable {n supply : Nat} {sem : Semaphore} {use : Fin n → Use} {i j : Fin n}

/-- The thread has called `down` more often than `up`. -/
def Use.engaged : Use → Nat
  | .free => 0
  | .waits => 1
  | .holds => 1

/-- The thread has a token, of which it may not know yet. -/
def Granted (sem : Semaphore) (use : Fin n → Use) (i : Fin n) : Prop :=
  use i = .holds ∨ (use i = .waits ∧ i.val ∉ sem.waitQueue)

instance : DecidablePred (Granted sem use) :=
  fun _ => inferInstanceAs (Decidable (_ ∨ _))

/-- The count of the semaphore belongs to the supply and to the threads that use it, and the queue
holds threads that wait. -/
structure Tokens (sem : Semaphore) (use : Fin n → Use) (supply : Nat) : Prop where
  balance : sem.count.toInt + (∑ i, (use i).engaged : Nat) = supply
  waiting : (sem.waitQueue.length : Int) = max (-sem.count.toInt) 0
  waiters : ∀ t ∈ sem.waitQueue, ∃ i : Fin n, i.val = t ∧ use i = .waits
  nodup : sem.waitQueue.Nodup

theorem sum_engaged_le (use : Fin n → Use) : ∑ i, (use i).engaged ≤ n := by
  have each : ∀ i ∈ Finset.univ, (use i).engaged ≤ 1 := by
    intro i _
    cases use i <;> simp [Use.engaged]
  have total := Finset.sum_le_card_nsmul Finset.univ _ 1 each
  simpa using total

namespace Tokens

/-- A thread that does not wait is not in the queue. -/
theorem notQueued (tokens : Tokens sem use supply) (here : use i ≠ .waits) :
    i.val ∉ sem.waitQueue := by
  intro mem
  obtain ⟨j, eq, waits⟩ := tokens.waiters _ mem
  rw [Fin.ext eq] at waits
  exact here waits

/-- The tokens are with threads, or the count is positive. -/
theorem granted (tokens : Tokens sem use supply) :
    ((Finset.univ.filter (Granted sem use)).card : Int) + max sem.count.toInt 0 = supply := by
  have split : ∀ i, (use i).engaged = (if Granted sem use i then 1 else 0) +
      if i.val ∈ sem.waitQueue then 1 else 0 := by
    intro i
    cases here : use i with
    | free =>
        have absent := tokens.notQueued (i := i) (by simp [here])
        simp [Use.engaged, Granted, here, absent]
    | waits => by_cases mem : i.val ∈ sem.waitQueue <;> simp [Use.engaged, Granted, here, mem]
    | holds =>
        have absent := tokens.notQueued (i := i) (by simp [here])
        simp [Use.engaged, Granted, here, absent]
  have queued : (Finset.univ.filter fun i : Fin n => i.val ∈ sem.waitQueue).card =
      sem.waitQueue.length := by
    rw [← List.toFinset_card_of_nodup tokens.nodup,
      ← Finset.card_image_of_injective _ Fin.val_injective]
    congr 1
    ext t
    rw [Finset.mem_image, List.mem_toFinset]
    constructor
    · rintro ⟨i, mem, rfl⟩
      exact (Finset.mem_filter.mp mem).2
    · intro mem
      obtain ⟨i, rfl, -⟩ := tokens.waiters t mem
      exact ⟨i, Finset.mem_filter.mpr ⟨Finset.mem_univ i, mem⟩, rfl⟩
  have total : ∑ i, (use i).engaged =
      (Finset.univ.filter (Granted sem use)).card + sem.waitQueue.length := by
    rw [Finset.sum_congr rfl fun i _ => split i, Finset.sum_add_distrib, ← Finset.card_filter,
      ← Finset.card_filter, queued]
  have balance := tokens.balance
  have waiting := tokens.waiting
  rw [total] at balance
  push_cast at balance
  omega

/-- The only token is with one thread. -/
theorem alone (tokens : Tokens sem use 1) (mine : Granted sem use i) (other : Granted sem use j) :
    i = j := by
  have granted := tokens.granted
  have one : (Finset.univ.filter (Granted sem use)).card ≤ 1 := by omega
  apply Finset.card_le_one.mp one
  · exact Finset.mem_filter.mpr ⟨Finset.mem_univ i, mine⟩
  · exact Finset.mem_filter.mpr ⟨Finset.mem_univ j, other⟩

/-- A token that a thread has is one of the supply. -/
theorem supply_pos (tokens : Tokens sem use supply) (mine : Granted sem use i) : 0 < supply := by
  have granted := tokens.granted
  have some : 0 < (Finset.univ.filter (Granted sem use)).card :=
    Finset.card_pos.mpr ⟨i, Finset.mem_filter.mpr ⟨Finset.mem_univ i, mine⟩⟩
  omega

/-- When a thread is in the queue, all tokens are with threads. -/
theorem taken (tokens : Tokens sem use supply) (queued : i.val ∈ sem.waitQueue)
    (pos : 0 < supply) : ∃ j, Granted sem use j := by
  have granted := tokens.granted
  have waiting := tokens.waiting
  have some := List.length_pos_of_mem queued
  have taken : 0 < (Finset.univ.filter (Granted sem use)).card := by omega
  obtain ⟨j, mem⟩ := Finset.card_pos.mp taken
  exact ⟨j, (Finset.mem_filter.mp mem).2⟩

/-- A new semaphore. -/
theorem first {count : Int64} (isSupply : count.toInt = supply) (free : ∀ i, use i = .free) :
    Tokens ⟨count, []⟩ use supply := by
  refine ⟨?_, ?_, by simp, List.nodup_nil⟩
  · rw [Finset.sum_eq_zero fun i _ => by rw [free i]; rfl]
    simpa using isSupply
  · dsimp only [List.length_nil]
    omega

/-! ## Calls -/

variable {new : Use}

theorem engaged_update (use : Fin n → Use) (i : Fin n) (new : Use) :
    ∑ j, (Function.update use i new j).engaged + (use i).engaged =
      ∑ j, (use j).engaged + new.engaged :=
  sum_update (fun _ => Use.engaged) use i new

/-- The threads that wait are those before and perhaps the one that changes. -/
theorem waiters_update (tokens : Tokens sem use supply) (here : i.val ∉ sem.waitQueue) {t : TaskId}
    (mem : t ∈ sem.waitQueue) : ∃ j : Fin n, j.val = t ∧ Function.update use i new j = .waits := by
  obtain ⟨j, rfl, waits⟩ := tokens.waiters t mem
  refine ⟨j, rfl, ?_⟩
  have differ : j ≠ i := by
    rintro rfl
    exact here mem
  rwa [Function.update_of_ne differ]

/-- The supply changes by as much as the engagement of a thread that is not in the queue. -/
theorem change (tokens : Tokens sem use supply) (here : i.val ∉ sem.waitQueue) {supply' : Nat}
    (same : supply' + (use i).engaged = supply + new.engaged) :
    Tokens sem (Function.update use i new) supply' := by
  refine ⟨?_, tokens.waiting, fun t mem => tokens.waiters_update here mem, tokens.nodup⟩
  have balance := tokens.balance
  have update := engaged_update use i new
  omega

/-- `Semaphore::down`. -/
theorem down (tokens : Tokens sem use supply) (small : n < 2 ^ 32) (here : use i = .free) :
    Tokens (sem.after (.down i))
    (Function.update use i (if sem.count - 1 < 0 then .waits else .holds))
      supply := by
  have balance := tokens.balance
  have waiting := tokens.waiting
  have le := sum_engaged_le use
  have pred : (sem.count - 1).toInt = sem.count.toInt - 1 := toInt_pred (by omega)
  have update := engaged_update use i (if sem.count - 1 < 0 then .waits else .holds)
  have none : (use i).engaged = 0 := by rw [here]; rfl
  have one : Use.engaged (if sem.count - 1 < 0 then .waits else .holds) = 1 := by split <;> rfl
  have absent := tokens.notQueued (i := i) (by simp [here])
  have negative : sem.count - 1 < 0 ↔ sem.count.toInt - 1 < 0 := by
    rw [Int64.lt_iff_toInt_lt, pred]
    exact Iff.rfl
  by_cases blocks : sem.count - 1 < 0
  · have below := negative.mp blocks
    simp only [Semaphore.after, if_pos blocks] at *
    refine ⟨?_, ?_, ?_, ?_⟩
    · dsimp only
      omega
    · rw [List.length_append, List.length_singleton]
      push_cast
      omega
    · intro t mem
      rcases List.mem_append.mp mem with old | last
      · exact tokens.waiters_update absent old
      · exact ⟨i, (List.mem_singleton.mp last).symm, Function.update_self ..⟩
    · exact List.Nodup.append tokens.nodup (List.nodup_singleton _) (by simpa using absent)
  · have above : ¬ sem.count.toInt - 1 < 0 := fun below => blocks (negative.mpr below)
    simp only [Semaphore.after, if_neg blocks] at *
    refine ⟨?_, ?_, fun t mem => tokens.waiters_update absent mem, tokens.nodup⟩
    · dsimp only
      omega
    · dsimp only
      omega

/-- `Semaphore::up`. -/
theorem up (tokens : Tokens sem use supply) (small : supply < 2 ^ 32) (here : use i = .holds) :
    Tokens (sem.after (.up i)) (Function.update use i .free) supply := by
  have balance := tokens.balance
  have waiting := tokens.waiting
  have update := engaged_update use i .free
  have one : (use i).engaged = 1 := by rw [here]; rfl
  have none : Use.engaged .free = 0 := rfl
  have succ : (sem.count + 1).toInt = sem.count.toInt + 1 := toInt_succ (by omega)
  have absent := tokens.notQueued (i := i) (by simp [here])
  have positive : sem.count + 1 ≤ 0 ↔ sem.count.toInt + 1 ≤ 0 := by
    rw [Int64.le_iff_toInt_le, succ]
    exact Iff.rfl
  by_cases wakes : sem.count + 1 ≤ 0
  · have below := positive.mp wakes
    simp only [Semaphore.after, if_pos wakes]
    refine ⟨?_, ?_, ?_, ?_⟩
    · dsimp only
      omega
    · rw [List.length_tail]
      dsimp only
      omega
    · exact fun t mem => tokens.waiters_update absent (List.mem_of_mem_tail mem)
    · exact tokens.nodup.tail
  · have above : ¬ sem.count.toInt + 1 ≤ 0 := fun below => wakes (positive.mpr below)
    simp only [Semaphore.after, if_neg wakes]
    refine ⟨?_, ?_, fun t mem => tokens.waiters_update absent mem, tokens.nodup⟩
    · dsimp only
      omega
    · dsimp only
      omega

end Tokens

end CoreFromDust.User
