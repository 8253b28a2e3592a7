import Mathlib.Data.Finset.Max
import Mathlib.Data.List.Pairwise
import Mathlib.Data.List.Perm.Basic

/-!
# Draining a priority queue

A loop takes the greatest element out of a priority queue as long as it meets a condition. It takes
all elements that meet the condition exactly when they come before the others.
-/

namespace CoreFromDust.Lib

variable {α κ : Type} [DecidableEq α] [LinearOrder κ]

/-- The loop takes the elements `popped` out of `pool`, one after the other, and leaves `rest`. -/
inductive Drains (key : α → κ) (p : α → Prop) : List α → List α → List α → Prop
  | stop {pool : List α} : (∀ c ∈ pool, (∀ d ∈ pool, key d ≤ key c) → ¬ p c) →
    Drains key p pool [] pool
  | pop {pool popped rest : List α} {c : α} : c ∈ pool → (∀ d ∈ pool, key d ≤ key c) → p c →
      Drains key p (pool.erase c) popped rest → Drains key p pool (c :: popped) rest

variable {key : α → κ} {p : α → Prop} {pool popped rest : List α}

theorem exists_greatest (key : α → κ) {pool : List α} (nonempty : pool ≠ []) :
    ∃ c ∈ pool, ∀ d ∈ pool, key d ≤ key c := by
  obtain ⟨c, mem, greatest⟩ :=
    pool.toFinset.exists_max_image key (List.toFinset_nonempty_iff _ |>.mpr nonempty)
  exact ⟨c, List.mem_toFinset.mp mem,
    fun d isElement => greatest d (List.mem_toFinset.mpr isElement)⟩

namespace Drains

/-- The loop ends. -/
theorem total (key : α → κ) (p : α → Prop) (pool : List α) :
    ∃ popped rest, Drains key p pool popped rest := by
  induction size : pool.length generalizing pool with
  | zero =>
      obtain rfl := List.length_eq_zero_iff.mp size
      exact ⟨[], [], .stop (by simp)⟩
  | succ n ih =>
      by_cases goes : ∃ c ∈ pool, (∀ d ∈ pool, key d ≤ key c) ∧ p c
      · obtain ⟨c, mem, greatest, meets⟩ := goes
        obtain ⟨popped, rest, drains⟩ :=
          ih (pool.erase c) (by rw [List.length_erase_of_mem mem, size]; rfl)
        exact ⟨c :: popped, rest, .pop mem greatest meets drains⟩
      · exact ⟨[], pool, .stop fun c mem greatest meets => goes ⟨c, mem, greatest, meets⟩⟩

theorem perm (drains : Drains key p pool popped rest) : (popped ++ rest).Perm pool := by
  induction drains with
  | stop _ => exact .refl _
  | pop mem _ _ _ ih => exact (ih.cons _).trans (List.perm_cons_erase mem).symm

theorem popped_meets (drains : Drains key p pool popped rest) : ∀ c ∈ popped, p c := by
  induction drains with
  | stop _ => simp
  | pop _ _ meets _ ih => exact List.forall_mem_cons.mpr ⟨meets, ih⟩

theorem popped_subset (drains : Drains key p pool popped rest) {c : α}
    (mem : c ∈ popped) : c ∈ pool :=
  drains.perm.subset (List.mem_append_left _ mem)

theorem rest_subset (drains : Drains key p pool popped rest) {c : α} (mem : c ∈ rest) : c ∈ pool :=
  drains.perm.subset (List.mem_append_right _ mem)

/-- The elements are taken in the order of the queue. -/
theorem sorted (drains : Drains key p pool popped rest) :
    popped.Pairwise fun c d => key d ≤ key c := by
  induction drains with
  | stop _ => exact .nil
  | pop _ greatest _ drains ih =>
      refine List.pairwise_cons.mpr ⟨fun d mem => greatest d ?_, ih⟩
      exact List.mem_of_mem_erase (drains.popped_subset mem)

/-- They come before the ones that are left. -/
theorem before (drains : Drains key p pool popped rest) :
    ∀ c ∈ popped, ∀ d ∈ rest, key d ≤ key c := by
  induction drains with
  | stop _ => simp
  | pop _ greatest _ drains ih =>
      refine List.forall_mem_cons.mpr ⟨fun d mem => greatest d ?_, ih⟩
      exact List.mem_of_mem_erase (drains.rest_subset mem)

theorem stopped (drains : Drains key p pool popped rest) :
    ∀ c ∈ rest, (∀ d ∈ rest, key d ≤ key c) → ¬ p c := by
  induction drains with
  | stop stops => exact stops
  | pop _ _ _ _ ih => exact ih

/-- No element that meets the condition is left exactly when the others do not come before one. -/
theorem none_left_iff (drains : Drains key p pool popped rest) :
    (∀ c ∈ rest, ¬ p c) ↔ ∀ c ∈ pool, p c → ∀ d ∈ pool, ¬ p d → key d ≤ key c := by
  constructor
  · intro none c isElement meets d isOther fails
    have first : c ∈ popped :=
      (List.mem_append.mp (drains.perm.mem_iff.mpr isElement)).resolve_right
      fun mem => none c mem meets
    have last : d ∈ rest := (List.mem_append.mp (drains.perm.mem_iff.mpr isOther)).resolve_left
      fun mem => fails (drains.popped_meets d mem)
    exact drains.before c first d last
  · intro ordered c mem meets
    -- the greatest element that is left does not meet the condition, and `c` is as great
    obtain ⟨d, isLeft, greatest⟩ := exists_greatest key (List.ne_nil_of_mem mem)
    have fails := drains.stopped d isLeft greatest
    have le := ordered c (drains.rest_subset mem) meets d (drains.rest_subset isLeft) fails
    exact drains.stopped c mem (fun other isOther => (greatest other isOther).trans le) meets

/-- When none is left, the loop has taken the elements that meet the condition and left the
others. -/
theorem filters (drains : Drains key p pool popped rest) [DecidablePred p]
    (none : ∀ c ∈ rest, ¬ p c) :
    popped.Perm (pool.filter p) ∧ rest.Perm (pool.filter fun c => ¬ p c) := by
  have first : (popped ++ rest).filter p = popped := by
    rw [List.filter_append, List.filter_eq_self.mpr (by simpa using drains.popped_meets),
      List.filter_eq_nil_iff.mpr (by simpa using none), List.append_nil]
  have last : (popped ++ rest).filter (fun c => ¬ p c) = rest := by
    rw [List.filter_append, List.filter_eq_nil_iff.mpr (by simpa using drains.popped_meets),
      List.filter_eq_self.mpr (by simpa using none), List.nil_append]
  refine ⟨?_, ?_⟩
  · have perm := drains.perm.filter p
    rwa [first] at perm
  · have perm := drains.perm.filter fun c => ¬ p c
    rwa [last] at perm

end Drains

end CoreFromDust.Lib
