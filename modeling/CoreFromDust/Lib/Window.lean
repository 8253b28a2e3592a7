import Mathlib.Data.List.Range
import Mathlib.Data.Nat.ModEq

/-!
# Windows of a ring

The elements of a ring of `n` cells that a queue of a given length occupies, from the cell `head`
on. Writing the cell after a window makes it longer at its end, and a window loses its first
element when `head` moves on.
-/

namespace CoreFromDust.Lib

variable {α : Type}

/-- The `len` elements from the cell `head` on, in a ring of `n` cells. -/
def window (cells : Nat → α) (n head len : Nat) : List α :=
  (List.range len).map fun i => cells ((head + i) % n)

variable {cells cells' : Nat → α} {n head len : Nat}

@[simp] theorem window_length : (window cells n head len).length = len := by
  simp [window]

@[simp] theorem window_zero : window cells n head 0 = [] := rfl

/-- A write to the cell after the window. -/
theorem window_push (cells : Nat → α) (room : len < n)
    (other : ∀ i < n, i ≠ (head + len) % n → cells' i = cells i) :
    window cells' n head (len + 1) = window cells n head len ++ [cells' ((head + len) % n)] := by
  unfold window
  rw [List.range_succ, List.map_append, List.map_singleton]
  congr 1
  refine List.map_congr_left fun i mem => other _ (Nat.mod_lt _ (by omega)) fun same => ?_
  have below := List.mem_range.mp mem
  have equal : Nat.ModEq n i len := Nat.ModEq.add_left_cancel' head same
  rw [Nat.ModEq, Nat.mod_eq_of_lt (by omega), Nat.mod_eq_of_lt room] at equal
  omega

/-- The first element of a window, and the window after it. -/
theorem window_pop (bound : head < n) :
    window cells n head (len + 1) = cells head :: window cells n ((head + 1) % n) len := by
  unfold window
  rw [List.range_succ_eq_map, List.map_cons, List.map_map, Nat.add_zero, Nat.mod_eq_of_lt bound]
  congr 1
  refine List.map_congr_left fun i _ => ?_
  simp only [Function.comp_apply, Nat.mod_add_mod]
  congr 2
  omega

end CoreFromDust.Lib
