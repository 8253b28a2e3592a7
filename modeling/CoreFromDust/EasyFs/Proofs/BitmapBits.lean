import CoreFromDust.EasyFs.Bitmap
import Mathlib.Data.Nat.Bitwise

/-!
# Bits of a bitmap block

What `Bitmap::alloc` and `Bitmap::dealloc` do to one block, as a set of bits: allocation
marks the least clear bit and deallocation clears exactly the bit it is given, although it
does so by subtraction.
-/

namespace CoreFromDust.EasyFs

open CoreFromDust.Lib

/-- Subtracting a power of two whose bit is set clears that bit and no other. -/
theorem testBit_sub_two_pow {n j : Nat} (set : n.testBit j = true) (i : Nat) :
    (n - 2 ^ j).testBit i = (n.testBit i && decide (i ≠ j)) := by
  obtain ⟨q, odd⟩ : ∃ q, n / 2 ^ j = 2 * q + 1 := by
    rw [Nat.testBit_eq_decide_div_mod_eq, decide_eq_true_eq] at set
    exact ⟨n / 2 ^ j / 2, by omega⟩
  have low : n % 2 ^ j < 2 ^ j := Nat.mod_lt _ (Nat.two_pow_pos j)
  have split : n = 2 ^ j * (2 * q + 1) + n % 2 ^ j := by rw [← odd, Nat.div_add_mod]
  have split' : n - 2 ^ j = 2 ^ j * (2 * q) + n % 2 ^ j := by
    have expand : 2 ^ j * (2 * q + 1) = 2 ^ j * (2 * q) + 2 ^ j := by ring
    omega
  rw [split', Nat.testBit_two_pow_mul_add _ low]
  conv_rhs => rw [split, Nat.testBit_two_pow_mul_add _ low]
  by_cases lower : i < j
  · simp [lower, Nat.ne_of_lt lower]
  · simp only [lower, if_false]
    rcases Nat.eq_zero_or_pos (i - j) with zero | pos
    · have same : i = j := by omega
      simp [same]
    · obtain ⟨k, hk⟩ : ∃ k, i - j = k + 1 := ⟨i - j - 1, by omega⟩
      have differ : i ≠ j := by omega
      simp [hk, differ, Nat.testBit_succ, Nat.mul_add_div]

theorem toNat_one_shiftLeft {j : Nat} (h : j < 64) :
    ((1 : UInt64) <<< UInt64.ofNat j).toNat = 2 ^ j := by
  have small : 2 ^ j < 2 ^ 64 := Nat.pow_lt_pow_right (by omega) h
  rw [UInt64.toNat_shiftLeft, UInt64.toNat_ofNat', Nat.mod_eq_of_lt (a := j) (by omega),
    Nat.mod_eq_of_lt (a := j) h, UInt64.toNat_one, Nat.shiftLeft_eq, Nat.one_mul,
    Nat.mod_eq_of_lt small]

theorem testBit_or_shiftLeft (x : UInt64) {j : Nat} (h : j < 64) (i : Nat) :
    (x ||| ((1 : UInt64) <<< UInt64.ofNat j)).toNat.testBit i =
      (x.toNat.testBit i || decide (i = j)) := by
  rw [UInt64.toNat_or, toNat_one_shiftLeft h, Nat.testBit_or, Nat.testBit_two_pow]
  simp [eq_comm]

theorem testBit_sub_shiftLeft (x : UInt64) {j : Nat} (h : j < 64)
    (set : x.toNat.testBit j = true) (i : Nat) :
    (x - ((1 : UInt64) <<< UInt64.ofNat j)).toNat.testBit i =
      (x.toNat.testBit i && decide (i ≠ j)) := by
  have below : ((1 : UInt64) <<< UInt64.ofNat j) ≤ x := by
    rw [UInt64.le_iff_toNat_le, toNat_one_shiftLeft h]
    exact Nat.ge_two_pow_of_testBit set
  rw [UInt64.toNat_sub_of_le _ _ below, toNat_one_shiftLeft h, testBit_sub_two_pow set]

theorem and_shiftLeft_pos (x : UInt64) {j : Nat} (h : j < 64) :
    x &&& ((1 : UInt64) <<< UInt64.ofNat j) > 0 ↔ x.toNat.testBit j = true := by
  rw [gt_iff_lt, UInt64.lt_iff_toNat_lt, UInt64.toNat_and, toNat_one_shiftLeft h,
    Nat.and_two_pow]
  cases x.toNat.testBit j <;> simp

theorem testBit_u64Max {j : Nat} (h : j < 64) : u64Max.toNat.testBit j = true := by
  have full : u64Max.toNat = 2 ^ 64 - 1 := by decide
  rw [full, Nat.testBit_two_pow_sub_one]
  simpa using h

theorem eq_u64Max {x : UInt64} (all : ∀ j, j < 64 → x.toNat.testBit j = true) : x = u64Max := by
  apply UInt64.toNat_inj.mp
  have full : u64Max.toNat = 2 ^ 64 - 1 := by decide
  rw [full]
  apply Nat.eq_of_testBit_eq
  intro i
  rw [Nat.testBit_two_pow_sub_one]
  by_cases hi : i < 64
  · simp [hi, all i hi]
  · have big : x.toNat < 2 ^ i :=
      Nat.lt_of_lt_of_le x.toNat_lt (Nat.pow_le_pow_right (by omega) (by omega))
    simp [hi, Nat.testBit_lt_two_pow big]

/-- In a word other than `u64::MAX`, `trailing_ones` finds the lowest clear bit. -/
theorem trailingOnes_spec {x : UInt64} (differ : x ≠ u64Max) :
    trailingOnes x < 64 ∧ x.toNat.testBit (trailingOnes x) = false ∧
      ∀ j, j < trailingOnes x → x.toNat.testBit j = true := by
  unfold trailingOnes
  cases found : (List.range 64).find? fun j => !x.toNat.testBit j with
  | none =>
      refine absurd (eq_u64Max fun j hj => ?_) differ
      simpa using List.find?_eq_none.mp found j (List.mem_range.mpr hj)
  | some j =>
      obtain ⟨hit, inRange, before⟩ := List.find?_range_eq_some.mp found
      simp only [Option.getD_some]
      refine ⟨List.mem_range.mp inRange, by simpa using hit, ?_⟩
      intro i hi
      simpa using before i hi

namespace Block

/-- Bit `n` of a block seen as `[u64; 64]`. -/
def bit (b : Block) (n : Nat) : Bool := (b.u64 (8 * (n / 64))).toNat.testBit (n % 64)

@[simp] theorem bit_zero (n : Nat) : zero.bit n = false := by
  simp [bit]

theorem bit_setU64 (b : Block) {w : Nat} (hw : w < 64) (v : UInt64) (n : Nat) :
    (b.setU64 (8 * w) v).bit n = if n / 64 = w then v.toNat.testBit (n % 64) else b.bit n := by
  unfold bit
  rw [u64_setU64 b w (n / 64) v hw]
  split <;> rfl

end Block

namespace Bitmap

/-- No bit is marked in a block only when all of its bits are set. -/
theorem allocIn_none {b : Block} (h : allocIn b = none) {n : Nat} (hn : n < 4096) :
    b.bit n = true := by
  simp only [allocIn, Option.map_eq_none_iff] at h
  have word := List.find?_eq_none.mp h (n / 64) (List.mem_range.mpr (by omega))
  have full : b.u64 (8 * (n / 64)) = u64Max := by simpa using word
  unfold Block.bit
  rw [full]
  exact testBit_u64Max (by omega)

/-- The bit marked in a block is its least clear bit, and no other bit changes. -/
theorem allocIn_some {b b' : Block} {n : Nat} (h : allocIn b = some (b', n)) :
    n < 4096 ∧ b.bit n = false ∧ (∀ m, m < n → b.bit m = true) ∧
      ∀ m, b'.bit m = (b.bit m || decide (m = n)) := by
  simp only [allocIn, Option.map_eq_some_iff, Prod.mk.injEq] at h
  obtain ⟨w, found, rfl, rfl⟩ := h
  obtain ⟨hit, inList, before⟩ := List.find?_range_eq_some.mp found
  have inRange : w < 64 := List.mem_range.mp inList
  have differ : b.u64 (8 * w) ≠ u64Max := by simpa using hit
  obtain ⟨small, clear, below⟩ := trailingOnes_spec differ
  have setBit := testBit_or_shiftLeft (b.u64 (8 * w)) small
  generalize trailingOnes (b.u64 (8 * w)) = t at small clear below setBit ⊢
  have wordOf : (w * 64 + t) / 64 = w := by omega
  have bitOf : (w * 64 + t) % 64 = t := by omega
  refine ⟨by omega, ?_, ?_, ?_⟩
  · unfold Block.bit
    rw [wordOf, bitOf, clear]
  · intro m hm
    unfold Block.bit
    by_cases same : m / 64 = w
    · rw [same]
      exact below _ (by omega)
    · have full : b.u64 (8 * (m / 64)) = u64Max := by simpa using before (m / 64) (by omega)
      rw [full]
      exact testBit_u64Max (by omega)
  · intro m
    rw [Block.bit_setU64 b inRange]
    by_cases same : m / 64 = w
    · have which : decide (m % 64 = t) = decide (m = w * 64 + t) :=
        decide_eq_decide.mpr (by omega)
      rw [if_pos same, setBit, which, Block.bit, same]
    · have other : decide (m = w * 64 + t) = false := decide_eq_false (by omega)
      rw [if_neg same, other, Bool.or_false]

end Bitmap

end CoreFromDust.EasyFs
