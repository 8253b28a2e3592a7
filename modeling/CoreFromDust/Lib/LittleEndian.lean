import Mathlib.Tactic.Ring
import Mathlib.Tactic.Linarith

/-!
# Little-endian integers in byte sequences

A byte sequence is read as a function from positions to bytes. `leValue w f` is the
unsigned integer that the first `w` bytes of `f` denote, least significant byte first, and
`leByte v i` is byte `i` of the representation of `v`. The two are inverse to each other up
to the width.
-/

namespace CoreFromDust.Lib

/-- The unsigned integer denoted by the bytes `f 0, ..., f (w - 1)`. -/
def leValue : Nat → (Nat → UInt8) → Nat
  | 0, _ => 0
  | w + 1, f => (f 0).toNat + 256 * leValue w (fun i => f (i + 1))

/-- Byte `i` of the little-endian representation of `v`. -/
def leByte (v i : Nat) : UInt8 := UInt8.ofNat (v / 256 ^ i)

theorem leValue_congr (w : Nat) {f g : Nat → UInt8} (same : ∀ i, i < w → f i = g i) :
    leValue w f = leValue w g := by
  induction w generalizing f g with
  | zero => rfl
  | succ w ih =>
      simp only [leValue]
      rw [same 0 (by omega), ih (fun i hi => same (i + 1) (by omega))]

@[simp] theorem leValue_zero_bytes (w : Nat) : leValue w (fun _ => 0) = 0 := by
  induction w with
  | zero => rfl
  | succ w ih => simp [leValue, ih]

theorem leByte_succ (v i : Nat) : leByte v (i + 1) = leByte (v / 256) i := by
  unfold leByte
  rw [Nat.pow_succ, Nat.mul_comm, Nat.div_div_eq_div_mul]

/-- Reading back the `w` bytes of a value gives the value modulo the width. -/
theorem leValue_leByte (w v : Nat) : leValue w (leByte v) = v % 256 ^ w := by
  induction w generalizing v with
  | zero => simp [leValue, Nat.mod_one]
  | succ w ih =>
      have tail : (fun i => leByte v (i + 1)) = leByte (v / 256) := by
        funext i
        exact leByte_succ v i
      simp only [leValue, tail, ih]
      have low : (leByte v 0).toNat = v % 256 := by simp [leByte]
      rw [low, Nat.pow_succ, Nat.mul_comm (256 ^ w) 256, Nat.mod_mul]

theorem leValue_lt (w : Nat) (f : Nat → UInt8) : leValue w f < 256 ^ w := by
  induction w generalizing f with
  | zero => simp [leValue]
  | succ w ih =>
      have low := (f 0).toNat_lt
      have high := ih fun i => f (i + 1)
      rw [leValue, Nat.pow_succ]
      omega

/-- The bytes of a value are the ones that it was read from. -/
theorem leByte_leValue {w i : Nat} (f : Nat → UInt8) (hi : i < w) :
    leByte (leValue w f) i = f i := by
  induction w generalizing f i with
  | zero => omega
  | succ w ih =>
      have low := (f 0).toNat_lt
      cases i with
      | zero =>
          rw [leByte, leValue, Nat.pow_zero, Nat.div_one, ← UInt8.toNat_inj, UInt8.toNat_ofNat']
          omega
      | succ i =>
          have tail : (leValue (w + 1) f) / 256 = leValue w fun i => f (i + 1) := by
            rw [leValue]
            omega
          rw [leByte_succ, tail]
          exact ih (fun i => f (i + 1)) (by omega)

end CoreFromDust.Lib
