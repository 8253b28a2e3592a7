import CoreFromDust.Lib.LittleEndian
import CoreFromDust.Lib.CellProg

/-!
# Blocks

A block is `[u8; BLOCK_SZ]` (`easy-fs/src/lib.rs`, `DataBlock` in `layout.rs`). The crate
reinterprets the bytes of a cached block as other `repr(C)` types; on the little-endian
targets it is built for, a `u32` or `u64` field at a byte offset is the little-endian integer
of the bytes there. `u32`, `setU32`, `u64` and `setU64` are these reinterpretations.
-/

namespace CoreFromDust.EasyFs

open CoreFromDust.Lib

/-- `BLOCK_SZ`. -/
abbrev blockSz : Nat := 512

/-- `DataBlock`. -/
abbrev Block := Vector UInt8 blockSz

/-- Programs over the blocks of one device. -/
abbrev FsProg := CellProg Block

namespace Block

/-- The byte at a position, `0` past the end. -/
def byte (b : Block) (i : Nat) : UInt8 := if h : i < blockSz then b[i] else 0

/-- The block with the given bytes. -/
def ofBytes (f : Nat → UInt8) : Block := Vector.ofFn fun i => f i

/-- `[0u8; BLOCK_SZ]`. -/
def zero : Block := ofBytes fun _ => 0

/-- Overwrite `len` bytes from `off` on with the bytes of `f`. -/
def patch (b : Block) (off len : Nat) (f : Nat → UInt8) : Block :=
  ofBytes fun p => if off ≤ p ∧ p < off + len then f (p - off) else b.byte p

/-- The `u32` at a byte offset. -/
def u32 (b : Block) (off : Nat) : UInt32 := UInt32.ofNat (leValue 4 fun i => b.byte (off + i))

/-- Store a `u32` at a byte offset. -/
def setU32 (b : Block) (off : Nat) (v : UInt32) : Block := b.patch off 4 (leByte v.toNat)

/-- The `u64` at a byte offset. -/
def u64 (b : Block) (off : Nat) : UInt64 := UInt64.ofNat (leValue 8 fun i => b.byte (off + i))

/-- Store a `u64` at a byte offset. -/
def setU64 (b : Block) (off : Nat) (v : UInt64) : Block := b.patch off 8 (leByte v.toNat)

theorem byte_ofBytes (f : Nat → UInt8) (i : Nat) :
    (ofBytes f).byte i = if i < 512 then f i else 0 := by
  simp only [byte, ofBytes, blockSz, Vector.getElem_ofFn]
  split <;> rfl

-- `byte_ofBytes` says all there is to say; unfolding further would expand 512 bytes
attribute [irreducible] ofBytes

theorem byte_of_ge (b : Block) {i : Nat} (h : 512 ≤ i) : b.byte i = 0 :=
  dif_neg (Nat.not_lt.mpr h)

@[simp] theorem byte_zero (i : Nat) : zero.byte i = 0 := by
  simp [zero, byte_ofBytes]

theorem byte_patch (b : Block) (off len : Nat) (f : Nat → UInt8) {i : Nat} (h : i < 512) :
    (b.patch off len f).byte i = if off ≤ i ∧ i < off + len then f (i - off) else b.byte i := by
  simp [patch, byte_ofBytes, h]

/-- Bytes outside a patch, read as part of an integer, are not changed by it. -/
theorem leValue_patch_disjoint (b : Block) (w off len off' : Nat) (f : Nat → UInt8)
    (h : off' + w ≤ off ∨ off + len ≤ off') :
    (leValue w fun i => (b.patch off len f).byte (off' + i)) =
      leValue w fun i => b.byte (off' + i) := by
  apply leValue_congr
  intro i hi
  by_cases inBlock : off' + i < 512
  · rw [byte_patch b off len f inBlock, if_neg (by omega)]
  · rw [byte_of_ge _ (by omega), byte_of_ge _ (by omega)]

/-- Bytes inside a patch, read as an integer, are those of the patch. -/
theorem leValue_patch_inside (b : Block) (w off len off' : Nat) (f : Nat → UInt8)
    (low : off ≤ off') (high : off' + w ≤ off + len) (fits : off + len ≤ 512) :
    (leValue w fun i => (b.patch off len f).byte (off' + i)) =
      leValue w fun i => f (off' - off + i) := by
  apply leValue_congr
  intro i hi
  rw [byte_patch b off len f (by omega), if_pos (by omega)]
  congr 1
  omega

theorem u32_patch_disjoint (b : Block) (off len off' : Nat) (f : Nat → UInt8)
    (h : off' + 4 ≤ off ∨ off + len ≤ off') : (b.patch off len f).u32 off' = b.u32 off' := by
  rw [u32, leValue_patch_disjoint b 4 off len off' f h, u32]

theorem u32_setU32_self (b : Block) (off : Nat) (v : UInt32) (fits : off + 4 ≤ 512) :
    (b.setU32 off v).u32 off = v := by
  have small := v.toNat_lt
  rw [u32, setU32, leValue_patch_inside b 4 off 4 off _ (by omega) (by omega) fits]
  simp only [Nat.sub_self, Nat.zero_add, leValue_leByte]
  rw [Nat.mod_eq_of_lt (by norm_num; omega), UInt32.ofNat_toNat]

theorem u32_setU32_other (b : Block) (off off' : Nat) (v : UInt32)
    (h : off' + 4 ≤ off ∨ off + 4 ≤ off') : (b.setU32 off v).u32 off' = b.u32 off' :=
  u32_patch_disjoint b off 4 off' _ h

/-- Reading entry `j` of an array of `u32` after writing entry `i`. -/
theorem u32_setU32 (b : Block) (i j : Nat) (v : UInt32) (hi : i < 128) :
    (b.setU32 (4 * i) v).u32 (4 * j) = if j = i then v else b.u32 (4 * j) := by
  split
  · next same =>
    subst same
    exact u32_setU32_self b _ v (by omega)
  · exact u32_setU32_other b _ _ _ (by omega)

theorem u64_setU64 (b : Block) (i j : Nat) (v : UInt64) (hi : i < 64) :
    (b.setU64 (8 * i) v).u64 (8 * j) = if j = i then v else b.u64 (8 * j) := by
  split
  · next same =>
    subst same
    have small := v.toNat_lt
    rw [u64, setU64, leValue_patch_inside b 8 _ 8 _ _ (by omega) (by omega) (by omega)]
    simp only [Nat.sub_self, Nat.zero_add, leValue_leByte]
    rw [Nat.mod_eq_of_lt (by norm_num; omega), UInt64.ofNat_toNat]
  · rw [u64, setU64, leValue_patch_disjoint b 8 _ _ _ _ (by omega), u64]

@[simp] theorem u32_zero (off : Nat) : zero.u32 off = 0 := by
  simp [u32]

@[simp] theorem u64_zero (off : Nat) : zero.u64 off = 0 := by
  simp [u64]

end Block

end CoreFromDust.EasyFs
