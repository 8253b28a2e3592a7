import CoreFromDust.EasyFs.Block

/-!
# Bitmaps

Embedding of `easy-fs/src/bitmap.rs`. A bitmap occupies consecutive blocks, each of them
seen as `[u64; 64]`.
-/

namespace CoreFromDust.EasyFs

open CoreFromDust.Lib CoreFromDust.Lib.CellProg

/-- `BLOCK_BITS`. -/
abbrev blockBits : Nat := blockSz * 8

/-- `Bitmap`. -/
structure Bitmap where
  startBlockId : Nat
  blocks : Nat
  deriving DecidableEq, Repr

/-- `u64::MAX`. -/
def u64Max : UInt64 := 0xFFFFFFFFFFFFFFFF

/-- `u64::trailing_ones`: the position of the lowest clear bit, `64` when there is none. -/
def trailingOnes (x : UInt64) : Nat :=
  ((List.range 64).find? fun j => !x.toNat.testBit j).getD 64

/-- `decomposition`: `(block_pos, bits64_pos, inner_pos)`. -/
def decomposition (bit : Nat) : Nat × Nat × Nat :=
  (bit / blockBits, bit % blockBits / 64, bit % blockBits % 64)

namespace Bitmap

/-- The closure of `Bitmap::alloc` on one block: mark the first clear bit, if there is one. -/
def allocIn (bitmapBlock : Block) : Option (Block × Nat) :=
  let found := (List.range 64).find? fun pos => bitmapBlock.u64 (8 * pos) != u64Max
  found.map fun bits64Pos =>
    let bits64 := bitmapBlock.u64 (8 * bits64Pos)
    let innerPos := trailingOnes bits64
    (bitmapBlock.setU64 (8 * bits64Pos) (bits64 ||| (1 <<< UInt64.ofNat innerPos)),
      bits64Pos * 64 + innerPos)

/-- The loop of `Bitmap::alloc` over the `remaining` blocks from `blockId` on. -/
def allocLoop (bm : Bitmap) : Nat → Nat → FsProg (Option Nat)
  | 0, _ => pure none
  | remaining + 1, blockId => do
      let pos ← modifyCell (blockId + bm.startBlockId) fun bitmapBlock =>
        match allocIn bitmapBlock with
        | some (bitmapBlock, inner) => pure (bitmapBlock, some (blockId * blockBits + inner))
        | none => pure (bitmapBlock, none)
      match pos with
      | some bit => pure (some bit)
      | none => allocLoop bm remaining (blockId + 1)

/-- `Bitmap::alloc`. -/
def alloc (bm : Bitmap) : FsProg (Option Nat) := allocLoop bm bm.blocks 0

/-- `Bitmap::dealloc`. -/
def dealloc (bm : Bitmap) (bit : Nat) : FsProg Unit :=
  let (blockPos, bits64Pos, innerPos) := decomposition bit
  modifyCell (bm.startBlockId + blockPos) fun bitmapBlock => do
    let bits64 := bitmapBlock.u64 (8 * bits64Pos)
    let mask : UInt64 := 1 <<< UInt64.ofNat innerPos
    check (bits64 &&& mask > 0)
    pure (bitmapBlock.setU64 (8 * bits64Pos) (bits64 - mask), ())

/-- `Bitmap::maximum`. -/
def maximum (bm : Bitmap) : Nat := bm.blocks * blockBits

end Bitmap

end CoreFromDust.EasyFs
