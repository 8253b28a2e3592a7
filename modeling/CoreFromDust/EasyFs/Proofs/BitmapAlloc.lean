import CoreFromDust.EasyFs.Proofs.BitmapBits

/-!
# Bitmap allocation on the disk

`Bitmap::alloc` and `Bitmap::dealloc` as operations on the set of marked bits of a whole
bitmap, together with the blocks they leave alone.
-/

namespace CoreFromDust.EasyFs

open CoreFromDust.Lib CoreFromDust.Lib.CellProg

/-- The blocks of a device, by block id. -/
abbrev Cells := Nat → Block

/-- A device of `size` blocks of which at most `cap` are in use at once. -/
abbrev fsHandler (size cap : Nat) : Handler Block (CellArray Block) :=
  arrayHandler Block size cap

namespace Bitmap

/-- Bit `n` of a bitmap. -/
def bit (bm : Bitmap) (cells : Cells) (n : Nat) : Bool :=
  (cells (bm.startBlockId + n / 4096)).bit (n % 4096)

/-- The blocks of a bitmap. -/
def Within (bm : Bitmap) (id : Nat) : Prop :=
  bm.startBlockId ≤ id ∧ id < bm.startBlockId + bm.blocks

/-- The step from `cells` to `cells'` marks bit `m`, which was the least clear one. -/
structure Marks (bm : Bitmap) (cells cells' : Cells) (m : Nat) : Prop where
  inRange : m < bm.blocks * 4096
  clear : bm.bit cells m = false
  least : ∀ n, n < m → bm.bit cells n = true
  bits : ∀ n, n < bm.blocks * 4096 → bm.bit cells' n = (bm.bit cells n || decide (n = m))
  frame : ∀ id, ¬ bm.Within id → cells' id = cells id

/-- The step from `cells` to `cells'` clears bit `m` and no other. -/
structure Clears (bm : Bitmap) (cells cells' : Cells) (m : Nat) : Prop where
  bits : ∀ n, n < bm.blocks * 4096 → bm.bit cells' n = (bm.bit cells n && decide (n ≠ m))
  frame : ∀ id, ¬ bm.Within id → cells' id = cells id

theorem bit_congr (bm : Bitmap) {cells cells' : Cells} {n : Nat} (hn : n < bm.blocks * 4096)
    (same : ∀ id, bm.Within id → cells' id = cells id) : bm.bit cells' n = bm.bit cells n := by
  unfold bit
  rw [same _ ⟨by omega, by omega⟩]

/-- Updating one block of a bitmap so that only the block's bit `m` changes. -/
theorem bit_update (bm : Bitmap) (cells : Cells) {k m : Nat} {b : Block} {f : Bool → Bool → Bool}
    (hm : m < 4096) (other : ∀ x, f x false = x)
    (h : ∀ n, b.bit n = f ((cells (bm.startBlockId + k)).bit n) (decide (n = m))) (n : Nat) :
    bm.bit (Function.update cells (bm.startBlockId + k) b) n =
      f (bm.bit cells n) (decide (n = k * 4096 + m)) := by
  unfold bit
  by_cases same : n / 4096 = k
  · rw [same, Function.update_self, h]
    congr 1
    exact decide_eq_decide.mpr (by omega)
  · rw [Function.update_of_ne (by omega), decide_eq_false (by omega), other]

variable {size cap : Nat}

/-- What the loop of `Bitmap::alloc` does once the bits of all earlier blocks are set. -/
theorem allocLoop_wp (bm : Bitmap) (remaining blockId : Nat) {s : CellArray Block}
    (all : blockId + remaining = bm.blocks)
    (lock : ∀ id, bm.Within id → s.Lockable size cap id)
    (earlier : ∀ n, n < blockId * 4096 → bm.bit s.cells n = true) :
    wp (fsHandler size cap) (allocLoop bm remaining blockId)
      (fun r s' => s'.held = s.held ∧ match r with
        | some m => bm.Marks s.cells s'.cells m
        | none => s'.cells = s.cells ∧ ∀ n, n < bm.blocks * 4096 → bm.bit s.cells n = true) s := by
  induction remaining generalizing blockId with
  | zero =>
      rw [Nat.add_zero] at all
      subst all
      simp only [allocLoop, wp_pure, true_and]
      exact earlier
  | succ remaining ih =>
      have within : bm.Within (blockId + bm.startBlockId) := ⟨by omega, by omega⟩
      simp only [allocLoop, wp_bind]
      apply wp_modifyCell (lock _ within)
      cases found : allocIn (s.cells (blockId + bm.startBlockId)) with
      | none =>
          simp only [wp_pure, CellArray.hold_held, CellArray.hold_cells, true_and,
            Function.update_eq_self]
          apply ih (blockId + 1) (by omega)
          intro n hn
          by_cases old : n < blockId * 4096
          · exact earlier n old
          · unfold bit
            rw [show bm.startBlockId + n / 4096 = blockId + bm.startBlockId by omega]
            exact allocIn_none found (by omega)
      | some r =>
          obtain ⟨b, m⟩ := r
          obtain ⟨small, clear, least, bits⟩ := allocIn_some found
          simp only [wp_pure, CellArray.hold_held, CellArray.hold_cells, true_and, blockBits,
            blockSz, Nat.reduceMul]
          rw [Nat.add_comm blockId] at clear least bits ⊢
          refine ⟨by omega, ?_, ?_, ?_, ?_⟩
          · unfold bit
            rw [show (blockId * 4096 + m) / 4096 = blockId by omega,
              show (blockId * 4096 + m) % 4096 = m by omega, clear]
          · intro n hn
            by_cases old : n < blockId * 4096
            · exact earlier n old
            · unfold bit
              rw [show n / 4096 = blockId by omega]
              exact least _ (by omega)
          · intro n _
            exact bm.bit_update s.cells small (by simp) bits n
          · intro id outside
            apply Function.update_of_ne
            rintro rfl
            exact outside ⟨by omega, by omega⟩

/-- `Bitmap::alloc` marks the least clear bit, and finds none only when all bits are set. -/
theorem alloc_wp (bm : Bitmap) {s : CellArray Block}
    (lock : ∀ id, bm.Within id → s.Lockable size cap id) :
    wp (fsHandler size cap) bm.alloc
      (fun r s' => s'.held = s.held ∧ match r with
        | some m => bm.Marks s.cells s'.cells m
        | none => s'.cells = s.cells ∧ ∀ n, n < bm.blocks * 4096 → bm.bit s.cells n = true) s :=
  allocLoop_wp bm bm.blocks 0 (by omega) lock (by omega)

/-- `Bitmap::dealloc` of a set bit clears it. -/
theorem dealloc_wp (bm : Bitmap) {s : CellArray Block} {m : Nat} (hm : m < bm.blocks * 4096)
    (lock : ∀ id, bm.Within id → s.Lockable size cap id) (marked : bm.bit s.cells m = true) :
    wp (fsHandler size cap) (bm.dealloc m)
      (fun _ s' => s'.held = s.held ∧ bm.Clears s.cells s'.cells m) s := by
  have within : bm.Within (bm.startBlockId + m / 4096) := ⟨by omega, by omega⟩
  have word : m % 4096 / 64 < 64 := by omega
  have inner : m % 4096 % 64 < 64 := by omega
  simp only [dealloc, decomposition, blockBits, blockSz, Nat.reduceMul]
  apply wp_modifyCell (lock _ within)
  have isSet : ((s.cells (bm.startBlockId + m / 4096)).u64 (8 * (m % 4096 / 64))).toNat.testBit
      (m % 4096 % 64) = true := marked
  simp only [wp_bind, wp_check, and_shiftLeft_pos _ inner, isSet, wp_pure, true_and,
    CellArray.hold_held, CellArray.hold_cells]
  refine ⟨?_, ?_⟩
  · intro n _
    have bits : ∀ i, ((s.cells (bm.startBlockId + m / 4096)).setU64 (8 * (m % 4096 / 64))
        ((s.cells (bm.startBlockId + m / 4096)).u64 (8 * (m % 4096 / 64)) -
          1 <<< UInt64.ofNat (m % 4096 % 64))).bit i =
        ((s.cells (bm.startBlockId + m / 4096)).bit i && !decide (i = m % 4096)) := by
      intro i
      rw [Block.bit_setU64 _ word]
      by_cases same : i / 64 = m % 4096 / 64
      · have which : decide (i % 64 ≠ m % 4096 % 64) = !decide (i = m % 4096) := by
          rw [← decide_not]
          exact decide_eq_decide.mpr (by omega)
        rw [if_pos same, testBit_sub_shiftLeft _ inner isSet, which, Block.bit, same]
      · have other : decide (i = m % 4096) = false := decide_eq_false (by omega)
        rw [if_neg same, other, Bool.not_false, Bool.and_true]
    have whole := bm.bit_update s.cells (f := fun x y => x && !y) (Nat.mod_lt m (by omega))
      (by simp) bits n
    rw [whole, show m / 4096 * 4096 + m % 4096 = m by omega]
    simp
  · intro id outside
    apply Function.update_of_ne
    rintro rfl
    exact outside within

end Bitmap

end CoreFromDust.EasyFs
