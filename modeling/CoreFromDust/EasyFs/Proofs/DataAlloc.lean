import CoreFromDust.EasyFs.Proofs.Growth
import CoreFromDust.EasyFs.Vfs
import Mathlib.Data.Finset.Card

/-!
# Allocating and releasing data blocks

`alloc_data`, `dealloc_data` and `Inode::increase_size` as moves of `Owns`.
-/

namespace CoreFromDust.EasyFs

open CoreFromDust.Lib CoreFromDust.Lib.CellProg DiskInode

/-- The free blocks of the data area: clear bits of the data bitmap whose block lies on the
device. -/
def Geometry.freeBlocks (g : Geometry) (cells : Cells) : Nat :=
  ((Finset.range (g.bitmapBlocks * 4096)).filter fun b =>
    g.efs.dataBitmap.bit cells b = false ∧ g.dataStart + b < g.total.toNat).card

namespace Owns

variable {g : Geometry} {k : Nat} {ino : Nat → DiskInode} {pending : List Nat}
  {size cap : Nat}

theorem freeBlocks_frame {cells cells' : Cells}
    (same : ∀ id, g.bitmapStart ≤ id → id < g.dataStart → cells' id = cells id) :
    g.freeBlocks cells' = g.freeBlocks cells := by
  have sameSet : (Finset.range (g.bitmapBlocks * 4096)).filter (fun b =>
        g.efs.dataBitmap.bit cells' b = false ∧ g.dataStart + b < g.total.toNat) =
      (Finset.range (g.bitmapBlocks * 4096)).filter fun b =>
        g.efs.dataBitmap.bit cells b = false ∧ g.dataStart + b < g.total.toNat := by
    apply Finset.filter_congr
    intro b hb
    rw [bit_frame same (Finset.mem_range.mp hb)]
  rw [Geometry.freeBlocks, sameSet, Geometry.freeBlocks]

/-- While there are free blocks, the bit that is marked next belongs to one. -/
theorem marks_free {cells cells' : Cells} {m : Nat}
    (marks : g.efs.dataBitmap.Marks cells cells' m) (free : 0 < g.freeBlocks cells) :
    g.InData (g.dataStart + m) ∧ g.freeBlocks cells' + 1 = g.freeBlocks cells := by
  obtain ⟨inRange, clear, least, bits, -⟩ := marks
  rw [g.efs_dataBitmap] at inRange
  have inRange : m < g.bitmapBlocks * 4096 := inRange
  obtain ⟨b, hb⟩ := Finset.card_pos.mp free
  rw [Finset.mem_filter, Finset.mem_range] at hb
  have le : m ≤ b := by
    by_contra lt
    rw [least b (by omega)] at hb
    exact Bool.noConfusion hb.2.1
  have inData : g.InData (g.dataStart + m) := ⟨by omega, by omega, by omega⟩
  refine ⟨inData, ?_⟩
  have onDevice := inData.onDevice
  have erased : (Finset.range (g.bitmapBlocks * 4096)).filter (fun b =>
        g.efs.dataBitmap.bit cells' b = false ∧ g.dataStart + b < g.total.toNat) =
      ((Finset.range (g.bitmapBlocks * 4096)).filter fun b =>
        g.efs.dataBitmap.bit cells b = false ∧ g.dataStart + b < g.total.toNat).erase m := by
    ext b
    simp only [Finset.mem_filter, Finset.mem_range, Finset.mem_erase]
    constructor
    · rintro ⟨inside, bit, device⟩
      rw [bits b (by rw [g.efs_dataBitmap]; exact inside), Bool.or_eq_false_iff,
        decide_eq_false_iff_not] at bit
      exact ⟨bit.2, inside, bit.1, device⟩
    · rintro ⟨differ, inside, bit, device⟩
      refine ⟨inside, ?_, device⟩
      rw [bits b (by rw [g.efs_dataBitmap]; exact inside), bit, decide_eq_false differ]
      rfl
  have mem : m ∈ (Finset.range (g.bitmapBlocks * 4096)).filter fun b =>
      g.efs.dataBitmap.bit cells b = false ∧ g.dataStart + b < g.total.toNat := by
    rw [Finset.mem_filter, Finset.mem_range]
    exact ⟨inRange, clear, onDevice⟩
  unfold Geometry.freeBlocks
  rw [erased, Finset.card_erase_of_mem mem]
  exact Nat.sub_add_cancel (Finset.card_pos.mpr ⟨m, mem⟩)

/-- `alloc_data` makes a free block pending. -/
theorem allocData_wp {s : CellArray Block} (own : Owns g k ino pending s.cells)
    (free : 0 < g.freeBlocks s.cells)
    (lock : ∀ id, g.efs.dataBitmap.Within id → s.Lockable size cap id) :
    wp (fsHandler size cap) g.efs.allocData
      (fun v s' => s'.held = s.held ∧ Owns g k ino (pending ++ [v.toNat]) s'.cells ∧
        s'.cells v.toNat = Block.zero ∧ g.freeBlocks s'.cells + 1 = g.freeBlocks s.cells ∧
        (∀ i, i < k → (ino i).contents s'.cells = (ino i).contents s.cells) ∧
        ∀ id, ¬ (g.bitmapStart ≤ id ∧ id < g.dataStart) → s'.cells id = s.cells id) s := by
  simp only [EasyFileSystem.allocData, wp_bind]
  refine wp_mono (Bitmap.alloc_wp _ lock) ?_
  rintro r s' ⟨heldEq, found⟩
  cases r with
  | none =>
      obtain ⟨b, hb⟩ := Finset.card_pos.mp free
      rw [Finset.mem_filter, Finset.mem_range] at hb
      have full := found.2 b (by rw [g.efs_dataBitmap]; exact hb.1)
      rw [full] at hb
      exact Bool.noConfusion hb.2.1
  | some m =>
      obtain ⟨inData, count⟩ := marks_free found free
      obtain ⟨own', zero, contents, frame⟩ := own.take found inData
      have narrow := g.total.toNat_lt
      have onDevice := inData.onDevice
      have id : (UInt32.ofNat m + g.efs.dataAreaStartBlock).toNat = g.dataStart + m := by
        rw [UInt32.toNat_add, UInt32.toNat_ofNat', g.efs_dataStart]
        omega
      simp only [wp_unwrap_some, wp_pure, id]
      exact ⟨heldEq, own', zero, count, contents, frame⟩

/-- Allocating several blocks. -/
theorem allocMany_wp (l : List Nat) {s : CellArray Block} (own : Owns g k ino pending s.cells)
    (free : l.length ≤ g.freeBlocks s.cells)
    (lock : ∀ id, g.efs.dataBitmap.Within id → s.Lockable size cap id) :
    wp (fsHandler size cap) (collect (fun _ => g.efs.allocData) l)
      (fun vs s' => s'.held = s.held ∧ vs.length = l.length ∧
        Owns g k ino (pending ++ vs.map UInt32.toNat) s'.cells ∧
        (∀ v ∈ vs, s'.cells v.toNat = Block.zero) ∧
        (∀ i, i < k → (ino i).contents s'.cells = (ino i).contents s.cells) ∧
        ∀ id, ¬ (g.bitmapStart ≤ id ∧ id < g.dataStart) → s'.cells id = s.cells id) s := by
  induction l generalizing s pending with
  | nil => simpa [collect] using own
  | cons x l ih =>
      simp only [List.length_cons] at free
      simp only [collect, wp_bind, wp_pure]
      refine wp_mono (own.allocData_wp (by omega) lock) ?_
      rintro v s₁ ⟨heldEq, own₁, zero, count, contents, frame⟩
      refine wp_mono (ih own₁ (by omega) fun id h => (lock id h).congr heldEq) ?_
      rintro vs s₂ ⟨heldEq₂, len, own₂, zero₂, contents₂, frame₂⟩
      refine ⟨heldEq₂.trans heldEq, by simp [len], by simpa using own₂, ?_, ?_, ?_⟩
      · intro w hw
        rcases List.mem_cons.mp hw with rfl | hw
        · have low := (own₁.inData w.toNat (.inr (by simp))).low
          rw [frame₂ _ (by omega), zero]
        · exact zero₂ w hw
      · exact fun i hi => (contents₂ i hi).trans (contents i hi)
      · exact fun id h => (frame₂ id h).trans (frame id h)

/-- `dealloc_data` of a pending block. -/
theorem deallocData_wp {v : UInt32} {s : CellArray Block}
    (own : Owns g k ino (v.toNat :: pending) s.cells)
    (lock : ∀ id, g.bitmapStart ≤ id → id < g.total.toNat → s.Lockable size cap id) :
    wp (fsHandler size cap) (g.efs.deallocData v)
      (fun _ s' => s'.held = s.held ∧ Owns g k ino pending s'.cells ∧
        (∀ i, i < k → (ino i).contents s'.cells = (ino i).contents s.cells) ∧
        ∀ id, id < g.bitmapStart → s'.cells id = s.cells id) s := by
  have inData := own.inData v.toNat (.inr List.mem_cons_self)
  have low := inData.low
  have high := inData.hasBit
  have start := g.bitmapStart_le
  have bound := g.dataStart_le
  have bitNo : (v - g.efs.dataAreaStartBlock).toNat = v.toNat - g.dataStart := by
    rw [UInt32.toNat_sub_of_le _ _ (by rw [UInt32.le_iff_toNat_le, g.efs_dataStart]; exact low),
      g.efs_dataStart]
  have within : ∀ id, g.efs.dataBitmap.Within id → g.bitmapStart ≤ id ∧ id < g.dataStart := by
    intro id h
    rw [g.efs_dataBitmap] at h
    exact h
  simp only [EasyFileSystem.deallocData, wp_bind, bitNo]
  apply wp_modifyCell (lock _ (by omega) inData.onDevice)
  simp only [wp_pure, CellArray.hold_held, CellArray.hold_cells, true_and]
  have inRange : v.toNat - g.dataStart < g.bitmapBlocks * 4096 := by omega
  have zeroed : ∀ id, g.bitmapStart ≤ id → id < g.dataStart →
      Function.update s.cells v.toNat Block.zero id = s.cells id := by
    intro id _ before
    rw [Function.update_of_ne (show id ≠ v.toNat by omega)]
  have marked : g.efs.dataBitmap.bit (Function.update s.cells v.toNat Block.zero)
      (v.toNat - g.dataStart) = true := by
    rw [bit_frame zeroed inRange, own.marked _ inRange]
    refine .inr ?_
    rw [show g.dataStart + (v.toNat - g.dataStart) = v.toNat by omega]
    exact List.mem_cons_self
  refine wp_mono (Bitmap.dealloc_wp _ (by rw [g.efs_dataBitmap]; exact inRange) ?_ marked) ?_
  · intro id h
    obtain ⟨low', high'⟩ := within id h
    exact (lock id low' (by omega)).congr rfl
  · rintro - s' ⟨heldEq, clears⟩
    exact ⟨heldEq, own.release clears⟩

/-- Releasing all pending blocks. -/
theorem deallocAll_wp (vs : List UInt32) {s : CellArray Block}
    (own : Owns g k ino (vs.map UInt32.toNat) s.cells)
    (lock : ∀ id, g.bitmapStart ≤ id → id < g.total.toNat → s.Lockable size cap id) :
    wp (fsHandler size cap) (forEach g.efs.deallocData vs)
      (fun _ s' => s'.held = s.held ∧ Owns g k ino [] s'.cells ∧
        (∀ i, i < k → (ino i).contents s'.cells = (ino i).contents s.cells) ∧
        ∀ id, id < g.bitmapStart → s'.cells id = s.cells id) s := by
  induction vs generalizing s with
  | nil => simpa [forEach] using own
  | cons v vs ih =>
      simp only [forEach, wp_bind]
      refine wp_mono (deallocData_wp own lock) ?_
      rintro - s₁ ⟨heldEq, own₁, contents, frame⟩
      refine wp_mono (ih own₁ fun id low high => (lock id low high).congr heldEq) ?_
      rintro - s₂ ⟨heldEq₂, own₂, contents₂, frame₂⟩
      exact ⟨heldEq₂.trans heldEq, own₂, fun i hi => (contents₂ i hi).trans (contents i hi),
        fun id h => (frame₂ id h).trans (frame id h)⟩

end Owns

end CoreFromDust.EasyFs
