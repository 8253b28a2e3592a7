import CoreFromDust.EasyFs.Proofs.DataAlloc
import CoreFromDust.EasyFs.Spec

/-!
# Work on one inode

The closures that `vfs.rs` passes to `modify_disk_inode` run while the block of the inode is
held and the inode itself is in memory. Here they are as steps from `Owns` to `Owns`.
-/

namespace CoreFromDust.EasyFs

open CoreFromDust.Lib CoreFromDust.Lib.CellProg DiskInode

/-- The device is large enough, and the only block in use is one of the inode area. -/
structure Busy (g : Geometry) (size cap : Nat) (s : CellArray Block) (blk : Nat) : Prop where
  device : g.total.toNat ≤ size
  room : 3 ≤ cap
  held : s.held = [blk]
  pos : 0 < blk
  inodeArea : blk < g.bitmapStart

namespace Busy

variable {g : Geometry} {size cap blk : Nat} {s s' : CellArray Block}

theorem congr (busy : Busy g size cap s blk) (same : s'.held = s.held) : Busy g size cap s' blk :=
  ⟨busy.device, busy.room, same.trans busy.held, busy.pos, busy.inodeArea⟩

/-- The blocks after the inode area can be used. -/
theorem usable (busy : Busy g size cap s blk) {id : Nat} (low : g.bitmapStart ≤ id)
    (high : id < g.total.toNat) : Usable size cap s id := by
  have device := busy.device
  have room := busy.room
  have area := busy.inodeArea
  refine ⟨by omega, ?_, by rw [busy.held]; simp; omega⟩
  rw [busy.held, List.mem_singleton]
  omega

/-- The super block can be used. -/
theorem usable_zero (busy : Busy g size cap s blk) : Usable size cap s 0 := by
  have device := busy.device
  have room := busy.room
  have pos := busy.pos
  have fits := g.fits
  refine ⟨by omega, ?_, by rw [busy.held]; simp; omega⟩
  rw [busy.held, List.mem_singleton]
  omega

theorem usable_data (busy : Busy g size cap s blk) {id : Nat} (h : g.InData id) :
    Usable size cap s id :=
  busy.usable (Nat.le_trans g.bitmapStart_le h.low) h.onDevice

theorem lock_bitmap (busy : Busy g size cap s blk) {id : Nat}
    (h : g.efs.dataBitmap.Within id) : s.Lockable size cap id := by
  rw [g.efs_dataBitmap] at h
  have high : id < g.dataStart := h.2
  have bound := g.dataStart_le
  exact (busy.usable h.1 (by omega)).lock

end Busy

/-- The blocks that a file of `size` bytes needs more when it grows to `newSize` bytes. -/
def blocksNeeded (size newSize : Nat) : Nat :=
  blocksFor ((newSize + 511) / 512) - blocksFor ((size + 511) / 512)

/-- File `i` has become `c`, all other files are as before, and nothing before the data bitmap
has changed on the disk. -/
structure Changed (g : Geometry) (k : Nat) (ino : Nat → DiskInode) (i : Nat) (c : List UInt8)
    (cells : Cells) (d : DiskInode) (cells' : Cells) : Prop where
  own : Owns g k (Function.update ino i d) [] cells'
  type : d.type_ = (ino i).type_
  contents : d.contents cells' = c
  others : ∀ j, j < k → j ≠ i → (ino j).contents cells' = (ino j).contents cells
  frame : ∀ id, id < g.bitmapStart → cells' id = cells id

theorem Changed.size {g : Geometry} {k : Nat} {ino : Nat → DiskInode} {i : Nat} {c : List UInt8}
    {cells cells' : Cells} {d : DiskInode} (h : Changed g k ino i c cells d cells') :
    d.size.toNat = c.length := by
  rw [← h.contents, length_contents]

/-- `blocks_num_needed` counts the slots between the two sizes. -/
theorem DiskInode.blocksNumNeeded_eq {d : DiskInode} {newSize : UInt32}
    (le : d.size.toNat ≤ newSize.toNat) (small : newSize.toNat ≤ maxSize) :
    ∃ n : UInt32, d.blocksNumNeeded newSize = .ret n ∧
      n.toNat = blocksNeeded d.size.toNat newSize.toNat := by
  have ordered : d.size ≤ newSize := UInt32.le_iff_toNat_le.mpr le
  refine ⟨totalBlocks newSize - totalBlocks d.size, ?_, ?_⟩
  · simp only [blocksNumNeeded, check, ordered, if_true]
    rfl
  · have old := totalBlocks_toNat (Nat.le_trans le small)
    have new := totalBlocks_toNat small
    have mono : (d.size.toNat + 511) / 512 ≤ (newSize.toNat + 511) / 512 := by omega
    rw [UInt32.toNat_sub_of_le, old, new, blocksNeeded]
    rw [UInt32.le_iff_toNat_le, old, new]
    exact blocksFor_mono mono

namespace Owns

variable {g : Geometry} {k : Nat} {ino : Nat → DiskInode} {size cap blk : Nat}

/-- `Inode::increase_size` to a size that is not smaller. -/
theorem increaseSize_wp {s : CellArray Block} (own : Owns g k ino [] s.cells) {i : Nat} (hi : i < k)
    (busy : Busy g size cap s blk) (newSize : UInt32)
    (le : (ino i).size.toNat ≤ newSize.toNat) (small : newSize.toNat ≤ maxSize)
    (free : blocksNeeded (ino i).size.toNat newSize.toNat ≤ g.freeBlocks s.cells) :
    wp (fsHandler size cap) (Inode.increaseSize g.efs newSize (ino i))
      (fun d s' => s'.held = s.held ∧
        Changed g k ino i (Spec.extend ((ino i).contents s.cells) newSize.toNat) s.cells d
          s'.cells) s := by
  have file := own.file i hi
  have notLess : ¬ newSize < (ino i).size := by
    rw [UInt32.lt_iff_toNat_lt]
    omega
  obtain ⟨n, needed, count⟩ := blocksNumNeeded_eq le small
  simp only [Inode.increaseSize, notLess, if_false, needed, wp_bind, wp_ret, count]
  refine wp_mono (own.allocMany_wp _ (by simpa using free) fun id h => busy.lock_bitmap h) ?_
  rintro vs s₁ ⟨heldEq, len, own₁, zero, contents₁, frame₁⟩
  rw [List.length_range] at len
  simp only [List.nil_append] at own₁
  have busy₁ := busy.congr heldEq
  have file₁ := own₁.file i hi
  have mono : (ino i).blockCount ≤ (newSize.toNat + 511) / 512 := by
    unfold blockCount
    omega
  have bound : (newSize.toNat + 511) / 512 ≤ 16540 := by
    simp only [maxSize] at small
    omega
  have slotsLen : (slotsFrom (ino i).blockCount ((newSize.toNat + 511) / 512)).length =
      vs.length := by
    rw [length_slotsFrom mono, len]
    rfl
  have vsApart : ∀ v ∈ vs, v.toNat ∉ (ino i).ids s₁.cells :=
    fun v hv => own₁.pendingApart v.toNat (List.mem_map.mpr ⟨v, hv, rfl⟩) i hi
  have usableId : ∀ id ∈ (ino i).ids s₁.cells, Usable size cap s₁ id :=
    fun id mem => busy₁.usable_data (own₁.inData id (.inl ⟨i, hi, mem⟩))
  refine wp_mono (DiskInode.increaseSize_wp (ino i) newSize file₁.dataBlocks_eq
    (dataBlocksOf_toNat small) mono bound vs s₁ slotsLen ?_ own₁.pendingNodup ?_ file₁.tree vsApart
    ?_) ?_
  · exact fun v hv => busy₁.usable_data (own₁.inData _ (.inr (List.mem_map.mpr ⟨v, hv, rfl⟩)))
  · exact fun p hp _ => usableId _ (FileOk.mem_ids hp)
  · intro short
    rw [file₁.single short]
    exact busy₁.usable_zero
  · rintro d s₂ ⟨heldEq₂, effect⟩
    have grown := grown_assign file₁ le small slotsLen own₁.pendingNodup vsApart zero effect
    obtain ⟨own₂, others, frame₂⟩ := own₁.grow hi grown
    refine ⟨heldEq₂.trans heldEq, own₂, grown.type, ?_, ?_, ?_⟩
    · rw [grown.contents le, contents₁ i hi, Spec.extend, length_contents]
    · exact fun j hj differ => (others j hj differ).trans (contents₁ j hj)
    · intro id low
      have start := g.bitmapStart_le
      rw [frame₂ id, frame₁ id (by omega)]
      intro inData
      have := inData.low
      omega

/-- `Inode::increase_size` leaves a file alone that is long enough. -/
theorem extend_wp {s : CellArray Block} (own : Owns g k ino [] s.cells) {i : Nat} (hi : i < k)
    (busy : Busy g size cap s blk) (stop : Nat)
    (small : max (ino i).size.toNat stop ≤ maxSize)
    (free : blocksNeeded (ino i).size.toNat (max (ino i).size.toNat stop) ≤
      g.freeBlocks s.cells) :
    wp (fsHandler size cap) (Inode.increaseSize g.efs (UInt32.ofNat stop) (ino i))
      (fun d s' => s'.held = s.held ∧
        Changed g k ino i (Spec.extend ((ino i).contents s.cells) stop) s.cells d s'.cells) s := by
  have narrow : (UInt32.ofNat stop).toNat = stop := by
    rw [UInt32.toNat_ofNat', Nat.mod_eq_of_lt]
    simp only [maxSize] at small
    omega
  by_cases shorter : stop < (ino i).size.toNat
  · have less : UInt32.ofNat stop < (ino i).size := by
      rw [UInt32.lt_iff_toNat_lt, narrow]
      exact shorter
    rw [Inode.increaseSize, if_pos less, wp_pure]
    refine ⟨rfl, ?_, rfl, ?_, fun _ _ _ => rfl, fun _ _ => rfl⟩
    · rwa [Function.update_eq_self]
    · rw [Spec.extend, length_contents, Nat.sub_eq_zero_of_le (by omega)]
      simp
  · rw [Nat.max_eq_right (by omega)] at small free
    have ran := own.increaseSize_wp hi busy (UInt32.ofNat stop) (by omega) (by omega)
      (by rw [narrow]; exact free)
    rwa [narrow] at ran

/-- The closure of `Inode::write_at`. -/
theorem writeBody_wp {s : CellArray Block} (own : Owns g k ino [] s.cells) {i : Nat} (hi : i < k)
    (busy : Busy g size cap s blk) (offset : Nat) (buf : List UInt8)
    (small : max (ino i).size.toNat (offset + buf.length) ≤ maxSize)
    (free : blocksNeeded (ino i).size.toNat (max (ino i).size.toNat (offset + buf.length)) ≤
      g.freeBlocks s.cells) :
    wp (fsHandler size cap)
      (Inode.increaseSize g.efs (UInt32.ofNat (offset + buf.length)) (ino i))
      (fun d s' => wp (fsHandler size cap) (d.writeAt offset buf)
        (fun n s'' => s''.held = s.held ∧ n = buf.length ∧
          Changed g k ino i (Spec.write ((ino i).contents s.cells) offset buf) s.cells d s''.cells)
        s') s := by
  refine wp_mono (own.extend_wp hi busy _ small free) ?_
  rintro d s₁ ⟨heldEq, changed⟩
  have self : Function.update ino i d i = d := Function.update_self _ _ _
  have file := changed.own.file i hi
  rw [self] at file
  have busy₁ := busy.congr heldEq
  have dSize : d.size.toNat = max (ino i).size.toNat (offset + buf.length) := by
    rw [changed.size, Spec.length_extend, length_contents]
  have within : offset + buf.length ≤ d.size.toNat := by omega
  have lockIds : ∀ p ∈ slots d.blockCount, s₁.Lockable size cap (d.ptr s₁.cells p).toNat := by
    intro p hp
    refine (busy₁.usable_data (changed.own.inData _ (.inl ⟨i, hi, ?_⟩))).lock
    rw [self]
    exact FileOk.mem_ids hp
  refine wp_mono (DiskInode.writeAt_wp d file.count_le (FileOk.size_le d) s₁ file.tree lockIds
    offset buf within) ?_
  rintro n s₂ ⟨heldEq₂, rfl, writes⟩
  have within' := within
  have writes' := writes
  rw [← self] at within' writes'
  obtain ⟨own₂, others, frame₂⟩ := changed.own.overwrite hi within' writes'
  refine ⟨heldEq₂.trans heldEq, rfl, own₂, changed.type, ?_, ?_, ?_⟩
  · rw [writes.contents within, changed.contents]
    rfl
  · intro j hj differ
    have same := others j hj differ
    rw [Function.update_of_ne differ] at same
    rw [same, changed.others j hj differ]
  · intro id low
    rw [frame₂ id, changed.frame id low]
    intro inData
    have := inData.low
    have := g.bitmapStart_le
    omega

/-- The closure of `Inode::clear`. -/
theorem clearBody_wp {s : CellArray Block} (own : Owns g k ino [] s.cells) {i : Nat} (hi : i < k)
    (busy : Busy g size cap s blk) :
    wp (fsHandler size cap) (ino i).clearSize
      (fun r s' => r.2.length = (totalBlocks (ino i).size).toNat ∧
        wp (fsHandler size cap) (forEach g.efs.deallocData r.2)
          (fun _ s'' => s''.held = s.held ∧ Changed g k ino i [] s.cells r.1 s''.cells) s') s := by
  have file := own.file i hi
  refine wp_mono (clearSize_wp (ino i) file.dataBlocks_eq file.count_le s file.tree fun p hp =>
    busy.usable_data (own.inData _ (.inl ⟨i, hi, FileOk.mem_ids hp⟩))) ?_
  rintro r s' ⟨rfl, rfl⟩
  have idsEq : ((slots (ino i).blockCount).map ((ino i).ptr s'.cells)).map UInt32.toNat =
      (ino i).ids s'.cells := by
    rw [List.map_map]
    rfl
  have own₁ := own.reset hi (ino i).type_
  rw [← idsEq] at own₁
  refine ⟨?_, wp_mono (own₁.deallocAll_wp _ fun id low high => (busy.usable low high).lock) ?_⟩
  · rw [← file.ids_length, ← idsEq]
    simp
  · rintro - s₂ ⟨heldEq, own₂, contents, frame⟩
    refine ⟨heldEq, own₂, rfl, contents_init _ _, ?_, frame⟩
    intro j hj differ
    have same := contents j hj
    rwa [Function.update_of_ne differ] at same

end Owns

end CoreFromDust.EasyFs
