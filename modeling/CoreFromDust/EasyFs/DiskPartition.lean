import CoreFromDust.EasyFs.Proofs.Geometry

/-!
# The areas of a disk

The super block, the two bitmaps, the inode area and the data area of a disk that
`EasyFileSystem::create` formats follow each other and fill the disk, and the inodes lie in slots
of the inode area.
-/

namespace CoreFromDust.EasyFs

open EasyFileSystem

/-- The `u32` arithmetic of `EasyFileSystem::create` does not wrap. -/
structure NoWrap (total inodeBlocks : UInt32) : Prop where
  /-- the cast of `inode_area_blocks` -/
  cast : ((layout total inodeBlocks).inodeBitmap.maximum * DiskInode.sizeOf +
    blockSz - 1) / blockSz < 2 ^ 32
  inodeTotal : inodeBlocks.toNat + (inodeAreaBlocks inodeBlocks).toNat < 2 ^ 32
  dataTotal : 1 + (inodeTotalBlocks inodeBlocks).toNat ≤ total.toNat
  rounding : (dataTotalBlocks total inodeBlocks).toNat + 4096 < 2 ^ 32

/-- The first block and the number of blocks of each area, in the order of the disk. -/
def areas (total inodeBlocks : UInt32) : List (Nat × Nat) :=
  let efs := layout total inodeBlocks
  [(0, 1), (efs.inodeBitmap.startBlockId, efs.inodeBitmap.blocks),
    (efs.inodeAreaStartBlock.toNat, (inodeAreaBlocks inodeBlocks).toNat),
    (efs.dataBitmap.startBlockId, efs.dataBitmap.blocks),
    (efs.dataAreaStartBlock.toNat, (dataAreaBlocks total inodeBlocks).toNat)]

section Partition

variable {total inodeBlocks : UInt32}

/-- The disk has room for the inodes. -/
theorem NoWrap.fits (noWrap : NoWrap total inodeBlocks) :
    1 + 1025 * inodeBlocks.toNat ≤ total.toNat := by
  have cast := noWrap.cast
  have sum := noWrap.inodeTotal
  have le := noWrap.dataTotal
  rw [Geometry.inodeAreaBlocks_toNat] at sum
  rw [Geometry.inodeTotalBlocks_toNat] at le
  simp only [layout, Bitmap.maximum, blockBits, blockSz, DiskInode.sizeOf] at cast
  rw [Nat.mod_eq_of_lt (show 1024 * inodeBlocks.toNat < 2 ^ 32 by omega)] at sum
  rw [Nat.mod_eq_of_lt (show 1025 * inodeBlocks.toNat < 2 ^ 32 by omega)] at le
  exact le

/-- The disk as a geometry. -/
def NoWrap.geometry (noWrap : NoWrap total inodeBlocks) : Geometry :=
  ⟨total, inodeBlocks, noWrap.fits⟩

theorem NoWrap.dataBitmap_toNat (noWrap : NoWrap total inodeBlocks) :
    (dataBitmapBlocks total inodeBlocks).toNat =
      ((dataTotalBlocks total inodeBlocks).toNat + 4096) / 4097 := by
  rw [Geometry.dataBitmapBlocks_toNat, Nat.mod_eq_of_lt noWrap.rounding]

theorem NoWrap.dataArea_toNat (noWrap : NoWrap total inodeBlocks) :
    (dataAreaBlocks total inodeBlocks).toNat =
      (dataTotalBlocks total inodeBlocks).toNat - (dataBitmapBlocks total inodeBlocks).toNat := by
  have small := (dataTotalBlocks total inodeBlocks).toNat_lt
  have bitmap := noWrap.dataBitmap_toNat
  rw [dataAreaBlocks, UInt32.toNat_sub]
  omega

/-- Where each area starts. -/
theorem NoWrap.areas_eq (noWrap : NoWrap total inodeBlocks) : areas total inodeBlocks =
    [(0, 1), (1, inodeBlocks.toNat), (1 + inodeBlocks.toNat, 1024 * inodeBlocks.toNat),
      (noWrap.geometry.bitmapStart, noWrap.geometry.bitmapBlocks),
      (noWrap.geometry.dataStart, (dataAreaBlocks total inodeBlocks).toNat)] := by
  have fits := noWrap.fits
  have small := total.toNat_lt
  have inodeArea : (inodeAreaBlocks inodeBlocks).toNat = 1024 * inodeBlocks.toNat := by
    rw [Geometry.inodeAreaBlocks_toNat]
    omega
  have bitmap : (layout total inodeBlocks).dataBitmap =
      ⟨noWrap.geometry.bitmapStart, noWrap.geometry.bitmapBlocks⟩ := noWrap.geometry.efs_dataBitmap
  have inodes : (layout total inodeBlocks).inodeAreaStartBlock.toNat = 1 + inodeBlocks.toNat :=
    noWrap.geometry.efs_inodeStart
  have data : (layout total inodeBlocks).dataAreaStartBlock.toNat = noWrap.geometry.dataStart :=
    noWrap.geometry.efs_dataStart
  simp only [areas, inodes, bitmap, data, inodeArea]
  rfl

/-- Consecutive ranges of blocks. -/
theorem range_append {blocks m : Nat} (n : Nat) (start : blocks = m) :
    List.range blocks ++ List.range' m n = List.range (m + n) := by
  subst start
  rw [List.range_eq_range', List.range_eq_range', ← List.range'_append_1, Nat.zero_add]

/-- The areas follow each other and fill the disk. -/
theorem NoWrap.areas_range (noWrap : NoWrap total inodeBlocks) :
    ((areas total inodeBlocks).flatMap fun area => List.range' area.1 area.2) =
      List.range total.toNat := by
  have fits := noWrap.fits
  have totalEq :
      (dataTotalBlocks total inodeBlocks).toNat = total.toNat - noWrap.geometry.bitmapStart :=
    noWrap.geometry.dataTotalBlocks_toNat
  have area := noWrap.dataArea_toNat
  have bitmap := noWrap.dataBitmap_toNat
  have bitmapEq : noWrap.geometry.bitmapBlocks = (dataBitmapBlocks total inodeBlocks).toNat := rfl
  have bitmapStart : noWrap.geometry.bitmapStart = 1 + 1025 * inodeBlocks.toNat := rfl
  have dataStart : noWrap.geometry.dataStart =
      noWrap.geometry.bitmapStart + noWrap.geometry.bitmapBlocks := rfl
  rw [noWrap.areas_eq]
  simp only [List.flatMap_cons, List.flatMap_nil, List.append_nil]
  rw [← List.append_assoc, ← List.append_assoc, ← List.append_assoc]
  rw [show List.range' 0 1 = List.range 1 by rw [List.range_eq_range'], range_append _ rfl,
    range_append _ rfl, range_append _ (by omega), range_append _ (by omega)]
  congr 1
  omega

/-- The slot of an inode. -/
theorem NoWrap.slot_eq (noWrap : NoWrap total inodeBlocks) {id : UInt32}
    (inBitmap : id.toNat < (layout total inodeBlocks).inodeBitmap.maximum) :
    ((layout total inodeBlocks).getDiskInodePos id).1.toNat = 1 + inodeBlocks.toNat + id.toNat / 4 ∧
      ((layout total inodeBlocks).getDiskInodePos id).2 = id.toNat % 4 * 128 := by
  have inodes : id.toNat < noWrap.geometry.inodes := inBitmap
  have pos := noWrap.geometry.getDiskInodePos_eq inodes id.toNat_lt
  rw [UInt32.ofNat_toNat] at pos
  exact pos

/-- The areas of a formatted disk are a partition of its blocks, the data bitmap has a bit for each
block of the data area, and the inodes lie in separate slots of the inode area. -/
theorem diskLayout_partition (noWrap : NoWrap total inodeBlocks)
    (nonempty : dataAreaBlocks total inodeBlocks ≠ 0) :
    ((areas total inodeBlocks).flatMap fun area => List.range' area.1 area.2) =
        List.range total.toNat ∧
      0 < (dataAreaBlocks total inodeBlocks).toNat ∧
      (dataAreaBlocks total inodeBlocks).toNat ≤ (layout total inodeBlocks).dataBitmap.maximum ∧
      (∀ id : UInt32, id.toNat < (layout total inodeBlocks).inodeBitmap.maximum →
        (layout total inodeBlocks).inodeAreaStartBlock.toNat ≤
            ((layout total inodeBlocks).getDiskInodePos id).1.toNat ∧
          ((layout total inodeBlocks).getDiskInodePos id).1.toNat <
            (layout total inodeBlocks).inodeAreaStartBlock.toNat +
            (inodeAreaBlocks inodeBlocks).toNat ∧
          ((layout total inodeBlocks).getDiskInodePos id).2 + DiskInode.sizeOf ≤ blockSz) ∧
      ∀ id id' : UInt32, id.toNat < (layout total inodeBlocks).inodeBitmap.maximum →
        id'.toNat < (layout total inodeBlocks).inodeBitmap.maximum → id ≠ id' →
        ((layout total inodeBlocks).getDiskInodePos id).1 ≠
            ((layout total inodeBlocks).getDiskInodePos id').1 ∨
          ((layout total inodeBlocks).getDiskInodePos id).2 + DiskInode.sizeOf ≤
            ((layout total inodeBlocks).getDiskInodePos id').2 ∨
          ((layout total inodeBlocks).getDiskInodePos id').2 + DiskInode.sizeOf ≤
            ((layout total inodeBlocks).getDiskInodePos id).2 := by
  have fits := noWrap.fits
  have small := total.toNat_lt
  refine ⟨noWrap.areas_range, ?_, ?_, ?_, ?_⟩
  · by_contra empty
    exact nonempty (UInt32.toNat_inj.mp (by rw [UInt32.toNat_zero]; omega))
  · have area := noWrap.dataArea_toNat
    have bitmap := noWrap.dataBitmap_toNat
    simp only [layout, Bitmap.maximum, blockBits, blockSz]
    omega
  · intro id inBitmap
    obtain ⟨block, offset⟩ := noWrap.slot_eq inBitmap
    have inodes : (layout total inodeBlocks).inodeAreaStartBlock.toNat = 1 + inodeBlocks.toNat :=
      noWrap.geometry.efs_inodeStart
    have area : (inodeAreaBlocks inodeBlocks).toNat = 1024 * inodeBlocks.toNat := by
      rw [Geometry.inodeAreaBlocks_toNat]
      omega
    simp only [layout, Bitmap.maximum, blockBits, blockSz] at inBitmap
    rw [block, offset, inodes, area, DiskInode.sizeOf, blockSz]
    omega
  · intro id id' inBitmap inBitmap' differ
    obtain ⟨block, offset⟩ := noWrap.slot_eq inBitmap
    obtain ⟨block', offset'⟩ := noWrap.slot_eq inBitmap'
    by_cases same : id.toNat / 4 = id'.toNat / 4
    · have apart : id.toNat ≠ id'.toNat := fun same => differ (UInt32.toNat_inj.mp same)
      rw [offset, offset', DiskInode.sizeOf]
      omega
    · refine .inl fun sameBlock => same ?_
      rw [sameBlock, block'] at block
      omega

/-- The disk that `easy-fs-fuse` formats. -/
theorem diskLayout_partition_fuse :
    ((areas 32768 1).flatMap fun area => List.range' area.1 area.2) =
    List.range (UInt32.toNat 32768) ∧
      (dataAreaBlocks 32768 1).toNat ≤ (layout 32768 1).dataBitmap.maximum := by
  have noWrap : NoWrap 32768 1 := ⟨by decide, by decide, by decide, by decide⟩
  obtain ⟨whole, -, bits, -⟩ := diskLayout_partition noWrap (by decide)
  exact ⟨whole, bits⟩

end Partition

end CoreFromDust.EasyFs
