import CoreFromDust.EasyFs.Efs
import CoreFromDust.EasyFs.Proofs.BitmapAlloc

/-!
# The layout of a device

`EasyFileSystem::create` divides a device into the super block, the inode bitmap, the inode
area, the data bitmap and the data area. A `Geometry` is a choice of its parameters for which
the first three parts fit on the device; then none of the `u32` computations that matter
wraps, and the parts are disjoint.
-/

namespace CoreFromDust.EasyFs

open CoreFromDust.Lib EasyFileSystem

/-- The parameters of `EasyFileSystem::create`, with room for super block, inode bitmap and
inode area. -/
structure Geometry where
  total : UInt32
  inodeBlocks : UInt32
  fits : 1 + 1025 * inodeBlocks.toNat ≤ total.toNat

namespace Geometry

variable (g : Geometry)

/-- The file system that `create` builds. -/
def efs : EasyFileSystem := layout g.total g.inodeBlocks

/-- The first block of the inode area. -/
def inodeStart : Nat := 1 + g.inodeBlocks.toNat

/-- The first block of the data bitmap. -/
def bitmapStart : Nat := 1 + 1025 * g.inodeBlocks.toNat

/-- The number of blocks of the data bitmap. -/
def bitmapBlocks : Nat := (dataBitmapBlocks g.total g.inodeBlocks).toNat

/-- The first block of the data area. -/
def dataStart : Nat := g.bitmapStart + g.bitmapBlocks

/-- A block of the data area: it has a bit in the bitmap and lies on the device. -/
structure InData (id : Nat) : Prop where
  low : g.dataStart ≤ id
  hasBit : id < g.dataStart + g.bitmapBlocks * 4096
  onDevice : id < g.total.toNat

instance (id : Nat) : Decidable (g.InData id) :=
  decidable_of_iff (g.dataStart ≤ id ∧ id < g.dataStart + g.bitmapBlocks * 4096 ∧
      id < g.total.toNat)
    ⟨fun h => ⟨h.1, h.2.1, h.2.2⟩, fun h => ⟨h.low, h.hasBit, h.onDevice⟩⟩

theorem inodeAreaBlocks_toNat (ib : UInt32) :
    (inodeAreaBlocks ib).toNat = 1024 * ib.toNat % 2 ^ 32 := by
  simp only [inodeAreaBlocks, Bitmap.maximum, UInt32.toNat_ofNat', blockBits, blockSz,
    DiskInode.sizeOf, Nat.reduceMul]
  rw [show (ib.toNat * 4096 * 128 + 512 - 1) / 512 = 1024 * ib.toNat by omega]

theorem inodeTotalBlocks_toNat (ib : UInt32) :
    (inodeTotalBlocks ib).toNat = 1025 * ib.toNat % 2 ^ 32 := by
  rw [inodeTotalBlocks, UInt32.toNat_add, inodeAreaBlocks_toNat]
  omega

theorem dataTotalBlocks_toNat : (dataTotalBlocks g.total g.inodeBlocks).toNat =
    g.total.toNat - g.bitmapStart := by
  have fits := g.fits
  have small := g.total.toNat_lt
  rw [dataTotalBlocks, UInt32.toNat_sub, UInt32.toNat_sub, inodeTotalBlocks_toNat, UInt32.toNat_one,
    bitmapStart]
  omega

theorem dataBitmapBlocks_toNat (tb ib : UInt32) : (dataBitmapBlocks tb ib).toNat =
    ((dataTotalBlocks tb ib).toNat + 4096) % 2 ^ 32 / 4097 := by
  rw [dataBitmapBlocks, UInt32.toNat_div, UInt32.toNat_add]
  rfl

/-- The data bitmap lies on the device. -/
theorem dataStart_le : g.dataStart ≤ g.total.toNat := by
  have fits := g.fits
  rw [dataStart, bitmapBlocks, dataBitmapBlocks_toNat, dataTotalBlocks_toNat, bitmapStart]
  omega

theorem inodeStart_le : g.inodeStart ≤ g.bitmapStart := by
  unfold inodeStart bitmapStart
  omega

theorem bitmapStart_le : g.bitmapStart ≤ g.dataStart := Nat.le_add_right _ _

@[simp] theorem efs_inodeBitmap : g.efs.inodeBitmap = ⟨1, g.inodeBlocks.toNat⟩ := rfl

@[simp] theorem efs_dataBitmap : g.efs.dataBitmap = ⟨g.bitmapStart, g.bitmapBlocks⟩ := by
  have fits := g.fits
  have small := g.total.toNat_lt
  have start : (1 + inodeTotalBlocks g.inodeBlocks).toNat = g.bitmapStart := by
    rw [UInt32.toNat_add, inodeTotalBlocks_toNat, UInt32.toNat_one, bitmapStart]
    omega
  simp only [efs, layout, start, bitmapBlocks]

@[simp] theorem efs_dataStart : g.efs.dataAreaStartBlock.toNat = g.dataStart := by
  have fits := g.fits
  have small := g.total.toNat_lt
  have bound := g.dataStart_le
  simp only [efs, layout]
  rw [UInt32.toNat_add, UInt32.toNat_add, inodeTotalBlocks_toNat, UInt32.toNat_one]
  unfold dataStart bitmapStart bitmapBlocks at *
  omega

theorem efs_inodeStart : g.efs.inodeAreaStartBlock.toNat = g.inodeStart := by
  have fits := g.fits
  have small := g.total.toNat_lt
  simp only [efs, layout]
  rw [UInt32.toNat_add, UInt32.toNat_one, inodeStart]
  omega

/-- The inodes that the inode bitmap has bits for. -/
def inodes : Nat := g.inodeBlocks.toNat * 4096

/-- The block that holds inode `i`. -/
def inodeBlock (i : Nat) : Nat := g.inodeStart + i / 4

theorem inodeBlock_lt {i : Nat} (h : i < g.inodes) : g.inodeBlock i < g.bitmapStart := by
  unfold inodeBlock inodeStart bitmapStart inodes at *
  omega

theorem inodeBlock_pos (i : Nat) : g.inodeStart ≤ g.inodeBlock i := Nat.le_add_right _ _

/-- `get_disk_inode_pos` of an inode whose number fits a `u32`. -/
theorem getDiskInodePos_eq {i : Nat} (h : i < g.inodes) (narrow : i < 2 ^ 32) :
    (g.efs.getDiskInodePos (UInt32.ofNat i)).1.toNat = g.inodeBlock i ∧
      (g.efs.getDiskInodePos (UInt32.ofNat i)).2 = i % 4 * 128 := by
  have fits := g.fits
  have small := g.total.toNat_lt
  have bound := g.inodeBlock_lt h
  have id : (UInt32.ofNat i).toNat = i := by
    rw [UInt32.toNat_ofNat', Nat.mod_eq_of_lt narrow]
  have perBlock : (UInt32.ofNat (blockSz / DiskInode.sizeOf)).toNat = 4 := rfl
  simp only [getDiskInodePos, UInt32.toNat_add, UInt32.toNat_div, UInt32.toNat_mod, id, perBlock,
    efs_inodeStart, DiskInode.sizeOf, and_true]
  unfold inodeBlock bitmapStart at *
  omega

end Geometry

end CoreFromDust.EasyFs
