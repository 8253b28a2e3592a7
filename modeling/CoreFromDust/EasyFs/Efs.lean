import CoreFromDust.EasyFs.Bitmap
import CoreFromDust.EasyFs.Layout

/-!
# The disk manager

Embedding of `easy-fs/src/efs.rs`. An `EasyFileSystem` value is fixed once it is built; what
changes are the blocks of its device.
-/

namespace CoreFromDust.EasyFs

open CoreFromDust.Lib CoreFromDust.Lib.CellProg

/-- `EasyFileSystem`. -/
structure EasyFileSystem where
  inodeBitmap : Bitmap
  dataBitmap : Bitmap
  inodeAreaStartBlock : UInt32
  dataAreaStartBlock : UInt32
  deriving DecidableEq, Repr

namespace EasyFileSystem

/-- `inode_area_blocks` of `EasyFileSystem::create`. -/
def inodeAreaBlocks (inodeBitmapBlocks : UInt32) : UInt32 :=
  let inodeBitmap : Bitmap := ⟨1, inodeBitmapBlocks.toNat⟩
  UInt32.ofNat ((inodeBitmap.maximum * DiskInode.sizeOf + blockSz - 1) / blockSz)

/-- `inode_total_blocks` of `EasyFileSystem::create`. -/
def inodeTotalBlocks (inodeBitmapBlocks : UInt32) : UInt32 :=
  inodeBitmapBlocks + inodeAreaBlocks inodeBitmapBlocks

/-- `data_total_blocks` of `EasyFileSystem::create`. -/
def dataTotalBlocks (totalBlocks inodeBitmapBlocks : UInt32) : UInt32 :=
  totalBlocks - 1 - inodeTotalBlocks inodeBitmapBlocks

/-- `data_bitmap_blocks` of `EasyFileSystem::create`. -/
def dataBitmapBlocks (totalBlocks inodeBitmapBlocks : UInt32) : UInt32 :=
  (dataTotalBlocks totalBlocks inodeBitmapBlocks + 4096) / 4097

/-- `data_area_blocks` of `EasyFileSystem::create`. -/
def dataAreaBlocks (totalBlocks inodeBitmapBlocks : UInt32) : UInt32 :=
  dataTotalBlocks totalBlocks inodeBitmapBlocks - dataBitmapBlocks totalBlocks inodeBitmapBlocks

/-- The `efs` value that `EasyFileSystem::create` builds. -/
def layout (totalBlocks inodeBitmapBlocks : UInt32) : EasyFileSystem where
  inodeBitmap := ⟨1, inodeBitmapBlocks.toNat⟩
  dataBitmap := ⟨(1 + inodeTotalBlocks inodeBitmapBlocks).toNat,
    (dataBitmapBlocks totalBlocks inodeBitmapBlocks).toNat⟩
  inodeAreaStartBlock := 1 + inodeBitmapBlocks
  dataAreaStartBlock :=
    1 + inodeTotalBlocks inodeBitmapBlocks + dataBitmapBlocks totalBlocks inodeBitmapBlocks

/-- `EasyFileSystem::alloc_inode`. -/
def allocInode (efs : EasyFileSystem) : FsProg UInt32 := do
  let bit ← efs.inodeBitmap.alloc
  let bit ← unwrap bit
  pure (UInt32.ofNat bit)

/-- `EasyFileSystem::alloc_data`. -/
def allocData (efs : EasyFileSystem) : FsProg UInt32 := do
  let bit ← efs.dataBitmap.alloc
  let bit ← unwrap bit
  pure (UInt32.ofNat bit + efs.dataAreaStartBlock)

/-- `EasyFileSystem::dealloc_data`. -/
def deallocData (efs : EasyFileSystem) (blockId : UInt32) : FsProg Unit := do
  modifyCell blockId.toNat fun _ => pure (Block.zero, ())
  efs.dataBitmap.dealloc (blockId - efs.dataAreaStartBlock).toNat

/-- `EasyFileSystem::get_disk_inode_pos`. -/
def getDiskInodePos (efs : EasyFileSystem) (inodeId : UInt32) : UInt32 × Nat :=
  let inodesPerBlock := UInt32.ofNat (blockSz / DiskInode.sizeOf)
  (efs.inodeAreaStartBlock + inodeId / inodesPerBlock,
    (inodeId % inodesPerBlock).toNat * DiskInode.sizeOf)

/-- Overwrite the inode at an offset of a block with an initialized one
(`modify(offset, |disk_inode| disk_inode.initialize(..))`). -/
def initInodeAt (blockId offset : Nat) (type_ : DiskInodeType) : FsProg Unit :=
  modifyCell blockId fun b => do
    check (offset + DiskInode.sizeOf ≤ blockSz)
    pure ((DiskInode.init type_).toBlock b offset, ())

/-- `EasyFileSystem::create`. -/
def create (totalBlocks inodeBitmapBlocks : UInt32) : FsProg EasyFileSystem := do
  let efs := layout totalBlocks inodeBitmapBlocks
  forEach (fun i => modifyCell i fun _ => pure (Block.zero, ())) (List.range totalBlocks.toNat)
  modifyCell 0 fun b =>
    pure ((SuperBlock.init totalBlocks inodeBitmapBlocks (inodeAreaBlocks inodeBitmapBlocks)
      (dataBitmapBlocks totalBlocks inodeBitmapBlocks)
      (dataAreaBlocks totalBlocks inodeBitmapBlocks)).toBlock b, ())
  let root ← efs.allocInode
  check (root = 0)
  let (rootInodeBlockId, rootInodeOffset) := efs.getDiskInodePos 0
  initInodeAt rootInodeBlockId.toNat rootInodeOffset .directory
  flushAll
  pure efs

/-- `EasyFileSystem::open`. -/
def openFs : FsProg EasyFileSystem :=
  viewCell 0 fun b => do
    let superBlock := SuperBlock.ofBlock b
    check superBlock.isValid
    let inodeTotalBlocks := superBlock.inodeBitmapBlocks + superBlock.inodeAreaBlocks
    pure {
      inodeBitmap := ⟨1, superBlock.inodeBitmapBlocks.toNat⟩
      dataBitmap := ⟨(1 + inodeTotalBlocks).toNat, superBlock.dataBitmapBlocks.toNat⟩
      inodeAreaStartBlock := 1 + superBlock.inodeBitmapBlocks
      dataAreaStartBlock := 1 + inodeTotalBlocks + superBlock.dataBitmapBlocks }

end EasyFileSystem

end CoreFromDust.EasyFs
