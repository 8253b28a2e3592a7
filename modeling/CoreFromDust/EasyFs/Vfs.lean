import CoreFromDust.EasyFs.Efs

/-!
# Inodes

Embedding of `easy-fs/src/vfs.rs`. An `Inode` is the position of its `DiskInode`; the file
system it belongs to is passed along. The calls run one at a time, as the lock on the
`EasyFileSystem` makes them do.
-/

namespace CoreFromDust.EasyFs

open CoreFromDust.Lib CoreFromDust.Lib.CellProg

/-- `Inode`. -/
structure Inode where
  blockId : Nat
  blockOffset : Nat
  deriving DecidableEq, Repr

namespace Inode

/-- `Inode::read_disk_inode`. -/
def readDiskInode {α : Type} (self : Inode) (f : DiskInode → FsProg α) : FsProg α :=
  viewCell self.blockId fun b => do
    check (self.blockOffset + DiskInode.sizeOf ≤ blockSz)
    f (DiskInode.ofBlock b self.blockOffset)

/-- `Inode::modify_disk_inode`; the closure returns the inode as it leaves it. -/
def modifyDiskInode {α : Type} (self : Inode) (f : DiskInode → FsProg (DiskInode × α)) :
    FsProg α :=
  modifyCell self.blockId fun b => do
    check (self.blockOffset + DiskInode.sizeOf ≤ blockSz)
    let (ino, a) ← f (DiskInode.ofBlock b self.blockOffset)
    pure (ino.toBlock b self.blockOffset, a)

/-- The inode of a given id. -/
def ofId (efs : EasyFileSystem) (inodeId : UInt32) : Inode :=
  let (blockId, blockOffset) := efs.getDiskInodePos inodeId
  ⟨blockId.toNat, blockOffset⟩

/-- `EasyFileSystem::root_inode`. -/
def root (efs : EasyFileSystem) : Inode := ofId efs 0

/-- One iteration of the loops over directory entries: read entry `i` into `dirent`. -/
def readDirent (diskInode : DiskInode) (i : Nat) (dirent : DirEntry) : FsProg DirEntry := do
  let (len, bytes) ← diskInode.readAt (direntSz * i) dirent.asBytes
  check (len = direntSz)
  pure (DirEntry.ofBytes bytes)

/-- The loop of `find_inode_id` over the entries from `i` on. -/
def findLoop (name : String) (diskInode : DiskInode) :
    Nat → Nat → DirEntry → FsProg (Option UInt32)
  | 0, _, _ => pure none
  | remaining + 1, i, dirent => do
      let dirent ← readDirent diskInode i dirent
      let entryName ← unwrap dirent.getName
      if entryName = name then pure (some dirent.inodeNumber)
      else findLoop name diskInode remaining (i + 1) dirent

/-- `Inode::find_inode_id`. -/
def findInodeId (name : String) (diskInode : DiskInode) : FsProg (Option UInt32) := do
  check diskInode.isDir
  findLoop name diskInode (diskInode.size.toNat / direntSz) 0 DirEntry.empty

/-- `Inode::find`. -/
def find (self : Inode) (efs : EasyFileSystem) (name : String) : FsProg (Option Inode) :=
  self.readDiskInode fun diskInode => do
    let found ← findInodeId name diskInode
    pure (found.map (ofId efs))

/-- The loop of `ls` over the entries from `i` on. -/
def lsLoop (diskInode : DiskInode) : Nat → Nat → DirEntry → FsProg (List String)
  | 0, _, _ => pure []
  | remaining + 1, i, dirent => do
      let dirent ← readDirent diskInode i dirent
      let entryName ← unwrap dirent.getName
      let rest ← lsLoop diskInode remaining (i + 1) dirent
      pure (entryName :: rest)

/-- `Inode::ls`. -/
def ls (self : Inode) : FsProg (List String) :=
  self.readDiskInode fun diskInode =>
    lsLoop diskInode (diskInode.size.toNat / direntSz) 0 DirEntry.empty

/-- `Inode::increase_size`; the result is the updated disk inode. -/
def increaseSize (efs : EasyFileSystem) (newSize : UInt32) (diskInode : DiskInode) :
    FsProg DiskInode :=
  if newSize < diskInode.size then pure diskInode
  else do
    let blocksNeeded ← diskInode.blocksNumNeeded newSize
    let v ← collect (fun _ => efs.allocData) (List.range blocksNeeded.toNat)
    diskInode.increaseSize newSize v

/-- `Inode::create`. -/
def create (self : Inode) (efs : EasyFileSystem) (name : String) : FsProg (Option Inode) := do
  let found ← self.readDiskInode fun rootInode => do
    check rootInode.isDir
    findInodeId name rootInode
  if found.isSome then pure none
  else
    let newInodeId ← efs.allocInode
    let (newInodeBlockId, newInodeBlockOffset) := efs.getDiskInodePos newInodeId
    EasyFileSystem.initInodeAt newInodeBlockId.toNat newInodeBlockOffset .file
    self.modifyDiskInode fun rootInode => do
      let fileCount := rootInode.size.toNat / direntSz
      let newSize := (fileCount + 1) * direntSz
      let rootInode ← increaseSize efs (UInt32.ofNat newSize) rootInode
      let dirent ← unwrap (DirEntry.new name newInodeId)
      let _ ← rootInode.writeAt (fileCount * direntSz) dirent.asBytes
      pure (rootInode, ())
    flushAll
    pure (some (ofId efs newInodeId))

/-- `Inode::clear`. -/
def clear (self : Inode) (efs : EasyFileSystem) : FsProg Unit := do
  self.modifyDiskInode fun diskInode => do
    let size := diskInode.size
    let (diskInode, dataBlocksDealloc) ← diskInode.clearSize
    check (dataBlocksDealloc.length = (DiskInode.totalBlocks size).toNat)
    forEach efs.deallocData dataBlocksDealloc
    pure (diskInode, ())
  flushAll

/-- `Inode::read_at`; the result is the number of bytes read and the buffer. -/
def readAt (self : Inode) (offset : Nat) (buf : List UInt8) : FsProg (Nat × List UInt8) :=
  self.readDiskInode fun diskInode => diskInode.readAt offset buf

/-- `Inode::write_at`. -/
def writeAt (self : Inode) (efs : EasyFileSystem) (offset : Nat) (buf : List UInt8) :
    FsProg Nat := do
  let size ← self.modifyDiskInode fun diskInode => do
    let diskInode ← increaseSize efs (UInt32.ofNat (offset + buf.length)) diskInode
    let size ← diskInode.writeAt offset buf
    pure (diskInode, size)
  flushAll
  pure size

end Inode

end CoreFromDust.EasyFs
