import CoreFromDust.EasyFs.Block

/-!
# On-disk structures

Embedding of `easy-fs/src/layout.rs`: the super block, disk inodes with their three levels of
block pointers, and directory entries. `u32` fields are `UInt32`, so their arithmetic wraps as
it does in the release build; `usize` counters whose values stay far below `2^64` are `Nat`.
-/

namespace CoreFromDust.EasyFs

open CoreFromDust.Lib CoreFromDust.Lib.CellProg

/-- `EFS_MAGIC`. -/
def efsMagic : UInt32 := 0x3b800001
/-- `INODE_DIRECT_COUNT`. -/
abbrev inodeDirectCount : Nat := 28
/-- `NAME_LENGTH_LIMIT`. -/
abbrev nameLengthLimit : Nat := 27
/-- `INODE_INDIRECT1_COUNT`. -/
abbrev inodeIndirect1Count : Nat := blockSz / 4
/-- `INDIRECT1_BOUND`. -/
abbrev indirect1Bound : Nat := inodeDirectCount + inodeIndirect1Count

theorem inodeIndirect1Count_eq : inodeIndirect1Count = 128 := rfl
theorem indirect1Bound_eq : indirect1Bound = 156 := rfl

/-- `DIRENT_SZ`. -/
abbrev direntSz : Nat := 32

/-- `SuperBlock`. -/
structure SuperBlock where
  magic : UInt32
  totalBlocks : UInt32
  inodeBitmapBlocks : UInt32
  inodeAreaBlocks : UInt32
  dataBitmapBlocks : UInt32
  dataAreaBlocks : UInt32
  deriving DecidableEq, Repr

namespace SuperBlock

/-- The bytes of a block seen as a `SuperBlock`. -/
def ofBlock (b : Block) : SuperBlock where
  magic := b.u32 0
  totalBlocks := b.u32 4
  inodeBitmapBlocks := b.u32 8
  inodeAreaBlocks := b.u32 12
  dataBitmapBlocks := b.u32 16
  dataAreaBlocks := b.u32 20

/-- Store a `SuperBlock` at the start of a block. -/
def toBlock (sb : SuperBlock) (b : Block) : Block :=
  (((((b.setU32 0 sb.magic).setU32 4 sb.totalBlocks).setU32 8 sb.inodeBitmapBlocks).setU32 12
    sb.inodeAreaBlocks).setU32 16 sb.dataBitmapBlocks).setU32 20 sb.dataAreaBlocks

/-- `SuperBlock::initialize`. -/
def init (totalBlocks inodeBitmapBlocks inodeAreaBlocks dataBitmapBlocks
    dataAreaBlocks : UInt32) : SuperBlock :=
  { magic := efsMagic, totalBlocks, inodeBitmapBlocks, inodeAreaBlocks, dataBitmapBlocks,
    dataAreaBlocks }

/-- `SuperBlock::is_valid`. -/
def isValid (sb : SuperBlock) : Bool := sb.magic == efsMagic

end SuperBlock

/-- `DiskInodeType`. -/
inductive DiskInodeType where
  | file
  | directory
  deriving DecidableEq, Repr

/-- `DiskInode`: 124 bytes of `u32` fields, the type byte and three bytes of padding. -/
structure DiskInode where
  size : UInt32
  direct : Vector UInt32 inodeDirectCount
  indirect1 : UInt32
  indirect2 : UInt32
  type_ : DiskInodeType
  deriving DecidableEq, Repr

namespace DiskInode

/-- `core::mem::size_of::<DiskInode>()`. -/
abbrev sizeOf : Nat := 128

/-- The bytes of a block from an offset on seen as a `DiskInode`. -/
def ofBlock (b : Block) (off : Nat) : DiskInode where
  size := b.u32 off
  direct := Vector.ofFn fun i => b.u32 (off + 4 + 4 * i)
  indirect1 := b.u32 (off + 116)
  indirect2 := b.u32 (off + 120)
  type_ := if b.byte (off + 124) = 0 then .file else .directory

/-- Byte `q < 125` of the memory of a `DiskInode`. -/
def byteAt (ino : DiskInode) (q : Nat) : UInt8 :=
  if q < 4 then leByte ino.size.toNat q
  else if q < 116 then leByte (ino.direct[(q - 4) / 4]?.getD 0).toNat ((q - 4) % 4)
  else if q < 120 then leByte ino.indirect1.toNat (q - 116)
  else if q < 124 then leByte ino.indirect2.toNat (q - 120)
  else match ino.type_ with
    | .file => 0
    | .directory => 1

/-- Store a `DiskInode` in a block at an offset; the padding keeps its bytes. -/
def toBlock (ino : DiskInode) (b : Block) (off : Nat) : Block := b.patch off 125 ino.byteAt

/-- `DiskInode::initialize`, which overwrites every field. -/
def init (type_ : DiskInodeType) : DiskInode where
  size := 0
  direct := Vector.replicate inodeDirectCount 0
  indirect1 := 0
  indirect2 := 0
  type_ := type_

/-- `DiskInode::is_dir`. -/
def isDir (ino : DiskInode) : Bool := ino.type_ == .directory

/-- Entry `i` of an `IndirectBlock`; an index out of range panics. -/
def entry (b : Block) (i : Nat) : FsProg UInt32 := do
  check (i < inodeIndirect1Count)
  pure (b.u32 (4 * i))

/-- `DiskInode::get_block_id`. -/
def getBlockId (ino : DiskInode) (innerId : Nat) : FsProg UInt32 :=
  if innerId < inodeDirectCount then
    unwrap ino.direct[innerId]?
  else if innerId < indirect1Bound then
    viewCell ino.indirect1.toNat fun indirectBlock =>
      entry indirectBlock (innerId - inodeDirectCount)
  else do
    let last := innerId - indirect1Bound
    let indirect1 ← viewCell ino.indirect2.toNat fun indirectBlock =>
      entry indirectBlock (last / inodeIndirect1Count)
    viewCell indirect1.toNat fun indirectBlock =>
      entry indirectBlock (last % inodeIndirect1Count)

/-- `DiskInode::_data_blocks`. -/
def dataBlocksOf (size : UInt32) : UInt32 := (size + 512 - 1) / 512

/-- `DiskInode::data_blocks`. -/
def dataBlocks (ino : DiskInode) : UInt32 := dataBlocksOf ino.size

/-- `DiskInode::total_blocks`. -/
def totalBlocks (size : UInt32) : UInt32 :=
  let dataBlocks := (dataBlocksOf size).toNat
  let total := dataBlocks
  let total := if dataBlocks > inodeDirectCount then total + 1 else total
  let total :=
    if dataBlocks > indirect1Bound then
      total + 1 +
        (dataBlocks - indirect1Bound + inodeIndirect1Count - 1) / inodeIndirect1Count
    else total
  UInt32.ofNat total

/-- `DiskInode::blocks_num_needed`. -/
def blocksNumNeeded (ino : DiskInode) (newSize : UInt32) : FsProg UInt32 := do
  check (ino.size ≤ newSize)
  pure (totalBlocks newSize - totalBlocks ino.size)

/-- The loop `fill direct` of `increase_size`: `newBlocks` is the rest of the iterator. -/
def fillDirect (totalBlocks : Nat) (ino : DiskInode) (currentBlocks : Nat) :
    List UInt32 → FsProg (DiskInode × Nat × List UInt32)
  | [] =>
      if currentBlocks < min totalBlocks inodeDirectCount then panic
      else pure (ino, currentBlocks, [])
  | new :: newBlocks =>
      if currentBlocks < min totalBlocks inodeDirectCount then
        fillDirect totalBlocks { ino with direct := ino.direct.setIfInBounds currentBlocks new }
          (currentBlocks + 1) newBlocks
      else pure (ino, currentBlocks, new :: newBlocks)

/-- The loop `fill indirect1` of `increase_size`, on the contents of the indirect block. -/
def fillIndirect1 (totalBlocks : Nat) (indirectBlock : Block) (currentBlocks : Nat) :
    List UInt32 → FsProg (Block × Nat × List UInt32)
  | [] =>
      if currentBlocks < min totalBlocks inodeIndirect1Count then panic
      else pure (indirectBlock, currentBlocks, [])
  | new :: newBlocks =>
      if currentBlocks < min totalBlocks inodeIndirect1Count then
        fillIndirect1 totalBlocks (indirectBlock.setU32 (4 * currentBlocks) new)
          (currentBlocks + 1) newBlocks
      else pure (indirectBlock, currentBlocks, new :: newBlocks)

/-- The body of the loop `fill indirect2` after the check for a new indirect block: write the
next id at `b0` of the block that entry `a0` names. -/
def fillEntry (indirect2Block : Block) (a0 b0 : Nat) (new : UInt32) : FsProg Unit := do
  let indirect1 ← entry indirect2Block a0
  modifyCell indirect1.toNat fun indirect1Block => do
    check (b0 < inodeIndirect1Count)
    pure (indirect1Block.setU32 (4 * b0) new, ())

/-- The loop `fill indirect2` of `increase_size`, from `(a0, b0)` to `(a1, b1)`, on the
contents of the second-level block. -/
def fillIndirect2 (a1 b1 : Nat) (indirect2Block : Block) (a0 b0 : Nat)
    (newBlocks : List UInt32) : FsProg Block :=
  if a0 < a1 ∨ (a0 = a1 ∧ b0 < b1) then
    let next := if b0 + 1 = inodeIndirect1Count then (a0 + 1, 0) else (a0, b0 + 1)
    if b0 = 0 then
      match newBlocks with
      | new :: data :: rest => do
          check (a0 < inodeIndirect1Count)
          let indirect2Block := indirect2Block.setU32 (4 * a0) new
          fillEntry indirect2Block a0 b0 data
          fillIndirect2 a1 b1 indirect2Block next.1 next.2 rest
      | _ => panic
    else
      match newBlocks with
      | data :: rest => do
          fillEntry indirect2Block a0 b0 data
          fillIndirect2 a1 b1 indirect2Block next.1 next.2 rest
      | [] => panic
  else pure indirect2Block
termination_by newBlocks.length

/-- The next element of the iterator (`next().unwrap()`) and what is left of it. -/
def takeNext : List UInt32 → FsProg (UInt32 × List UInt32)
  | new :: newBlocks => pure (new, newBlocks)
  | [] => panic

/-- `increase_size` from the comment `fill indirect2` on. -/
def increaseIndirect2 (ino : DiskInode) (currentBlocks totalBlocks : Nat)
    (newBlocks : List UInt32) : FsProg DiskInode := do
  let a0 := currentBlocks / inodeIndirect1Count
  let b0 := currentBlocks % inodeIndirect1Count
  let a1 := totalBlocks / inodeIndirect1Count
  let b1 := totalBlocks % inodeIndirect1Count
  modifyCell ino.indirect2.toNat fun indirect2Block => do
    let indirect2Block ← fillIndirect2 a1 b1 indirect2Block a0 b0 newBlocks
    pure (indirect2Block, ())
  pure ino

/-- `increase_size` from the comment `fill indirect1` on; the counts are those after the
subtraction of `INODE_DIRECT_COUNT`. -/
def increaseIndirect1 (ino : DiskInode) (currentBlocks totalBlocks : Nat)
    (newBlocks : List UInt32) : FsProg DiskInode := do
  let (currentBlocks, newBlocks) ← modifyCell ino.indirect1.toNat fun indirectBlock =>
    fillIndirect1 totalBlocks indirectBlock currentBlocks newBlocks
  if totalBlocks > inodeIndirect1Count then
    if currentBlocks = inodeIndirect1Count then
      let (new, newBlocks) ← takeNext newBlocks
      increaseIndirect2 { ino with indirect2 := new } (currentBlocks - inodeIndirect1Count)
        (totalBlocks - inodeIndirect1Count) newBlocks
    else
      increaseIndirect2 ino (currentBlocks - inodeIndirect1Count)
        (totalBlocks - inodeIndirect1Count) newBlocks
  else increaseIndirect2 ino currentBlocks totalBlocks newBlocks

/-- `DiskInode::increase_size`; the result is the updated inode. -/
def increaseSize (ino : DiskInode) (newSize : UInt32) (newBlocks : List UInt32) :
    FsProg DiskInode := do
  let currentBlocks := ino.dataBlocks.toNat
  let ino := { ino with size := newSize }
  let totalBlocks := ino.dataBlocks.toNat
  let (ino, currentBlocks, newBlocks) ← fillDirect totalBlocks ino currentBlocks newBlocks
  if totalBlocks > inodeDirectCount then
    if currentBlocks = inodeDirectCount then
      let (new, newBlocks) ← takeNext newBlocks
      increaseIndirect1 { ino with indirect1 := new } (currentBlocks - inodeDirectCount)
        (totalBlocks - inodeDirectCount) newBlocks
    else
      increaseIndirect1 ino (currentBlocks - inodeDirectCount) (totalBlocks - inodeDirectCount)
        newBlocks
  else pure ino

/-- The last loop of `clear_size`, collecting the ids from `(a0, b0)` to `(a1, b1)`; it makes
one iteration for each data block, of which there are at most `fuel`. -/
def clearIndirect2 (indirect2Block : Block) (a1 b1 : Nat) :
    Nat → Nat → Nat → List UInt32 → Nat → FsProg (List UInt32 × Nat)
  | fuel, a0, b0, v, curBlocks =>
    if a0 < a1 ∨ (a0 = a1 ∧ b0 < b1) then
      match fuel with
      | 0 => panic
      | fuel + 1 => do
          let indirect1 ← entry indirect2Block a0
          let v := if b0 = 0 then v ++ [indirect1] else v
          let data ← viewCell indirect1.toNat fun indirect1Block => entry indirect1Block b0
          let next := if b0 + 1 = inodeIndirect1Count then (a0 + 1, 0) else (a0, b0 + 1)
          clearIndirect2 indirect2Block a1 b1 fuel next.1 next.2 (v ++ [data]) (curBlocks + 1)
    else pure (v, curBlocks)

/-- `DiskInode::clear_size`; the result is the updated inode and the ids to deallocate. -/
def clearSize (ino : DiskInode) : FsProg (DiskInode × List UInt32) := do
  let totalBlocks := ino.dataBlocks.toNat
  let v := ino.direct.toList.take (min inodeDirectCount totalBlocks)
  if totalBlocks > inodeDirectCount then
    let v := v ++ [ino.indirect1]
    let totalBlocks := totalBlocks - inodeDirectCount
    let entries ← viewCell ino.indirect1.toNat fun indirectBlock =>
      collect (entry indirectBlock) (List.range (min totalBlocks inodeIndirect1Count))
    let v := v ++ entries
    if totalBlocks > inodeIndirect1Count then
      let v := v ++ [ino.indirect2]
      let totalBlocks := totalBlocks - inodeIndirect1Count
      let (v, curBlocks) ← viewCell ino.indirect2.toNat fun indirect2Block =>
        clearIndirect2 indirect2Block (totalBlocks / inodeIndirect1Count)
          (totalBlocks % inodeIndirect1Count) totalBlocks 0 0 v 0
      check (curBlocks = totalBlocks)
      pure (init ino.type_, v)
    else pure (init ino.type_, v)
  else pure (init ino.type_, v)

/-- Overwrite `src.length` elements of a buffer from a position on (`copy_from_slice` into a
subslice). -/
def spliceAt (buf : List UInt8) (pos : Nat) (src : List UInt8) : List UInt8 :=
  buf.take pos ++ src ++ buf.drop (pos + src.length)

/-- `len` bytes of a block from an offset on. -/
def slice (b : Block) (off len : Nat) : List UInt8 := (List.range len).map fun i => b.byte (off + i)

/-- The loop of `read_at`, with the start of the current block's part, the block's index, the
number of bytes read and the buffer. Each iteration ends one block. -/
def readLoop (ino : DiskInode) (stop : Nat) :
    Nat → Nat → Nat → Nat → List UInt8 → FsProg (Nat × List UInt8)
  | 0, _, _, _, _ => panic
  | fuel + 1, start, startBlock, readSize, buf => do
      let endCurrentBlock := min ((start / blockSz + 1) * blockSz) stop
      let blockReadSize := endCurrentBlock - start
      check (readSize + blockReadSize ≤ buf.length)
      let id ← ino.getBlockId startBlock
      let src ← viewCell id.toNat fun dataBlock => do
        check (start % blockSz + blockReadSize ≤ blockSz)
        pure (slice dataBlock (start % blockSz) blockReadSize)
      let buf := spliceAt buf readSize src
      let readSize := readSize + blockReadSize
      if endCurrentBlock = stop then pure (readSize, buf)
      else readLoop ino stop fuel endCurrentBlock (startBlock + 1) readSize buf

/-- `DiskInode::read_at`; the result is the number of bytes read and the buffer. The sum
`offset + buf.len()` is not reduced modulo `2^64`: past the end of the file the result is `0`
either way. -/
def readAt (ino : DiskInode) (offset : Nat) (buf : List UInt8) : FsProg (Nat × List UInt8) :=
  let stop := min (offset + buf.length) ino.size.toNat
  if offset ≥ stop then pure (0, buf)
  else readLoop ino stop (stop - offset) offset (offset / blockSz) 0 buf

/-- The loop of `write_at`. -/
def writeLoop (ino : DiskInode) (stop : Nat) (buf : List UInt8) :
    Nat → Nat → Nat → FsProg Nat
  | 0, _, _ => panic
  | fuel + 1, start, writeSize => do
      let startBlock := start / blockSz
      let endCurrentBlock := min ((startBlock + 1) * blockSz) stop
      let curBlockId ← ino.getBlockId startBlock
      let blockWriteSz := endCurrentBlock - start
      modifyCell curBlockId.toNat fun dataBlock => do
        check (writeSize + blockWriteSz ≤ buf.length)
        check (start % blockSz + blockWriteSz ≤ blockSz)
        pure (dataBlock.patch (start % blockSz) blockWriteSz fun i => buf.getD (writeSize + i) 0,
          ())
      let writeSize := writeSize + blockWriteSz
      if endCurrentBlock = stop then pure writeSize
      else writeLoop ino stop buf fuel endCurrentBlock writeSize

/-- `DiskInode::write_at`, which leaves the inode itself as it is. -/
def writeAt (ino : DiskInode) (offset : Nat) (buf : List UInt8) : FsProg Nat :=
  let stop := min (offset + buf.length) ino.size.toNat
  if offset ≥ stop then pure 0
  else writeLoop ino stop buf (stop - offset) offset 0

end DiskInode

/-- `DirEntry`. -/
structure DirEntry where
  name : Vector UInt8 (nameLengthLimit + 1)
  inodeNumber : UInt32
  deriving DecidableEq, Repr

/-- `str::as_bytes`. -/
def strBytes (name : String) : List UInt8 := name.toByteArray.data.toList

/-- `core::str::from_utf8`. -/
def fromUtf8 (bytes : List UInt8) : Option String := String.fromUTF8? ⟨bytes.toArray⟩

namespace DirEntry

/-- `DirEntry::empty`. -/
def empty : DirEntry where
  name := Vector.replicate _ 0
  inodeNumber := 0

/-- `DirEntry::new`: the slice `bytes[..name.len()]` panics when the name is longer than the
field. -/
def new (name : String) (inodeNumber : UInt32) : Option DirEntry :=
  if (strBytes name).length ≤ nameLengthLimit + 1 then
    some { name := Vector.ofFn fun i => (strBytes name).getD i 0, inodeNumber }
  else none

/-- `DirEntry::as_bytes`. -/
def asBytes (d : DirEntry) : List UInt8 :=
  d.name.toList ++ (List.range 4).map fun i => leByte d.inodeNumber.toNat i

/-- The entry whose memory (`as_bytes_mut`) holds the given bytes. -/
def ofBytes (bytes : List UInt8) : DirEntry where
  name := Vector.ofFn fun i => bytes.getD i 0
  inodeNumber := UInt32.ofNat (leValue 4 fun i => bytes.getD (nameLengthLimit + 1 + i) 0)

/-- `DirEntry::name`: the search for a NUL runs off the array when there is none, and both
that and bytes that are not UTF-8 panic. -/
def getName (d : DirEntry) : Option String :=
  (d.name.toList.findIdx? (· == 0)).bind fun len => fromUtf8 (d.name.toList.take len)

end DirEntry

end CoreFromDust.EasyFs
