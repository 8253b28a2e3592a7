import CoreFromDust.EasyFs.Vfs

/-!
# Open files

Embedding of `OSInode` of `os/src/fs/inode.rs`. The buffers of a `UserBuffer` are the list of their
bytes; a call returns them as it leaves them, with the descriptor.
-/

namespace CoreFromDust.Os.Fs

open CoreFromDust.Lib CoreFromDust.Lib.CellProg CoreFromDust.EasyFs

/-- `OSInode`, with the fields of its `OSInodeInner`. -/
structure OSInode where
  readable : Bool
  writable : Bool
  offset : Nat
  inode : Inode
  deriving DecidableEq, Repr

namespace OSInode

/-- `OSInode::new`. -/
def new (readable writable : Bool) (inode : Inode) : OSInode := ⟨readable, writable, 0, inode⟩

/-- `inner.offset += len`. -/
def advance (self : OSInode) (len : Nat) : OSInode := { self with offset := self.offset + len }

/-- The loop of `read_all`, with its buffer and the bytes that it has read. -/
def readAllLoop : Nat → OSInode → List UInt8 → List UInt8 → FsProg (List UInt8 × OSInode)
  | 0, _, _, _ => panic
  | fuel + 1, self, buffer, v => do
      let (len, buffer) ← self.inode.readAt self.offset buffer
      if len = 0 then pure (v, self)
      else readAllLoop fuel (self.advance len) buffer (v ++ buffer.take len)

/-- `OSInode::read_all`, with a bound on the number of iterations. -/
def readAll (self : OSInode) (fuel : Nat) : FsProg (List UInt8 × OSInode) :=
  readAllLoop fuel self (List.replicate 512 0) []

/-- The loop of `read` over the slices that are left. -/
def readLoop : OSInode → Nat → List (List UInt8) → FsProg (Nat × List (List UInt8) × OSInode)
  | self, totalReadSize, [] => pure (totalReadSize, [], self)
  | self, totalReadSize, slice :: rest => do
      let (readSize, slice) ← self.inode.readAt self.offset slice
      if readSize = 0 then pure (totalReadSize, slice :: rest, self)
      else do
        let (total, rest, self) ← readLoop (self.advance readSize) (totalReadSize + readSize) rest
        pure (total, slice :: rest, self)

/-- `OSInode::read`; the result is the number of bytes read, the buffers and the descriptor. -/
def read (self : OSInode) (buffers : List (List UInt8)) :
    FsProg (Nat × List (List UInt8) × OSInode) := self.readLoop 0 buffers

/-- The loop of `write` over the slices that are left. -/
def writeLoop (efs : EasyFileSystem) : OSInode → Nat → List (List UInt8) → FsProg (Nat × OSInode)
  | self, totalWriteSize, [] => pure (totalWriteSize, self)
  | self, totalWriteSize, slice :: rest => do
      let writeSize ← self.inode.writeAt efs self.offset slice
      check (writeSize = slice.length)
      writeLoop efs (self.advance writeSize) (totalWriteSize + writeSize) rest

/-- `OSInode::write`. -/
def write (self : OSInode) (efs : EasyFileSystem) (buffers : List (List UInt8)) :
    FsProg (Nat × OSInode) := writeLoop efs self 0 buffers

end OSInode

end CoreFromDust.Os.Fs
