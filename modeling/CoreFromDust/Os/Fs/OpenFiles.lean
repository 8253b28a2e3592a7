import CoreFromDust.EasyFs.BlockCache
import CoreFromDust.Os.Fs.FdTable
import CoreFromDust.Os.Fs.Inode

/-!
# The file calls

Embedding of `open_file` and `OpenFlags::read_write` of `os/src/fs/inode.rs`, of the calls of
`os/src/syscall/fs.rs`, of what `sys_exec` reads, and of what `ProcessControlBlock::new`, `fork` and
the exit of a process do to the `fd_table`. The processes share the file system and the open files.
A call on the console or on a pipe leaves this state as it is, and its result is not in this module.
-/

namespace CoreFromDust.Os.Fs

open CoreFromDust.Lib CoreFromDust.Lib.CellProg CoreFromDust.EasyFs

namespace OpenFlags

/-- `OpenFlags::contains`. -/
def contains (flags other : OpenFlags) : Bool := flags &&& other = other

/-- `OpenFlags::read_write`. -/
def readWrite (flags : OpenFlags) : Bool × Bool :=
  if flags = 0 then (true, false)
  else if flags.contains wronly then (false, true)
  else (true, true)

end OpenFlags

/-- `open_file`; the `ROOT_INODE` is the root of the file system. -/
def openFile (efs : EasyFileSystem) (name : String) (flags : OpenFlags) : FsProg (Option OSInode) :=
  let (readable, writable) := flags.readWrite
  if flags.contains .create then do
    let found ← (Inode.root efs).find efs name
    match found with
    | some inode => do
        inode.clear efs
        pure (some (.new readable writable inode))
    | none => do
        let created ← (Inode.root efs).create efs name
        pure (created.map (.new readable writable))
  else do
    let found ← (Inode.root efs).find efs name
    match found with
    | some inode => do
        if flags.contains .trunc then inode.clear efs else pure ()
        pure (some (.new readable writable inode))
    | none => pure none

/-- `readable` of a `dyn File`, given that of each `OSInode`. -/
def DynFile.readable (inode : Nat → Bool) : DynFile → Bool
  | .stdin | .pipeRead _ => true
  | .stdout | .pipeWrite _ => false
  | .inode addr => inode addr

/-- `writable` of a `dyn File`. -/
def DynFile.writable (inode : Nat → Bool) : DynFile → Bool
  | .stdin | .pipeRead _ => false
  | .stdout | .pipeWrite _ => true
  | .inode addr => inode addr

/-- The slices of a `UserBuffer`, as `translated_byte_buffer` returns them: none is empty. -/
structure UserSlices where
  slices : List (List UInt8)
  nonempty : ∀ slice ∈ slices, slice ≠ []

/-- The files of the kernel: the file system behind its block cache, the `OSInode` values, of which
those from `nextOSInode` on are not allocated, and the `fd_table` of each process. -/
structure FileState where
  cache : CacheState Block
  osInodes : Nat → Option OSInode
  nextOSInode : Nat
  fdTables : Nat → FdTable

/-- What a call returns. After a read it is the count with the bytes of the buffer, after `sys_pipe`
the two descriptors, after `sys_exec` the bytes that `ProcessControlBlock::exec` gets; `elsewhere`
stands for what the console or a pipe does. -/
inductive FileResult where
  | value (n : Int)
  | bytes (n : Int) (buffer : List UInt8)
  | pipe (readFd writeFd : Nat)
  | program (elfData : List UInt8)
  | elsewhere
  deriving DecidableEq, Repr

namespace FileState

/-- The kernel with another `fd_table` of a process. -/
def setTable (k : FileState) (p : Nat) (t : FdTable) : FileState :=
  { k with fdTables := Function.update k.fdTables p t }

/-- The kernel after a call on an `OSInode`. -/
def setOSInode (k : FileState) (cache : CacheState Block) (addr : Nat)
    (self : OSInode) : FileState :=
  { k with cache := cache, osInodes := Function.update k.osInodes addr (some self) }

/-- `File::readable`. -/
def readable (k : FileState) (file : DynFile) : Bool :=
  file.readable fun addr => (k.osInodes addr).any OSInode.readable

/-- `File::writable`. -/
def writable (k : FileState) (file : DynFile) : Bool :=
  file.writable fun addr => (k.osInodes addr).any OSInode.writable

variable (size : Nat) (efs : EasyFileSystem) (k : FileState) (p : Nat)

/-- `sys_open` with the path that `translated_str` returns. -/
def sysOpen (path : String) (flags : UInt32) : Option (FileResult × FileState) :=
  (OpenFlags.fromBits flags).bind fun flags =>
    (run (cacheHandler Block size) (openFile efs path flags) k.cache).map fun (opened, cache) =>
      match opened with
      | some self =>
          let (fd, t) := install (k.fdTables p) (.inode k.nextOSInode)
          (.value fd, { (k.setOSInode cache k.nextOSInode self).setTable p t with
            nextOSInode := k.nextOSInode + 1 })
      | none => (.value (-1), { k with cache := cache })

/-- `sys_exec` with the path that `translated_str` returns; the `fd_table` stays as it is. A file
has less than `2 ^ 32` bytes, so `read_all` ends before the bound of its loop. -/
def sysExec (path : String) : Option (FileResult × FileState) :=
  (run (cacheHandler Block size) (openFile efs path .rdonly) k.cache).bind fun (opened, cache) =>
    match opened with
    | some self =>
        (run (cacheHandler Block size) (self.readAll (2 ^ 32)) cache).map
          fun ((allData, _), cache) =>
          (.program allData, { k with cache := cache })
    | none => some (.value (-1), { k with cache := cache })

/-- What `sys_read` and `sys_write` have in common: the descriptor is open, and `may` allows the
call, which is `act` on an `OSInode`. -/
def onFile (fd : Nat) (may : DynFile → Bool)
    (act : OSInode → Option (FileResult × OSInode × CacheState Block)) :
    Option (FileResult × FileState) :=
  if fd ≥ (k.fdTables p).length then some (.value (-1), k)
  else
    match (k.fdTables p).file fd with
    | none => some (.value (-1), k)
    | some file =>
        if may file then
          match file with
          | .inode addr =>
              (k.osInodes addr).bind fun self =>
                (act self).map fun (r, self, cache) => (r, k.setOSInode cache addr self)
          | _ => some (.elsewhere, k)
        else some (.value (-1), k)

/-- `sys_read`. -/
def sysRead (fd : Nat) (buf : UserSlices) : Option (FileResult × FileState) :=
  k.onFile p fd k.readable fun self =>
    (run (cacheHandler Block size) (self.read buf.slices) k.cache).map
      fun ((n, buffers, self), cache) =>
      (.bytes n buffers.flatten, self, cache)

/-- `sys_write`. -/
def sysWrite (fd : Nat) (buf : UserSlices) : Option (FileResult × FileState) :=
  k.onFile p fd k.writable fun self =>
    (run (cacheHandler Block size) (self.write efs buf.slices) k.cache).map
      fun ((n, self), cache) =>
      (.value n, self, cache)

/-- `sys_close`. -/
def sysClose (fd : Nat) : FileResult × FileState :=
  let (n, t) := Fs.sysClose (k.fdTables p) fd
  (.value n, k.setTable p t)

/-- `sys_dup`. -/
def sysDup (fd : Nat) : FileResult × FileState :=
  let (n, t) := Fs.sysDup (k.fdTables p) fd
  (.value n, k.setTable p t)

/-- `sys_pipe` for the pipe with the given buffer. -/
def sysPipe (buffer : Nat) : FileResult × FileState :=
  let ((readFd, writeFd), t) := Fs.sysPipe buffer (k.fdTables p)
  (.pipe readFd writeFd, k.setTable p t)

end FileState

/-- What processes do with files. -/
inductive FileCall where
  /-- `ProcessControlBlock::new` -/
  | new (p : Nat)
  /-- `ProcessControlBlock::fork` -/
  | fork (p child : Nat)
  /-- the exit of the process -/
  | exit (p : Nat)
  | exec (p : Nat) (path : String)
  | open (p : Nat) (path : String) (flags : UInt32)
  | close (p fd : Nat)
  | dup (p fd : Nat)
  | pipe (p buffer : Nat)
  | read (p fd : Nat) (buf : UserSlices)
  | write (p fd : Nat) (buf : UserSlices)

namespace FileState

/-- One call; `none` is a panic. -/
def call (size : Nat) (efs : EasyFileSystem) (k : FileState) :
    FileCall → Option (FileResult × FileState)
  | .new p => some (.value 0, k.setTable p [some .stdin, some .stdout, some .stdout])
  | .fork p child => some (.value 0, k.setTable child (forkTable (k.fdTables p)))
  | .exit p => some (.value 0, k.setTable p [])
  | .exec _ path => k.sysExec size efs path
  | .open p path flags => k.sysOpen size efs p path flags
  | .close p fd => some (k.sysClose p fd)
  | .dup p fd => some (k.sysDup p fd)
  | .pipe p buffer => some (k.sysPipe p buffer)
  | .read p fd buf => k.sysRead size p fd buf
  | .write p fd buf => k.sysWrite size efs p fd buf

/-- The kernel before the first process, on a mounted file system. -/
def mounted (cache : CacheState Block) : FileState := ⟨cache, fun _ => none, 0, fun _ => []⟩

end FileState

/-- A call, or a new start of the machine on the device as it is. -/
inductive FileEvent where
  | boot
  | call (c : FileCall)

namespace FileState

/-- The kernel starts: `ROOT_INODE` opens the file system of the device. -/
def boot (size : Nat) (device : Nat → Block) : Option (EasyFileSystem × FileState) :=
  (run (cacheHandler Block size) EasyFileSystem.openFs (.fresh device)).map fun (efs, cache) =>
    (efs, .mounted cache)

/-- One event; after the last one, the kernel has this file system open. -/
def event (size : Nat) (k : EasyFileSystem × FileState) :
    FileEvent → Option (FileResult × EasyFileSystem × FileState)
  | .boot => (boot size k.2.cache.device).map fun k => (.value 0, k)
  | .call c => (k.2.call size k.1 c).map fun (r, k') => (r, k.1, k')

end FileState

end CoreFromDust.Os.Fs
