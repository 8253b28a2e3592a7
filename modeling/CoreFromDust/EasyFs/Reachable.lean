import CoreFromDust.EasyFs.BlockCache
import CoreFromDust.EasyFs.Proofs.DirCreate

/-!
# Runs of a file system

The states of a file system that was made by `EasyFileSystem::create` on a device whose cache
was empty, and then used through `Inode` calls on the root directory and the files created in
it. The calls run on the block cache. A step that takes an inode or data blocks is one for
which there are enough of them.
-/

namespace CoreFromDust.EasyFs

open CoreFromDust.Lib DiskInode

/-- A device of `size` blocks behind the block cache. -/
abbrev machine (size : Nat) : Handler Block (CacheState Block) := cacheHandler Block size

/-- The blocks as they are seen through the cache. -/
def CacheState.view {β : Type} (s : CacheState β) (id : Nat) : β :=
  match s.queue.find? fun pair => pair.1 == id with
  | some pair => (s.caches pair.2).cache
  | none => s.device id

/-- The contents of the file of an inode. -/
def Inode.contents (self : Inode) (cells : Cells) : List UInt8 :=
  (DiskInode.ofBlock (cells self.blockId) self.blockOffset).contents cells

/-- The resources that a write of `len` bytes takes: the file stays within the reach of its
pointers, and there are free blocks for its growth. -/
structure CanWrite (g : Geometry) (file : Inode) (offset len : Nat) (cells : Cells) : Prop where
  small : max (file.contents cells).length (offset + len) ≤ maxSize
  blocks : blocksNeeded (file.contents cells).length
    (max (file.contents cells).length (offset + len)) ≤ g.freeBlocks cells

/-- The states reached by calls that returned. `created` are the names for which `create`
returned an inode, with these inodes, in the order of the calls. -/
inductive Reachable (g : Geometry) (size : Nat) :
    EasyFileSystem → List (String × Inode) → CacheState Block → Prop
  | start {device efs s} :
      run (machine size) (EasyFileSystem.create g.total g.inodeBlocks) (.fresh device) =
        some (efs, s) →
      Reachable g size efs [] s
  | create {efs created s name r s'} : Reachable g size efs created s →
      (r.isSome = true → CanCreate g s.view) →
      run (machine size) ((Inode.root efs).create efs name) s = some (r, s') →
      Reachable g size efs (created ++ r.toList.map fun inode => (name, inode)) s'
  | write {efs created s file offset buf n s'} : Reachable g size efs created s →
      file ∈ created.map Prod.snd → CanWrite g file offset buf.length s.view →
      run (machine size) (file.writeAt efs offset buf) s = some (n, s') →
      Reachable g size efs created s'
  | clear {efs created s file u s'} : Reachable g size efs created s →
      file ∈ created.map Prod.snd →
      run (machine size) (file.clear efs) s = some (u, s') →
      Reachable g size efs created s'
  | read {efs created s file offset buf r s'} : Reachable g size efs created s →
      file ∈ Inode.root efs :: created.map Prod.snd →
      run (machine size) (file.readAt offset buf) s = some (r, s') →
      Reachable g size efs created s'
  | find {efs created s name r s'} : Reachable g size efs created s →
      run (machine size) ((Inode.root efs).find efs name) s = some (r, s') →
      Reachable g size efs created s'
  | ls {efs created s r s'} : Reachable g size efs created s →
      run (machine size) (Inode.root efs).ls s = some (r, s') →
      Reachable g size efs created s'

end CoreFromDust.EasyFs
