import CoreFromDust.Lib.CellProg

/-!
# The block cache

Embedding of `easy-fs/src/block_cache.rs` for one block device. `β` is the contents of a
block. An `Arc<Mutex<BlockCache>>` is an address into `caches`; `handles` are the clones that
live outside the manager, the latest first, so the strong count of an address is its number of
occurrences in the queue and in `handles`. A `none` is a panic.
-/

namespace CoreFromDust.EasyFs

open CoreFromDust.Lib

/-- `BLOCK_CACHE_SIZE`. -/
abbrev blockCacheSize : Nat := 16

/-- `BlockCache`. -/
structure BlockCache (β : Type) where
  cache : β
  blockId : Nat
  modified : Bool

/-- The device, the cache manager and the handles given out. -/
structure CacheState (β : Type) where
  device : Nat → β
  /-- the memory of the `BlockCache` values; those from `next` on are not allocated -/
  caches : Nat → BlockCache β
  next : Nat
  /-- `BlockCacheManager::queue` -/
  queue : List (Nat × Nat)
  handles : List Nat

namespace CacheState

variable {β : Type}

/-- A device before the first access: the cache is empty. -/
def fresh (device : Nat → β) : CacheState β where
  device := device
  caches := fun _ => ⟨device 0, 0, false⟩
  next := 0
  queue := []
  handles := []

/-- `Arc::strong_count`. -/
def strongCount (s : CacheState β) (addr : Nat) : Nat :=
  (s.queue.map Prod.snd).count addr + s.handles.count addr

/-- `BlockCache::sync`. -/
def sync (s : CacheState β) (addr : Nat) : CacheState β :=
  let c := s.caches addr
  if c.modified then
    { s with
      caches := Function.update s.caches addr { c with modified := false }
      device := Function.update s.device c.blockId c.cache }
  else s

/-- The drop glue of an `Arc` clone that is already gone from its container: the last one
drops the `BlockCache`, whose `Drop` syncs it. -/
def dropArc (s : CacheState β) (addr : Nat) : CacheState β :=
  if s.strongCount addr = 0 then s.sync addr else s

/-- The part of `get_block_cache` marked `substitute`. -/
def substitute (s : CacheState β) : Option (CacheState β) :=
  if s.queue.length = blockCacheSize then
    (s.queue.findIdx? fun pair => s.strongCount pair.2 == 1).bind fun idx =>
      s.queue[idx]?.map fun pair => dropArc { s with queue := s.queue.eraseIdx idx } pair.2
  else some s

/-- `BlockCache::new` for a block of a device of `size` blocks, and its entry in the queue. -/
def load (size blockId : Nat) (s : CacheState β) : Option (CacheState β) :=
  if blockId < size then
    some { s with
      caches := Function.update s.caches s.next ⟨s.device blockId, blockId, false⟩
      next := s.next + 1
      queue := s.queue ++ [(blockId, s.next)]
      handles := s.next :: s.handles }
  else none

/-- `BlockCacheManager::get_block_cache`; the new handle is the first of `handles`. -/
def getBlockCache (size blockId : Nat) (s : CacheState β) : Option (CacheState β) :=
  match s.queue.find? fun pair => pair.1 == blockId with
  | some pair => some { s with handles := pair.2 :: s.handles }
  | none => s.substitute.bind (load size blockId)

/-- `BlockCache::read` through a handle. -/
def read (s : CacheState β) (addr : Nat) : β := (s.caches addr).cache

/-- `BlockCache::modify` through a handle, with the contents its closure leaves. -/
def modify (s : CacheState β) (addr : Nat) (b : β) : CacheState β :=
  { s with caches :=
      Function.update s.caches addr { s.caches addr with cache := b, modified := true } }

/-- Dropping handle `h`. -/
def dropHandle (s : CacheState β) (h : Nat) : Option (CacheState β) :=
  s.handles[h]?.map fun addr => dropArc { s with handles := s.handles.eraseIdx h } addr

/-- `block_cache_sync_all`. -/
def syncAll (s : CacheState β) : CacheState β :=
  (s.queue.map Prod.snd).foldl sync s

end CacheState

/-- An operation of a client of the cache; handles are named by their position. -/
inductive CacheOp (β : Type) where
  | get (blockId : Nat)
  | read (handle : Nat)
  | modify (handle : Nat) (f : β → β)
  | drop (handle : Nat)
  | syncAll

namespace CacheState

variable {β : Type}

/-- One operation of a client, with what it returns. -/
def step (size : Nat) (s : CacheState β) : CacheOp β → Option (Option β × CacheState β)
  | .get blockId => (s.getBlockCache size blockId).map fun s' => (none, s')
  | .read h => s.handles[h]?.map fun addr => (some (s.read addr), s)
  | .modify h f => s.handles[h]?.map fun addr => (none, s.modify addr (f (s.read addr)))
  | .drop h => (s.dropHandle h).map fun s' => (none, s')
  | .syncAll => some (none, s.syncAll)

/-- A sequence of operations, with what they return. -/
def steps (size : Nat) (s : CacheState β) :
    List (CacheOp β) → Option (List (Option β) × CacheState β)
  | [] => some ([], s)
  | op :: ops => (s.step size op).bind fun r =>
      (steps size r.2 ops).map fun rest => (r.1 :: rest.1, rest.2)

end CacheState

/-- The commands of the file system through the cache. A handle is locked from `acquire` to
`release`: `lock` on a locked cache never returns, and neither does `block_cache_sync_all`
while one is locked. -/
def cacheHandler (β : Type) (size : Nat) : Handler β (CacheState β) where
  acquire id s := (s.getBlockCache size id).bind fun s' =>
    if s'.handles.head?.any (s.handles.contains ·) then none else some s'
  load id s := (s.handles.find? fun addr => (s.caches addr).blockId == id).map s.read
  store id b s :=
    (s.handles.find? fun addr => (s.caches addr).blockId == id).map fun addr => s.modify addr b
  release id s :=
    if s.handles.head?.any fun addr => (s.caches addr).blockId == id then s.dropHandle 0 else none
  flush s := if s.handles = [] then some s.syncAll else none

end CoreFromDust.EasyFs
