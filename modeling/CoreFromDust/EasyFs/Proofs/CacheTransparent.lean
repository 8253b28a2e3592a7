import CoreFromDust.EasyFs.BlockCache
import Mathlib.Data.List.Nodup
import Mathlib.Data.List.Perm.Subperm

/-!
# The block cache is transparent

`CacheRel` relates the cache and its device to a plain array of blocks. Every operation of a
client that holds at most 15 handles keeps it, so the cache can be replaced by the array; after
`block_cache_sync_all` the device is that array.
-/

namespace CoreFromDust.EasyFs

open CoreFromDust.Lib

variable {β : Type} {size : Nat}

/-- The cache `s` with its device stands for the array `a`. -/
structure CacheRel (size : Nat) (a : CellArray β) (s : CacheState β) : Prop where
  queueLen : s.queue.length ≤ blockCacheSize
  idsNodup : (s.queue.map Prod.fst).Nodup
  addrsNodup : (s.queue.map Prod.snd).Nodup
  entries : ∀ p ∈ s.queue, (s.caches p.2).blockId = p.1 ∧ p.2 < s.next ∧ p.1 < size
  handlesIn : ∀ h ∈ s.handles, h ∈ s.queue.map Prod.snd
  held : a.held = s.handles.map fun h => (s.caches h).blockId
  cached : ∀ p ∈ s.queue, (s.caches p.2).cache = a.cells p.1
  uncached : ∀ id, id ∉ s.queue.map Prod.fst → s.device id = a.cells id
  clean : ∀ p ∈ s.queue, (s.caches p.2).modified = false → s.device p.1 = a.cells p.1

namespace CacheRel

variable {a : CellArray β} {s : CacheState β}

theorem fresh (device : Nat → β) : CacheRel size ⟨device, []⟩ (CacheState.fresh device) := by
  refine ⟨?_, ?_, ?_, ?_, ?_, ?_, ?_, ?_, ?_⟩ <;> simp [CacheState.fresh]

/-- The entry of the queue that a handle refers to. -/
theorem entry_of_handle (rel : CacheRel size a s) {h : Nat} (mem : h ∈ s.handles) :
    ((s.caches h).blockId, h) ∈ s.queue := by
  obtain ⟨p, inQueue, rfl⟩ := List.mem_map.mp (rel.handlesIn h mem)
  rw [(rel.entries p inQueue).1]
  exact inQueue

theorem addr_inj (rel : CacheRel size a s) {p q : Nat × Nat} (hp : p ∈ s.queue) (hq : q ∈ s.queue)
    (same : p.2 = q.2) : p = q :=
  List.inj_on_of_nodup_map rel.addrsNodup hp hq same

theorem id_inj (rel : CacheRel size a s) {p q : Nat × Nat} (hp : p ∈ s.queue) (hq : q ∈ s.queue)
    (same : p.1 = q.1) : p = q :=
  List.inj_on_of_nodup_map rel.idsNodup hp hq same

/-- An entry of the queue is counted once there. -/
theorem strongCount_entry (rel : CacheRel size a s) {p : Nat × Nat} (hp : p ∈ s.queue) :
    s.strongCount p.2 = 1 + s.handles.count p.2 := by
  rw [CacheState.strongCount,
    List.count_eq_one_of_mem rel.addrsNodup (List.mem_map.mpr ⟨p, hp, rfl⟩)]

/-! ## Synchronizing -/

@[simp] theorem sync_queue (s : CacheState β) (addr : Nat) : (s.sync addr).queue = s.queue := by
  unfold CacheState.sync
  simp only
  split <;> rfl

@[simp] theorem sync_handles (s : CacheState β) (addr : Nat) :
    (s.sync addr).handles = s.handles := by
  unfold CacheState.sync
  simp only
  split <;> rfl

@[simp] theorem sync_next (s : CacheState β) (addr : Nat) : (s.sync addr).next = s.next := by
  unfold CacheState.sync
  simp only
  split <;> rfl

/-- `sync` leaves the contents of the caches alone. -/
theorem sync_cache (s : CacheState β) (addr other : Nat) :
    ((s.sync addr).caches other).cache = (s.caches other).cache ∧
      ((s.sync addr).caches other).blockId = (s.caches other).blockId := by
  unfold CacheState.sync
  simp only
  split
  · by_cases same : other = addr
    · subst same
      simp
    · simp [Function.update_of_ne same]
  · exact ⟨rfl, rfl⟩

/-- After `sync` the cache is clean, and other caches are as modified as before. -/
theorem sync_modified (s : CacheState β) (addr other : Nat) :
    ((s.sync addr).caches other).modified =
      ((s.caches other).modified && decide (other ≠ addr)) := by
  unfold CacheState.sync
  simp only
  split
  · by_cases same : other = addr
    · subst same
      simp
    · simp [same]
  · next clean =>
    by_cases same : other = addr
    · subst same
      simp [clean]
    · simp [same]

/-- `sync` writes at most the block of the cache. -/
theorem sync_device (s : CacheState β) (addr id : Nat) :
    (s.sync addr).device id =
      if (s.caches addr).modified = true ∧ id = (s.caches addr).blockId then (s.caches addr).cache
      else s.device id := by
  unfold CacheState.sync
  simp only
  split
  · next dirty =>
    by_cases same : id = (s.caches addr).blockId
    · rw [same]
      simp [dirty]
    · simp [same]
  · next clean => simp [clean]

/-- Writing back an entry that the queue still has. -/
theorem sync (rel : CacheRel size a s) {p : Nat × Nat} (hp : p ∈ s.queue) :
    CacheRel size a (s.sync p.2) := by
  obtain ⟨idEq, -, -⟩ := rel.entries p hp
  have device : ∀ id, s.device id = a.cells id → (s.sync p.2).device id = a.cells id := by
    intro id same
    rw [sync_device]
    split
    · next dirty => rw [rel.cached p hp, dirty.2, idEq]
    · exact same
  refine ⟨by simpa using rel.queueLen, by simpa using rel.idsNodup, by simpa using rel.addrsNodup,
    ?_, by simpa using rel.handlesIn, ?_, ?_, ?_, ?_⟩
  · intro q hq
    rw [sync_queue] at hq
    rw [(sync_cache s p.2 q.2).2, sync_next]
    exact rel.entries q hq
  · rw [sync_handles, rel.held]
    exact List.map_congr_left fun h _ => (sync_cache s p.2 h).2.symm
  · intro q hq
    rw [sync_queue] at hq
    rw [(sync_cache s p.2 q.2).1]
    exact rel.cached q hq
  · intro id notIn
    rw [sync_queue] at notIn
    exact device id (rel.uncached id notIn)
  · intro q hq clean
    rw [sync_queue] at hq
    rw [sync_modified, Bool.and_eq_false_iff] at clean
    rcases clean with clean | self
    · exact device q.1 (rel.clean q hq clean)
    · have same : q.2 = p.2 := by simpa using self
      have entry := rel.addr_inj hq hp same
      subst entry
      rw [sync_device, rel.cached q hp, idEq]
      split
      · rfl
      · next notDirty =>
        refine rel.clean q hp ?_
        simpa using notDirty

/-! ## Eviction -/

/-- An entry that is clean and not held can leave the queue. -/
theorem erase (rel : CacheRel size a s) {idx : Nat} {p : Nat × Nat} (at_ : s.queue[idx]? = some p)
    (isClean : (s.caches p.2).modified = false) (free : p.2 ∉ s.handles) :
    CacheRel size a { s with queue := s.queue.eraseIdx idx } := by
  have sub : (s.queue.eraseIdx idx).Sublist s.queue := List.eraseIdx_sublist _ _
  have hp : p ∈ s.queue := List.mem_of_getElem? at_
  have others : ∀ q ∈ s.queue, q ≠ p → q ∈ s.queue.eraseIdx idx := by
    intro q hq differ
    obtain ⟨i, hi⟩ := List.mem_iff_getElem?.mp hq
    refine List.mem_eraseIdx_iff_getElem?.mpr ⟨i, ?_, hi⟩
    rintro rfl
    rw [at_, Option.some.injEq] at hi
    exact differ hi.symm
  refine ⟨Nat.le_trans sub.length_le rel.queueLen, rel.idsNodup.sublist (sub.map _),
    rel.addrsNodup.sublist (sub.map _), fun q hq => rel.entries q (sub.subset hq), ?_, rel.held,
    fun q hq => rel.cached q (sub.subset hq), ?_, fun q hq => rel.clean q (sub.subset hq)⟩
  · intro h mem
    obtain ⟨q, hq, rfl⟩ := List.mem_map.mp (rel.handlesIn h mem)
    refine List.mem_map.mpr ⟨q, others q hq ?_, rfl⟩
    rintro rfl
    exact free mem
  · intro id notIn
    by_cases self : id = p.1
    · rw [self]
      exact rel.clean p hp isClean
    · refine rel.uncached id fun mem => ?_
      obtain ⟨q, hq, rfl⟩ := List.mem_map.mp mem
      refine notIn (List.mem_map.mpr ⟨q, others q hq ?_, rfl⟩)
      rintro rfl
      exact self rfl

theorem sync_with_queue (s : CacheState β) (q : List (Nat × Nat)) (addr : Nat) :
    CacheState.sync { s with queue := q } addr = { s.sync addr with queue := q } := by
  unfold CacheState.sync
  simp only
  split <;> rfl

/-- Of 16 entries, one is not held by at most 15 handles. -/
theorem exists_free (rel : CacheRel size a s) (full : s.queue.length = blockCacheSize)
    (few : s.handles.length < blockCacheSize) : ∃ p ∈ s.queue, s.strongCount p.2 = 1 := by
  by_contra none
  push Not at none
  have all : s.queue.map Prod.snd ⊆ s.handles := by
    intro addr mem
    obtain ⟨p, hp, rfl⟩ := List.mem_map.mp mem
    have held := none p hp
    rw [rel.strongCount_entry hp] at held
    exact List.count_pos_iff.mp (by omega)
  have short := (rel.addrsNodup.subperm all).length_le
  rw [List.length_map] at short
  omega

/-- Making room for one more entry. -/
theorem substitute (rel : CacheRel size a s) (few : s.handles.length < blockCacheSize) :
    ∃ s', s.substitute = some s' ∧ CacheRel size a s' ∧ s'.queue.length < blockCacheSize ∧
      s'.handles = s.handles ∧ s'.queue.Sublist s.queue := by
  unfold CacheState.substitute
  split
  · next full =>
    obtain ⟨p, hp, unheld⟩ := rel.exists_free full few
    cases found : s.queue.findIdx? fun pair => s.strongCount pair.2 == 1 with
    | none =>
        have no := List.findIdx?_eq_none_iff.mp found p hp
        simp [unheld] at no
    | some idx =>
        obtain ⟨inRange, hit, -⟩ := List.findIdx?_eq_some_iff_getElem.mp found
        have at_ : s.queue[idx]? = some s.queue[idx] := List.getElem?_eq_getElem inRange
        generalize s.queue[idx] = q at hit at_
        have hq : q ∈ s.queue := List.mem_of_getElem? at_
        have count : s.strongCount q.2 = 1 := by simpa using hit
        have free : q.2 ∉ s.handles := by
          rw [rel.strongCount_entry hq] at count
          exact List.count_eq_zero.mp (by omega)
        have gone : q.2 ∉ (s.queue.eraseIdx idx).map Prod.snd := by
          intro mem
          obtain ⟨r, hr, same⟩ := List.mem_map.mp mem
          obtain ⟨i, differ, hi⟩ := List.mem_eraseIdx_iff_getElem?.mp hr
          have entry := rel.addr_inj (List.mem_of_getElem? hi) hq same
          subst entry
          have nodup := rel.addrsNodup.of_map
          have inRange' : i < s.queue.length := (List.getElem?_eq_some_iff.mp hi).1
          exact differ (nodup.getElem_inj_iff.mp
            ((List.getElem?_eq_some_iff.mp hi).2.trans (List.getElem?_eq_some_iff.mp at_).2.symm))
        have zero : CacheState.strongCount { s with queue := s.queue.eraseIdx idx } q.2 = 0 := by
          rw [CacheState.strongCount, List.count_eq_zero.mpr gone, List.count_eq_zero.mpr free]
        refine ⟨CacheState.sync { s with queue := s.queue.eraseIdx idx } q.2, ?_, ?_, ?_, ?_, ?_⟩
        · rw [Option.bind_some, at_, Option.map_some, CacheState.dropArc, if_pos zero]
        · rw [sync_with_queue]
          have synced := rel.sync hq
          have atSynced : (s.sync q.2).queue[idx]? = some q := by
            rw [sync_queue]
            exact at_
          have erased := synced.erase atSynced (by simp [sync_modified])
            (by rw [sync_handles]; exact free)
          rwa [sync_queue] at erased
        · rw [sync_queue, List.length_eraseIdx_of_lt inRange]
          simp only [blockCacheSize] at full ⊢
          omega
        · simp
        · rw [sync_queue]
          exact List.eraseIdx_sublist _ _
  · next notFull =>
    have len := rel.queueLen
    exact ⟨s, rfl, rel, by omega, rfl, List.Sublist.refl _⟩

/-! ## The operations -/

/-- A block that is not in the queue is loaded from the device. -/
theorem load (rel : CacheRel size a s) {id : Nat} (inRange : id < size)
    (room : s.queue.length < blockCacheSize) (absent : id ∉ s.queue.map Prod.fst) :
    CacheRel size (a.hold id) { s with
      caches := Function.update s.caches s.next ⟨s.device id, id, false⟩
      next := s.next + 1
      queue := s.queue ++ [(id, s.next)]
      handles := s.next :: s.handles } := by
  have old : ∀ p ∈ s.queue, p.2 ≠ s.next := fun p hp => Nat.ne_of_lt (rel.entries p hp).2.1
  have oldHandle : ∀ h ∈ s.handles, h ≠ s.next := by
    intro h mem
    obtain ⟨p, hp, rfl⟩ := List.mem_map.mp (rel.handlesIn h mem)
    exact old p hp
  refine ⟨?_, ?_, ?_, ?_, ?_, ?_, ?_, ?_, ?_⟩
  · simp only [List.length_append, List.length_singleton]
    omega
  · rw [List.map_append, List.nodup_append]
    refine ⟨rel.idsNodup, by simp, ?_⟩
    intro x hx y hy
    simp only [List.map_cons, List.map_nil, List.mem_singleton] at hy
    rintro rfl
    exact absent (hy ▸ hx)
  · rw [List.map_append, List.nodup_append]
    refine ⟨rel.addrsNodup, by simp, ?_⟩
    intro x hx y hy
    simp only [List.map_cons, List.map_nil, List.mem_singleton] at hy
    rintro rfl
    obtain ⟨p, hp, same⟩ := List.mem_map.mp hx
    exact old p hp (same.trans hy)
  · intro p hp
    rcases List.mem_append.mp hp with hp | hp
    · obtain ⟨idEq, below, small⟩ := rel.entries p hp
      simp only [Function.update_of_ne (old p hp)]
      exact ⟨idEq, by omega, small⟩
    · rw [List.mem_singleton] at hp
      subst hp
      simp [inRange]
  · intro h mem
    rw [List.map_append]
    rcases List.mem_cons.mp mem with rfl | mem
    · simp
    · exact List.mem_append_left _ (rel.handlesIn h mem)
  · simp only [CellArray.hold_held, rel.held, List.map_cons, Function.update_self]
    congr 1
    exact List.map_congr_left fun h mem => by rw [Function.update_of_ne (oldHandle h mem)]
  · intro p hp
    rcases List.mem_append.mp hp with hp | hp
    · simp only [Function.update_of_ne (old p hp)]
      exact rel.cached p hp
    · rw [List.mem_singleton] at hp
      subst hp
      simp only [Function.update_self, CellArray.hold_cells]
      exact rel.uncached id absent
  · intro other notIn
    rw [List.map_append, List.mem_append, not_or] at notIn
    exact rel.uncached other notIn.1
  · intro p hp isClean
    rcases List.mem_append.mp hp with hp | hp
    · simp only [Function.update_of_ne (old p hp)] at isClean
      exact rel.clean p hp isClean
    · rw [List.mem_singleton] at hp
      subst hp
      exact rel.uncached id absent

/-- `get_block_cache` takes hold of the block. -/
theorem get (rel : CacheRel size a s) {id : Nat} (inRange : id < size)
    (few : s.handles.length < blockCacheSize) :
    ∃ s' addr, s.getBlockCache size id = some s' ∧ CacheRel size (a.hold id) s' ∧
      s'.handles = addr :: s.handles ∧ (s'.caches addr).blockId = id := by
  unfold CacheState.getBlockCache
  cases found : s.queue.find? fun pair => pair.1 == id with
  | some p =>
      have hp : p ∈ s.queue := List.mem_of_find?_eq_some found
      have same : p.1 = id := by simpa using List.find?_some found
      obtain ⟨idEq, -, -⟩ := rel.entries p hp
      refine ⟨_, p.2, rfl, ⟨rel.queueLen, rel.idsNodup, rel.addrsNodup, rel.entries, ?_, ?_,
        rel.cached, rel.uncached, rel.clean⟩, rfl, idEq.trans same⟩
      · intro h mem
        rcases List.mem_cons.mp mem with rfl | mem
        · exact List.mem_map.mpr ⟨p, hp, rfl⟩
        · exact rel.handlesIn h mem
      · simp [rel.held, idEq, same]
  | none =>
      obtain ⟨s₁, evicted, rel₁, room, handlesEq, sub⟩ := rel.substitute few
      have absent : id ∉ s₁.queue.map Prod.fst := by
        intro mem
        obtain ⟨p, hp, same⟩ := List.mem_map.mp mem
        have no := List.find?_eq_none.mp found p (sub.subset hp)
        simp [same] at no
      have loaded := rel₁.load inRange room absent
      refine ⟨_, s₁.next, ?_, loaded, by simp [handlesEq], by simp⟩
      simp only [evicted, Option.bind_some, CacheState.load, inRange, if_true]

/-- A read through a handle sees the array. -/
theorem read (rel : CacheRel size a s) {h : Nat} (mem : h ∈ s.handles) :
    s.read h = a.cells (s.caches h).blockId :=
  rel.cached _ (rel.entry_of_handle mem)

/-- A modification through a handle changes the array. -/
theorem modify (rel : CacheRel size a s) {h : Nat} (mem : h ∈ s.handles) (b : β) :
    CacheRel size (a.put (s.caches h).blockId b) (s.modify h b) := by
  have entry := rel.entry_of_handle mem
  have blockId : ∀ addr, ((s.modify h b).caches addr).blockId = (s.caches addr).blockId := by
    intro addr
    by_cases same : addr = h
    · subst same
      simp [CacheState.modify]
    · simp [CacheState.modify, Function.update_of_ne same]
  have otherId : ∀ p ∈ s.queue, p.2 ≠ h → p.1 ≠ (s.caches h).blockId := by
    intro p hp differ same
    exact differ (congrArg Prod.snd (rel.id_inj hp entry same))
  refine ⟨rel.queueLen, rel.idsNodup, rel.addrsNodup, ?_, rel.handlesIn, ?_, ?_, ?_, ?_⟩
  · intro p hp
    rw [blockId]
    exact rel.entries p hp
  · rw [CellArray.put_held, rel.held]
    exact List.map_congr_left fun addr _ => (blockId addr).symm
  · intro p hp
    by_cases same : p.2 = h
    · have eq := rel.addr_inj hp entry same
      subst eq
      simp [CacheState.modify]
    · simp only [CacheState.modify, Function.update_of_ne same, CellArray.put_cells]
      rw [Function.update_of_ne (otherId p hp same)]
      exact rel.cached p hp
  · intro id notIn
    have differ : id ≠ (s.caches h).blockId := by
      rintro rfl
      exact notIn (List.mem_map.mpr ⟨_, entry, rfl⟩)
    rw [CellArray.put_cells, Function.update_of_ne differ]
    exact rel.uncached id notIn
  · intro p hp isClean
    have differ : p.2 ≠ h := by
      intro same
      simp [CacheState.modify, same] at isClean
    simp only [CacheState.modify, Function.update_of_ne differ] at isClean
    rw [CellArray.put_cells, Function.update_of_ne (otherId p hp differ)]
    exact rel.clean p hp isClean

/-- Dropping a handle: its entry stays in the queue. -/
theorem drop (rel : CacheRel size a s) {h : Nat} (inRange : h < s.handles.length) :
    s.dropHandle h = some { s with handles := s.handles.eraseIdx h } ∧
      CacheRel size { a with held := a.held.eraseIdx h }
        { s with handles := s.handles.eraseIdx h } := by
  have mem : s.handles[h] ∈ s.handles := List.getElem_mem inRange
  have inQueue := rel.handlesIn _ mem
  refine ⟨?_, rel.queueLen, rel.idsNodup, rel.addrsNodup, rel.entries, ?_, ?_, rel.cached,
    rel.uncached, rel.clean⟩
  · have counted : CacheState.strongCount { s with handles := s.handles.eraseIdx h } s.handles[h] ≠
        0 := by
      rw [CacheState.strongCount, List.count_eq_one_of_mem rel.addrsNodup inQueue]
      omega
    rw [CacheState.dropHandle, List.getElem?_eq_getElem inRange, Option.map_some,
      CacheState.dropArc, if_neg counted]
  · exact fun addr hm => rel.handlesIn addr ((List.eraseIdx_sublist _ _).subset hm)
  · simp [rel.held, List.eraseIdx_map]

/-- Synchronizing some entries leaves them and all entries that were clean clean. -/
theorem foldl_sync (addrs : List Nat) (s : CacheState β) :
    (addrs.foldl CacheState.sync s).queue = s.queue ∧
      (addrs.foldl CacheState.sync s).handles = s.handles ∧
      ∀ other, ((addrs.foldl CacheState.sync s).caches other).modified =
        ((s.caches other).modified && decide (other ∉ addrs)) := by
  induction addrs generalizing s with
  | nil => exact ⟨rfl, rfl, by simp⟩
  | cons addr addrs ih =>
      obtain ⟨queueEq, handlesEq, modified⟩ := ih (s.sync addr)
      refine ⟨queueEq.trans (sync_queue _ _), handlesEq.trans (sync_handles _ _), ?_⟩
      intro other
      rw [List.foldl_cons, modified, sync_modified, Bool.and_assoc, ← Bool.decide_and]
      congr 1
      exact decide_eq_decide.mpr (by simp)

theorem syncEntries (addrs : List Nat) (rel : CacheRel size a s)
    (sub : ∀ addr ∈ addrs, addr ∈ s.queue.map Prod.snd) :
    CacheRel size a (addrs.foldl CacheState.sync s) := by
  induction addrs generalizing s with
  | nil => exact rel
  | cons addr addrs ih =>
      obtain ⟨p, hp, rfl⟩ := List.mem_map.mp (sub addr List.mem_cons_self)
      apply ih (rel.sync hp)
      intro other mem
      rw [sync_queue]
      exact sub other (List.mem_cons_of_mem _ mem)

/-- After `block_cache_sync_all` the device is the array. -/
theorem syncAll (rel : CacheRel size a s) :
    CacheRel size a s.syncAll ∧ s.syncAll.device = a.cells ∧ s.syncAll.handles = s.handles := by
  have rel' := rel.syncEntries (s.queue.map Prod.snd) fun _ mem => mem
  obtain ⟨queueEq, handlesEq, modified⟩ := foldl_sync (s.queue.map Prod.snd) s
  refine ⟨rel', ?_, handlesEq⟩
  funext id
  by_cases cached : id ∈ s.queue.map Prod.fst
  · obtain ⟨p, hp, rfl⟩ := List.mem_map.mp cached
    refine rel'.clean p (by rw [queueEq]; exact hp) ?_
    rw [modified, decide_eq_false, Bool.and_false]
    exact fun notIn => notIn (List.mem_map.mpr ⟨p, hp, rfl⟩)
  · exact rel'.uncached id (by rw [queueEq]; exact cached)

end CacheRel

/-! ## Whole runs -/

/-- An operation of a client on a plain array of blocks. -/
def arrayStep (a : CellArray β) : CacheOp β → Option (Option β × CellArray β)
  | .get id => some (none, a.hold id)
  | .read h => a.held[h]?.map fun id => (some (a.cells id), a)
  | .modify h f => a.held[h]?.map fun id => (none, a.put id (f (a.cells id)))
  | .drop h => a.held[h]?.map fun _ => (none, { a with held := a.held.eraseIdx h })
  | .syncAll => some (none, a)

/-- A sequence of operations on a plain array of blocks. -/
def arraySteps (a : CellArray β) :
    List (CacheOp β) → Option (List (Option β) × CellArray β)
  | [] => some ([], a)
  | op :: ops => (arrayStep a op).bind fun r =>
      (arraySteps r.2 ops).map fun rest => (r.1 :: rest.1, rest.2)

/-- What a client may do: it names handles it has, blocks of the device, and holds at most 15
handles. -/
def OpAllowed (size : Nat) (handles : Nat) : CacheOp β → Prop
  | .get id => id < size ∧ handles < 15
  | .read h => h < handles
  | .modify h _ => h < handles
  | .drop h => h < handles
  | .syncAll => True

/-- The number of handles after an operation. -/
def handlesAfter (handles : Nat) : CacheOp β → Nat
  | .get _ => handles + 1
  | .drop _ => handles - 1
  | .read _ => handles
  | .modify _ _ => handles
  | .syncAll => handles

/-- A sequence of operations that starts with a number of handles. -/
def OpsAllowed (size : Nat) (handles : Nat) : List (CacheOp β) → Prop
  | [] => True
  | op :: ops => OpAllowed size handles op ∧ OpsAllowed size (handlesAfter handles op) ops

namespace CacheRel

variable {a : CellArray β} {s : CacheState β}

theorem held_length (rel : CacheRel size a s) : a.held.length = s.handles.length := by
  rw [rel.held, List.length_map]

theorem held_get (rel : CacheRel size a s) {h : Nat} (inRange : h < s.handles.length) :
    a.held[h]? = some (s.caches s.handles[h]).blockId := by
  rw [rel.held, List.getElem?_map, List.getElem?_eq_getElem inRange]
  rfl

/-- One operation. -/
theorem step (rel : CacheRel size a s) {op : CacheOp β} (few : s.handles.length ≤ 15)
    (allowed : OpAllowed size s.handles.length op) :
    ∃ r s' a', s.step size op = some (r, s') ∧ arrayStep a op = some (r, a') ∧
      CacheRel size a' s' ∧ s'.handles.length = handlesAfter s.handles.length op ∧
      s'.handles.length ≤ 15 ∧ (op = .syncAll → s'.device = a'.cells) := by
  cases op with
  | get id =>
      obtain ⟨s', addr, got, rel', handles, -⟩ := rel.get allowed.1
        (Nat.lt_of_le_of_lt few (by decide))
      have room := allowed.2
      refine ⟨none, s', a.hold id, by simp [CacheState.step, got], rfl, rel', ?_, ?_, by simp⟩
      · simp [handles, handlesAfter]
      · simp only [handles, List.length_cons]
        omega
  | read h =>
      have at_ := List.getElem?_eq_getElem allowed
      refine ⟨some (s.read s.handles[h]), s, a, by simp [CacheState.step, at_], ?_, rel, rfl, few,
        by simp⟩
      rw [arrayStep, rel.held_get allowed, Option.map_some, rel.read (List.getElem_mem allowed)]
  | modify h f =>
      have at_ := List.getElem?_eq_getElem allowed
      have mem := List.getElem_mem allowed
      have rel' := rel.modify mem (f (s.read s.handles[h]))
      refine ⟨_, _, _, by simp [CacheState.step, at_]; rfl, ?_, rel', rfl, few, by simp⟩
      rw [arrayStep, rel.held_get allowed, Option.map_some, rel.read mem]
  | drop h =>
      obtain ⟨dropped, rel'⟩ := rel.drop allowed
      have inRange : h < s.handles.length := allowed
      refine ⟨none, _, _, by simp [CacheState.step, dropped], ?_, rel', ?_, ?_, by simp⟩
      · rw [arrayStep, rel.held_get allowed, Option.map_some]
      · exact List.length_eraseIdx_of_lt inRange
      · simp only [List.length_eraseIdx_of_lt inRange]
        omega
  | syncAll =>
      obtain ⟨rel', device, handles⟩ := rel.syncAll
      exact ⟨none, s.syncAll, a, rfl, rfl, rel', by rw [handles]; rfl, by rw [handles]; exact few,
        fun _ => device⟩

/-- A run of the cache is a run of the array. -/
theorem steps (ops : List (CacheOp β)) (rel : CacheRel size a s) (few : s.handles.length ≤ 15)
    (allowed : OpsAllowed size s.handles.length ops) :
    ∃ out s' a', s.steps size ops = some (out, s') ∧ arraySteps a ops = some (out, a') ∧
      CacheRel size a' s' ∧ s'.handles.length ≤ 15 := by
  induction ops generalizing a s with
  | nil => exact ⟨[], s, a, rfl, rfl, rel, few⟩
  | cons op ops ih =>
      obtain ⟨r, s₁, a₁, step, step', rel₁, count, few₁, -⟩ := rel.step few allowed.1
      obtain ⟨out, s', a', rest, rest', rel', few'⟩ := ih rel₁ few₁ (by rw [count]; exact allowed.2)
      refine ⟨r :: out, s', a', ?_, ?_, rel', few'⟩
      · simp [CacheState.steps, step, rest]
      · simp [arraySteps, step', rest']

end CacheRel

/-- The cache shows the array: no block has two entries, there are at most 16, the entries of
all handles are still there, a read through any handle sees the block of the array, and
`block_cache_sync_all` makes the device that array. -/
structure Transparent (a : CellArray β) (s : CacheState β) : Prop where
  idsNodup : (s.queue.map Prod.fst).Nodup
  queueLen : s.queue.length ≤ blockCacheSize
  notEvicted : ∀ addr ∈ s.handles, addr ∈ s.queue.map Prod.snd
  reads : ∀ h addr : Nat, s.handles[h]? = some addr →
    ∃ id, a.held[h]? = some id ∧ s.read addr = a.cells id
  synced : s.syncAll.device = a.cells

/-- For every sequence of operations of a client with at most 15 handles, the cache does not
panic, returns what a plain array of blocks returns, and shows that array. -/
theorem blockCache_transparent (device : Nat → β) (ops : List (CacheOp β))
    (allowed : OpsAllowed size 0 ops) :
    ∃ out s a, (CacheState.fresh device).steps size ops = some (out, s) ∧
      arraySteps ⟨device, []⟩ ops = some (out, a) ∧ Transparent a s := by
  obtain ⟨out, s, a, ran, ran', rel, -⟩ :=
    CacheRel.steps ops (CacheRel.fresh device) (by simp [CacheState.fresh]) allowed
  refine ⟨out, s, a, ran, ran', rel.idsNodup, rel.queueLen, rel.handlesIn, ?_, rel.syncAll.2.1⟩
  intro h addr at_
  obtain ⟨inRange, rfl⟩ := List.getElem?_eq_some_iff.mp at_
  exact ⟨_, rel.held_get inRange, rel.read (List.getElem_mem inRange)⟩

/-- Seventeen blocks are loaded, changed and dropped in turn, so that block `0` is evicted; it
is then loaded again and read. -/
def evictingOps : List (CacheOp Nat) :=
  ((List.range 17).flatMap fun id => [.get id, .modify 0 (· + 100 + id), .drop 0]) ++
    [.get 0, .read 0]

theorem blockCache_transparent_evicting : OpsAllowed 20 0 evictingOps ∧
    ∃ out s a, (CacheState.fresh fun _ => 7).steps 20 evictingOps = some (out, s) ∧
      arraySteps ⟨fun _ => 7, []⟩ evictingOps = some (out, a) ∧ Transparent a s := by
  have allowed : OpsAllowed 20 0 evictingOps := by
    simp [evictingOps, List.range, List.range.loop, OpsAllowed, OpAllowed, handlesAfter]
  exact ⟨allowed, blockCache_transparent (fun _ => 7) evictingOps allowed⟩

/-! ## Programs through the cache -/

/-- What a program does on the array it does through the cache. -/
theorem cache_simulates : Simulates (arrayHandler β size 15) (cacheHandler β size)
    (CacheRel size) := by
  have atBlock : ∀ {a : CellArray β} {s : CacheState β} {id : Nat}, CacheRel size a s →
      id ∈ a.held → ∃ addr, s.handles.find? (fun addr => (s.caches addr).blockId == id) =
        some addr ∧ addr ∈ s.handles ∧ (s.caches addr).blockId = id := by
    intro a s id rel mem
    rw [rel.held] at mem
    obtain ⟨addr, inHandles, same⟩ := List.mem_map.mp mem
    cases found : s.handles.find? fun addr => (s.caches addr).blockId == id with
    | none =>
        have no := List.find?_eq_none.mp found addr inHandles
        simp [same] at no
    | some other =>
        exact ⟨other, rfl, List.mem_of_find?_eq_some found, by simpa using List.find?_some found⟩
  refine ⟨?_, ?_, ?_, ?_, ?_⟩
  · intro a a' s id rel step
    simp only [arrayHandler] at step
    split at step
    · next lock =>
      simp only [Option.some.injEq] at step
      subst step
      have few : s.handles.length < blockCacheSize := by
        rw [← rel.held_length]
        exact Nat.lt_trans lock.room (by decide)
      obtain ⟨s', addr, got, rel', handles, blockId⟩ := rel.get lock.inRange few
      refine ⟨s', ?_, rel'⟩
      have unlocked : addr ∉ s.handles := by
        intro mem
        have heldEq := rel'.held
        rw [handles, CellArray.hold_held, rel.held, List.map_cons, List.cons.injEq] at heldEq
        apply lock.notHeld
        rw [rel.held, heldEq.2, ← blockId]
        exact List.mem_map.mpr ⟨addr, mem, rfl⟩
      simp [cacheHandler, got, handles, unlocked]
    · simp at step
  · intro a s id b rel step
    simp only [arrayHandler] at step
    split at step
    · next held =>
      obtain ⟨addr, found, mem, same⟩ := atBlock rel held
      simp only [Option.some.injEq] at step
      simp [cacheHandler, found, rel.read mem, same, step]
    · simp at step
  · intro a a' s id b rel step
    simp only [arrayHandler] at step
    split at step
    · next held =>
      obtain ⟨addr, found, mem, same⟩ := atBlock rel held
      simp only [Option.some.injEq] at step
      subst step
      refine ⟨s.modify addr b, by simp [cacheHandler, found], ?_⟩
      have rel' := rel.modify mem b
      rwa [same] at rel'
    · simp at step
  · intro a a' s id rel step
    simp only [arrayHandler] at step
    split at step
    · next head =>
      simp only [Option.some.injEq] at step
      subst step
      have heldEq := rel.held
      cases handles : s.handles with
      | nil => simp [heldEq, handles] at head
      | cons addr rest =>
          rw [heldEq, handles, List.map_cons, List.head?_cons, Option.some.injEq] at head
          obtain ⟨dropped, rel'⟩ := rel.drop (h := 0) (by simp [handles])
          refine ⟨_, ?_, by simpa using rel'⟩
          simp [cacheHandler, handles, head, dropped]
    · simp at step
  · intro a a' s rel step
    simp only [arrayHandler] at step
    split at step
    · next idle =>
      simp only [Option.some.injEq] at step
      subst step
      have none : s.handles = [] := by
        have heldEq := rel.held
        rw [idle] at heldEq
        exact List.map_eq_nil_iff.mp heldEq.symm
      exact ⟨s.syncAll, by simp [cacheHandler, none], rel.syncAll.1⟩
    · simp at step

end CoreFromDust.EasyFs
