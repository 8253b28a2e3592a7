import CoreFromDust.EasyFs.Reachable
import CoreFromDust.EasyFs.Proofs.FsCreate

/-!
# The invariant of a running file system

`FsInv` holds in every reachable state: what is seen through the cache is a file system whose
directory has one entry for each created name, and nothing is left to be written back.
-/

namespace CoreFromDust.EasyFs

open CoreFromDust.Lib CoreFromDust.Lib.CellProg DiskInode

/-! ## Nothing is left to be written back -/

namespace CacheState

variable {β : Type} {size : Nat} {s s' : CacheState β}

/-- All entries of the queue are as on the device. -/
def Clean (s : CacheState β) : Prop := ∀ p ∈ s.queue, (s.caches p.2).modified = false

theorem Clean.sync (clean : Clean s) (addr : Nat) : Clean (s.sync addr) := by
  intro p hp
  rw [CacheRel.sync_queue] at hp
  rw [CacheRel.sync_modified, clean p hp, Bool.false_and]

theorem Clean.dropArc (clean : Clean s) (addr : Nat) : Clean (s.dropArc addr) := by
  unfold CacheState.dropArc
  split
  · exact clean.sync addr
  · exact clean

theorem Clean.getBlockCache (clean : Clean s) {id : Nat} (got : s.getBlockCache size id = some s') :
    Clean s' := by
  unfold CacheState.getBlockCache at got
  split at got
  · simp only [Option.some.injEq] at got
    subst got
    exact clean
  · obtain ⟨s₁, made, loaded⟩ := Option.bind_eq_some_iff.mp got
    have clean₁ : Clean s₁ := by
      unfold CacheState.substitute at made
      split at made
      · obtain ⟨idx, -, made⟩ := Option.bind_eq_some_iff.mp made
        obtain ⟨pair, -, rfl⟩ := Option.map_eq_some_iff.mp made
        apply Clean.dropArc
        exact fun p hp => clean p ((List.eraseIdx_sublist _ _).subset hp)
      · simp only [Option.some.injEq] at made
        subst made
        exact clean
    unfold CacheState.load at loaded
    split at loaded
    · simp only [Option.some.injEq] at loaded
      subst loaded
      intro p hp
      by_cases new : p.2 = s₁.next
      · simp [new]
      · simp only [Function.update_of_ne new]
        rcases List.mem_append.mp hp with old | last
        · exact clean₁ p old
        · rw [List.mem_singleton] at last
          exact absurd (congrArg Prod.snd last) new
    · simp at loaded

theorem clean_syncAll (s : CacheState β) : Clean s.syncAll := by
  obtain ⟨queueEq, -, modified⟩ := CacheRel.foldl_sync (s.queue.map Prod.snd) s
  intro p hp
  unfold CacheState.syncAll at hp ⊢
  rw [queueEq] at hp
  rw [modified, decide_eq_false, Bool.and_false]
  exact fun notIn => notIn (List.mem_map.mpr ⟨p, hp, rfl⟩)

/-- A program that flushes what it writes leaves the cache clean. -/
theorem Clean.run {α : Type} {p : CellProg β α} {r : α} (leaves : LeavesClean true p)
    (clean : Clean s) (ran : run (cacheHandler β size) p s = some (r, s')) : Clean s' := by
  refine run_leavesClean (H := cacheHandler β size) ?_ ?_ ?_ leaves (fun _ => clean) ran
  · intro s s' id clean step
    obtain ⟨s₁, got, rest⟩ := Option.bind_eq_some_iff.mp step
    split at rest
    · simp at rest
    · simp only [Option.some.injEq] at rest
      subst rest
      exact clean.getBlockCache got
  · intro s s' id clean step
    simp only [cacheHandler] at step
    split at step
    · obtain ⟨addr, -, rfl⟩ := Option.map_eq_some_iff.mp step
      apply Clean.dropArc
      exact clean
    · simp at step
  · intro s s' step
    simp only [cacheHandler] at step
    split at step
    · simp only [Option.some.injEq] at step
      subst step
      exact clean_syncAll s
    · simp at step

/-- The queue holds blocks of the device only. -/
def InRange (size : Nat) (s : CacheState β) : Prop := ∀ p ∈ s.queue, p.1 < size

theorem inRange_fresh (size : Nat) (device : Nat → β) : InRange size (fresh device) := by
  intro p hp
  simp [fresh] at hp

theorem InRange.of_queue (inRange : InRange size s) (same : s'.queue = s.queue) :
    InRange size s' := by
  intro p hp
  rw [same] at hp
  exact inRange p hp

theorem dropArc_queue (s : CacheState β) (addr : Nat) : (s.dropArc addr).queue = s.queue := by
  unfold CacheState.dropArc
  split
  · exact CacheRel.sync_queue _ _
  · rfl

/-- Only blocks of the device are handed out. -/
theorem InRange.getBlockCache (inRange : InRange size s) {id : Nat}
    (got : s.getBlockCache size id = some s') : id < size ∧ InRange size s' := by
  unfold CacheState.getBlockCache at got
  split at got
  · next pair found =>
    simp only [Option.some.injEq] at got
    subst got
    have same : pair.1 = id := by simpa using List.find?_some found
    exact ⟨same ▸ inRange pair (List.mem_of_find?_eq_some found), inRange⟩
  · obtain ⟨s₁, made, loaded⟩ := Option.bind_eq_some_iff.mp got
    have inRange₁ : InRange size s₁ := by
      unfold CacheState.substitute at made
      split at made
      · obtain ⟨idx, -, made⟩ := Option.bind_eq_some_iff.mp made
        obtain ⟨pair, -, rfl⟩ := Option.map_eq_some_iff.mp made
        intro p hp
        rw [dropArc_queue] at hp
        exact inRange p ((List.eraseIdx_sublist _ _).subset hp)
      · simp only [Option.some.injEq] at made
        subst made
        exact inRange
    unfold CacheState.load at loaded
    split at loaded
    · next below =>
      simp only [Option.some.injEq] at loaded
      subst loaded
      refine ⟨below, fun p hp => ?_⟩
      rcases List.mem_append.mp hp with old | last
      · exact inRange₁ p old
      · rw [List.mem_singleton.mp last]
        exact below
    · simp at loaded

theorem InRange.acquire (inRange : InRange size s) {id : Nat}
    (step : (cacheHandler β size).acquire id s = some s') : id < size ∧ InRange size s' := by
  obtain ⟨s₁, got, rest⟩ := Option.bind_eq_some_iff.mp step
  split at rest
  · simp at rest
  · simp only [Option.some.injEq] at rest
    subst rest
    exact inRange.getBlockCache got

theorem InRange.run {α : Type} {p : CellProg β α} {r : α} (inRange : InRange size s)
    (ran : run (cacheHandler β size) p s = some (r, s')) : InRange size s' := by
  refine run_preserves (H := cacheHandler β size) ?_ ?_ ?_ ?_ inRange ran
  · exact fun inRange step => (inRange.acquire step).2
  · intro s s' id b inRange step
    obtain ⟨addr, -, rfl⟩ := Option.map_eq_some_iff.mp step
    exact inRange
  · intro s s' id inRange step
    simp only [cacheHandler] at step
    split at step
    · obtain ⟨addr, -, rfl⟩ := Option.map_eq_some_iff.mp step
      exact inRange.of_queue (dropArc_queue _ _)
    · simp at step
  · intro s s' inRange step
    simp only [cacheHandler] at step
    split at step
    · simp only [Option.some.injEq] at step
      subst step
      exact inRange.of_queue (CacheRel.foldl_sync _ _).1
    · simp at step

/-- A block that was modified is one of the device. -/
theorem InRange.modifyCell {α : Type} {id : Nat} {body : β → CellProg β (β × α)} {r : α}
    (inRange : InRange size s)
    (ran : Lib.run (cacheHandler β size) (modifyCell id body) s = some (r, s')) : id < size := by
  obtain ⟨s₁, step, -⟩ := Option.bind_eq_some_iff.mp ran
  exact (inRange.acquire step).1

end CacheState

namespace CacheRel

variable {β : Type} {size : Nat} {a : CellArray β} {s : CacheState β}

/-- The array is what is seen through the cache. -/
theorem view_eq (rel : CacheRel size a s) : s.view = a.cells := by
  funext id
  unfold CacheState.view
  cases found : s.queue.find? fun pair => pair.1 == id with
  | some p =>
      have same : p.1 = id := by simpa using List.find?_some found
      rw [← same]
      exact rel.cached p (List.mem_of_find?_eq_some found)
  | none =>
      refine rel.uncached id fun mem => ?_
      obtain ⟨p, hp, same⟩ := List.mem_map.mp mem
      have no := List.find?_eq_none.mp found p hp
      simp [same] at no

/-- With a clean cache the device is the array. -/
theorem device_eq (rel : CacheRel size a s) (clean : s.Clean) : s.device = s.view := by
  rw [rel.view_eq]
  funext id
  by_cases cached : id ∈ s.queue.map Prod.fst
  · obtain ⟨p, hp, rfl⟩ := List.mem_map.mp cached
    exact rel.clean p hp (clean p hp)
  · exact rel.uncached id cached

/-- A program that returns on the array returns through the cache, with the same result. -/
theorem run_of_wp {α : Type} {p : CellProg β α} {Q : α → CellArray β → Prop}
    (rel : CacheRel size a s) (h : wp (arrayHandler β size 15) p Q a) :
    ∃ r a' s', run (cacheHandler β size) p s = some (r, s') ∧ CacheRel size a' s' ∧ Q r a' := by
  obtain ⟨r, a', ran, post⟩ := h
  obtain ⟨s', ran', rel'⟩ := run_simulates cache_simulates p rel ran
  exact ⟨r, a', s', ran', rel', post⟩

/-- A program that panics on the array panics through the cache. -/
theorem run_of_panics {α : Type} {p : CellProg β α} (rel : CacheRel size a s)
    (h : Panics (arrayHandler β size 15) p a) : run (cacheHandler β size) p s = none :=
  (h.simulates cache_simulates rel).run_eq

end CacheRel

/-! ## The calls flush what they write -/

namespace DiskInode

theorem entry_leavesClean (b : Block) (i : Nat) : LeavesClean true (entry b i) := by
  unfold entry
  exact leavesClean_bind (leavesClean_check _) fun _ => leavesClean_pure _

theorem getBlockId_leavesClean (d : DiskInode) (k : Nat) : LeavesClean true (d.getBlockId k) := by
  unfold getBlockId
  split_ifs
  · exact leavesClean_unwrap _
  · exact leavesClean_viewCell fun b => entry_leavesClean b _
  · exact leavesClean_bind (leavesClean_viewCell fun b => entry_leavesClean b _)
      fun _ => leavesClean_viewCell fun b => entry_leavesClean b _

theorem readLoop_leavesClean (d : DiskInode) (stop fuel start startBlock readSize : Nat)
    (buf : List UInt8) :
    LeavesClean true (d.readLoop stop fuel start startBlock readSize buf) := by
  induction fuel generalizing start startBlock readSize buf with
  | zero => exact leavesClean_panic _
  | succ fuel ih =>
      refine leavesClean_bind (leavesClean_check _) fun _ => ?_
      refine leavesClean_bind (d.getBlockId_leavesClean _) fun _ => ?_
      refine leavesClean_bind (leavesClean_viewCell fun _ => ?_) fun _ => ?_
      · exact leavesClean_bind (leavesClean_check _) fun _ => leavesClean_pure _
      · simp only
        split_ifs
        · exact leavesClean_pure _
        · exact ih _ _ _ _

theorem readAt_leavesClean (d : DiskInode) (offset : Nat) (buf : List UInt8) :
    LeavesClean true (d.readAt offset buf) := by
  simp only [DiskInode.readAt]
  split_ifs
  · exact leavesClean_pure _
  · exact d.readLoop_leavesClean _ _ _ _ _ _

end DiskInode

namespace Inode

theorem readDirent_leavesClean (d : DiskInode) (i : Nat) (dirent : DirEntry) :
    LeavesClean true (readDirent d i dirent) := by
  refine leavesClean_bind (d.readAt_leavesClean _ _) fun _ => ?_
  exact leavesClean_bind (leavesClean_check _) fun _ => leavesClean_pure _

theorem findInodeId_leavesClean (name : String) (d : DiskInode) :
    LeavesClean true (findInodeId name d) := by
  have loop : ∀ remaining i dirent, LeavesClean true (findLoop name d remaining i dirent) := by
    intro remaining
    induction remaining with
    | zero => exact fun _ _ => leavesClean_pure _
    | succ remaining ih =>
        intro i dirent
        refine leavesClean_bind (readDirent_leavesClean d i dirent) fun _ => ?_
        refine leavesClean_bind (leavesClean_unwrap _) fun _ => ?_
        split_ifs
        · exact leavesClean_pure _
        · exact ih _ _
  exact leavesClean_bind (leavesClean_check _) fun _ => loop _ _ _

theorem readDiskInode_leavesClean {α : Type} (self : Inode) {f : DiskInode → FsProg α}
    (h : ∀ d, LeavesClean true (f d)) : LeavesClean true (self.readDiskInode f) :=
  leavesClean_viewCell fun _ => leavesClean_bind (leavesClean_check _) fun _ => h _

theorem readAt_leavesClean (self : Inode) (offset : Nat) (buf : List UInt8) :
    LeavesClean true (self.readAt offset buf) :=
  self.readDiskInode_leavesClean fun d => d.readAt_leavesClean _ _

theorem find_leavesClean (self : Inode) (efs : EasyFileSystem) (name : String) :
    LeavesClean true (self.find efs name) :=
  self.readDiskInode_leavesClean fun d =>
    leavesClean_bind (findInodeId_leavesClean name d) fun _ => leavesClean_pure _

theorem ls_leavesClean (self : Inode) : LeavesClean true self.ls := by
  have loop : ∀ d remaining i dirent, LeavesClean true (lsLoop d remaining i dirent) := by
    intro d remaining
    induction remaining with
    | zero => exact fun _ _ => leavesClean_pure _
    | succ remaining ih =>
        intro i dirent
        refine leavesClean_bind (readDirent_leavesClean d i dirent) fun _ => ?_
        refine leavesClean_bind (leavesClean_unwrap _) fun _ => ?_
        exact leavesClean_bind (ih _ _) fun _ => leavesClean_pure _
  exact self.readDiskInode_leavesClean fun d => loop d _ _ _

/-- `create` flushes, or it has only looked for the name. -/
theorem create_leavesClean (self : Inode) (efs : EasyFileSystem) (name : String) :
    LeavesClean true (self.create efs name) := by
  refine leavesClean_bind (self.readDiskInode_leavesClean fun d => ?_) fun found => ?_
  · exact leavesClean_bind (leavesClean_check _) fun _ => findInodeId_leavesClean name d
  · split_ifs
    · exact leavesClean_pure _
    · refine leavesClean_second fun _ _ => leavesClean_second fun _ _ => ?_
      exact leavesClean_second fun _ _ => leavesClean_flush (leavesClean_pure _)

theorem writeAt_leavesClean (self : Inode) (efs : EasyFileSystem) (offset : Nat)
    (buf : List UInt8) : LeavesClean true (self.writeAt efs offset buf) :=
  leavesClean_second fun _ _ => leavesClean_flush (leavesClean_pure _)

theorem clear_leavesClean (self : Inode) (efs : EasyFileSystem) :
    LeavesClean true (self.clear efs) :=
  leavesClean_second fun _ _ => leavesClean_flushAll _

end Inode

theorem EasyFileSystem.create_leavesClean (total inodeBlocks : UInt32) :
    LeavesClean true (EasyFileSystem.create total inodeBlocks) := by
  refine leavesClean_second fun _ _ => leavesClean_second fun _ _ => ?_
  refine leavesClean_second fun _ _ => leavesClean_second fun _ _ => ?_
  exact leavesClean_second fun _ _ => leavesClean_flush (leavesClean_pure _)

/-! ## The invariant -/

/-- The state `s` of a file system with the given directory entries, one for each name in
`created`; entry `j` was written for inode `j + 1`. -/
structure FsInv (g : Geometry) (size : Nat) (efs : EasyFileSystem)
    (created : List (String × Inode)) (entries : List DirEntry) (s : CacheState Block) : Prop where
  efsEq : efs = g.efs
  device : g.total.toNat ≤ size
  rel : CacheRel size ⟨s.view, []⟩ s
  clean : s.Clean
  dir : DirOk g entries s.view
  len : entries.length = created.length
  inodes : ∀ j p, created[j]? = some p → p.2 = Inode.ofId g.efs (UInt32.ofNat (j + 1))
  encoded : ∀ j p e, created[j]? = some p → entries[j]? = some e →
    DirEntry.new p.1 (UInt32.ofNat (j + 1)) = some e

theorem CacheRel.idle {β : Type} {size : Nat} {a : CellArray β} {s : CacheState β}
    (rel : CacheRel size a s) (held : a.held = []) : CacheRel size ⟨s.view, []⟩ s := by
  rw [rel.view_eq, ← held]
  exact rel

namespace FsInv

variable {g : Geometry} {size : Nat} {efs : EasyFileSystem} {created : List (String × Inode)}
  {entries : List DirEntry} {s : CacheState Block}

theorem idle (inv : FsInv g size efs created entries s) :
    Idle g size 15 (⟨s.view, []⟩ : CellArray Block) := ⟨inv.device, by decide, rfl⟩

/-- The files are the inodes `1, ..., entries.length`. -/
theorem file_eq (inv : FsInv g size efs created entries s) {file : Inode}
    (mem : file ∈ created.map Prod.snd) :
    ∃ i, 0 < i ∧ i < entries.length + 1 ∧ file = Inode.ofId g.efs (UInt32.ofNat i) := by
  obtain ⟨p, hp, rfl⟩ := List.mem_map.mp mem
  obtain ⟨j, hj⟩ := List.mem_iff_getElem?.mp hp
  have below : j < created.length := (List.getElem?_eq_some_iff.mp hj).1
  exact ⟨j + 1, by omega, by rw [inv.len]; omega, inv.inodes j p hj⟩

/-- The root and the files are the inodes below `entries.length + 1`. -/
theorem inode_eq (inv : FsInv g size efs created entries s) {file : Inode}
    (mem : file ∈ Inode.root efs :: created.map Prod.snd) :
    ∃ i, i < entries.length + 1 ∧ file = Inode.ofId g.efs (UInt32.ofNat i) := by
  rcases List.mem_cons.mp mem with rfl | mem
  · rw [inv.efsEq]
    exact ⟨0, Nat.succ_pos _, rfl⟩
  · obtain ⟨i, -, hi, rfl⟩ := inv.file_eq mem
    exact ⟨i, hi, rfl⟩

theorem contents_ofId (inv : FsInv g size efs created entries s) {i : Nat}
    (hi : i < entries.length + 1) (cells : Cells) :
    (Inode.ofId g.efs (UInt32.ofNat i)).contents cells = g.file cells i := by
  have bound := inv.dir.fs.bound
  have narrow := inv.dir.fs.narrow
  rw [FsOk.ofId_eq (by omega) (by omega)]
  rfl

/-- Different inodes lie at different places. -/
theorem ofId_inj (inv : FsInv g size efs created entries s) {i j : Nat}
    (hi : i < entries.length + 1) (hj : j < entries.length + 1)
    (same : Inode.ofId g.efs (UInt32.ofNat i) = Inode.ofId g.efs (UInt32.ofNat j)) : i = j := by
  have bound := inv.dir.fs.bound
  have narrow := inv.dir.fs.narrow
  rw [FsOk.ofId_eq (by omega) (by omega), FsOk.ofId_eq (by omega) (by omega),
    Inode.mk.injEq] at same
  obtain ⟨block, offset⟩ := same
  unfold Geometry.inodeBlock at block
  omega

/-- A call that returned, with what it does on the array. -/
theorem of_run {α : Type} {p : FsProg α} {Q : α → CellArray Block → Prop} {r : α}
    {s' : CacheState Block} (inv : FsInv g size efs created entries s)
    (h : wp (fsHandler size 15) p (fun r a => a.held = [] ∧ Q r a) ⟨s.view, []⟩)
    (ran : run (machine size) p s = some (r, s')) :
    CacheRel size ⟨s'.view, []⟩ s' ∧ Q r ⟨s'.view, []⟩ := by
  obtain ⟨r', a', s'', ran', rel', held, post⟩ := inv.rel.run_of_wp h
  rw [ran] at ran'
  simp only [Option.some.injEq, Prod.mk.injEq] at ran'
  obtain ⟨rfl, rfl⟩ := ran'
  have eta : a' = ⟨s'.view, []⟩ := by
    rw [rel'.view_eq, ← held]
  exact ⟨rel'.idle held, eta ▸ post⟩

/-- A call that returns on the array returns. -/
theorem returns {α : Type} {p : FsProg α} {Q : α → CellArray Block → Prop}
    (inv : FsInv g size efs created entries s)
    (h : wp (fsHandler size 15) p Q ⟨s.view, []⟩) :
    ∃ r s', run (machine size) p s = some (r, s') := by
  obtain ⟨r, a', s', ran, -⟩ := inv.rel.run_of_wp h
  exact ⟨r, s', ran⟩

/-- A call that only looked at the state. -/
theorem looked {α : Type} {p : FsProg α} {o : Option α} {r : α} {s' : CacheState Block}
    (inv : FsInv g size efs created entries s)
    (h : Answers (fsHandler size 15) p ⟨s.view, []⟩ o) (leaves : LeavesClean true p)
    (ran : run (machine size) p s = some (r, s')) :
    o = some r ∧ s'.view = s.view ∧ FsInv g size efs created entries s' := by
  cases o with
  | none =>
      rw [inv.rel.run_of_panics h] at ran
      simp at ran
  | some a =>
      have onArray : wp (fsHandler size 15) p
          (fun r t => t.held = [] ∧ (r = a ∧ t.cells = s.view)) ⟨s.view, []⟩ :=
        ⟨a, _, h, rfl, rfl, rfl⟩
      obtain ⟨rel', rfl, same⟩ := inv.of_run onArray ran
      have viewEq : s'.view = s.view := same
      refine ⟨rfl, viewEq, inv.efsEq, inv.device, rel', inv.clean.run leaves ran, ?_, inv.len,
        inv.inodes, inv.encoded⟩
      rw [viewEq]
      exact inv.dir

/-- The state after a call that changed one file. -/
theorem updated {i : Nat} {c : List UInt8} {s' : CacheState Block}
    (inv : FsInv g size efs created entries s) (pos : 0 < i) (hi : i < entries.length + 1)
    (rel : CacheRel size ⟨s'.view, []⟩ s') (clean : s'.Clean)
    (up : FsOk.Updated g (entries.length + 1) i c s.view s'.view) :
    FsInv g size efs created entries s' ∧
      (Inode.ofId g.efs (UInt32.ofNat i)).contents s'.view = c ∧
      ∀ other ∈ Inode.root efs :: created.map Prod.snd,
        other ≠ Inode.ofId g.efs (UInt32.ofNat i) →
        other.contents s'.view = other.contents s.view := by
  refine ⟨⟨inv.efsEq, inv.device, rel, clean, ⟨up.ok, ?_, inv.dir.numbers⟩, inv.len, inv.inodes,
    inv.encoded⟩, ?_, ?_⟩
  · rw [up.others 0 (Nat.succ_pos _) (by omega), inv.dir.contents]
  · rw [inv.contents_ofId hi, up.file]
  · intro other mem differ
    obtain ⟨j, hj, rfl⟩ := inv.inode_eq mem
    rw [inv.contents_ofId hj, inv.contents_ofId hj]
    apply up.others j hj
    rintro rfl
    exact differ rfl

end FsInv

end CoreFromDust.EasyFs
