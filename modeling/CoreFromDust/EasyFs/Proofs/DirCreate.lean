import CoreFromDust.EasyFs.Proofs.Directory

/-!
# Creating files and file systems

`Inode::create` allocates and initializes an inode and then appends an entry to the root file;
`EasyFileSystem::create` zeroes the device, writes the super block and makes the root inode.
-/

namespace CoreFromDust.EasyFs

open CoreFromDust.Lib CoreFromDust.Lib.CellProg DiskInode

/-- The free entries of the inode bitmap. -/
def Geometry.freeInodes (g : Geometry) (cells : Cells) : Nat :=
  ((Finset.range g.inodes).filter fun n => g.efs.inodeBitmap.bit cells n = false).card

/-- The resources that creating one more file takes: an inode, and what the root file needs to
grow by one entry. -/
structure CanCreate (g : Geometry) (cells : Cells) : Prop where
  inode : 0 < g.freeInodes cells
  small : (g.file cells 0).length + direntSz ≤ maxSize
  blocks : blocksNeeded (g.file cells 0).length ((g.file cells 0).length + direntSz) ≤
    g.freeBlocks cells

namespace FsOk

variable {g : Geometry} {k size cap : Nat}

theorem room_of_freeInodes {cells : Cells} (ok : FsOk g k cells) (free : 0 < g.freeInodes cells) :
    k < g.inodes := by
  obtain ⟨n, hn⟩ := Finset.card_pos.mp free
  rw [Finset.mem_filter, Finset.mem_range] at hn
  obtain ⟨inside, clear⟩ := hn
  rw [ok.inodeBits n inside, decide_eq_false_iff_not] at clear
  omega

/-- The state after inode `k` has been added. -/
structure Added (g : Geometry) (k : Nat) (cells cells' : Cells) : Prop where
  ok : FsOk g (k + 1) cells'
  empty : g.file cells' k = []
  others : ∀ j, j < k → g.file cells' j = g.file cells j
  data : ∀ id, g.bitmapStart ≤ id → cells' id = cells id

/-- `alloc_inode` takes inode `k`. -/
theorem allocInode_wp {s : CellArray Block} (ok : FsOk g k s.cells) (idle : Idle g size cap s)
    (room : k < g.inodes) :
    wp (fsHandler size cap) g.efs.allocInode
      (fun v s' => s'.held = [] ∧ v = UInt32.ofNat k ∧
        g.efs.inodeBitmap.Marks s.cells s'.cells k) s := by
  have fits := g.fits
  simp only [EasyFileSystem.allocInode, wp_bind]
  refine wp_mono (Bitmap.alloc_wp _ fun id within => ?_) ?_
  · have low : 1 ≤ id := within.1
    have high : id < 1 + g.inodeBlocks.toNat := within.2
    exact idle.lockable (by omega)
  · rintro r s' ⟨heldEq, found⟩
    cases r with
    | none =>
        have full := found.2 k room
        rw [ok.inodeBits k room] at full
        simp at full
    | some m =>
        have inRange : m < g.inodes := found.inRange
        have clear := found.clear
        rw [ok.inodeBits m inRange, decide_eq_false_iff_not] at clear
        have same : m = k := by
          by_contra differ
          have set := found.least k (by omega)
          rw [ok.inodeBits k room] at set
          simp at set
        subst same
        simp only [wp_unwrap_some, wp_pure]
        exact ⟨heldEq.trans idle.held, trivial, found⟩

/-- `initialize` of the inode that has just been allocated. -/
theorem initInode_wp {cells : Cells} {s : CellArray Block} (ok : FsOk g k cells)
    (marks : g.efs.inodeBitmap.Marks cells s.cells k) (idle : Idle g size cap s)
    (narrow : k + 1 < 2 ^ 32) :
    wp (fsHandler size cap)
      (EasyFileSystem.initInodeAt (g.efs.getDiskInodePos (UInt32.ofNat k)).1.toNat
        (g.efs.getDiskInodePos (UInt32.ofNat k)).2 (if k = 0 then .directory else .file))
      (fun _ s' => s'.held = [] ∧ Added g k cells s'.cells) s := by
  have room : k < g.inodes := marks.inRange
  have fits : g.bitmapStart ≤ g.total.toNat := g.fits
  have before := g.inodeBlock_lt room
  have after := g.inodeBlock_pos k
  have start := g.inodeStart_le
  have first : 0 < g.inodeStart := by
    unfold Geometry.inodeStart
    omega
  obtain ⟨block, offset⟩ := g.getDiskInodePos_eq room (by omega)
  rw [block, offset, EasyFileSystem.initInodeAt]
  have frame : ∀ id, ¬ (0 < id ∧ id < g.inodeStart) → s.cells id = cells id := by
    intro id outside
    refine marks.frame id fun within => outside ⟨within.1, ?_⟩
    exact within.2
  apply wp_modifyCell (idle.lockable (by omega))
  have inBlock : k % 4 * 128 + DiskInode.sizeOf ≤ blockSz := by
    simp only [DiskInode.sizeOf, blockSz]
    omega
  simp only [wp_bind, wp_check, inBlock, wp_pure, true_and, CellArray.hold_held,
    CellArray.hold_cells]
  refine ⟨idle.held, ?_⟩
  generalize typeEq : (if k = 0 then DiskInodeType.directory else .file) = type_
  generalize stored : Function.update s.cells (g.inodeBlock k)
    ((init type_).toBlock (s.cells (g.inodeBlock k)) (k % 4 * 128)) = cells'
  have other : ∀ id, id ≠ g.inodeBlock k → cells' id = s.cells id := by
    intro id differ
    rw [← stored, Function.update_of_ne differ]
  have inode : ∀ j, j < k + 1 → g.inodeAt cells' j =
      Function.update (g.inodeAt cells) k (init type_) j := by
    intro j hj
    rw [← stored, inodeAt_store]
    by_cases same : j = k
    · rw [if_pos same, same, Function.update_self]
    · rw [if_neg same, Function.update_of_ne same, Geometry.inodeAt, frame, Geometry.inodeAt]
      have := g.inodeBlock_pos j
      omega
  have data : ∀ id, g.bitmapStart ≤ id → cells' id = cells id := by
    intro id low
    rw [other id (by omega), frame id (by omega)]
  have own := (ok.own.addInode type_).frame data
  have contents : ∀ j, j < k → (g.inodeAt cells j).contents cells' =
      (g.inodeAt cells j).contents cells := by
    intro j hj
    refine (ok.own.file j hj).contents_frame fun id mem => data id ?_
    exact Nat.le_trans g.bitmapStart_le (ok.own.inData id (.inl ⟨j, hj, mem⟩)).low
  refine ⟨⟨?_, ?_, room, narrow, ?_, own.congr inode⟩, ?_, ?_, data⟩
  · rw [other 0 (by omega), frame 0 (by omega)]
    exact ok.super
  · intro n hn
    have sameBit : g.efs.inodeBitmap.bit cells' n = g.efs.inodeBitmap.bit s.cells n :=
      inodeBit_frame hn fun id _ high => other id (by omega)
    rw [sameBit, marks.bits n hn, ok.inodeBits n hn, ← Bool.decide_or]
    exact decide_eq_decide.mpr (by omega)
  · intro j hj
    rw [inode j hj]
    by_cases same : j = k
    · rw [same, Function.update_self, typeEq]
      rfl
    · rw [Function.update_of_ne same]
      exact ok.types j (by omega)
  · rw [Geometry.file, inode k (Nat.lt_succ_self k), Function.update_self, contents_init]
  · intro j hj
    rw [Geometry.file, inode j (by omega), Function.update_of_ne (by omega), contents j hj,
      Geometry.file]

end FsOk

theorem DirOk.rootLength {g : Geometry} {entries : List DirEntry} {s : CellArray Block}
    (dir : DirOk g entries s.cells) :
    (g.file s.cells 0).length = 32 * entries.length := by
  rw [dir.contents, length_dirBytes]

theorem CanCreate.root_small {g : Geometry} {entries : List DirEntry} {s : CellArray Block}
    (dir : DirOk g entries s.cells) (can : CanCreate g s.cells) :
    32 * (entries.length + 1) ≤ maxSize := by
  have small := can.small
  rw [dir.rootLength] at small
  exact small

theorem CanCreate.root_blocks {g : Geometry} {entries : List DirEntry} {s : CellArray Block}
    (dir : DirOk g entries s.cells) (can : CanCreate g s.cells) :
    blocksNeeded (32 * entries.length) (32 * (entries.length + 1)) ≤ g.freeBlocks s.cells := by
  have blocks := can.blocks
  rw [dir.rootLength] at blocks
  exact blocks

namespace DirOk

variable {g : Geometry} {entries : List DirEntry} {size cap : Nat} {s : CellArray Block}

/-- The first step of `Inode::create`: the search for the name. -/
theorem lookup_answers (dir : DirOk g entries s.cells) (idle : Idle g size cap s) (name : String) :
    Answers (fsHandler size cap) ((Inode.root g.efs).readDiskInode fun rootInode => do
        check rootInode.isDir
        Inode.findInodeId name rootInode) s (scan name entries) := by
  apply dir.readRoot_answers idle
  have typed : (g.inodeAt s.cells 0).isDir = true := by simp [DiskInode.isDir, dir.rootType]
  exact answers_bind (g := fun _ => scan name entries) (answers_check _ _ typed)
    fun _ _ => findInodeId_answers (dir.rootInode idle) name dir.rootType

theorem lookup_absent (dir : DirOk g entries s.cells) (idle : Idle g size cap s) {name : String}
    (absent : scan name entries = some none) :
    wp (fsHandler size cap) ((Inode.root g.efs).readDiskInode fun rootInode => do
        check rootInode.isDir
        Inode.findInodeId name rootInode) (fun r s' => r = none ∧ s' = s) s := by
  have lookup := dir.lookup_answers idle name
  rw [absent] at lookup
  exact ⟨none, s, lookup, rfl, rfl⟩

/-- `Inode::create` panics when the search for the name does. -/
theorem create_panics (dir : DirOk g entries s.cells) (idle : Idle g size cap s) {name : String}
    (h : scan name entries = none) :
    Panics (fsHandler size cap) ((Inode.root g.efs).create g.efs name) s := by
  have lookup := dir.lookup_answers idle name
  rw [h] at lookup
  exact panics_first lookup

/-- `Inode::create` of a name that is there changes nothing. -/
theorem create_found (dir : DirOk g entries s.cells) (idle : Idle g size cap s) {name : String}
    {id : UInt32} (h : scan name entries = some (some id)) :
    run (fsHandler size cap) ((Inode.root g.efs).create g.efs name) s = some (none, s) := by
  have lookup := dir.lookup_answers idle name
  rw [h] at lookup
  exact answers_bind (g := fun _ => some none) lookup fun r same => by
    rw [Option.some.injEq] at same
    subst same
    exact answers_pure _ _ _

/-- The state after the entry `e` has been appended. -/
structure Appended (g : Geometry) (entries : List DirEntry) (e : DirEntry) (cells cells' : Cells) :
    Prop where
  dir : DirOk g (entries ++ [e]) cells'
  empty : g.file cells' (entries.length + 1) = []
  others : ∀ j, 0 < j → j < entries.length + 1 → g.file cells' j = g.file cells j

/-- The closure of `Inode::create` on the root inode, up to the encoding of the entry. -/
theorem appendBody_wp {k : Nat} {s : CellArray Block} (fs : FsOk g k s.cells)
    (contents : g.file s.cells 0 = dirBytes entries) (hk : 0 < k) (idle : Idle g size cap s)
    (small : 32 * (entries.length + 1) ≤ maxSize)
    (blocks : blocksNeeded (32 * entries.length) (32 * (entries.length + 1)) ≤
      g.freeBlocks s.cells) (e : DirEntry) :
    wp (fsHandler size cap)
      (Inode.increaseSize g.efs
        (UInt32.ofNat (((g.inodeAt s.cells 0).size.toNat / direntSz + 1) * direntSz))
        (g.inodeAt s.cells 0))
      (fun d s' => wp (fsHandler size cap)
        (d.writeAt ((g.inodeAt s.cells 0).size.toNat / direntSz * direntSz) e.asBytes)
        (fun _ s'' => s''.held = (s.hold (g.inodeBlock 0)).held ∧
          Changed g k (g.inodeAt s.cells) 0 (dirBytes (entries ++ [e])) s.cells d s''.cells) s')
      (s.hold (g.inodeBlock 0)) := by
  have len := congrArg List.length contents
  rw [Geometry.file, length_contents, length_dirBytes] at len
  have count : (g.inodeAt s.cells 0).size.toNat / direntSz * direntSz =
      (g.inodeAt s.cells 0).size.toNat := by
    simp only [direntSz]
    omega
  have total : ((g.inodeAt s.cells 0).size.toNat / direntSz + 1) * direntSz =
      (g.inodeAt s.cells 0).size.toNat + e.asBytes.length := by
    rw [Nat.add_mul, count, e.length_asBytes, Nat.one_mul]
  rw [count, total]
  have larger : max (g.inodeAt s.cells 0).size.toNat
      ((g.inodeAt s.cells 0).size.toNat + e.asBytes.length) = 32 * (entries.length + 1) := by
    rw [e.length_asBytes]
    omega
  have written : Spec.write ((g.inodeAt s.cells 0).contents s.cells)
      (g.inodeAt s.cells 0).size.toNat e.asBytes = dirBytes (entries ++ [e]) := by
    have atEnd := Spec.write_end ((g.inodeAt s.cells 0).contents s.cells) e.asBytes
    rw [length_contents] at atEnd
    rw [atEnd, dirBytes_append, ← contents, Geometry.file]
  refine wp_mono (Owns.writeBody_wp (s := s.hold (g.inodeBlock 0)) fs.own hk (fs.busy idle hk)
    (g.inodeAt s.cells 0).size.toNat e.asBytes (by rw [larger]; exact small)
    (by rw [larger, len]; exact blocks)) ?_
  rintro d s₁ body
  refine wp_mono body ?_
  rintro n s₂ ⟨heldEq, -, changed⟩
  refine ⟨heldEq, ?_⟩
  rw [← written]
  exact changed

/-- The inode part of `Inode::create`. -/
theorem newInode_wp (dir : DirOk g entries s.cells) (idle : Idle g size cap s)
    (can : CanCreate g s.cells) :
    wp (fsHandler size cap) g.efs.allocInode
      (fun v s' => v = UInt32.ofNat (entries.length + 1) ∧ wp (fsHandler size cap)
        (EasyFileSystem.initInodeAt (g.efs.getDiskInodePos v).1.toNat
          (g.efs.getDiskInodePos v).2 .file)
        (fun _ s'' => s''.held = [] ∧
          FsOk.Added g (entries.length + 1) s.cells s''.cells) s') s := by
  have room := dir.fs.room_of_freeInodes can.inode
  have small := can.root_small dir
  simp only [maxSize] at small
  refine wp_mono (dir.fs.allocInode_wp idle room) ?_
  rintro v s₁ ⟨heldEq, rfl, marks⟩
  have idle₁ : Idle g size cap s₁ := ⟨idle.device, idle.room, heldEq⟩
  refine ⟨rfl, ?_⟩
  have ran := dir.fs.initInode_wp marks idle₁ (by omega)
  rwa [if_neg (Nat.succ_ne_zero _)] at ran

/-- `Inode::create` of a new name that fits the entry. -/
theorem create_wp (dir : DirOk g entries s.cells) (idle : Idle g size cap s)
    (can : CanCreate g s.cells) {name : String} (absent : scan name entries = some none)
    {e : DirEntry} (encoded : DirEntry.new name (UInt32.ofNat (entries.length + 1)) = some e) :
    wp (fsHandler size cap) ((Inode.root g.efs).create g.efs name)
      (fun r s' => s'.held = [] ∧
        r = some (Inode.ofId g.efs (UInt32.ofNat (entries.length + 1))) ∧
        Appended g entries e s.cells s'.cells) s := by
  rw [Inode.create, wp_bind]
  refine wp_mono (dir.lookup_absent idle absent) ?_
  rintro r s' ⟨rfl, rfl⟩
  simp only [Option.isSome_none, Bool.false_eq_true, if_false, wp_bind]
  refine wp_mono (dir.newInode_wp idle can) ?_
  rintro v s₁ ⟨rfl, init⟩
  refine wp_mono init ?_
  rintro - s₂ ⟨heldEq, added⟩
  have idle₂ : Idle g size cap s₂ := ⟨idle.device, idle.room, heldEq⟩
  have root : Inode.root g.efs = Inode.ofId g.efs (UInt32.ofNat 0) := rfl
  have contents₂ : g.file s₂.cells 0 = dirBytes entries := by
    rw [added.others 0 (Nat.succ_pos _), dir.contents]
  have blocks : blocksNeeded (32 * entries.length) (32 * (entries.length + 1)) ≤
      g.freeBlocks s₂.cells := by
    rw [Owns.freeBlocks_frame fun id low _ => added.data id low]
    exact can.root_blocks dir
  rw [root]
  refine wp_mono (added.ok.modifyDiskInode_wp idle₂ (Nat.succ_pos _) (P := fun _ => True)
    (c := dirBytes (entries ++ [e])) ?_) ?_
  · simp only [wp_bind, encoded, wp_unwrap_some, wp_pure, true_and]
    exact appendBody_wp added.ok contents₂ (Nat.succ_pos _) idle₂ (can.root_small dir) blocks e
  · rintro - s₃ ⟨heldEq₃, -, updated⟩
    refine wp_flushAll heldEq₃ ?_
    rw [wp_pure]
    have len : (entries ++ [e]).length = entries.length + 1 := by simp
    refine ⟨heldEq₃, rfl, ⟨⟨by rw [len]; exact updated.ok, updated.file, ?_⟩, ?_, ?_⟩⟩
    · intro j d h
      by_cases old : j < entries.length
      · rw [List.getElem?_append_left old] at h
        exact dir.numbers j d h
      · rw [List.getElem?_append_right (by omega)] at h
        have last : j = entries.length := by
          by_contra differ
          rw [List.getElem?_eq_none (by simp; omega)] at h
          simp at h
        rw [last, Nat.sub_self, List.getElem?_cons_zero, Option.some.injEq] at h
        rw [← h, last]
        exact (DirEntry.new_name encoded).2.1
    · rw [updated.others _ (Nat.lt_succ_self _) (Nat.succ_ne_zero _), added.empty]
    · intro j pos hj
      rw [updated.others j (by omega) (by omega), added.others j hj]

/-- `Inode::create` of a new name that does not fit the entry panics. -/
theorem create_long (dir : DirOk g entries s.cells) (idle : Idle g size cap s)
    (can : CanCreate g s.cells) {name : String} (absent : scan name entries = some none)
    (encoded : DirEntry.new name (UInt32.ofNat (entries.length + 1)) = none) :
    Panics (fsHandler size cap) ((Inode.root g.efs).create g.efs name) s := by
  rw [Inode.create]
  apply panics_do_second
  refine wp_mono (dir.lookup_absent idle absent) ?_
  rintro r s' ⟨rfl, rfl⟩
  simp only [Option.isSome_none, Bool.false_eq_true, if_false]
  apply panics_do_second
  refine wp_mono (dir.newInode_wp idle can) ?_
  rintro v s₁ ⟨rfl, init⟩
  apply panics_do_second
  refine wp_mono init ?_
  rintro - s₂ ⟨heldEq, added⟩
  have idle₂ : Idle g size cap s₂ := ⟨idle.device, idle.room, heldEq⟩
  have contents₂ : g.file s₂.cells 0 = dirBytes entries := by
    rw [added.others 0 (Nat.succ_pos _), dir.contents]
  have blocks : blocksNeeded (32 * entries.length) (32 * (entries.length + 1)) ≤
      g.freeBlocks s₂.cells := by
    rw [Owns.freeBlocks_frame fun id low _ => added.data id low]
    exact can.root_blocks dir
  have root : Inode.root g.efs = Inode.ofId g.efs (UInt32.ofNat 0) := rfl
  apply panics_do_first
  rw [root]
  refine added.ok.modifyDiskInode_panics idle₂ (Nat.succ_pos _) ?_
  apply panics_do_second
  refine wp_mono
    (appendBody_wp added.ok contents₂ (Nat.succ_pos _) idle₂ (can.root_small dir) blocks
    DirEntry.empty) ?_
  intro d s₃ _
  rw [encoded]
  apply panics_do_first
  exact panics_unwrap _ _

end DirOk

end CoreFromDust.EasyFs
