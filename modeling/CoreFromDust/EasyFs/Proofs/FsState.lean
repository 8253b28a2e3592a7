import CoreFromDust.EasyFs.Proofs.InodeBody
import CoreFromDust.EasyFs.Proofs.LayoutCodec

/-!
# The state of a file system

`FsOk g k cells` is the invariant of a device between two calls: the inodes below `k` are
allocated, inode `0` is the root directory, and the data area is divided among them. The
operations on one inode keep it and change only that inode's file.
-/

namespace CoreFromDust.EasyFs

open CoreFromDust.Lib CoreFromDust.Lib.CellProg DiskInode

namespace Geometry

variable (g : Geometry)

/-- The disk inode `i`. -/
def inodeAt (cells : Cells) (i : Nat) : DiskInode :=
  DiskInode.ofBlock (cells (g.inodeBlock i)) (i % 4 * 128)

/-- The contents of the file of inode `i`. -/
def file (cells : Cells) (i : Nat) : List UInt8 := (g.inodeAt cells i).contents cells

/-- The super block that `create` writes. -/
def superBlock : SuperBlock :=
  SuperBlock.init g.total g.inodeBlocks (EasyFileSystem.inodeAreaBlocks g.inodeBlocks)
    (EasyFileSystem.dataBitmapBlocks g.total g.inodeBlocks)
    (EasyFileSystem.dataAreaBlocks g.total g.inodeBlocks)

end Geometry

/-- The invariant of a file system with `k` inodes. -/
structure FsOk (g : Geometry) (k : Nat) (cells : Cells) : Prop where
  super : cells 0 = g.superBlock.toBlock Block.zero
  inodeBits : ∀ n, n < g.inodes → g.efs.inodeBitmap.bit cells n = decide (n < k)
  bound : k ≤ g.inodes
  narrow : k < 2 ^ 32
  types : ∀ i, i < k → (g.inodeAt cells i).type_ = if i = 0 then .directory else .file
  own : Owns g k (g.inodeAt cells) [] cells

theorem Owns.congr {g : Geometry} {k : Nat} {ino ino' : Nat → DiskInode} {pending : List Nat}
    {cells : Cells} (own : Owns g k ino pending cells) (same : ∀ i, i < k → ino' i = ino i) :
    Owns g k ino' pending cells := by
  have owned : ∀ id, Owned k ino' pending cells id ↔ Owned k ino pending cells id := by
    intro id
    refine or_congr (exists_congr fun i => and_congr_right fun hi => ?_) Iff.rfl
    rw [same i hi]
  refine ⟨?_, ?_, own.pendingNodup, ?_, ?_, ?_, ?_⟩
  · intro i hi
    rw [same i hi]
    exact own.file i hi
  · intro i hi j hj
    rw [same i hi, same j hj]
    exact own.apart i hi j hj
  · intro id mem i hi
    rw [same i hi]
    exact own.pendingApart id mem i hi
  · exact fun id h => own.inData id ((owned id).mp h)
  · intro b hb
    rw [owned]
    exact own.marked b hb
  · intro id inData h
    rw [owned] at h
    exact own.free id inData h

namespace FsOk

variable {g : Geometry} {k size cap : Nat}

theorem inodeAt_frame {cells cells' : Cells} {i : Nat} (hi : i < g.inodes)
    (same : ∀ id, id < g.bitmapStart → cells' id = cells id) :
    g.inodeAt cells' i = g.inodeAt cells i := by
  rw [Geometry.inodeAt, same _ (g.inodeBlock_lt hi), Geometry.inodeAt]

/-- Storing inode `i` leaves the other inodes alone. -/
theorem inodeAt_store {cells : Cells} {i j : Nat} (d : DiskInode) :
    g.inodeAt (Function.update cells (g.inodeBlock i)
        (d.toBlock (cells (g.inodeBlock i)) (i % 4 * 128))) j =
      if j = i then d else g.inodeAt cells j := by
  unfold Geometry.inodeAt
  by_cases sameBlock : g.inodeBlock j = g.inodeBlock i
  · rw [sameBlock, Function.update_self]
    by_cases same : j = i
    · rw [if_pos same, same, DiskInode.ofBlock_toBlock _ _ (by omega)]
    · rw [if_neg same, DiskInode.ofBlock_toBlock_other]
      unfold Geometry.inodeBlock at sameBlock
      omega
  · have differ : j ≠ i := fun same => sameBlock (by rw [same])
    rw [Function.update_of_ne sameBlock, if_neg differ]

theorem inodeBit_frame {cells cells' : Cells} {n : Nat} (hn : n < g.inodes)
    (same : ∀ id, 0 < id → id < g.inodeStart → cells' id = cells id) :
    g.efs.inodeBitmap.bit cells' n = g.efs.inodeBitmap.bit cells n := by
  rw [g.efs_inodeBitmap]
  refine Bitmap.bit_congr _ hn fun id within => same id ?_ ?_
  · exact within.1
  · exact within.2

theorem ofId_eq {i : Nat} (hi : i < g.inodes) (narrow : i < 2 ^ 32) :
    Inode.ofId g.efs (UInt32.ofNat i) = ⟨g.inodeBlock i, i % 4 * 128⟩ := by
  obtain ⟨block, offset⟩ := g.getDiskInodePos_eq hi narrow
  simp only [Inode.ofId, block, offset]

end FsOk

/-- The device is large enough and no block is in use. -/
structure Idle (g : Geometry) (size cap : Nat) (s : CellArray Block) : Prop where
  device : g.total.toNat ≤ size
  room : 3 ≤ cap
  held : s.held = []

/-- Every block of the device can be taken while it is idle. -/
theorem Idle.lockable {g : Geometry} {size cap : Nat} {s : CellArray Block}
    (idle : Idle g size cap s) {id : Nat} (below : id < g.total.toNat) : s.Lockable size cap id :=
  .of_held_nil idle.held (Nat.zero_lt_of_lt idle.room) (below.trans_le idle.device)

namespace FsOk

variable {g : Geometry} {k size cap : Nat}

/-- A file that is stored back after a change. -/
theorem store {cells cells₁ cells' : Cells} (ok : FsOk g k cells) {i : Nat} (hi : i < k)
    {c : List UInt8} {d : DiskInode}
    (changed : Changed g k (g.inodeAt cells) i c cells d cells₁)
    (stored : cells' = Function.update cells₁ (g.inodeBlock i)
      (d.toBlock (cells (g.inodeBlock i)) (i % 4 * 128))) :
    FsOk g k cells' ∧ g.file cells' i = c ∧
      ∀ j, j < k → j ≠ i → g.file cells' j = g.file cells j := by
  have bound := ok.bound
  have hi' : i < g.inodes := by omega
  have before := g.inodeBlock_lt hi'
  have after := g.inodeBlock_pos i
  have firstInode : 0 < g.inodeStart := by
    unfold Geometry.inodeStart
    omega
  have sameBlock : cells (g.inodeBlock i) = cells₁ (g.inodeBlock i) :=
    (changed.frame _ before).symm
  have inode : ∀ j, j < k → g.inodeAt cells' j =
      Function.update (g.inodeAt cells) i d j := by
    intro j hj
    rw [stored, sameBlock, inodeAt_store]
    by_cases same : j = i
    · rw [if_pos same, same, Function.update_self]
    · rw [if_neg same, Function.update_of_ne same]
      exact inodeAt_frame (by omega) changed.frame
  have other : ∀ id, id ≠ g.inodeBlock i → cells' id = cells₁ id := by
    intro id differ
    rw [stored, Function.update_of_ne differ]
  have data : ∀ id, g.bitmapStart ≤ id → cells' id = cells₁ id :=
    fun id low => other id (by omega)
  have own : Owns g k (Function.update (g.inodeAt cells) i d) [] cells' := changed.own.frame data
  have contents : ∀ j, j < k → (Function.update (g.inodeAt cells) i d j).contents cells' =
      (Function.update (g.inodeAt cells) i d j).contents cells₁ := by
    intro j hj
    refine (changed.own.file j hj).contents_frame fun id mem => data id ?_
    exact Nat.le_trans g.bitmapStart_le (changed.own.inData id (.inl ⟨j, hj, mem⟩)).low
  refine ⟨⟨?_, ?_, bound, ok.narrow, ?_, own.congr inode⟩, ?_, ?_⟩
  · rw [other 0 (by omega), changed.frame 0 (by omega)]
    exact ok.super
  · intro n hn
    rw [← ok.inodeBits n hn]
    apply inodeBit_frame hn
    intro id _ low
    have := g.inodeStart_le
    rw [other id (by omega), changed.frame id (by omega)]
  · intro j hj
    rw [inode j hj]
    by_cases same : j = i
    · rw [same, Function.update_self, changed.type]
      exact ok.types i hi
    · rw [Function.update_of_ne same]
      exact ok.types j hj
  · rw [Geometry.file, inode i hi, contents i hi, Function.update_self, changed.contents]
  · intro j hj differ
    rw [Geometry.file, inode j hj, contents j hj, Function.update_of_ne differ,
      changed.others j hj differ, Geometry.file]

/-- The block of an inode can be taken while the device is idle. -/
theorem lock {s : CellArray Block} (ok : FsOk g k s.cells) (idle : Idle g size cap s) {i : Nat}
    (hi : i < k) : s.Lockable size cap (g.inodeBlock i) := by
  have bound := ok.bound
  have before := g.inodeBlock_lt (show i < g.inodes by omega)
  have fits : g.bitmapStart ≤ g.total.toNat := g.fits
  exact idle.lockable (by omega)

theorem busy {s : CellArray Block} (ok : FsOk g k s.cells) (idle : Idle g size cap s) {i : Nat}
    (hi : i < k) : Busy g size cap (s.hold (g.inodeBlock i)) (g.inodeBlock i) := by
  have bound := ok.bound
  have after := g.inodeBlock_pos i
  refine ⟨idle.device, idle.room, by simp [idle.held], ?_, g.inodeBlock_lt (by omega)⟩
  unfold Geometry.inodeStart at after
  omega

/-- The result of an operation that turns the file of inode `i` into `c`. -/
structure Updated (g : Geometry) (k i : Nat) (c : List UInt8) (cells cells' : Cells) : Prop where
  ok : FsOk g k cells'
  file : g.file cells' i = c
  others : ∀ j, j < k → j ≠ i → g.file cells' j = g.file cells j

/-- `modify_disk_inode` with a closure that changes the file of the inode. -/
theorem modifyDiskInode_wp {α : Type} {f : DiskInode → FsProg (DiskInode × α)} {c : List UInt8}
    {P : α → Prop} {s : CellArray Block} (ok : FsOk g k s.cells) (idle : Idle g size cap s)
    {i : Nat} (hi : i < k)
    (body : wp (fsHandler size cap) (f (g.inodeAt s.cells i))
      (fun r s' => s'.held = (s.hold (g.inodeBlock i)).held ∧ P r.2 ∧
        Changed g k (g.inodeAt s.cells) i c s.cells r.1 s'.cells) (s.hold (g.inodeBlock i))) :
    wp (fsHandler size cap) ((Inode.ofId g.efs (UInt32.ofNat i)).modifyDiskInode f)
      (fun a s' => s'.held = [] ∧ P a ∧ Updated g k i c s.cells s'.cells) s := by
  have bound := ok.bound
  have narrow := ok.narrow
  rw [ofId_eq (show i < g.inodes by omega) (by omega)]
  simp only [Inode.modifyDiskInode]
  apply wp_modifyCell (ok.lock idle hi)
  have fits : i % 4 * 128 + DiskInode.sizeOf ≤ blockSz := by
    simp only [DiskInode.sizeOf, blockSz]
    omega
  simp only [wp_bind, wp_check, fits, true_and, wp_pure]
  refine wp_mono body ?_
  rintro ⟨d, a⟩ s' ⟨heldEq, post, changed⟩
  obtain ⟨ok', fileEq, others⟩ := ok.store hi changed rfl
  exact ⟨heldEq, idle.held, post, ok', fileEq, others⟩

/-- `modify_disk_inode` panics when its closure does. -/
theorem modifyDiskInode_panics {α : Type} {f : DiskInode → FsProg (DiskInode × α)}
    {s : CellArray Block} (ok : FsOk g k s.cells) (idle : Idle g size cap s) {i : Nat} (hi : i < k)
    (body : Panics (fsHandler size cap) (f (g.inodeAt s.cells i)) (s.hold (g.inodeBlock i))) :
    Panics (fsHandler size cap) ((Inode.ofId g.efs (UInt32.ofNat i)).modifyDiskInode f) s := by
  have bound := ok.bound
  have narrow := ok.narrow
  have fits : i % 4 * 128 + DiskInode.sizeOf ≤ blockSz := by
    simp only [DiskInode.sizeOf, blockSz]
    omega
  rw [ofId_eq (show i < g.inodes by omega) (by omega)]
  simp only [Inode.modifyDiskInode]
  refine panics_modifyCell (ok.lock idle hi) ?_
  refine panics_do_second ((wp_check _ _ _ _).mpr ⟨fits, ?_⟩)
  exact panics_do_first body

/-- `Inode::write_at` writes the buffer into the file. -/
theorem writeAt_wp {s : CellArray Block} (ok : FsOk g k s.cells) (idle : Idle g size cap s)
    {i : Nat} (hi : i < k) (offset : Nat) (buf : List UInt8)
    (small : max (g.file s.cells i).length (offset + buf.length) ≤ maxSize)
    (free : blocksNeeded (g.file s.cells i).length
      (max (g.file s.cells i).length (offset + buf.length)) ≤ g.freeBlocks s.cells) :
    wp (fsHandler size cap) ((Inode.ofId g.efs (UInt32.ofNat i)).writeAt g.efs offset buf)
      (fun n s' => s'.held = [] ∧ n = buf.length ∧
        Updated g k i (Spec.write (g.file s.cells i) offset buf) s.cells s'.cells) s := by
  rw [Geometry.file, length_contents] at small free
  simp only [Inode.writeAt, wp_bind, wp_pure]
  refine wp_mono (ok.modifyDiskInode_wp idle hi (P := fun n => n = buf.length)
    (c := Spec.write (g.file s.cells i) offset buf) ?_) ?_
  · simp only [wp_bind, wp_pure]
    exact Owns.writeBody_wp (s := s.hold (g.inodeBlock i)) ok.own hi (ok.busy idle hi) offset buf
      small free
  · rintro n s' ⟨heldEq, rfl, updated⟩
    exact wp_flushAll heldEq ⟨heldEq, rfl, updated⟩

/-- `Inode::clear` empties the file. -/
theorem clear_wp {s : CellArray Block} (ok : FsOk g k s.cells) (idle : Idle g size cap s)
    {i : Nat} (hi : i < k) :
    wp (fsHandler size cap) ((Inode.ofId g.efs (UInt32.ofNat i)).clear g.efs)
      (fun _ s' => s'.held = [] ∧ Updated g k i [] s.cells s'.cells) s := by
  simp only [Inode.clear, wp_bind]
  refine wp_mono (ok.modifyDiskInode_wp idle hi (P := fun _ => True) (c := []) ?_) ?_
  · simp only [wp_bind, wp_pure, wp_check]
    refine wp_mono (Owns.clearBody_wp (s := s.hold (g.inodeBlock i)) ok.own hi
      (ok.busy idle hi)) ?_
    rintro r s' ⟨len, rest⟩
    refine ⟨len, wp_mono rest ?_⟩
    rintro - s'' ⟨heldEq, changed⟩
    exact ⟨heldEq, trivial, changed⟩
  · rintro - s' ⟨heldEq, -, updated⟩
    exact wp_flushAll heldEq ⟨heldEq, updated⟩

/-- Reading through the inode leaves everything as it is. -/
theorem readDiskInode_wp {α : Type} {f : DiskInode → FsProg α} {Q : α → Prop}
    {s : CellArray Block} (ok : FsOk g k s.cells) (idle : Idle g size cap s) {i : Nat} (hi : i < k)
    (body : wp (fsHandler size cap) (f (g.inodeAt s.cells i))
      (fun r s' => s' = s.hold (g.inodeBlock i) ∧ Q r) (s.hold (g.inodeBlock i))) :
    wp (fsHandler size cap) ((Inode.ofId g.efs (UInt32.ofNat i)).readDiskInode f)
      (fun a s' => s' = s ∧ Q a) s := by
  have bound := ok.bound
  have narrow := ok.narrow
  rw [ofId_eq (show i < g.inodes by omega) (by omega)]
  simp only [Inode.readDiskInode]
  apply wp_viewCell (ok.lock idle hi)
  have fits : i % 4 * 128 + DiskInode.sizeOf ≤ blockSz := by
    simp only [DiskInode.sizeOf, blockSz]
    omega
  simp only [wp_bind, wp_check, fits, true_and]
  refine wp_mono body ?_
  rintro a s' ⟨rfl, post⟩
  exact ⟨rfl, rfl, post⟩

/-- `read_disk_inode` panics when its closure does. -/
theorem readDiskInode_panics {α : Type} {f : DiskInode → FsProg α} {s : CellArray Block}
    (ok : FsOk g k s.cells) (idle : Idle g size cap s) {i : Nat} (hi : i < k)
    (body : Panics (fsHandler size cap) (f (g.inodeAt s.cells i)) (s.hold (g.inodeBlock i))) :
    Panics (fsHandler size cap) ((Inode.ofId g.efs (UInt32.ofNat i)).readDiskInode f) s := by
  have bound := ok.bound
  have narrow := ok.narrow
  have fits : i % 4 * 128 + DiskInode.sizeOf ≤ blockSz := by
    simp only [DiskInode.sizeOf, blockSz]
    omega
  rw [ofId_eq (show i < g.inodes by omega) (by omega)]
  simp only [Inode.readDiskInode]
  refine panics_viewCell (ok.lock idle hi) ?_
  exact panics_do_second ((wp_check _ _ _ _).mpr ⟨fits, body⟩)

/-- Reading through the inode with a closure that may panic. -/
theorem readDiskInode_answers {α : Type} {f : DiskInode → FsProg α} {o : Option α}
    {s : CellArray Block} (ok : FsOk g k s.cells) (idle : Idle g size cap s) {i : Nat} (hi : i < k)
    (body : Answers (fsHandler size cap) (f (g.inodeAt s.cells i)) (s.hold (g.inodeBlock i)) o) :
    Answers (fsHandler size cap) ((Inode.ofId g.efs (UInt32.ofNat i)).readDiskInode f) s o := by
  cases o with
  | some a =>
      obtain ⟨b, s', ran, rfl, rfl⟩ := ok.readDiskInode_wp idle hi (f := f) (Q := fun b => b = a)
        ⟨a, _, body, rfl, rfl⟩
      exact ran
  | none => exact ok.readDiskInode_panics idle hi body

/-- The bytes of a file that `read_at` copies. -/
theorem map_fileByte (d : DiskInode) (cells : Cells) (offset len : Nat) :
    (List.range' offset (min len (d.size.toNat - offset))).map (d.fileByte cells) =
      Spec.read (d.contents cells) offset len := by
  apply List.ext_getElem
  · simp [Spec.read]
  · intro p h₁ h₂
    simp [Spec.read, contents]

/-- `Inode::read_at` copies the bytes of the file to the start of the buffer. -/
theorem readAt_wp {s : CellArray Block} (ok : FsOk g k s.cells) (idle : Idle g size cap s)
    {i : Nat} (hi : i < k) (offset : Nat) (buf : List UInt8) :
    wp (fsHandler size cap) ((Inode.ofId g.efs (UInt32.ofNat i)).readAt offset buf)
      (fun r s' => s' = s ∧ r = ((Spec.read (g.file s.cells i) offset buf.length).length,
        spliceAt buf 0 (Spec.read (g.file s.cells i) offset buf.length))) s := by
  have file := ok.own.file i hi
  have busy := ok.busy idle hi
  apply ok.readDiskInode_wp idle hi
  refine wp_mono (DiskInode.readAt_wp _ file.count_le (FileOk.size_le _) _ (fun p hp => ?_) offset
    buf) ?_
  · exact (busy.usable_data (ok.own.inData _ (.inl ⟨i, hi, FileOk.mem_ids hp⟩))).lock
  · rintro r s' ⟨rfl, rfl⟩
    refine ⟨rfl, ?_⟩
    rw [CellArray.hold_cells, map_fileByte, Spec.length_read, Geometry.file, length_contents]

end FsOk

end CoreFromDust.EasyFs
