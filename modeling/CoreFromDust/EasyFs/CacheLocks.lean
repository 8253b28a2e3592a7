import CoreFromDust.EasyFs.Proofs.Capacity
import CoreFromDust.Lib.LockDiscipline

/-!
# The locks of one call

A call of the file system locks at most three block caches at once, and never the same one twice, so
it does not wait for itself and finds a place in the cache for every block. None is locked when
it flushes the cache.
-/

namespace CoreFromDust.EasyFs

open CoreFromDust.Lib CoreFromDust.Lib.CellProg DiskInode

/-! ## `ls` on any file -/

section Loop

variable {size cap : Nat} {s : CellArray Block} {d : DiskInode}

/-- An entry that lies in the file can be read. -/
theorem readDirent_returns (file : FileOk d s.cells)
    (lock : ∀ p ∈ slots d.blockCount, s.Lockable size cap (d.ptr s.cells p).toNat) {i : Nat}
    (inFile : direntSz * (i + 1) ≤ d.size.toNat) (dirent : DirEntry) :
    ∃ e, run (fsHandler size cap) (Inode.readDirent d i dirent) s = some (e, s) := by
  have returns : wp (fsHandler size cap) (Inode.readDirent d i dirent) (fun _ s' => s' = s) s := by
    simp only [Inode.readDirent, wp_bind]
    refine wp_mono (DiskInode.readAt_wp d file.count_le (FileOk.size_le d) s lock _ _) ?_
    rintro r s' ⟨rfl, rfl⟩
    have count : min dirent.asBytes.length (d.size.toNat - direntSz * i) = direntSz := by
      rw [dirent.length_asBytes]
      simp only [direntSz] at inFile ⊢
      omega
    simp only [count, wp_check, wp_pure, true_and]
  obtain ⟨e, s', ran, rfl⟩ := returns
  exact ⟨e, ran⟩

/-- The loop of `ls` only looks, whatever the names are. -/
theorem lsLoop_looks (file : FileOk d s.cells)
    (lock : ∀ p ∈ slots d.blockCount, s.Lockable size cap (d.ptr s.cells p).toNat)
    (remaining i : Nat) (dirent : DirEntry) (inFile : direntSz * (i + remaining) ≤ d.size.toNat) :
    ∃ o, Answers (fsHandler size cap) (Inode.lsLoop d remaining i dirent) s o := by
  induction remaining generalizing i dirent with
  | zero => exact ⟨some [], answers_pure _ _ _⟩
  | succ remaining ih =>
      simp only [direntSz] at inFile
      obtain ⟨e, ran⟩ := readDirent_returns file lock (i := i)
        (by simp only [direntSz]; omega) dirent
      obtain ⟨o, rest⟩ := ih (i + 1) e (by simp only [direntSz]; omega)
      refine ⟨(some e).bind fun e => e.getName.bind fun name => o.bind fun rest =>
        some (name :: rest), ?_⟩
      refine answers_bind ran ?_
      rintro e' same
      rw [Option.some.injEq] at same
      subst same
      refine answers_bind (answers_unwrap _ _ _) fun name _ => ?_
      exact answers_bind rest fun rest _ => answers_pure _ _ _

/-- The closure of `find` stops at the assertion when the inode is none of a directory. -/
theorem find_closure_stops (notDir : ¬ d.isDir = true) (efs : EasyFileSystem) (name : String)
    (t : CellArray Block) :
    Panics (fsHandler size cap) (do
      let found ← Inode.findInodeId name d
      pure (found.map (Inode.ofId efs))) t :=
  panics_do_first (panics_do_first (panics_check _ _ notDir))

end Loop

namespace FsOk

variable {g : Geometry} {k size cap : Nat} {s : CellArray Block}

/-- `Inode::ls` only looks. -/
theorem ls_looks (ok : FsOk g k s.cells) (idle : Idle g size cap s) {i : Nat} (hi : i < k) :
    ∃ o, Answers (fsHandler size cap) (Inode.ofId g.efs (UInt32.ofNat i)).ls s o := by
  have busy := ok.busy idle hi
  have lock : ∀ p ∈ slots (g.inodeAt s.cells i).blockCount,
      (s.hold (g.inodeBlock i)).Lockable size cap ((g.inodeAt s.cells i).ptr s.cells p).toNat :=
    fun p mem => (busy.usable_data (ok.own.inData _ (.inl ⟨i, hi, FileOk.mem_ids mem⟩))).lock
  obtain ⟨o, looks⟩ := lsLoop_looks (s := s.hold (g.inodeBlock i)) (ok.own.file i hi) lock
    ((g.inodeAt s.cells i).size.toNat / direntSz) 0 DirEntry.empty (by
      rw [Nat.zero_add]
      exact Nat.mul_div_le _ _)
  exact ⟨o, ok.readDiskInode_answers idle hi looks⟩

/-- A file is not a directory. -/
theorem notDir (ok : FsOk g k s.cells) {i : Nat} (hi : i < k) (file : i ≠ 0) :
    ¬ (g.inodeAt s.cells i).isDir = true := by
  rw [DiskInode.isDir, ok.types i hi, if_neg file]
  decide

/-- `Inode::find` on a file. -/
theorem find_stops (ok : FsOk g k s.cells) (idle : Idle g size cap s) {i : Nat} (hi : i < k)
    (file : i ≠ 0) (name : String) : Panics (fsHandler size cap)
      ((Inode.ofId g.efs (UInt32.ofNat i)).find g.efs name) s := by
  apply ok.readDiskInode_panics idle hi
  apply find_closure_stops
  exact ok.notDir hi file

/-- `Inode::create` on a file. -/
theorem create_stops (ok : FsOk g k s.cells) (idle : Idle g size cap s) {i : Nat} (hi : i < k)
    (file : i ≠ 0) (name : String) : Panics (fsHandler size cap)
      ((Inode.ofId g.efs (UInt32.ofNat i)).create g.efs name) s := by
  apply panics_do_first
  apply ok.readDiskInode_panics idle hi
  apply panics_do_first
  apply panics_check
  exact ok.notDir hi file

end FsOk

/-! ## The calls -/

namespace FsInv

variable {g : Geometry} {size : Nat} {efs : EasyFileSystem} {created : List (String × Inode)}
  {entries : List DirEntry} {s : CacheState Block} {α : Type}

/-- The view of the state as an array with three locks. -/
theorem idle_three (inv : FsInv g size efs created entries s) :
    Idle g size 3 (⟨s.view, []⟩ : CellArray Block) := ⟨inv.device, Nat.le_refl 3, rfl⟩

/-- What is disciplined on an array with three locks is so on the cache. -/
theorem disciplined (inv : FsInv g size efs created entries s) {p : FsProg α}
    (array : Disciplined (fsHandler size 3) 3 p [] (⟨s.view, []⟩ : CellArray Block)) :
    Disciplined (machine size) 3 p [] s := by
  have more : Simulates (fsHandler size 3) (fsHandler size 15) Eq :=
    array_simulates_more (by decide)
  exact (array.simulates more rfl).simulates cache_simulates inv.rel

theorem disciplined_of_wp (inv : FsInv g size efs created entries s) {p : FsProg α}
    {Q : α → CellArray Block → Prop}
    (h : wp (fsHandler size 3) p (fun r a => a.held = [] ∧ Q r a) ⟨s.view, []⟩) :
    Disciplined (machine size) 3 p [] s := by
  obtain ⟨r, a', ran, heldEq, -⟩ := h
  exact inv.disciplined (disciplined_of_run ran heldEq)

theorem disciplined_of_answers (inv : FsInv g size efs created entries s)
    {p : FsProg α} {o : Option α}
    (h : Answers (fsHandler size 3) p ⟨s.view, []⟩ o) : Disciplined (machine size) 3 p [] s := by
  cases o with
  | none => exact inv.disciplined (disciplined_of_panics h)
  | some r => exact inv.disciplined (disciplined_of_run h rfl)

/-- `Inode::create` on the root, whether it finds the name, panics or makes a file. -/
theorem create_disciplined (inv : FsInv g size efs created entries s) (can : CanCreate g s.view)
    (name : String) : Disciplined (machine size) 3 ((Inode.root efs).create efs name) [] s := by
  rw [inv.efsEq]
  cases found : scan name entries with
  | none =>
      exact inv.disciplined (disciplined_of_panics (inv.dir.create_panics inv.idle_three found))
  | some o =>
      cases o with
      | some id =>
          exact inv.disciplined (disciplined_of_run (inv.dir.create_found inv.idle_three found) rfl)
      | none =>
          cases encoded : DirEntry.new name (UInt32.ofNat (entries.length + 1)) with
          | none => exact inv.disciplined (disciplined_of_panics
              (inv.dir.create_long inv.idle_three can found encoded))
          | some e =>
              exact inv.disciplined_of_wp (inv.dir.create_wp inv.idle_three can found encoded)

end FsInv

/-- In every reachable state, every call locks at most three block caches at once, with different
ids, takes each of them without waiting and without the cache running out of places, and holds none
when it flushes the cache. -/
theorem reachable_calls_disciplined {g : Geometry} {size : Nat} {efs : EasyFileSystem}
    {created : List (String × Inode)} {s : CacheState Block}
    (reach : Reachable g size efs created s) (self : Inode)
    (mem : self ∈ Inode.root efs :: created.map Prod.snd) :
    (∀ name, Disciplined (machine size) 3 (self.find efs name) [] s) ∧
      Disciplined (machine size) 3 self.ls [] s ∧
      (∀ name, CanCreate g s.view → Disciplined (machine size) 3 (self.create efs name) [] s) ∧
      (∀ offset buf, Disciplined (machine size) 3 (self.readAt offset buf) [] s) ∧
      (∀ offset buf, CanWrite g self offset buf.length s.view →
        Disciplined (machine size) 3 (self.writeAt efs offset buf) [] s) ∧
      Disciplined (machine size) 3 (self.clear efs) [] s := by
  obtain ⟨entries, inv⟩ := reach.inv
  obtain ⟨i, hi, rfl⟩ := inv.inode_eq mem
  have ok := inv.dir.fs
  have idle := inv.idle_three
  obtain ⟨o, looks⟩ := ok.ls_looks (s := ⟨s.view, []⟩) idle hi
  refine ⟨fun name => ?_, inv.disciplined_of_answers looks, fun name can => ?_,
    fun offset buf => ?_, fun offset buf can => ?_, ?_⟩
  · rw [inv.efsEq]
    by_cases root : i = 0
    · subst root
      exact inv.disciplined_of_answers (inv.dir.find_answers idle name)
    · exact inv.disciplined (disciplined_of_panics (ok.find_stops idle hi root name))
  · by_cases root : i = 0
    · subst root
      have onRoot := inv.create_disciplined can name
      rw [inv.efsEq] at onRoot ⊢
      exact onRoot
    · rw [inv.efsEq]
      exact inv.disciplined (disciplined_of_panics (ok.create_stops idle hi root name))
  · refine inv.disciplined_of_wp (Q := fun _ _ => True) ?_
    refine wp_mono (ok.readAt_wp (s := ⟨s.view, []⟩) idle hi offset buf) ?_
    rintro r a ⟨rfl, -⟩
    exact ⟨rfl, trivial⟩
  · have small := can.small
    have blocks := can.blocks
    rw [inv.contents_ofId hi] at small blocks
    rw [inv.efsEq]
    exact inv.disciplined_of_wp
      (ok.writeAt_wp (s := ⟨s.view, []⟩) idle hi offset buf small blocks)
  · rw [inv.efsEq]
    exact inv.disciplined_of_wp (ok.clear_wp (s := ⟨s.view, []⟩) idle hi)

/-- The calls on a file that was just created, with a write that reaches its indirect blocks. -/
theorem reachable_calls_disciplined_fuse : ∃ file s,
    Reachable fuseGeometry 32768 fuseGeometry.efs [("a", file)] s ∧
      Disciplined (machine 32768) 3
        (file.writeAt fuseGeometry.efs 0 (List.replicate 20000 7)) [] s ∧
      Disciplined (machine 32768) 3 (file.readAt 0 [0]) [] s ∧
      Disciplined (machine 32768) 3 (file.clear fuseGeometry.efs) [] s := by
  have blocks := fuseGeometry_dataBlocks
  have large : fuseGeometry.total.toNat ≤ 32768 := by decide
  obtain ⟨s₀, s, file, -, -, reach, empty, free⟩ :=
    fuseGeometry.exists_file large (by decide) (by omega) "a" (by decide)
  have can : CanWrite fuseGeometry file 0 (List.replicate 20000 (7 : UInt8)).length s.view := by
    rw [List.length_replicate]
    refine ⟨by rw [empty]; decide, ?_⟩
    rw [empty]
    have needed : blocksNeeded ([] : List UInt8).length
        (max ([] : List UInt8).length (0 + 20000)) = 41 := by decide
    omega
  obtain ⟨-, -, -, reads, writes, clears⟩ := reachable_calls_disciplined reach file (by simp)
  exact ⟨file, s, reach, writes 0 _ can, reads 0 [0], clears⟩

end CoreFromDust.EasyFs
