import CoreFromDust.EasyFs.Proofs.FsState

/-!
# The root directory

The root file is a sequence of 32-byte entries. `find_inode_id` and `ls` decode them one after
the other and stop the whole system at one whose name they cannot decode; `scan` and
`entryNames` say so on the list of entries, with `none` for a stop.
-/

namespace CoreFromDust.EasyFs

open CoreFromDust.Lib CoreFromDust.Lib.CellProg DiskInode

/-- The search for a name among directory entries. -/
def scan (name : String) : List DirEntry → Option (Option UInt32)
  | [] => some none
  | e :: entries => e.getName.bind fun entryName =>
      if entryName = name then some (some e.inodeNumber) else scan name entries

/-- The names of directory entries. -/
def entryNames : List DirEntry → Option (List String)
  | [] => some []
  | e :: entries => e.getName.bind fun entryName => (entryNames entries).map (entryName :: ·)

/-- The bytes of a directory. -/
def dirBytes (entries : List DirEntry) : List UInt8 := entries.flatMap DirEntry.asBytes

theorem length_dirBytes (entries : List DirEntry) :
    (dirBytes entries).length = 32 * entries.length := by
  induction entries with
  | nil => rfl
  | cons e entries ih =>
      rw [dirBytes] at ih
      simp only [dirBytes, List.flatMap_cons, List.length_append, DirEntry.length_asBytes, ih,
        List.length_cons]
      omega

theorem dirBytes_append (entries : List DirEntry) (e : DirEntry) :
    dirBytes (entries ++ [e]) = dirBytes entries ++ e.asBytes := by
  simp [dirBytes]

/-- Entry `i` of a directory is at offset `32 * i`. -/
theorem read_dirBytes {entries : List DirEntry} {i : Nat} {e : DirEntry}
    (h : entries[i]? = some e) : Spec.read (dirBytes entries) (32 * i) 32 = e.asBytes := by
  induction entries generalizing i with
  | nil => simp at h
  | cons first entries ih =>
      have len := first.length_asBytes
      cases i with
      | zero =>
          simp only [List.getElem?_cons_zero, Option.some.injEq] at h
          subst h
          rw [Spec.read, Nat.mul_zero, List.drop_zero, dirBytes, List.flatMap_cons,
            List.take_left' len]
      | succ i =>
          rw [List.getElem?_cons_succ] at h
          rw [← ih h, Spec.read, dirBytes, List.flatMap_cons,
            show 32 * (i + 1) = first.asBytes.length + 32 * i by omega, List.drop_append,
            List.drop_eq_nil_of_le (by omega), List.nil_append, Nat.add_sub_cancel_left]
          rfl

section Loops

variable {size cap : Nat}

/-- `d` is the inode of a directory with the given entries, and its blocks can be read. -/
structure DirInode (size cap : Nat) (s : CellArray Block) (d : DiskInode)
    (entries : List DirEntry) : Prop where
  file : FileOk d s.cells
  lock : ∀ p ∈ slots d.blockCount, s.Lockable size cap (d.ptr s.cells p).toNat
  contents : d.contents s.cells = dirBytes entries

variable {s : CellArray Block} {d : DiskInode} {entries : List DirEntry}

/-- Reading one entry. -/
theorem readDirent_run (dir : DirInode size cap s d entries) {i : Nat} {e : DirEntry}
    (h : entries[i]? = some e) (dirent : DirEntry) :
    run (fsHandler size cap) (Inode.readDirent d i dirent) s = some (e, s) := by
  have returns : wp (fsHandler size cap) (Inode.readDirent d i dirent)
      (fun r s' => r = e ∧ s' = s) s := by
    simp only [Inode.readDirent, wp_bind]
    refine wp_mono (DiskInode.readAt_wp d dir.file.count_le (FileOk.size_le d) s dir.lock _ _) ?_
    rintro r s' ⟨rfl, rfl⟩
    have bytes := FsOk.map_fileByte d s'.cells (direntSz * i) dirent.asBytes.length
    rw [dir.contents, dirent.length_asBytes, read_dirBytes h] at bytes
    have count : min 32 (d.size.toNat - direntSz * i) = direntSz := by
      have len := congrArg List.length bytes
      rw [List.length_map, List.length_range', e.length_asBytes] at len
      exact len
    rw [count] at bytes
    simp only [dirent.length_asBytes, bytes, count, wp_check, wp_pure, true_and]
    have whole : spliceAt dirent.asBytes 0 e.asBytes = e.asBytes := by
      simp [spliceAt]
    rw [whole, DirEntry.ofBytes_asBytes]
    exact ⟨rfl, trivial⟩
  obtain ⟨r, s', ran, rfl, rfl⟩ := returns
  exact ran

/-- The loop of `find_inode_id` scans the entries from `i` on. -/
theorem findLoop_answers (dir : DirInode size cap s d entries) (name : String) (remaining i : Nat)
    (dirent : DirEntry) (h : i + remaining = entries.length) :
    Answers (fsHandler size cap) (Inode.findLoop name d remaining i dirent) s
      (scan name (entries.drop i)) := by
  induction remaining generalizing i dirent with
  | zero =>
      rw [List.drop_eq_nil_of_le (by omega)]
      exact answers_pure _ _ _
  | succ remaining ih =>
      have hi : i < entries.length := by omega
      rw [List.drop_eq_getElem_cons hi]
      refine answers_bind (o := some entries[i])
        (readDirent_run dir (List.getElem?_eq_getElem hi) _)
        (g := fun e => scan name (e :: entries.drop (i + 1))) ?_
      rintro e same
      rw [Option.some.injEq] at same
      subst same
      refine answers_bind (answers_unwrap _ _ _) fun entryName _ => ?_
      by_cases same : entryName = name
      · simp only [same, if_true]
        exact answers_pure _ _ _
      · simp only [same, if_false]
        exact ih (i + 1) _ (by omega)

/-- The loop of `ls` lists the entries from `i` on. -/
theorem lsLoop_answers (dir : DirInode size cap s d entries) (remaining i : Nat)
    (dirent : DirEntry) (h : i + remaining = entries.length) :
    Answers (fsHandler size cap) (Inode.lsLoop d remaining i dirent) s
      (entryNames (entries.drop i)) := by
  induction remaining generalizing i dirent with
  | zero =>
      rw [List.drop_eq_nil_of_le (by omega)]
      exact answers_pure _ _ _
  | succ remaining ih =>
      have hi : i < entries.length := by omega
      rw [List.drop_eq_getElem_cons hi]
      refine answers_bind (o := some entries[i])
        (readDirent_run dir (List.getElem?_eq_getElem hi) _)
        (g := fun e => entryNames (e :: entries.drop (i + 1))) ?_
      rintro e same
      rw [Option.some.injEq] at same
      subst same
      refine answers_bind (answers_unwrap _ _ _) fun entryName _ => ?_
      rw [Option.map_eq_bind]
      exact answers_bind (ih (i + 1) _ (by omega)) fun rest _ => answers_pure _ _ _

theorem entryCount (dir : DirInode size cap s d entries) :
    d.size.toNat / direntSz = entries.length := by
  have len := congrArg List.length dir.contents
  rw [length_contents, length_dirBytes] at len
  rw [len]
  exact Nat.mul_div_cancel_left _ (by decide)

theorem findInodeId_answers (dir : DirInode size cap s d entries) (name : String)
    (isDir : d.type_ = .directory) :
    Answers (fsHandler size cap) (Inode.findInodeId name d) s (scan name entries) := by
  have loop := findLoop_answers dir name entries.length 0 DirEntry.empty (by omega)
  rw [List.drop_zero] at loop
  have typed : d.isDir = true := by simp [DiskInode.isDir, isDir]
  refine answers_bind (g := fun _ => scan name entries) (answers_check _ _ typed) fun _ _ => ?_
  rw [entryCount dir]
  exact loop

end Loops

/-- A file system whose root directory has the given entries; entry `j` names inode `j + 1`. -/
structure DirOk (g : Geometry) (entries : List DirEntry) (cells : Cells) : Prop where
  fs : FsOk g (entries.length + 1) cells
  contents : g.file cells 0 = dirBytes entries
  numbers : ∀ j e, entries[j]? = some e → e.inodeNumber = UInt32.ofNat (j + 1)

namespace DirOk

variable {g : Geometry} {entries : List DirEntry} {size cap : Nat} {s : CellArray Block}

/-- The root inode as the closures of `find`, `ls` and `create` see it. -/
theorem rootInode (dir : DirOk g entries s.cells) (idle : Idle g size cap s) :
    DirInode size cap (s.hold (g.inodeBlock 0)) (g.inodeAt s.cells 0) entries := by
  have hi : 0 < entries.length + 1 := Nat.succ_pos _
  refine ⟨dir.fs.own.file 0 hi, fun p hp => ?_, dir.contents⟩
  have inData := dir.fs.own.inData _ (.inl ⟨0, hi, FileOk.mem_ids hp⟩)
  exact ((dir.fs.busy idle hi).usable_data inData).lock

theorem rootType (dir : DirOk g entries s.cells) : (g.inodeAt s.cells 0).type_ = .directory :=
  dir.fs.types 0 (Nat.succ_pos _)

/-- Reading through the root inode with a closure that may panic. -/
theorem readRoot_answers {α : Type} {f : DiskInode → FsProg α} {o : Option α}
    (dir : DirOk g entries s.cells) (idle : Idle g size cap s)
    (body : Answers (fsHandler size cap) (f (g.inodeAt s.cells 0)) (s.hold (g.inodeBlock 0)) o) :
    Answers (fsHandler size cap) ((Inode.root g.efs).readDiskInode f) s o :=
  dir.fs.readDiskInode_answers idle (Nat.succ_pos _) body

/-- `Inode::find` on the root. -/
theorem find_answers (dir : DirOk g entries s.cells) (idle : Idle g size cap s) (name : String) :
    Answers (fsHandler size cap) ((Inode.root g.efs).find g.efs name) s
      ((scan name entries).map fun r => r.map (Inode.ofId g.efs)) := by
  apply dir.readRoot_answers idle
  rw [Option.map_eq_bind]
  exact answers_bind (findInodeId_answers (dir.rootInode idle) name dir.rootType)
    fun r _ => answers_pure _ _ _

/-- `Inode::ls` on the root. -/
theorem ls_answers (dir : DirOk g entries s.cells) (idle : Idle g size cap s) :
    Answers (fsHandler size cap) (Inode.root g.efs).ls s (entryNames entries) := by
  have root := dir.rootInode idle
  have loop := lsLoop_answers root entries.length 0 DirEntry.empty (by omega)
  rw [List.drop_zero] at loop
  apply dir.readRoot_answers idle
  rw [entryCount root]
  exact loop

end DirOk

end CoreFromDust.EasyFs
