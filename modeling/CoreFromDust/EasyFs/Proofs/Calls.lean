import CoreFromDust.EasyFs.Proofs.Invariant

/-!
# The calls keep the invariant

Each call on the root directory or one of the files, from a state that satisfies `FsInv`, and
from these that every reachable state does.
-/

namespace CoreFromDust.EasyFs

open CoreFromDust.Lib CoreFromDust.Lib.CellProg DiskInode

namespace FsInv

variable {g : Geometry} {size : Nat} {efs : EasyFileSystem} {created : List (String × Inode)}
  {entries : List DirEntry} {s : CacheState Block}

/-- `Inode::write_at` on a file. -/
theorem writeAt (inv : FsInv g size efs created entries s) {file : Inode}
    (mem : file ∈ created.map Prod.snd) (offset : Nat) (buf : List UInt8)
    (can : CanWrite g file offset buf.length s.view) :
    ∃ s', run (machine size) (file.writeAt efs offset buf) s = some (buf.length, s') ∧
      FsInv g size efs created entries s' ∧
      file.contents s'.view = Spec.write (file.contents s.view) offset buf ∧
      ∀ other ∈ Inode.root efs :: created.map Prod.snd, other ≠ file →
        other.contents s'.view = other.contents s.view := by
  obtain ⟨i, pos, hi, rfl⟩ := inv.file_eq mem
  have contentsEq := inv.contents_ofId hi s.view
  have small := can.small
  have blocks := can.blocks
  rw [contentsEq] at small blocks
  have onArray := FsOk.writeAt_wp (s := ⟨s.view, []⟩) inv.dir.fs inv.idle hi offset buf small blocks
  obtain ⟨n, s', ran⟩ := inv.returns onArray
  rw [← inv.efsEq] at ran
  obtain ⟨rel', rfl, up⟩ := inv.of_run onArray (inv.efsEq ▸ ran)
  obtain ⟨inv', contents, others⟩ := inv.updated pos hi rel'
    (inv.clean.run (Inode.writeAt_leavesClean _ _ _ _) ran) up
  rw [← inv.efsEq]
  rw [← inv.efsEq] at contents others contentsEq
  refine ⟨s', ran, inv', ?_, others⟩
  rw [contents, contentsEq]

/-- `Inode::clear` on a file. -/
theorem clear (inv : FsInv g size efs created entries s) {file : Inode}
    (mem : file ∈ created.map Prod.snd) :
    ∃ s', run (machine size) (file.clear efs) s = some ((), s') ∧
      FsInv g size efs created entries s' ∧ file.contents s'.view = [] ∧
      ∀ other ∈ Inode.root efs :: created.map Prod.snd, other ≠ file →
        other.contents s'.view = other.contents s.view := by
  obtain ⟨i, pos, hi, rfl⟩ := inv.file_eq mem
  have onArray := FsOk.clear_wp (s := ⟨s.view, []⟩) inv.dir.fs inv.idle hi
  obtain ⟨u, s', ran⟩ := inv.returns onArray
  rw [← inv.efsEq] at ran
  obtain ⟨rel', up⟩ := inv.of_run onArray (inv.efsEq ▸ ran)
  obtain ⟨inv', contents, others⟩ := inv.updated pos hi rel'
    (inv.clean.run (Inode.clear_leavesClean _ _) ran) up
  rw [← inv.efsEq]
  rw [← inv.efsEq] at contents others
  exact ⟨s', ran, inv', contents, others⟩

/-- `Inode::read_at` on the root or a file. -/
theorem readAt (inv : FsInv g size efs created entries s) {file : Inode}
    (mem : file ∈ Inode.root efs :: created.map Prod.snd) (offset : Nat) (buf : List UInt8) :
    ∃ s', run (machine size) (file.readAt offset buf) s =
        some (((Spec.read (file.contents s.view) offset buf.length).length,
          spliceAt buf 0 (Spec.read (file.contents s.view) offset buf.length)), s') ∧
      s'.view = s.view ∧ FsInv g size efs created entries s' := by
  obtain ⟨i, hi, rfl⟩ := inv.inode_eq mem
  have onArray := FsOk.readAt_wp (s := ⟨s.view, []⟩) inv.dir.fs inv.idle hi offset buf
  obtain ⟨r, s', ran⟩ := inv.returns onArray
  obtain ⟨r', a', ran', same, rfl⟩ := onArray
  rw [same] at ran'
  obtain ⟨eq, viewEq, inv'⟩ := inv.looked (o := some _) ran' (Inode.readAt_leavesClean _ _ _) ran
  rw [inv.contents_ofId hi]
  rw [Option.some.injEq] at eq
  exact ⟨s', eq ▸ ran, viewEq, inv'⟩

/-- `Inode::find` on the root. -/
theorem find (inv : FsInv g size efs created entries s) {name : String} {r : Option UInt32}
    (found : scan name entries = some r) :
    ∃ s', run (machine size) ((Inode.root efs).find efs name) s =
        some (r.map (Inode.ofId efs), s') ∧
      s'.view = s.view ∧ FsInv g size efs created entries s' := by
  have onArray := inv.dir.find_answers inv.idle name (s := ⟨s.view, []⟩)
  rw [found, Option.map_some, ← inv.efsEq] at onArray
  obtain ⟨r', s', ran⟩ := inv.returns (Q := fun _ _ => True) ⟨_, _, onArray, trivial⟩
  obtain ⟨eq, viewEq, inv'⟩ := inv.looked onArray (Inode.find_leavesClean _ _ _) ran
  rw [Option.some.injEq] at eq
  exact ⟨s', eq ▸ ran, viewEq, inv'⟩

/-- `Inode::ls` on the root. -/
theorem ls (inv : FsInv g size efs created entries s) {names : List String}
    (listed : entryNames entries = some names) :
    ∃ s', run (machine size) (Inode.root efs).ls s = some (names, s') ∧
      s'.view = s.view ∧ FsInv g size efs created entries s' := by
  have onArray := inv.dir.ls_answers inv.idle (s := ⟨s.view, []⟩)
  rw [listed, ← inv.efsEq] at onArray
  obtain ⟨r', s', ran⟩ := inv.returns (Q := fun _ _ => True) ⟨_, _, onArray, trivial⟩
  obtain ⟨eq, viewEq, inv'⟩ := inv.looked onArray (Inode.ls_leavesClean _) ran
  rw [Option.some.injEq] at eq
  exact ⟨s', eq ▸ ran, viewEq, inv'⟩

/-- `Inode::create` of a name that is found. -/
theorem create_found (inv : FsInv g size efs created entries s) {name : String} {id : UInt32}
    (found : scan name entries = some (some id)) :
    ∃ s', run (machine size) ((Inode.root efs).create efs name) s = some (none, s') ∧
      s'.view = s.view ∧ FsInv g size efs created entries s' := by
  have onArray := inv.dir.create_found inv.idle found (s := ⟨s.view, []⟩)
  rw [← inv.efsEq] at onArray
  obtain ⟨r, s', ran⟩ := inv.returns (Q := fun _ _ => True) ⟨_, _, onArray, trivial⟩
  obtain ⟨eq, viewEq, inv'⟩ := inv.looked (o := some none) onArray
    (Inode.create_leavesClean _ _ _) ran
  rw [Option.some.injEq] at eq
  exact ⟨s', eq ▸ ran, viewEq, inv'⟩

/-- `Inode::create` of a name that is not found. -/
theorem create_new (inv : FsInv g size efs created entries s) {name : String}
    (absent : scan name entries = some none) (can : CanCreate g s.view) {e : DirEntry}
    (encoded : DirEntry.new name (UInt32.ofNat (entries.length + 1)) = some e) :
    ∃ s', run (machine size) ((Inode.root efs).create efs name) s =
        some (some (Inode.ofId efs (UInt32.ofNat (entries.length + 1))), s') ∧
      FsInv g size efs
        (created ++ [(name, Inode.ofId efs (UInt32.ofNat (entries.length + 1)))])
        (entries ++ [e]) s' ∧
      (Inode.ofId efs (UInt32.ofNat (entries.length + 1))).contents s'.view = [] ∧
      ∀ other ∈ created.map Prod.snd, other.contents s'.view = other.contents s.view := by
  have onArray := inv.dir.create_wp inv.idle can absent encoded (s := ⟨s.view, []⟩)
  rw [← inv.efsEq] at onArray
  obtain ⟨r, s', ran⟩ := inv.returns onArray
  obtain ⟨rel', rfl, appended⟩ := inv.of_run onArray ran
  have inv' : FsInv g size efs
      (created ++ [(name, Inode.ofId efs (UInt32.ofNat (entries.length + 1)))])
      (entries ++ [e]) s' := by
    refine ⟨inv.efsEq, inv.device, rel', inv.clean.run (Inode.create_leavesClean _ _ _) ran,
      appended.dir, by simp [inv.len], ?_, ?_⟩
    · intro j p h
      by_cases old : j < created.length
      · rw [List.getElem?_append_left old] at h
        exact inv.inodes j p h
      · rw [List.getElem?_append_right (by omega), List.getElem?_singleton] at h
        split at h
        · next last =>
          rw [Option.some.injEq] at h
          rw [← h, inv.efsEq, inv.len, show j = created.length by omega]
        · simp at h
    · intro j p d h h'
      by_cases old : j < created.length
      · rw [List.getElem?_append_left old] at h
        rw [List.getElem?_append_left (by rw [inv.len]; exact old)] at h'
        exact inv.encoded j p d h h'
      · rw [List.getElem?_append_right (by omega), List.getElem?_singleton] at h
        rw [List.getElem?_append_right (by rw [inv.len]; omega), List.getElem?_singleton,
          inv.len] at h'
        split at h
        · next last =>
          rw [if_pos last, Option.some.injEq] at h'
          rw [Option.some.injEq] at h
          rw [← h, ← h', show j = entries.length by rw [inv.len]; omega]
          exact encoded
        · simp at h
  refine ⟨s', ran, inv', ?_, ?_⟩
  · rw [inv.efsEq, inv'.contents_ofId (by simp)]
    exact appended.empty
  · intro other mem
    obtain ⟨i, pos, hi, rfl⟩ := inv.file_eq mem
    rw [inv.contents_ofId hi, inv.contents_ofId hi]
    exact appended.others i pos hi

/-- Without a found name, `create` returns an inode if it returns. -/
theorem create_isSome (inv : FsInv g size efs created entries s) {name : String}
    (absent : scan name entries = some none) {r : Option Inode} {s' : CacheState Block}
    (ran : run (machine size) ((Inode.root efs).create efs name) s = some (r, s')) :
    r.isSome = true := by
  have lookup := inv.dir.lookup_answers inv.idle name (s := ⟨s.view, []⟩)
  rw [absent, ← inv.efsEq] at lookup
  rw [Inode.create] at ran
  obtain ⟨found, s₁, first, ran⟩ := run_do_some ran
  have leaves := (Inode.root efs).readDiskInode_leavesClean fun d =>
    leavesClean_bind (leavesClean_check (d.isDir = true)) fun _ =>
      Inode.findInodeId_leavesClean name d
  obtain ⟨same, -⟩ := inv.looked lookup leaves first
  rw [Option.some.injEq] at same
  subst same
  simp only [Option.isSome_none, Bool.false_eq_true, if_false] at ran
  obtain ⟨id, s₂, -, ran⟩ := run_do_some ran
  obtain ⟨-, s₃, -, ran⟩ := run_do_some ran
  obtain ⟨-, s₄, -, ran⟩ := run_do_some ran
  obtain ⟨-, s₅, -, ran⟩ := run_do_some ran
  have returned : some (some (Inode.ofId efs id), s₅) = some (r, s') := ran
  simp only [Option.some.injEq, Prod.mk.injEq] at returned
  rw [← returned.1]
  rfl

/-- What a call of `Inode::create` that returned has done. -/
theorem create_returned (inv : FsInv g size efs created entries s) {name : String}
    {r : Option Inode} {s' : CacheState Block} (can : r.isSome = true → CanCreate g s.view)
    (ran : run (machine size) ((Inode.root efs).create efs name) s = some (r, s')) :
    (r = none ∧ s'.view = s.view ∧ FsInv g size efs created entries s') ∨
      ∃ e, scan name entries = some none ∧
        r = some (Inode.ofId efs (UInt32.ofNat (entries.length + 1))) ∧
        FsInv g size efs
          (created ++ [(name, Inode.ofId efs (UInt32.ofNat (entries.length + 1)))])
          (entries ++ [e]) s' ∧
        (Inode.ofId efs (UInt32.ofNat (entries.length + 1))).contents s'.view = [] ∧
        ∀ other ∈ created.map Prod.snd, other.contents s'.view = other.contents s.view := by
  cases found : scan name entries with
  | none =>
      have stops := inv.dir.create_panics inv.idle found (s := ⟨s.view, []⟩)
      rw [← inv.efsEq] at stops
      rw [inv.rel.run_of_panics stops] at ran
      simp at ran
  | some o =>
      cases o with
      | some id =>
          obtain ⟨t, ran', viewEq, inv'⟩ := inv.create_found found
          rw [ran] at ran'
          simp only [Option.some.injEq, Prod.mk.injEq] at ran'
          obtain ⟨rfl, rfl⟩ := ran'
          exact .inl ⟨rfl, viewEq, inv'⟩
      | none =>
          have enough := can (inv.create_isSome found ran)
          cases encoded : DirEntry.new name (UInt32.ofNat (entries.length + 1)) with
          | none =>
              have stops := inv.dir.create_long inv.idle enough found encoded (s := ⟨s.view, []⟩)
              rw [← inv.efsEq] at stops
              rw [inv.rel.run_of_panics stops] at ran
              simp at ran
          | some e =>
              obtain ⟨t, ran', inv', empty, others⟩ := inv.create_new found enough encoded
              rw [ran] at ran'
              simp only [Option.some.injEq, Prod.mk.injEq] at ran'
              obtain ⟨rfl, rfl⟩ := ran'
              exact .inr ⟨e, rfl, rfl, inv', empty, others⟩

end FsInv

/-! ## Reachable states -/

/-- The blocks that `create` could zero are on the device. -/
theorem zeroBlocks_inRange {size : Nat} (l : List Nat) {s s' : CacheState Block} {u : Unit}
    (inRange : CacheState.InRange size s)
    (ran : run (machine size) (forEach zeroBlock l) s = some (u, s')) : ∀ id ∈ l, id < size := by
  induction l generalizing s with
  | nil => simp
  | cons id l ih =>
      obtain ⟨u₁, s₁, first, rest⟩ := run_do_some ran
      rintro other (_ | ⟨_, mem⟩)
      · exact inRange.modifyCell first
      · exact ih (inRange.run first) rest other mem

/-- `EasyFileSystem::create` establishes the invariant. -/
theorem FsInv.start {g : Geometry} {size : Nat} {efs : EasyFileSystem} {device : Cells}
    {s : CacheState Block}
    (ran : run (machine size) (EasyFileSystem.create g.total g.inodeBlocks) (.fresh device) =
      some (efs, s)) : FsInv g size efs [] [] s := by
  have rel : CacheRel size ⟨device, []⟩ (CacheState.fresh device) := CacheRel.fresh device
  have large : g.total.toNat ≤ size := by
    have zeroing := ran
    rw [EasyFileSystem.create] at zeroing
    obtain ⟨u₁, s₁, first, rest⟩ := run_do_some zeroing
    have inRange := zeroBlocks_inRange (List.range g.total.toNat)
      (CacheState.inRange_fresh size device) first
    have fits := g.fits
    have last := inRange (g.total.toNat - 1) (List.mem_range.mpr (by omega))
    omega
  have idle : Idle g size 15 (⟨device, []⟩ : CellArray Block) := ⟨large, by decide, rfl⟩
  rcases Nat.eq_zero_or_pos g.inodeBlocks.toNat with none | some
  · rw [rel.run_of_panics (createFs_panics idle none)] at ran
    simp at ran
  · obtain ⟨r, a', s', ran', rel', held, rfl, dir⟩ := rel.run_of_wp (createFs_wp idle some)
    rw [ran] at ran'
    simp only [Option.some.injEq, Prod.mk.injEq] at ran'
    obtain ⟨rfl, rfl⟩ := ran'
    have clean : (CacheState.fresh device).Clean := by
      intro p hp
      simp [CacheState.fresh] at hp
    refine ⟨rfl, large, rel'.idle held,
      clean.run (EasyFileSystem.create_leavesClean _ _) ran, ?_, rfl, by simp, by simp⟩
    rw [rel'.view_eq]
    exact dir

/-- The invariant holds in every reachable state. -/
theorem Reachable.inv {g : Geometry} {size : Nat} {efs : EasyFileSystem}
    {created : List (String × Inode)} {s : CacheState Block}
    (reach : Reachable g size efs created s) :
    ∃ entries, FsInv g size efs created entries s := by
  induction reach with
  | start ran => exact ⟨[], FsInv.start ran⟩
  | @create efs created s name r s' _ can ran ih =>
      obtain ⟨entries, inv⟩ := ih
      rcases inv.create_returned can ran with ⟨rfl, -, inv'⟩ | ⟨e, -, rfl, inv', -⟩
      · exact ⟨entries, by simpa using inv'⟩
      · exact ⟨entries ++ [e], by simpa using inv'⟩
  | @write efs created s file offset buf n s' _ mem can ran ih =>
      obtain ⟨entries, inv⟩ := ih
      obtain ⟨t, ran', inv', -⟩ := inv.writeAt mem offset buf can
      rw [ran] at ran'
      simp only [Option.some.injEq, Prod.mk.injEq] at ran'
      obtain ⟨-, rfl⟩ := ran'
      exact ⟨entries, inv'⟩
  | @clear efs created s file u s' _ mem ran ih =>
      obtain ⟨entries, inv⟩ := ih
      obtain ⟨t, ran', inv', -⟩ := inv.clear mem
      rw [ran] at ran'
      simp only [Option.some.injEq, Prod.mk.injEq] at ran'
      obtain ⟨-, rfl⟩ := ran'
      exact ⟨entries, inv'⟩
  | @read efs created s file offset buf r s' _ mem ran ih =>
      obtain ⟨entries, inv⟩ := ih
      obtain ⟨t, ran', -, inv'⟩ := inv.readAt mem offset buf
      rw [ran] at ran'
      simp only [Option.some.injEq, Prod.mk.injEq] at ran'
      obtain ⟨-, rfl⟩ := ran'
      exact ⟨entries, inv'⟩
  | @find efs created s name r s' _ ran ih =>
      obtain ⟨entries, inv⟩ := ih
      have onArray := inv.dir.find_answers inv.idle name (s := ⟨s.view, []⟩)
      rw [← inv.efsEq] at onArray
      exact ⟨entries, (inv.looked onArray (Inode.find_leavesClean _ _ _) ran).2.2⟩
  | @ls efs created s r s' _ ran ih =>
      obtain ⟨entries, inv⟩ := ih
      have onArray := inv.dir.ls_answers inv.idle (s := ⟨s.view, []⟩)
      rw [← inv.efsEq] at onArray
      exact ⟨entries, (inv.looked onArray (Inode.ls_leavesClean _) ran).2.2⟩

end CoreFromDust.EasyFs
