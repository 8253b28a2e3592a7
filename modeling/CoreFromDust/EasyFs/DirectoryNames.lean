import CoreFromDust.EasyFs.Proofs.Capacity

/-!
# The root directory is a list of names

`create`, `find` and `ls` on the root, over all runs in which the created names survive the
directory, and what a name does that does not.
-/

namespace CoreFromDust.EasyFs

open CoreFromDust.Lib CoreFromDust.Lib.CellProg DiskInode

variable {g : Geometry} {size : Nat} {efs : EasyFileSystem} {created : List (String × Inode)}
  {s : CacheState Block}

namespace FsInv

variable {entries : List DirEntry}

/-- `create` of a name that exists. -/
theorem create_again (inv : FsInv g size efs created entries s)
    (short : ∀ p ∈ created, ShortName p.1) {name : String} (mem : name ∈ created.map Prod.fst) :
    ∃ s', run (machine size) ((Inode.root efs).create efs name) s = some (none, s') ∧
      s'.view = s.view := by
  obtain ⟨r, found, mapped⟩ := (inv.decoded short).scan_eq name
  cases r with
  | some id =>
      obtain ⟨s', ran, viewEq, -⟩ := inv.create_found found
      exact ⟨s', ran, viewEq⟩
  | none =>
      obtain ⟨p, hp, same⟩ := List.mem_map.mp mem
      have missing := List.lookup_eq_none_iff.mp mapped.symm p hp
      simp [same] at missing

/-- `create` of a short name that does not exist yet. -/
theorem create_first (inv : FsInv g size efs created entries s)
    (short : ∀ p ∈ created, ShortName p.1) {name : String} (shortName : ShortName name)
    (absent : name ∉ created.map Prod.fst) (can : CanCreate g s.view) :
    ∃ file s', run (machine size) ((Inode.root efs).create efs name) s = some (some file, s') ∧
      file ∉ Inode.root efs :: created.map Prod.snd ∧ file.contents s'.view = [] := by
  obtain ⟨r, found, mapped⟩ := (inv.decoded short).scan_eq name
  have missing : created.lookup name = none := by
    rw [List.lookup_eq_none_iff]
    intro p hp
    rw [bne_iff_ne]
    rintro rfl
    exact absent (List.mem_map_of_mem hp)
  rw [missing, Option.map_eq_none_iff] at mapped
  subst mapped
  obtain ⟨e, encoded⟩ := shortName.encodes (UInt32.ofNat (entries.length + 1))
  obtain ⟨s', ran, inv', empty, -⟩ := inv.create_new found can encoded
  exact ⟨_, s', ran, inv'.last_not_mem, empty⟩

/-- An entry that cannot be decoded stops `ls`. -/
theorem ls_stops (inv : FsInv g size efs created entries s) (stops : entryNames entries = none) :
    run (machine size) (Inode.root efs).ls s = none := by
  have onArray := inv.dir.ls_answers inv.idle (s := ⟨s.view, []⟩)
  rw [stops, ← inv.efsEq] at onArray
  exact inv.rel.run_of_panics onArray

/-- An entry that cannot be decoded stops the search for a name that is not found before it. -/
theorem find_stops (inv : FsInv g size efs created entries s) {name : String}
    (stops : scan name entries = none) :
    run (machine size) ((Inode.root efs).find efs name) s = none := by
  have onArray := inv.dir.find_answers inv.idle name (s := ⟨s.view, []⟩)
  rw [stops, ← inv.efsEq] at onArray
  exact inv.rel.run_of_panics onArray

theorem create_stops (inv : FsInv g size efs created entries s) {name : String}
    (stops : scan name entries = none) :
    run (machine size) ((Inode.root efs).create efs name) s = none := by
  have onArray := inv.dir.create_panics inv.idle stops (s := ⟨s.view, []⟩)
  rw [← inv.efsEq] at onArray
  exact inv.rel.run_of_panics onArray

end FsInv

/-- With short names, the root directory is the list of what was created. -/
theorem directory_refines_created (reach : Reachable g size efs created s)
    (short : ∀ p ∈ created, ShortName p.1) :
    (created.map Prod.fst).Nodup ∧ (Inode.root efs :: created.map Prod.snd).Nodup ∧
    (∀ name, ∃ s', run (machine size) ((Inode.root efs).find efs name) s =
      some (created.lookup name, s') ∧ s'.view = s.view) ∧
    (∃ s', run (machine size) (Inode.root efs).ls s = some (created.map Prod.fst, s') ∧
      s'.view = s.view) ∧
    ∀ name, ShortName name →
      (name ∈ created.map Prod.fst → ∃ s', s'.view = s.view ∧
        run (machine size) ((Inode.root efs).create efs name) s = some (none, s') ∧
        Reachable g size efs created s') ∧
      (name ∉ created.map Prod.fst → CanCreate g s.view → ∃ file s',
        run (machine size) ((Inode.root efs).create efs name) s = some (some file, s') ∧
        Reachable g size efs (created ++ [(name, file)]) s' ∧
        file ∉ Inode.root efs :: created.map Prod.snd ∧ file.contents s'.view = []) := by
  obtain ⟨entries, inv⟩ := reach.inv
  have decoded := inv.decoded short
  refine ⟨reach.names_nodup short, List.nodup_cons.mpr ⟨inv.root_not_mem, inv.inodes_nodup⟩,
    fun name => ?_, ?_, fun name shortName => ⟨fun mem => ?_, fun absent can => ?_⟩⟩
  · obtain ⟨r, found, mapped⟩ := decoded.scan_eq name
    obtain ⟨s', ran, viewEq, -⟩ := inv.find found
    rw [mapped] at ran
    exact ⟨s', ran, viewEq⟩
  · obtain ⟨s', ran, viewEq, -⟩ := inv.ls decoded.entryNames_eq
    exact ⟨s', ran, viewEq⟩
  · obtain ⟨s', ran, viewEq⟩ := inv.create_again short mem
    have reach' := reach.create (by simp) ran
    exact ⟨s', viewEq, ran, by simpa using reach'⟩
  · obtain ⟨file, s', ran, fresh, empty⟩ := inv.create_first short shortName absent can
    exact ⟨file, s', ran, reach.create (fun _ => can) ran, fresh, empty⟩

/-- A first file is found under its name, and nothing else is. -/
theorem directory_refines_created_fuse : ∃ file s s₁ s₂ s₃,
    Reachable fuseGeometry 32768 fuseGeometry.efs [("a", file)] s ∧
      run (machine 32768) ((Inode.root fuseGeometry.efs).find fuseGeometry.efs "a") s =
        some (some file, s₁) ∧
      run (machine 32768) ((Inode.root fuseGeometry.efs).find fuseGeometry.efs "b") s =
        some (none, s₂) ∧
      run (machine 32768) (Inode.root fuseGeometry.efs).ls s = some (["a"], s₃) := by
  have blocks := fuseGeometry_dataBlocks
  have large : fuseGeometry.total.toNat ≤ 32768 := by decide
  obtain ⟨s₀, s, file, -, -, reach, -, -⟩ :=
    fuseGeometry.exists_file large (by decide) (by omega) "a" (by decide)
  have isShort : ShortName "a" := by decide
  have short : ∀ p ∈ [("a", file)], ShortName p.1 := by simpa using isShort
  obtain ⟨-, -, find, ⟨s₃, listed, -⟩, -⟩ := directory_refines_created reach short
  obtain ⟨s₁, foundA, -⟩ := find "a"
  obtain ⟨s₂, foundB, -⟩ := find "b"
  exact ⟨file, s, s₁, s₂, s₃, reach, foundA, foundB, listed⟩

/-- The calls on the root return: `create` of every short name for which there is room, `find` of
every name, and `ls`, which lists only names that were created. -/
structure RootReturns (g : Geometry) (size : Nat) (efs : EasyFileSystem)
    (created : List (String × Inode)) (s : CacheState Block) : Prop where
  create : ∀ name, ShortName name → (name ∈ created.map Prod.fst ∨ CanCreate g s.view) →
    ∃ r s', run (machine size) ((Inode.root efs).create efs name) s = some (r, s')
  find : ∀ name, ∃ r s', run (machine size) ((Inode.root efs).find efs name) s = some (r, s')
  ls : ∃ names s', run (machine size) (Inode.root efs).ls s = some (names, s') ∧
    ∀ listed ∈ names, listed ∈ created.map Prod.fst

/-- In every run that creates short names only, the calls on the root return in every state. -/
theorem rootReturns_of_short (reach : Reachable g size efs created s)
    (short : ∀ p ∈ created, ShortName p.1) : RootReturns g size efs created s := by
  obtain ⟨entries, inv⟩ := reach.inv
  have decoded := inv.decoded short
  refine ⟨fun name shortName can => ?_, fun name => ?_, ?_⟩
  · by_cases mem : name ∈ created.map Prod.fst
    · obtain ⟨s', ran, -⟩ := inv.create_again short mem
      exact ⟨none, s', ran⟩
    · obtain ⟨file, s', ran, -⟩ :=
        inv.create_first short shortName mem (can.resolve_left mem)
      exact ⟨some file, s', ran⟩
  · obtain ⟨r, found, -⟩ := decoded.scan_eq name
    obtain ⟨s', ran, -⟩ := inv.find found
    exact ⟨_, s', ran⟩
  · obtain ⟨s', ran, -⟩ := inv.ls decoded.entryNames_eq
    exact ⟨_, s', ran, fun _ mem => mem⟩

/-- After a first file with a short name, the calls return. -/
theorem rootReturns_of_short_fuse : ∃ file s,
    Reachable fuseGeometry 32768 fuseGeometry.efs [("a", file)] s ∧
      RootReturns fuseGeometry 32768 fuseGeometry.efs [("a", file)] s := by
  have blocks := fuseGeometry_dataBlocks
  have large : fuseGeometry.total.toNat ≤ 32768 := by decide
  obtain ⟨s₀, s, file, -, -, reach, -, -⟩ :=
    fuseGeometry.exists_file large (by decide) (by omega) "a" (by decide)
  have isShort : ShortName "a" := by decide
  have short : ∀ p ∈ [("a", file)], ShortName p.1 := by simpa using isShort
  exact ⟨file, s, reach, rootReturns_of_short reach short⟩

/-- A name that leaves no byte of the entry for the NUL. -/
def fullName : String := "abcdefghijklmnopqrstuvwxyz12"

/-- A name of 28 bytes is created, and then every call on the root panics. -/
theorem create_fullName_stops : ∃ file s₀ s,
    Reachable fuseGeometry 32768 fuseGeometry.efs [] s₀ ∧
      run (machine 32768) ((Inode.root fuseGeometry.efs).create fuseGeometry.efs fullName) s₀ =
        some (some file, s) ∧
      Reachable fuseGeometry 32768 fuseGeometry.efs [(fullName, file)] s ∧
      run (machine 32768) (Inode.root fuseGeometry.efs).ls s = none ∧
      (∀ name, run (machine 32768) ((Inode.root fuseGeometry.efs).find fuseGeometry.efs name) s =
        none) ∧
      (∀ name, run (machine 32768) ((Inode.root fuseGeometry.efs).create fuseGeometry.efs name) s =
        none) ∧
      ¬ RootReturns fuseGeometry 32768 fuseGeometry.efs [(fullName, file)] s := by
  have blocks := fuseGeometry_dataBlocks
  have large : fuseGeometry.total.toNat ≤ 32768 := by decide
  obtain ⟨s₀, s, file, start, ran, reach, -, -⟩ :=
    fuseGeometry.exists_file large (by decide) (by omega) fullName (by decide)
  obtain ⟨entries, inv⟩ := reach.inv
  obtain ⟨e, rfl⟩ : ∃ e, entries = [e] := List.length_eq_one_iff.mp inv.len
  have full : (strBytes fullName).length = 28 := by decide
  have noNul : (0 : UInt8) ∉ strBytes fullName := by decide
  have undecodable := DirEntry.getName_new_full (inv.encoded 0 _ e rfl rfl) full noNul
  have listed : entryNames [e] = none := by rw [entryNames, undecodable, Option.bind_none]
  have scanned : ∀ name, scan name [e] = none := by
    intro name
    rw [scan, undecodable, Option.bind_none]
  have noList := inv.ls_stops listed
  refine ⟨file, s₀, s, start, ran, reach, noList, fun name => inv.find_stops (scanned name),
    fun name => inv.create_stops (scanned name), fun returns => ?_⟩
  obtain ⟨names, s', ran', -⟩ := returns.ls
  rw [noList] at ran'
  simp at ran'

end CoreFromDust.EasyFs
