import CoreFromDust.EasyFs.DirectoryNames

/-!
# The device alone determines the file system

Every call that changes the file system ends by writing the cache back. So a second instance
that is opened on the device, with an empty cache, shows the same directory and the same files.
-/

namespace CoreFromDust.EasyFs

open CoreFromDust.Lib CoreFromDust.Lib.CellProg DiskInode

variable {g : Geometry} {size : Nat} {efs : EasyFileSystem} {created : List (String × Inode)}
  {entries : List DirEntry} {s t : CacheState Block}

theorem EasyFileSystem.openFs_leavesClean : LeavesClean true EasyFileSystem.openFs :=
  leavesClean_viewCell fun _ => leavesClean_bind (leavesClean_check _) fun _ => leavesClean_pure _

/-- What a call returns, if it does. -/
def outcome {α : Type} (size : Nat) (p : FsProg α) (s : CacheState Block) : Option α :=
  (run (machine size) p s).map Prod.fst

namespace FsInv

/-- `open` on the device of a file system. -/
theorem reopen (inv : FsInv g size efs created entries s) :
    ∃ t, run (machine size) EasyFileSystem.openFs (.fresh s.device) = some (efs, t) ∧
      t.view = s.view ∧ FsInv g size efs created entries t := by
  have deviceEq : s.device = s.view := inv.rel.device_eq inv.clean
  rw [deviceEq]
  have rel : CacheRel size ⟨s.view, []⟩ (CacheState.fresh s.view) := CacheRel.fresh s.view
  have clean : (CacheState.fresh s.view).Clean := by
    intro p hp
    simp [CacheState.fresh] at hp
  obtain ⟨r, a', t, ran, rel', rfl, rfl⟩ :=
    rel.run_of_wp (openFs_wp (s := ⟨s.view, []⟩) inv.dir inv.idle)
  have viewEq : t.view = s.view := rel'.view_eq
  refine ⟨t, by rw [inv.efsEq]; exact ran, viewEq, inv.efsEq, inv.device, ?_,
    clean.run EasyFileSystem.openFs_leavesClean ran, ?_, inv.len, inv.inodes, inv.encoded⟩
  · rw [viewEq]
    exact rel'
  · rw [viewEq]
    exact inv.dir

/-- The directory calls depend on the entries only. -/
theorem ls_outcome (inv : FsInv g size efs created entries s) :
    outcome size (Inode.root efs).ls s = entryNames entries := by
  unfold outcome
  cases listed : entryNames entries with
  | none => rw [inv.ls_stops listed, Option.map_none]
  | some names =>
      obtain ⟨s', ran, -⟩ := inv.ls listed
      rw [ran, Option.map_some]

theorem find_outcome (inv : FsInv g size efs created entries s) (name : String) :
    outcome size ((Inode.root efs).find efs name) s =
      (scan name entries).map fun r => r.map (Inode.ofId efs) := by
  unfold outcome
  cases found : scan name entries with
  | none => rw [inv.find_stops found, Option.map_none, Option.map_none]
  | some r =>
      obtain ⟨s', ran, -⟩ := inv.find found
      rw [ran, Option.map_some, Option.map_some]

end FsInv

/-- In every reachable state, `open` on the device finds the super block that `create` wrote and
yields the same instance; through it the directory and the files are the same. -/
theorem reopen_shows_same (reach : Reachable g size efs created s) :
    s.device 0 = g.superBlock.toBlock Block.zero ∧
    SuperBlock.ofBlock (s.device 0) = g.superBlock ∧ g.superBlock.isValid = true ∧
    ∃ t, run (machine size) EasyFileSystem.openFs (.fresh s.device) = some (efs, t) ∧
      outcome size (Inode.root efs).ls t = outcome size (Inode.root efs).ls s ∧
      (∀ name, outcome size ((Inode.root efs).find efs name) t =
        outcome size ((Inode.root efs).find efs name) s) ∧
      ∀ file ∈ Inode.root efs :: created.map Prod.snd,
        file.contents s.device = file.contents s.view ∧
        ∀ offset buf, ∃ r, outcome size (file.readAt offset buf) t = some r ∧
          outcome size (file.readAt offset buf) s = some r := by
  obtain ⟨entries, inv⟩ := reach.inv
  have deviceEq : s.device = s.view := inv.rel.device_eq inv.clean
  have super : s.device 0 = g.superBlock.toBlock Block.zero := by
    rw [deviceEq]
    exact inv.dir.fs.super
  obtain ⟨t, ran, viewEq, inv'⟩ := inv.reopen
  refine ⟨super, by rw [super, SuperBlock.ofBlock_toBlock], rfl, t, ran, ?_, fun name => ?_,
    fun file mem => ⟨by rw [deviceEq], fun offset buf => ?_⟩⟩
  · rw [inv.ls_outcome, inv'.ls_outcome]
  · rw [inv.find_outcome, inv'.find_outcome]
  · obtain ⟨s₁, ran₁, -⟩ := inv.readAt mem offset buf
    obtain ⟨s₂, ran₂, -⟩ := inv'.readAt mem offset buf
    rw [viewEq] at ran₂
    exact ⟨_, by rw [outcome, ran₂, Option.map_some], by rw [outcome, ran₁, Option.map_some]⟩

/-- Opening the device after a first file was created. -/
theorem reopen_shows_same_fuse : ∃ file s t,
    Reachable fuseGeometry 32768 fuseGeometry.efs [("a", file)] s ∧
      run (machine 32768) EasyFileSystem.openFs (.fresh s.device) =
        some (fuseGeometry.efs, t) ∧
      outcome 32768 (Inode.root fuseGeometry.efs).ls t =
        outcome 32768 (Inode.root fuseGeometry.efs).ls s := by
  have blocks := fuseGeometry_dataBlocks
  have large : fuseGeometry.total.toNat ≤ 32768 := by decide
  obtain ⟨s₀, s, file, -, -, reach, -, -⟩ :=
    fuseGeometry.exists_file large (by decide) (by omega) "a" (by decide)
  obtain ⟨-, -, -, t, ran, listed, -⟩ := reopen_shows_same reach
  exact ⟨file, s, t, reach, ran, listed⟩

end CoreFromDust.EasyFs
