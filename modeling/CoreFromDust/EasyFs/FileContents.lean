import CoreFromDust.EasyFs.Proofs.Capacity

/-!
# Files are byte strings

Whatever calls were made before, `write_at`, `clear` and `read_at` on a file do what the
operations of `Spec` do on the string of its bytes, and leave everything else as it is.
-/

namespace CoreFromDust.EasyFs

open CoreFromDust.Lib CoreFromDust.Lib.CellProg DiskInode

variable {g : Geometry} {size : Nat} {efs : EasyFileSystem} {created : List (String × Inode)}
  {s : CacheState Block}

/-- The contents of the files other than `file`, and of the root directory, are the same in both
states. -/
def OthersKept (efs : EasyFileSystem) (created : List (String × Inode)) (file : Inode)
    (s s' : CacheState Block) : Prop :=
  ∀ other ∈ Inode.root efs :: created.map Prod.snd, other ≠ file →
    other.contents s'.view = other.contents s.view

/-- The calls on the files of a reachable state refine operations on byte strings. -/
theorem inode_calls_refine_bytes (reach : Reachable g size efs created s) :
    (∀ file ∈ created.map Prod.snd,
      (∀ offset buf, CanWrite g file offset buf.length s.view →
        ∃ s', run (machine size) (file.writeAt efs offset buf) s = some (buf.length, s') ∧
          Reachable g size efs created s' ∧
          file.contents s'.view = Spec.write (file.contents s.view) offset buf ∧
          OthersKept efs created file s s') ∧
      (∃ s', run (machine size) (file.clear efs) s = some ((), s') ∧
        Reachable g size efs created s' ∧ file.contents s'.view = [] ∧
        OthersKept efs created file s s') ∧
      ∀ offset (buf : List UInt8), ∃ s',
        run (machine size) (file.readAt offset buf) s =
          some ((min buf.length ((file.contents s.view).length - offset),
            Spec.read (file.contents s.view) offset buf.length ++
              buf.drop (min buf.length ((file.contents s.view).length - offset))), s') ∧
        Reachable g size efs created s' ∧ s'.view = s.view) ∧
    ∀ name r s', (r.isSome = true → CanCreate g s.view) →
      run (machine size) ((Inode.root efs).create efs name) s = some (r, s') →
      (∀ file ∈ created.map Prod.snd, file.contents s'.view = file.contents s.view) ∧
      (r = none → s'.view = s.view) ∧
      ∀ file, r = some file →
        file ∉ Inode.root efs :: created.map Prod.snd ∧ file.contents s'.view = [] := by
  obtain ⟨entries, inv⟩ := reach.inv
  refine ⟨fun file mem => ⟨fun offset buf can => ?_, ?_, fun offset buf => ?_⟩, ?_⟩
  · obtain ⟨s', ran, -, contents, others⟩ := inv.writeAt mem offset buf can
    exact ⟨s', ran, reach.write mem can ran, contents, others⟩
  · obtain ⟨s', ran, -, contents, others⟩ := inv.clear mem
    exact ⟨s', ran, reach.clear mem ran, contents, others⟩
  · have member := List.mem_cons_of_mem (Inode.root efs) mem
    obtain ⟨s', ran, viewEq, -⟩ := inv.readAt member offset buf
    refine ⟨s', ?_, reach.read member ran, viewEq⟩
    rw [ran, spliceAt, List.take_zero, List.nil_append, Nat.zero_add, Spec.length_read]
  · intro name r s' can ran
    rcases inv.create_returned can ran with ⟨rfl, viewEq, -⟩ | ⟨e, -, rfl, inv', empty, others⟩
    · refine ⟨fun file _ => by rw [viewEq], fun _ => viewEq, ?_⟩
      simp
    · refine ⟨others, by simp, ?_⟩
      rintro file same
      rw [Option.some.injEq] at same
      subst same
      exact ⟨inv'.last_not_mem, empty⟩

/-- A file of the file system that `easy-fs-fuse` packs, after a write past its end. -/
theorem inode_calls_refine_bytes_fuse : ∃ file s s',
    Reachable fuseGeometry 32768 fuseGeometry.efs [("a", file)] s ∧
      run (machine 32768) (file.writeAt fuseGeometry.efs 2 [7]) s = some (1, s') ∧
      file.contents s'.view = [0, 0, 7] := by
  have blocks := fuseGeometry_dataBlocks
  have large : fuseGeometry.total.toNat ≤ 32768 := by decide
  obtain ⟨s₀, s, file, -, -, reach, empty, free⟩ :=
    fuseGeometry.exists_file large (by decide) (by omega) "a" (by decide)
  have can : CanWrite fuseGeometry file 2 [(7 : UInt8)].length s.view := by
    refine ⟨by rw [empty]; decide, ?_⟩
    rw [empty]
    have needed : blocksNeeded ([] : List UInt8).length
        (max ([] : List UInt8).length (2 + [(7 : UInt8)].length)) = 1 := by decide
    omega
  obtain ⟨write, -⟩ := (inode_calls_refine_bytes reach).1 file (by simp)
  obtain ⟨s', ran, -, contents, -⟩ := write 2 [7] can
  refine ⟨file, s, s', reach, ran, ?_⟩
  rw [contents, empty]
  rfl

end CoreFromDust.EasyFs
