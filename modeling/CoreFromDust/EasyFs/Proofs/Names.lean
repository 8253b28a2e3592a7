import CoreFromDust.EasyFs.Proofs.Calls

/-!
# Names that survive the directory

A directory entry has 28 bytes for a name and ends it with a NUL. A name of at most 27 bytes
without NUL is decoded to itself; as long as all names are of this kind, the scans of the
directory are lookups in the list of created names.
-/

namespace CoreFromDust.EasyFs

open CoreFromDust.Lib CoreFromDust.Lib.CellProg DiskInode

/-- At most 27 bytes, none of them NUL. -/
def ShortName (name : String) : Prop :=
  (strBytes name).length ≤ nameLengthLimit ∧ (0 : UInt8) ∉ strBytes name

instance (name : String) : Decidable (ShortName name) := inferInstanceAs (Decidable (_ ∧ _))

/-- A short name can be stored. -/
theorem ShortName.encodes {name : String} (short : ShortName name) (n : UInt32) :
    ∃ e, DirEntry.new name n = some e := by
  have fits : (strBytes name).length ≤ nameLengthLimit + 1 := Nat.le_succ_of_le short.1
  exact ⟨_, if_pos fits⟩

section Entries

variable {efs : EasyFileSystem}

/-- Each entry decodes to the name and the inode that were created for it. -/
def Decoded (efs : EasyFileSystem) (created : List (String × Inode)) (entries : List DirEntry) :
    Prop :=
  List.Forall₂ (fun p e => e.getName = some p.1 ∧ p.2 = Inode.ofId efs e.inodeNumber) created
    entries

/-- `ls` lists the names. -/
theorem Decoded.entryNames_eq {created : List (String × Inode)} {entries : List DirEntry}
    (decoded : Decoded efs created entries) :
    entryNames entries = some (created.map Prod.fst) := by
  induction decoded with
  | nil => rfl
  | cons head _ ih =>
      rw [entryNames, head.1, ih]
      rfl

/-- The search finds what was created under a name. -/
theorem Decoded.scan_eq {created : List (String × Inode)} {entries : List DirEntry}
    (decoded : Decoded efs created entries) (name : String) :
    ∃ r, scan name entries = some r ∧ r.map (Inode.ofId efs) = created.lookup name := by
  induction decoded with
  | nil => exact ⟨none, rfl, rfl⟩
  | @cons p e created entries head _ ih =>
      obtain ⟨entryName, inode⟩ := p
      obtain ⟨getName, rfl⟩ := head
      rw [scan, getName, Option.bind_some]
      by_cases same : entryName = name
      · refine ⟨some e.inodeNumber, if_pos same, ?_⟩
        simp [same]
      · obtain ⟨r, found, mapped⟩ := ih
        refine ⟨r, by rw [if_neg same, found], ?_⟩
        rw [mapped, List.lookup_cons, beq_false_of_ne (Ne.symm same)]

end Entries

namespace FsInv

variable {g : Geometry} {size : Nat} {efs : EasyFileSystem} {created : List (String × Inode)}
  {entries : List DirEntry} {s : CacheState Block}

theorem decoded (inv : FsInv g size efs created entries s)
    (short : ∀ p ∈ created, ShortName p.1) : Decoded efs created entries := by
  refine List.forall₂_iff_get.mpr ⟨inv.len.symm, fun j hc he => ?_⟩
  have atCreated : created[j]? = some (created.get ⟨j, hc⟩) := List.getElem?_eq_getElem hc
  have atEntries : entries[j]? = some (entries.get ⟨j, he⟩) := List.getElem?_eq_getElem he
  have encoded := inv.encoded j _ _ atCreated atEntries
  obtain ⟨bound, noNul⟩ := short _ (List.get_mem created ⟨j, hc⟩)
  refine ⟨DirEntry.getName_new encoded bound noNul, ?_⟩
  rw [inv.inodes j _ atCreated, inv.dir.numbers j _ atEntries, inv.efsEq]

/-- The inodes of the files differ from each other. -/
theorem inodes_nodup (inv : FsInv g size efs created entries s) :
    (created.map Prod.snd).Nodup := by
  have len := inv.len
  rw [List.nodup_iff_injective_get]
  rintro ⟨i, hi⟩ ⟨j, hj⟩ same
  rw [List.length_map] at hi hj
  simp only [List.get_eq_getElem, List.getElem_map] at same
  rw [inv.inodes i _ (List.getElem?_eq_getElem hi), inv.inodes j _ (List.getElem?_eq_getElem hj)]
    at same
  have equal := inv.ofId_inj (by omega) (by omega) same
  exact Fin.ext (by simpa using equal)

/-- The root is none of the files. -/
theorem root_not_mem (inv : FsInv g size efs created entries s) :
    Inode.root efs ∉ created.map Prod.snd := by
  intro mem
  obtain ⟨i, pos, hi, same⟩ := inv.file_eq mem
  rw [inv.efsEq] at same
  have equal := inv.ofId_inj (i := 0) (Nat.succ_pos _) hi same
  omega

/-- The file that was created last is none of the others. -/
theorem last_not_mem {name : String} {file : Inode}
    (inv : FsInv g size efs (created ++ [(name, file)]) entries s) :
    file ∉ Inode.root efs :: created.map Prod.snd := by
  have nodup := inv.inodes_nodup
  have root := inv.root_not_mem
  rw [List.map_append, List.map_singleton] at nodup root
  rw [List.mem_cons, not_or]
  refine ⟨fun same => root ?_, fun mem => ?_⟩
  · simp [← same]
  · exact (List.nodup_append.mp nodup).2.2 _ mem _ (List.mem_singleton_self _) rfl

end FsInv

/-- No name is created twice. -/
theorem Reachable.names_nodup {g : Geometry} {size : Nat} {efs : EasyFileSystem}
    {created : List (String × Inode)} {s : CacheState Block}
    (reach : Reachable g size efs created s) (short : ∀ p ∈ created, ShortName p.1) :
    (created.map Prod.fst).Nodup := by
  induction reach with
  | start => exact List.nodup_nil
  | @create efs created s name r s' before can ran ih =>
      have earlier : ∀ p ∈ created, ShortName p.1 :=
        fun p mem => short p (List.mem_append_left _ mem)
      obtain ⟨entries, inv⟩ := before.inv
      rcases inv.create_returned can ran with ⟨rfl, -, -⟩ | ⟨e, absent, rfl, -, -⟩
      · simpa using ih earlier
      · obtain ⟨o, found, mapped⟩ := (inv.decoded earlier).scan_eq name
        rw [absent, Option.some.injEq] at found
        subst found
        have notCreated : name ∉ created.map Prod.fst := by
          intro mem
          obtain ⟨p, hp, same⟩ := List.mem_map.mp mem
          have missing := List.lookup_eq_none_iff.mp mapped.symm p hp
          simp [same] at missing
        simpa using (ih earlier).concat notCreated
  | write _ _ _ _ ih => exact ih short
  | clear _ _ _ ih => exact ih short
  | read _ _ _ ih => exact ih short
  | find _ _ ih => exact ih short
  | ls _ _ ih => exact ih short

end CoreFromDust.EasyFs
