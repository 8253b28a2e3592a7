import CoreFromDust.Os.Mm.Proofs.SpaceWf

/-!
# Mapping and unmapping the pages of an area

One lemma for `map_one` and one for `unmap_one`, and from them what `map` and `unmap` of a whole
area do. `SpaceGrown` and `SpaceShrunk` say what happens to the frames of the address space on
the way.
-/

namespace CoreFromDust.Os.Mm

open SpaceWf

variable {l tramp vpn : Nat} {s s' s'' : Phys} {t t' t'' : PageTable} {area area' : MapArea}
  {areas old new last : List MapArea}

/-- Areas have been added: the frames that were there keep their bytes and the new ones are
clean. -/
structure SpaceGrown (l tramp : Nat) (s s' : Phys) (t t' : PageTable) (old new : List MapArea) :
    Prop where
  wf : SpaceWf l tramp s' t' new
  changes : Changes l s s' (own t old) (own t' new)
  subset : ∀ ppn ∈ areaFrames old, ppn ∈ areaFrames new
  data : ∀ ppn ∈ areaFrames old, SameFrame s.mem s'.mem ppn
  zero : ∀ ppn ∈ areaFrames new, ppn ∉ areaFrames old → ∀ offset < 4096, s'.mem.bytes ppn offset = 0

theorem SpaceGrown.refl (wf : SpaceWf l tramp s t areas) :
    SpaceGrown l tramp s s t t areas areas where
  wf := wf
  changes := .refl wf.table.ok wf.own_inUse
  subset := fun _ mem => mem
  data := fun _ _ _ _ => rfl
  zero := fun _ mem notMem => absurd mem notMem

theorem SpaceGrown.trans (first : SpaceGrown l tramp s s' t t' old new)
    (second : SpaceGrown l tramp s' s'' t' t'' new last) :
    SpaceGrown l tramp s s'' t t'' old last where
  wf := second.wf
  changes := first.changes.trans second.changes
  subset := fun ppn mem => second.subset ppn (first.subset ppn mem)
  data := fun ppn mem => (first.data ppn mem).trans (second.data ppn (first.subset ppn mem))
  zero := by
    intro ppn mem notOld offset bound
    by_cases isNew : ppn ∈ areaFrames new
    · rw [second.data ppn isNew offset bound]
      exact first.zero ppn isNew notOld offset bound
    · exact second.zero ppn mem isNew offset bound

/-- The order of the areas does not matter. -/
theorem SpaceGrown.perm (grown : SpaceGrown l tramp s s' t t' old new) {old' new' : List MapArea}
    (permOld : old.Perm old') (permNew : new.Perm new') :
    SpaceGrown l tramp s s' t t' old' new' := by
  have oldMem := fun ppn => (areaFrames_perm permOld).mem_iff (a := ppn)
  have newMem := fun ppn => (areaFrames_perm permNew).mem_iff (a := ppn)
  refine ⟨grown.wf.perm permNew, grown.changes.congr ?_ ?_, ?_, ?_, ?_⟩
  · intro ppn
    rw [mem_own, mem_own, oldMem]
  · intro ppn
    rw [mem_own, mem_own, newMem]
  · intro ppn mem
    rw [← newMem]
    exact grown.subset ppn ((oldMem ppn).mpr mem)
  · exact fun ppn mem => grown.data ppn ((oldMem ppn).mpr mem)
  · intro ppn mem notMem
    exact grown.zero ppn ((newMem ppn).mpr mem) fun isOld => notMem ((oldMem ppn).mp isOld)

/-- Areas have been removed: the frames that are left keep their bytes. -/
structure SpaceShrunk (l tramp : Nat) (s s' : Phys) (t : PageTable) (old new : List MapArea) :
    Prop where
  wf : SpaceWf l tramp s' t new
  changes : Changes l s s' (own t old) (own t new)
  data : ∀ ppn ∈ areaFrames new, ppn ∈ areaFrames old ∧ SameFrame s.mem s'.mem ppn

theorem SpaceShrunk.trans (first : SpaceShrunk l tramp s s' t old new)
    (second : SpaceShrunk l tramp s' s'' t new last) : SpaceShrunk l tramp s s'' t old last where
  wf := second.wf
  changes := first.changes.trans second.changes
  data := by
    intro ppn mem
    obtain ⟨isNew, later⟩ := second.data ppn mem
    obtain ⟨isOld, earlier⟩ := first.data ppn isNew
    exact ⟨isOld, earlier.trans later⟩

/-! ## Frames of trackers -/

/-- The frames of a list of trackers can be dropped. -/
theorem dropFrames_spec {frames : List Nat} (ok : s.Ok l) (nodup : frames.Nodup)
    (inUse : ∀ ppn ∈ frames, s.InUse l ppn) :
    ∃ s', s.dropFrames frames = some s' ∧ Changes l s s' frames [] ∧ s'.mem = s.mem := by
  induction frames generalizing s with
  | nil => exact ⟨s, rfl, .refl ok (by simp), rfl⟩
  | cons ppn frames ih =>
      obtain ⟨notMem, nodup⟩ := List.nodup_cons.mp nodup
      obtain ⟨freedPhys, done, freed⟩ := Phys.frameDealloc_spec ok (inUse ppn List.mem_cons_self)
      have changes :=
        Changes.free freed (fun other mem => inUse other (List.mem_cons_of_mem _ mem)) notMem
      obtain ⟨last, rest, changes', same⟩ :=
        ih freed.ok nodup fun other mem => changes.mem_inUse mem
      refine ⟨last, ?_, changes.trans changes', same.trans freed.mem⟩
      rw [Phys.dropFrames, done, Option.bind_some, rest]

/-! ## `map` -/

/-- The area up to a page. -/
def MapArea.upTo (area : MapArea) (vpn : Nat) : MapArea := { area with endVpn := vpn }

/-- The area from a page on. -/
def MapArea.fromPage (area : MapArea) (vpn : Nat) : MapArea := { area with startVpn := vpn }

/-- The frames that an update of the page table leaves alone. -/
theorem grown_addPage {ppn : Nat} (entries : List (Nat × Nat))
    (wf : SpaceWf l tramp s t (area :: areas))
    (small : area.endVpn < 2 ^ 27) (free : t.lookup s.mem area.endVpn = none)
    (kind : area.mapType = .framed ∧ entries = [(area.endVpn, ppn)] ∨
      area.mapType = .identical ∧ entries = [] ∧ ppn = area.endVpn)
    (newInUse : ∀ entry ∈ entries, s.InUse l entry.2)
    (newOwn : ∀ entry ∈ entries, entry.2 ∉ own t (area :: areas))
    (updated : PageTable.Updated l area.endVpn
      (some (.new ppn (area.mapPerm.bits ||| PTEFlags.v))) s s' t t') :
    SpaceWf l tramp s' t' (grow area entries :: areas) ∧
      Changes l s s' (own t (area :: areas) ++ entries.map Prod.snd)
        (own t' (grow area entries :: areas)) ∧
      ∀ ppn, (ppn ∈ areaFrames (area :: areas) ∨ ppn ∈ entries.map Prod.snd) →
        SameFrame s.mem s'.mem ppn := by
  have restInUse : ∀ ppn ∈ areaFrames (area :: areas) ++ entries.map Prod.snd,
      s.InUse l ppn ∧ ppn ∉ t.frames := by
    intro ppn mem
    rcases List.mem_append.mp mem with isOld | isNew
    · exact ⟨wf.inUse ppn isOld, wf.notTable ppn isOld⟩
    · obtain ⟨entry, isEntry, rfl⟩ := List.mem_map.mp isNew
      exact ⟨newInUse entry isEntry, fun table => newOwn entry isEntry (mem_own.mpr (.inl table))⟩
  have changes := updated.changes.frame (fun ppn mem => (restInUse ppn mem).1)
    fun ppn mem => (restInUse ppn mem).2
  refine ⟨wf.addPage small free kind newInUse newOwn updated, changes.congr ?_ ?_, ?_⟩
  · intro other
    simp only [own, List.mem_append]
    tauto
  · intro other
    simp only [own, grow, areaFrames_cons, MapArea.frames, List.mem_append, List.map_append]
    tauto
  · intro ppn mem
    have both := restInUse ppn (List.mem_append.mpr mem)
    exact updated.changes.other ppn both.1 both.2

/-- A page that is not in the area has no tracker in it. -/
theorem lookup_dataFrames (shape : area.Shape) (outside : ¬ area.Has vpn) :
    area.dataFrames.lookup vpn = none := by
  rw [List.lookup_eq_none_iff]
  intro entry mem
  have key : entry.1 ∈ area.dataFrames.map Prod.fst := List.mem_map_of_mem mem
  rw [shape.keys] at key
  split at key
  · have has := MapArea.mem_pages.mp key
    simp only [bne_iff_ne, ne_eq]
    rintro rfl
    exact outside has
  · exact absurd key (by simp)

/-- The tracker of the page after the area goes to the end of `data_frames`. -/
theorem insertFrame_eq (s : Phys) (ppn : Nat) (shape : (area.upTo vpn).Shape) :
    area.insertFrame s vpn ppn =
    some (s, { area with dataFrames := area.dataFrames ++ [(vpn, ppn)] }) := by
  have absent : (area.upTo vpn).dataFrames.lookup vpn = none :=
    lookup_dataFrames shape fun has => Nat.lt_irrefl _ has.2
  change area.dataFrames.lookup vpn = none at absent
  have keys : ∀ entry ∈ area.dataFrames, entry.1 < vpn := by
    intro entry mem
    have key : entry.1 ∈ (area.upTo vpn).dataFrames.map Prod.fst := List.mem_map_of_mem mem
    rw [shape.keys] at key
    split at key
    · exact (MapArea.mem_pages.mp key).2
    · exact absurd key (by simp)
  have lower : area.dataFrames.filter (·.1 < vpn) = area.dataFrames :=
    List.filter_eq_self.mpr fun entry mem => by simpa using keys entry mem
  have upper : area.dataFrames.filter (vpn < ·.1) = [] :=
    List.filter_eq_nil_iff.mpr fun entry mem => by simpa using Nat.le_of_lt (keys entry mem)
  rw [MapArea.insertFrame, absent, lower, upper]
  rfl

/-- `map_one` on the page after the part of the area that is mapped. -/
theorem mapOne_spec (wf : SpaceWf l tramp s t (area.upTo vpn :: areas)) (small : vpn < 2 ^ 27)
    (h : area.mapOne s t vpn = some (s', t', area')) :
    (∃ entries, area' = { area with dataFrames := area.dataFrames ++ entries }) ∧
      SpaceGrown l tramp s s' t t' (area.upTo vpn :: areas) (area'.upTo (vpn + 1) :: areas) := by
  unfold MapArea.mapOne at h
  split at h
  · next identical =>
    obtain ⟨⟨mapped, table⟩, done, h⟩ := Option.map_eq_some_iff.mp h
    simp only [Prod.mk.injEq] at h
    obtain ⟨rfl, rfl, rfl⟩ := h
    obtain ⟨free, updated⟩ := PageTable.map_spec wf.table small (by omega) done
    obtain ⟨wf', changes, data⟩ := grown_addPage [] wf small free
      (.inr ⟨identical, rfl, rfl⟩) (by simp) (by simp) updated
    refine ⟨⟨[], by simp⟩, ?_⟩
    have same : grow (area.upTo vpn) [] = area.upTo (vpn + 1) := by simp [grow, MapArea.upTo]
    rw [same] at wf' changes
    simp only [List.map_nil, List.append_nil] at changes
    refine ⟨wf', changes, fun _ mem => mem, fun ppn mem => data ppn (.inl mem), ?_⟩
    exact fun ppn mem notMem => absurd mem notMem
  · next framed =>
    obtain ⟨⟨ppn, allocated⟩, isAlloc, h⟩ := Option.bind_eq_some_iff.mp h
    obtain ⟨⟨inserted, withFrame⟩, isInserted, h⟩ := Option.bind_eq_some_iff.mp h
    obtain ⟨⟨mapped, table⟩, done, h⟩ := Option.map_eq_some_iff.mp h
    simp only [Prod.mk.injEq] at h
    obtain ⟨rfl, rfl, rfl⟩ := h
    have alloc := Phys.frameAlloc_spec wf.table.ok isAlloc
    rw [insertFrame_eq allocated ppn (wf.shape _ List.mem_cons_self)] at isInserted
    obtain ⟨rfl, rfl⟩ := Prod.mk.inj (Option.some.inj isInserted)
    have fresh : ppn ∉ own t (area.upTo vpn :: areas) :=
      fun mem => alloc.fresh (wf.own_inUse ppn mem)
    have allocChanges : Changes l s allocated [] [ppn] := Changes.alloc alloc (by simp)
    have wf := wf.other allocChanges (by simp)
    obtain ⟨free, updated⟩ := PageTable.map_spec wf.table small alloc.small done
    obtain ⟨wf', changes, data⟩ := grown_addPage [(vpn, ppn)] wf small free
      (.inl ⟨framed, rfl⟩)
      (by simpa using (alloc.inUse ppn).mpr (.inr rfl)) (by simpa using fresh) updated
    have oldSame :
        ∀ other ∈ areaFrames (area.upTo vpn :: areas), SameFrame s.mem allocated.mem other := by
      intro other mem offset bound
      rw [alloc.mem, Memory.bytes_fill_other _ _ _ bound]
      rintro rfl
      exact fresh (mem_own.mpr (.inr mem))
    refine ⟨⟨[(vpn, ppn)], rfl⟩, wf', ?_, ?_, ?_, ?_⟩
    · have before : Changes l s allocated (own t (area.upTo vpn :: areas))
          (own t (area.upTo vpn :: areas) ++ [ppn]) := by
        refine Changes.alloc alloc fun other mem => ?_
        rcases (alloc.inUse other).mp (wf.own_inUse other mem) with used | rfl
        · exact used
        · exact absurd mem fresh
      exact before.trans changes
    · intro other mem
      simp only [areaFrames_cons, MapArea.frames, MapArea.upTo, List.map_append,
        List.mem_append] at mem ⊢
      tauto
    · exact fun other mem => (oldSame other mem).trans (data other (.inl mem))
    · intro other mem notMem offset bound
      have isNew : other = ppn := by
        simp only [areaFrames_cons, MapArea.frames, MapArea.upTo, List.map_append, List.mem_append,
          List.map_cons, List.map_nil, List.mem_singleton] at mem notMem
        tauto
      subst isNew
      rw [data other (.inr (by simp)) offset bound, alloc.mem, Memory.bytes_fill _ _ bound]

/-- `map` for a run of pages. -/
theorem mapPages_spec (n : Nat) (wf : SpaceWf l tramp s t (area.upTo vpn :: areas))
    (small : vpn + n ≤ 2 ^ 27) (h : area.mapPages s t (List.range' vpn n) = some (s', t', area')) :
    (∃ entries, area' = { area with dataFrames := area.dataFrames ++ entries }) ∧
      SpaceGrown l tramp s s' t t' (area.upTo vpn :: areas) (area'.upTo (vpn + n) :: areas) := by
  induction n generalizing s t area vpn with
  | zero =>
      simp only [List.range'_zero, MapArea.mapPages, Option.some.injEq, Prod.mk.injEq] at h
      obtain ⟨rfl, rfl, rfl⟩ := h
      exact ⟨⟨[], by simp⟩, .refl wf⟩
  | succ n ih =>
      rw [List.range'_succ, MapArea.mapPages] at h
      obtain ⟨⟨mapped, table, withPage⟩, first, h⟩ := Option.bind_eq_some_iff.mp h
      obtain ⟨⟨entries, isArea⟩, grown⟩ := mapOne_spec wf (by omega) first
      obtain ⟨⟨entries', isArea'⟩, grown'⟩ := ih grown.wf (by omega) h
      refine ⟨⟨entries ++ entries', ?_⟩, ?_⟩
      · rw [isArea', isArea, List.append_assoc]
      · rw [Nat.add_right_comm, Nat.add_assoc] at grown'
        exact grown.trans grown'

/-! ## `unmap` -/

/-- The frames that the removal of a page leaves alone. -/
theorem shrunk_removePage {freedPhys : Phys} (gone rest : List (Nat × Nat))
    (wf : SpaceWf l tramp s t (area :: areas)) (nonempty : area.startVpn < area.endVpn)
    (split : area.dataFrames = gone ++ rest)
    (kind : (area.mapType = .framed ∧ ∃ ppn, gone = [(area.startVpn, ppn)]) ∨
      area.mapType = .identical ∧ gone = [])
    (freed : Changes l s freedPhys (gone.map Prod.snd) []) (sameMem : freedPhys.mem = s.mem)
    (updated : PageTable.Updated l area.startVpn none freedPhys s' t t) :
    SpaceShrunk l tramp s s' t (area :: areas) (shrink area rest :: areas) := by
  have frames : areaFrames (area :: areas) =
      gone.map Prod.snd ++ areaFrames (shrink area rest :: areas) := by
    rw [areaFrames_cons, areaFrames_cons, ← List.append_assoc]
    simp [MapArea.frames, shrink, split]
  have nodup := wf.nodup
  rw [frames, List.nodup_append] at nodup
  have mem : ∀ ppn ∈ areaFrames (shrink area rest :: areas), ppn ∈ areaFrames (area :: areas) := by
    intro ppn mem
    rw [frames]
    exact List.mem_append_right _ mem
  have ownMem : ∀ ppn ∈ own t (shrink area rest :: areas),
      s.InUse l ppn ∧ ppn ∉ gone.map Prod.snd := by
    intro ppn isOwn
    rcases mem_own.mp isOwn with table | data
    · refine ⟨wf.table.inUse ppn table, fun isGone => wf.notTable ppn ?_ table⟩
      rw [frames]
      exact List.mem_append_left _ isGone
    · exact ⟨wf.inUse ppn (mem ppn data), fun isGone => nodup.2.2 ppn isGone ppn data rfl⟩
  have first :=
    freed.frame (fun ppn isOwn => (ownMem ppn isOwn).1) fun ppn isOwn => (ownMem ppn isOwn).2
  have dataInUse : ∀ ppn ∈ areaFrames (shrink area rest :: areas),
      freedPhys.InUse l ppn ∧ ppn ∉ t.frames := by
    intro ppn data
    have both := ownMem ppn (mem_own.mpr (.inr data))
    exact ⟨(freed.inUse ppn).mpr (.inl both), wf.notTable ppn (mem ppn data)⟩
  have second := updated.changes.frame (fun ppn data => (dataInUse ppn data).1)
    fun ppn data => (dataInUse ppn data).2
  refine ⟨wf.removePage nonempty split kind freed sameMem updated, ?_, ?_⟩
  · have ownOrder : ∀ ppn, ppn ∈ own t (shrink area rest :: areas) ↔
        ppn ∈ areaFrames (shrink area rest :: areas) ++ t.frames := by
      intro ppn
      rw [mem_own, List.mem_append, or_comm]
    rw [List.append_nil] at first
    refine (first.congr ?_ fun _ => Iff.rfl).trans (second.congr ownOrder ownOrder)
    intro ppn
    rw [mem_own, frames, List.mem_append, List.mem_append, mem_own]
    tauto
  · intro ppn data
    have both := dataInUse ppn data
    have same := updated.changes.other ppn both.1 both.2
    rw [sameMem] at same
    exact ⟨mem ppn data, same⟩

/-- The tracker of the first page of a framed area. -/
theorem removeFrame_spec (wf : SpaceWf l tramp s t (area.fromPage vpn :: areas))
    (inside : vpn < area.endVpn) (framed : area.mapType = .framed) :
    ∃ s' ppn rest, area.removeFrame s vpn = some (s', { area with dataFrames := rest }) ∧
      area.dataFrames = (vpn, ppn) :: rest ∧ Changes l s s' [ppn] [] ∧ s'.mem = s.mem := by
  have keys := (wf.shape _ List.mem_cons_self).keys
  have nonempty : (area.fromPage vpn).startVpn < (area.fromPage vpn).endVpn := inside
  rw [if_pos (show (area.fromPage vpn).mapType = .framed from framed),
    pages_shrink [] nonempty] at keys
  change area.dataFrames.map Prod.fst = vpn :: _ at keys
  cases isFrames : area.dataFrames with
  | nil =>
      rw [isFrames] at keys
      exact absurd keys (by simp)
  | cons entry rest =>
      obtain ⟨key, ppn⟩ := entry
      rw [isFrames, List.map_cons] at keys
      obtain ⟨rfl, restKeys⟩ := List.cons.inj keys
      have others : rest.filter (·.1 ≠ key) = rest := by
        refine List.filter_eq_self.mpr fun entry mem => ?_
        have isKey : entry.1 ∈ rest.map Prod.fst := List.mem_map_of_mem mem
        rw [restKeys] at isKey
        have lower : key + 1 ≤ entry.1 := (MapArea.mem_pages.mp isKey).1
        simp only [ne_eq, decide_not, Bool.not_eq_eq_eq_not, Bool.not_true, decide_eq_false_iff_not]
        omega
      have used : s.InUse l ppn := by
        refine wf.inUse ppn ?_
        simp [areaFrames_cons, MapArea.frames, MapArea.fromPage, isFrames]
      obtain ⟨freedPhys, done, changes, same⟩ :=
        dropFrames_spec wf.table.ok (List.nodup_singleton ppn) (by simpa using used)
      refine ⟨freedPhys, ppn, rest, ?_, rfl, changes, same⟩
      simp only [ne_eq] at others
      simp only [MapArea.removeFrame, isFrames, List.lookup_cons_self, Option.toList_some, done,
        Option.map_some, List.filter_cons_of_neg, ne_eq, not_true_eq_false, decide_false,
        Bool.false_eq_true, not_false_eq_true, others]

/-- `unmap_one` on the first page of the part of the area that is still mapped. -/
theorem unmapOne_spec (wf : SpaceWf l tramp s t (area.fromPage vpn :: areas))
    (inside : vpn < area.endVpn) (h : area.unmapOne s t vpn = some (s', area')) :
    (∃ entries, area' = { area with dataFrames := entries }) ∧
      SpaceShrunk l tramp s s' t (area.fromPage vpn :: areas)
      (area'.fromPage (vpn + 1) :: areas) := by
  have bound : area.endVpn ≤ 2 ^ 27 - 1 := (wf.shape _ List.mem_cons_self).bound
  obtain ⟨⟨freedPhys, removed⟩, isRemoved, h⟩ := Option.bind_eq_some_iff.mp h
  obtain ⟨unmapped, done, h⟩ := Option.map_eq_some_iff.mp h
  simp only [Prod.mk.injEq] at h
  obtain ⟨rfl, rfl⟩ := h
  split at isRemoved
  · next framed =>
    obtain ⟨_, ppn, rest, isFreed, isFrames, changes, same⟩ := removeFrame_spec wf inside framed
    obtain ⟨rfl, rfl⟩ := Prod.mk.inj (Option.some.inj (isRemoved.symm.trans isFreed))
    have data : ppn ∈ areaFrames (area.fromPage vpn :: areas) := by
      simp [areaFrames_cons, MapArea.frames, MapArea.fromPage, isFrames]
    have owned : t.Owned l freedPhys := by
      refine wf.table.congr changes.ok (fun other table => ?_) fun other _ offset _ => by rw [same]
      refine (changes.inUse other).mpr (.inl ⟨wf.table.inUse other table, ?_⟩)
      rw [List.mem_singleton]
      rintro rfl
      exact wf.notTable other data table
    have updated := (PageTable.unmap_spec owned (by omega) done).2
    exact ⟨⟨rest, rfl⟩, shrunk_removePage [(vpn, ppn)] rest wf inside isFrames
      (.inl ⟨framed, ppn, rfl⟩) changes same updated⟩
  · next notFramed =>
    obtain ⟨rfl, rfl⟩ := Prod.mk.inj (Option.some.inj isRemoved)
    have identical : area.mapType = .identical := by
      cases kind : area.mapType with
      | identical => rfl
      | framed => exact absurd kind notFramed
    have updated := (PageTable.unmap_spec wf.table (by omega) done).2
    exact ⟨⟨area.dataFrames, rfl⟩, shrunk_removePage [] area.dataFrames wf inside rfl
      (.inr ⟨identical, rfl⟩) (.refl wf.table.ok (by simp)) rfl updated⟩

/-- The assertion of `unmap` holds for a page of an area. -/
theorem unmapOne_isSome (wf : SpaceWf l tramp s t (area.fromPage vpn :: areas))
    (inside : vpn < area.endVpn) :
    (area.unmapOne s t vpn).isSome := by
  obtain ⟨target, -, found⟩ := wf.onArea _ List.mem_cons_self vpn ⟨Nat.le_refl _, inside⟩
  have unmaps : ∀ s', s'.mem = s.mem → (t.unmap s' vpn).isSome := by
    intro s' same
    rw [Option.isSome_iff_ne_none, ne_eq, PageTable.unmap_eq_none, not_not,
      PageTable.Maps, same, found]
    rfl
  unfold MapArea.unmapOne
  split
  · next framed =>
    obtain ⟨freed, ppn, rest, isFreed, -, -, same⟩ := removeFrame_spec wf inside framed
    rw [isFreed, Option.bind_some, Option.isSome_map]
    exact unmaps freed same
  · rw [Option.bind_some, Option.isSome_map]
    exact unmaps s rfl

/-- `unmap` for a run of pages. -/
theorem unmapPages_spec (n : Nat) (wf : SpaceWf l tramp s t (area.fromPage vpn :: areas))
    (inside : vpn + n ≤ area.endVpn)
    (h : area.unmapPages s t (List.range' vpn n) = some (s', area')) :
    (∃ entries, area' = { area with dataFrames := entries }) ∧
      SpaceShrunk l tramp s s' t (area.fromPage vpn :: areas)
      (area'.fromPage (vpn + n) :: areas) := by
  induction n generalizing s area vpn with
  | zero =>
      simp only [List.range'_zero, MapArea.unmapPages, Option.some.injEq, Prod.mk.injEq] at h
      obtain ⟨rfl, rfl⟩ := h
      exact ⟨⟨area.dataFrames, rfl⟩, wf, .refl wf.table.ok wf.own_inUse,
        fun _ mem => ⟨mem, fun _ _ => rfl⟩⟩
  | succ n ih =>
      rw [List.range'_succ, MapArea.unmapPages] at h
      obtain ⟨⟨unmapped, without⟩, first, h⟩ := Option.bind_eq_some_iff.mp h
      obtain ⟨⟨entries, rfl⟩, shrunk⟩ := unmapOne_spec wf (by omega) first
      obtain ⟨⟨entries', isArea'⟩, shrunk'⟩ := ih shrunk.wf (by simp only; omega) h
      refine ⟨⟨entries', isArea'⟩, ?_⟩
      rw [Nat.add_right_comm, Nat.add_assoc] at shrunk'
      exact shrunk.trans shrunk'

theorem unmapPages_isSome (n : Nat) (wf : SpaceWf l tramp s t (area.fromPage vpn :: areas))
    (inside : vpn + n ≤ area.endVpn) : (area.unmapPages s t (List.range' vpn n)).isSome := by
  induction n generalizing s area vpn with
  | zero => rfl
  | succ n ih =>
      obtain ⟨⟨unmapped, without⟩, first⟩ :=
        Option.isSome_iff_exists.mp (unmapOne_isSome wf (by omega))
      obtain ⟨⟨entries, rfl⟩, shrunk⟩ := unmapOne_spec wf (by omega) first
      rw [List.range'_succ, MapArea.unmapPages, first, Option.bind_some]
      exact ih shrunk.wf (by simp only; omega)

end CoreFromDust.Os.Mm
