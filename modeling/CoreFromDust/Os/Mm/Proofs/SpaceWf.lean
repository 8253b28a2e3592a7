import CoreFromDust.Os.Mm.MemorySet
import CoreFromDust.Os.Mm.Proofs.TableMaps

/-!
# Well-formed address spaces

`SpaceWf` ties the three parts of an address space together: the areas, the frames that they hold
for their pages, and the page table. It survives whatever others do to other frames, and a page
can be added at the end of an area or removed at its start. While `map` and `unmap` are at work
on an area, the part of the area that is mapped takes its place.
-/

namespace CoreFromDust.Os.Mm

namespace MapArea

/-- The page lies in the area. -/
def Has (area : MapArea) (vpn : Nat) : Prop := area.startVpn ≤ vpn ∧ vpn < area.endVpn

/-- The frame that the area has for a page. -/
def Target (area : MapArea) (vpn ppn : Nat) : Prop :=
  match area.mapType with
  | .identical => ppn = vpn
  | .framed => (vpn, ppn) ∈ area.dataFrames

/-- The range of the area lies below the page of the trampoline, and a framed area holds one frame
for each of its pages. -/
structure Shape (area : MapArea) : Prop where
  le : area.startVpn ≤ area.endVpn
  bound : area.endVpn ≤ 2 ^ 27 - 1
  keys : area.dataFrames.map Prod.fst = if area.mapType = .framed then area.pages else []

/-- Two areas have no page in common. -/
def Apart (area other : MapArea) : Prop := ∀ vpn, area.Has vpn → ¬ other.Has vpn

theorem Apart.symm {area other : MapArea} (apart : area.Apart other) : other.Apart area :=
  fun vpn isOther isArea => apart vpn isArea isOther

theorem mem_pages {area : MapArea} {vpn : Nat} : vpn ∈ area.pages ↔ area.Has vpn := by
  simp only [pages, List.mem_range'_1, Has]
  omega

end MapArea

/-- The frames of a list of areas. -/
def areaFrames (areas : List MapArea) : List Nat := areas.flatMap MapArea.frames

theorem areaFrames_cons (area : MapArea) (areas : List MapArea) :
    areaFrames (area :: areas) = area.frames ++ areaFrames areas := rfl

/-- The areas, their frames and the page table of an address space agree. The trampoline is in the
frame `tramp`, and frames are handed out from `l` on. -/
structure SpaceWf (l tramp : Nat) (s : Phys) (t : PageTable) (areas : List MapArea) : Prop where
  table : t.Owned l s
  nodup : (areaFrames areas).Nodup
  notTable : ∀ ppn ∈ areaFrames areas, ppn ∉ t.frames
  inUse : ∀ ppn ∈ areaFrames areas, s.InUse l ppn
  shape : ∀ area ∈ areas, area.Shape
  apart : areas.Pairwise MapArea.Apart
  onTrampoline : t.lookup s.mem (2 ^ 27 - 1) =
    some (.new tramp (PTEFlags.r ||| PTEFlags.x ||| PTEFlags.v))
  onArea : ∀ area ∈ areas, ∀ vpn, area.Has vpn → ∃ ppn, area.Target vpn ppn ∧
    t.lookup s.mem vpn = some (.new ppn (area.mapPerm.bits ||| PTEFlags.v))
  onNone : ∀ vpn < 2 ^ 27 - 1, (∀ area ∈ areas, ¬ area.Has vpn) → t.lookup s.mem vpn = none

namespace SpaceWf

variable {l tramp : Nat} {s s' : Phys} {t t' : PageTable} {area : MapArea} {areas : List MapArea}

theorem areaFrames_perm {areas areas' : List MapArea} (perm : areas.Perm areas') :
    (areaFrames areas).Perm (areaFrames areas') := perm.flatMap_right _

/-- The order of the areas does not matter. -/
theorem perm (wf : SpaceWf l tramp s t areas) {areas' : List MapArea} (perm : areas.Perm areas') :
    SpaceWf l tramp s t areas' where
  table := wf.table
  nodup := (areaFrames_perm perm).nodup_iff.mp wf.nodup
  notTable := fun ppn mem => wf.notTable ppn ((areaFrames_perm perm).mem_iff.mpr mem)
  inUse := fun ppn mem => wf.inUse ppn ((areaFrames_perm perm).mem_iff.mpr mem)
  shape := fun area mem => wf.shape area (perm.mem_iff.mpr mem)
  apart := (perm.pairwise_iff fun apart => MapArea.Apart.symm apart).mp wf.apart
  onTrampoline := wf.onTrampoline
  onArea := fun area mem => wf.onArea area (perm.mem_iff.mpr mem)
  onNone :=
    fun vpn small none => wf.onNone vpn small fun area mem => none area (perm.mem_iff.mp mem)

/-- The frames of the address space stay in use and its tables keep their bytes. -/
theorem congr (wf : SpaceWf l tramp s t areas) (ok : s'.Ok l)
    (inUse : ∀ ppn, s.InUse l ppn → ppn ∈ t.frames ∨ ppn ∈ areaFrames areas → s'.InUse l ppn)
    (same : ∀ ppn ∈ t.frames, SameFrame s.mem s'.mem ppn) : SpaceWf l tramp s' t areas := by
  have lookup : ∀ vpn, t.lookup s'.mem vpn = t.lookup s.mem vpn := by
    intro vpn
    rw [PageTable.lookup, PageTable.lookup, wf.table.translate_congr same]
  refine ⟨wf.table.congr ok (fun ppn mem => inUse ppn (wf.table.inUse ppn mem) (.inl mem)) same,
    wf.nodup, wf.notTable, fun ppn mem => inUse ppn (wf.inUse ppn mem) (.inr mem),
    wf.shape, wf.apart, ?_, ?_, ?_⟩
  · rw [lookup, wf.onTrampoline]
  · intro area mem vpn has
    rw [lookup]
    exact wf.onArea area mem vpn has
  · intro vpn small none
    rw [lookup]
    exact wf.onNone vpn small none

/-- All frames of the address space. -/
def own (t : PageTable) (areas : List MapArea) : List Nat := t.frames ++ areaFrames areas

theorem mem_own {ppn : Nat} : ppn ∈ own t areas ↔ ppn ∈ t.frames ∨ ppn ∈ areaFrames areas :=
  List.mem_append

theorem own_inUse (wf : SpaceWf l tramp s t areas) : ∀ ppn ∈ own t areas, s.InUse l ppn := by
  intro ppn mem
  rcases mem_own.mp mem with table | data
  · exact wf.table.inUse ppn table
  · exact wf.inUse ppn data

theorem own_nodup (wf : SpaceWf l tramp s t areas) : (own t areas).Nodup := by
  refine List.nodup_append.mpr ⟨wf.table.tree.nodup, wf.nodup, ?_⟩
  rintro ppn table other data rfl
  exact wf.notTable ppn data table

/-- What others do leaves the address space alone. -/
theorem other (wf : SpaceWf l tramp s t areas) {frames frames' : List Nat}
    (changes : Changes l s s' frames frames') (disjoint : ∀ ppn ∈ own t areas, ppn ∉ frames) :
    SpaceWf l tramp s' t areas := by
  refine wf.congr changes.ok ?_ ?_
  · intro ppn used mem
    exact (changes.inUse ppn).mpr (.inl ⟨used, disjoint ppn (mem_own.mpr mem)⟩)
  · intro ppn mem
    exact changes.other ppn (wf.table.inUse ppn mem) (disjoint ppn (mem_own.mpr (.inl mem)))

/-- A page that has no valid entry lies in no area. -/
theorem not_has (wf : SpaceWf l tramp s t areas) {vpn : Nat} (free : t.lookup s.mem vpn = none)
    (mem : area ∈ areas) : ¬ area.Has vpn := by
  intro has
  obtain ⟨ppn, -, found⟩ := wf.onArea area mem vpn has
  rw [free] at found
  exact absurd found (by simp)

theorem ne_trampoline (wf : SpaceWf l tramp s t areas) {vpn : Nat}
    (free : t.lookup s.mem vpn = none) : vpn ≠ 2 ^ 27 - 1 := by
  rintro rfl
  rw [wf.onTrampoline] at free
  exact absurd free (by simp)

/-- An area with the next page and, when it is framed, the frame of that page. -/
def grow (area : MapArea) (new : List (Nat × Nat)) : MapArea :=
  { area with endVpn := area.endVpn + 1, dataFrames := area.dataFrames ++ new }

theorem pages_grow {new : List (Nat × Nat)} (le : area.startVpn ≤ area.endVpn) :
    (grow area new).pages = area.pages ++ [area.endVpn] := by
  have count : area.endVpn + 1 - area.startVpn = area.endVpn - area.startVpn + 1 := by omega
  simp only [grow, MapArea.pages]
  rw [count, List.range'_concat]
  congr 2
  omega

/-- The page after the end of the first area has been mapped. -/
theorem addPage (wf : SpaceWf l tramp s t (area :: areas)) {ppn : Nat} {new : List (Nat × Nat)}
    (small : area.endVpn < 2 ^ 27) (free : t.lookup s.mem area.endVpn = none)
    (kind : area.mapType = .framed ∧ new = [(area.endVpn, ppn)] ∨
      area.mapType = .identical ∧ new = [] ∧ ppn = area.endVpn)
    (newInUse : ∀ entry ∈ new, s.InUse l entry.2)
    (newOwn : ∀ entry ∈ new, entry.2 ∉ own t (area :: areas))
    (updated : PageTable.Updated l area.endVpn
      (some (.new ppn (area.mapPerm.bits ||| PTEFlags.v))) s s' t t') :
    SpaceWf l tramp s' t' (grow area new :: areas) := by
  have shape := wf.shape area List.mem_cons_self
  have notTramp := wf.ne_trampoline free
  have frames : areaFrames (grow area new :: areas) =
      area.frames ++ (new.map Prod.snd ++ areaFrames areas) := by
    rw [areaFrames_cons, ← List.append_assoc]
    simp [grow, MapArea.frames]
  have frames_mem : ∀ other, other ∈ areaFrames (grow area new :: areas) ↔
      other ∈ areaFrames (area :: areas) ∨ other ∈ new.map Prod.snd := by
    intro other
    rw [frames]
    simp only [areaFrames_cons, List.mem_append]
    tauto
  have newNodup : (new.map Prod.snd).Nodup := by
    rcases kind with ⟨-, rfl⟩ | ⟨-, rfl, -⟩ <;> simp
  have dataInUse : ∀ other ∈ areaFrames (grow area new :: areas), s.InUse l other := by
    intro other mem
    rcases (frames_mem other).mp mem with old | isNew
    · exact wf.inUse other old
    · obtain ⟨entry, isEntry, rfl⟩ := List.mem_map.mp isNew
      exact newInUse entry isEntry
  have dataNotTable : ∀ other ∈ areaFrames (grow area new :: areas), other ∉ t.frames := by
    intro other mem
    rcases (frames_mem other).mp mem with old | isNew
    · exact wf.notTable other old
    · obtain ⟨entry, isEntry, rfl⟩ := List.mem_map.mp isNew
      exact fun table => newOwn entry isEntry (mem_own.mpr (.inl table))
  have otherPage : ∀ vpn, (∃ other ∈ area :: areas, other.Has vpn) →
      t'.lookup s'.mem vpn = t.lookup s.mem vpn := by
    rintro vpn ⟨other, mem, has⟩
    refine updated.other vpn ?_ ?_
    · have bound := (wf.shape other mem).bound
      have upper := has.2
      omega
    · rintro rfl
      exact wf.not_has free mem has
  refine ⟨updated.owned, ?_, ?_, ?_, ?_, ?_, ?_, ?_, ?_⟩
  · rw [frames, ← List.append_assoc]
    have old := wf.nodup
    rw [areaFrames_cons] at old
    have moved : (area.frames ++ new.map Prod.snd ++ areaFrames areas).Perm
        (area.frames ++ areaFrames areas ++ new.map Prod.snd) := by
      rw [List.append_assoc, List.append_assoc]
      exact (List.perm_append_comm).append_left _
    refine moved.nodup_iff.mpr (List.nodup_append.mpr ⟨old, newNodup, ?_⟩)
    rintro other isOld value isNew rfl
    obtain ⟨entry, isEntry, rfl⟩ := List.mem_map.mp isNew
    exact newOwn entry isEntry (mem_own.mpr (.inr isOld))
  · intro other mem
    exact updated.changes.not_mem (dataInUse other mem) (dataNotTable other mem)
  · intro other mem
    exact (updated.changes.inUse other).mpr (.inl ⟨dataInUse other mem, dataNotTable other mem⟩)
  · intro other mem
    rcases List.mem_cons.mp mem with rfl | mem
    · refine ⟨Nat.le_succ_of_le shape.le, by simp only [grow]; omega, ?_⟩
      have keys := shape.keys
      rcases kind with ⟨framed, rfl⟩ | ⟨identical, rfl, -⟩
      · rw [if_pos framed] at keys
        rw [if_pos (show (grow area _).mapType = .framed from framed), pages_grow shape.le, ← keys]
        simp [grow]
      · rw [if_neg (by simp [identical])] at keys
        rw [if_neg (by simp [grow, identical])]
        simpa [grow] using keys
    · exact wf.shape other (List.mem_cons_of_mem _ mem)
  · obtain ⟨first, rest⟩ := List.pairwise_cons.mp wf.apart
    refine List.pairwise_cons.mpr ⟨fun other mem vpn has isOther => ?_, rest⟩
    by_cases last : vpn = area.endVpn
    · subst last
      exact wf.not_has free (List.mem_cons_of_mem _ mem) isOther
    · refine first other mem vpn ⟨has.1, ?_⟩ isOther
      have upper : vpn < area.endVpn + 1 := has.2
      omega
  · rw [updated.other _ (by decide) notTramp.symm]
    exact wf.onTrampoline
  · intro other mem vpn has
    rcases List.mem_cons.mp mem with rfl | mem
    · by_cases last : vpn = area.endVpn
      · subst last
        refine ⟨ppn, ?_, updated.entry⟩
        rcases kind with ⟨framed, rfl⟩ | ⟨identical, -, isVpn⟩
        · simp [MapArea.Target, grow, framed]
        · simp [MapArea.Target, grow, identical, isVpn]
      · have upper : vpn < area.endVpn + 1 := has.2
        have has : area.Has vpn := ⟨has.1, by omega⟩
        obtain ⟨ppn, target, found⟩ := wf.onArea area List.mem_cons_self vpn has
        refine ⟨ppn, ?_, (otherPage vpn ⟨area, List.mem_cons_self, has⟩).trans found⟩
        unfold MapArea.Target at target ⊢
        rcases kind with ⟨framed, rfl⟩ | ⟨identical, -, -⟩
        · simp only [grow, framed] at target ⊢
          exact List.mem_append_left _ target
        · simpa only [grow, identical] using target
    · obtain ⟨ppn, target, found⟩ := wf.onArea other (List.mem_cons_of_mem _ mem) vpn has
      exact ⟨ppn, target, (otherPage vpn ⟨other, List.mem_cons_of_mem _ mem, has⟩).trans found⟩
  · intro vpn below none
    have differ : vpn ≠ area.endVpn := by
      rintro rfl
      refine none _ List.mem_cons_self ⟨shape.le, ?_⟩
      simp [grow]
    rw [updated.other vpn (by omega) differ]
    refine wf.onNone vpn below fun other mem has => ?_
    rcases List.mem_cons.mp mem with rfl | mem
    · exact none _ List.mem_cons_self ⟨has.1, Nat.lt_succ_of_lt has.2⟩
    · exact none other (List.mem_cons_of_mem _ mem) has

/-- An area without its first page; `rest` are the frames of the other pages. -/
def shrink (area : MapArea) (rest : List (Nat × Nat)) : MapArea :=
  { area with startVpn := area.startVpn + 1, dataFrames := rest }

theorem pages_shrink (rest : List (Nat × Nat)) (nonempty : area.startVpn < area.endVpn) :
    area.pages = area.startVpn :: (shrink area rest).pages := by
  have count : area.endVpn - area.startVpn = area.endVpn - (area.startVpn + 1) + 1 := by omega
  simp only [shrink, MapArea.pages]
  rw [count, List.range'_succ]

/-- The first page of the first area has been unmapped, and its frame freed. -/
theorem removePage (wf : SpaceWf l tramp s t (area :: areas)) {freedPhys : Phys}
    {old rest : List (Nat × Nat)} (nonempty : area.startVpn < area.endVpn)
    (split : area.dataFrames = old ++ rest)
    (kind : (area.mapType = .framed ∧ ∃ ppn, old = [(area.startVpn, ppn)]) ∨
      area.mapType = .identical ∧ old = [])
    (freed : Changes l s freedPhys (old.map Prod.snd) []) (sameMem : freedPhys.mem = s.mem)
    (updated : PageTable.Updated l area.startVpn none freedPhys s' t t) :
    SpaceWf l tramp s' t (shrink area rest :: areas) := by
  have shape := wf.shape area List.mem_cons_self
  have bound := shape.bound
  have frames : areaFrames (area :: areas) =
      old.map Prod.snd ++ areaFrames (shrink area rest :: areas) := by
    rw [areaFrames_cons, areaFrames_cons, ← List.append_assoc]
    simp [MapArea.frames, shrink, split]
  have subset :
      ∀ ppn ∈ areaFrames (shrink area rest :: areas), ppn ∈ areaFrames (area :: areas) := by
    intro ppn mem
    rw [frames]
    exact List.mem_append_right _ mem
  have nodup := wf.nodup
  rw [frames, List.nodup_append] at nodup
  have lookup : ∀ vpn < 2 ^ 27, vpn ≠ area.startVpn →
      t.lookup s'.mem vpn = t.lookup s.mem vpn := by
    intro vpn small differ
    rw [updated.other vpn small differ, sameMem]
  have below : ∀ other ∈ area :: areas, ∀ vpn, other.Has vpn → vpn < 2 ^ 27 := by
    intro other mem vpn has
    have upper := (wf.shape other mem).bound
    have inside := has.2
    omega
  have has_of_shrink : ∀ vpn, (shrink area rest).Has vpn → area.Has vpn ∧ vpn ≠ area.startVpn := by
    intro vpn has
    have lower : area.startVpn + 1 ≤ vpn := has.1
    exact ⟨⟨by omega, has.2⟩, by omega⟩
  have apartFirst := List.pairwise_cons.mp wf.apart
  refine ⟨updated.owned, nodup.2.1, fun ppn mem => wf.notTable ppn (subset ppn mem), ?_, ?_,
    ?_, ?_, ?_, ?_⟩
  · intro ppn mem
    refine (updated.changes.inUse ppn).mpr (.inl ⟨(freed.inUse ppn).mpr (.inl ⟨?_, ?_⟩), ?_⟩)
    · exact wf.inUse ppn (subset ppn mem)
    · exact fun isOld => nodup.2.2 ppn isOld ppn mem rfl
    · exact wf.notTable ppn (subset ppn mem)
  · intro other mem
    rcases List.mem_cons.mp mem with rfl | mem
    · refine ⟨nonempty, bound, ?_⟩
      have keys := shape.keys
      rw [split] at keys
      rcases kind with ⟨framed, ppn, rfl⟩ | ⟨identical, rfl⟩
      · rw [if_pos framed, pages_shrink rest nonempty] at keys
        rw [if_pos (show (shrink area rest).mapType = .framed from framed)]
        exact (List.cons.inj keys).2
      · rw [if_neg (by simp [identical])] at keys
        rw [if_neg (by simp [shrink, identical])]
        exact keys
    · exact wf.shape other (List.mem_cons_of_mem _ mem)
  · refine List.pairwise_cons.mpr ⟨fun other mem vpn has => ?_, apartFirst.2⟩
    exact apartFirst.1 other mem vpn (has_of_shrink vpn has).1
  · rw [lookup _ (by decide) (by omega)]
    exact wf.onTrampoline
  · intro other mem vpn has
    rcases List.mem_cons.mp mem with rfl | mem
    · obtain ⟨has, differ⟩ := has_of_shrink vpn has
      obtain ⟨ppn, target, found⟩ := wf.onArea area List.mem_cons_self vpn has
      refine ⟨ppn, ?_, (lookup vpn (below area List.mem_cons_self vpn has) differ).trans found⟩
      unfold MapArea.Target at target ⊢
      rcases kind with ⟨framed, first, rfl⟩ | ⟨identical, -⟩
      · simp only [shrink, framed] at target ⊢
        rw [split, List.singleton_append] at target
        rcases List.mem_cons.mp target with isFirst | isRest
        · exact absurd (Prod.mk.inj isFirst).1 differ
        · exact isRest
      · simpa only [shrink, identical] using target
    · obtain ⟨ppn, target, found⟩ := wf.onArea other (List.mem_cons_of_mem _ mem) vpn has
      refine ⟨ppn, target,
        (lookup vpn (below other (List.mem_cons_of_mem _ mem) vpn has) ?_).trans found⟩
      rintro rfl
      exact apartFirst.1 other mem _ ⟨Nat.le_refl _, nonempty⟩ has
  · intro vpn small none
    by_cases first : vpn = area.startVpn
    · subst first
      exact updated.entry
    · rw [lookup vpn (by omega) first]
      refine wf.onNone vpn small fun other mem has => ?_
      rcases List.mem_cons.mp mem with rfl | mem
      · have lower := has.1
        exact none _ List.mem_cons_self ⟨by simp only [shrink]; omega, has.2⟩
      · exact none other (List.mem_cons_of_mem _ mem) has

/-- An empty area may come and go. -/
theorem cons_empty (wf : SpaceWf l tramp s t areas) (empty : area.startVpn = area.endVpn)
    (bound : area.endVpn ≤ 2 ^ 27 - 1) (noFrames : area.dataFrames = []) :
    SpaceWf l tramp s t (area :: areas) := by
  have notHas : ∀ vpn, ¬ area.Has vpn := by
    intro vpn has
    have lower := has.1
    have upper := has.2
    omega
  have frames : areaFrames (area :: areas) = areaFrames areas := by
    simp [areaFrames_cons, MapArea.frames, noFrames]
  have pages : area.pages = [] := by simp [MapArea.pages, empty]
  refine ⟨wf.table, by rw [frames]; exact wf.nodup, by rw [frames]; exact wf.notTable,
    by rw [frames]; exact wf.inUse, ?_, ?_, wf.onTrampoline, ?_, ?_⟩
  · intro other mem
    rcases List.mem_cons.mp mem with rfl | mem
    · exact ⟨empty.le, bound, by simp [noFrames, pages]⟩
    · exact wf.shape other mem
  · exact List.pairwise_cons.mpr ⟨fun other _ vpn has => absurd has (notHas vpn), wf.apart⟩
  · intro other mem vpn has
    rcases List.mem_cons.mp mem with rfl | mem
    · exact absurd has (notHas vpn)
    · exact wf.onArea other mem vpn has
  · exact fun vpn small none => wf.onNone vpn small fun other mem =>
      none other (List.mem_cons_of_mem _ mem)

theorem of_cons_empty (wf : SpaceWf l tramp s t (area :: areas))
    (empty : area.startVpn = area.endVpn) :
    SpaceWf l tramp s t areas := by
  have subset : ∀ ppn ∈ areaFrames areas, ppn ∈ areaFrames (area :: areas) :=
    fun ppn mem => List.mem_append_right _ mem
  refine ⟨wf.table, (List.nodup_append.mp wf.nodup).2.1,
    fun ppn mem => wf.notTable ppn (subset ppn mem), fun ppn mem => wf.inUse ppn (subset ppn mem),
    fun other mem => wf.shape other (List.mem_cons_of_mem _ mem),
    (List.pairwise_cons.mp wf.apart).2, wf.onTrampoline,
    fun other mem => wf.onArea other (List.mem_cons_of_mem _ mem), ?_⟩
  intro vpn small none
  refine wf.onNone vpn small fun other mem has => ?_
  rcases List.mem_cons.mp mem with rfl | mem
  · have lower := has.1
    have upper := has.2
    omega
  · exact none other mem has

end SpaceWf

end CoreFromDust.Os.Mm
