import CoreFromDust.Os.Mm.Proofs.SpaceCopies

/-!
# Copying an address space

`from_existed_user` maps the areas of another address space with frames of their own and copies
the bytes page by page. No page that has been copied is written again, and the source is only
read.
-/

namespace CoreFromDust.Os.Mm

open SpaceWf

variable {l tramp vpn ppn : Nat} {s s' : Phys} {t : PageTable} {area : MapArea}
  {areas rest : List MapArea} {src dst set set' : MemorySet}

/-! ## The entry of a page with a tracker -/

/-- Trackers are held for pages of the area. -/
theorem MapArea.Shape.has (shape : area.Shape) (mem : (vpn, ppn) ∈ area.dataFrames) :
    area.mapType = .framed ∧ area.Has vpn := by
  have key : vpn ∈ area.dataFrames.map Prod.fst := List.mem_map.mpr ⟨(vpn, ppn), mem, rfl⟩
  rw [shape.keys] at key
  split at key
  · next framed => exact ⟨framed, MapArea.mem_pages.mp key⟩
  · exact absurd key List.not_mem_nil

/-- A page has one tracker. -/
theorem MapArea.Shape.frame_unique {ppn' : Nat} (shape : area.Shape)
    (first : (vpn, ppn) ∈ area.dataFrames) (second : (vpn, ppn') ∈ area.dataFrames) :
    ppn = ppn' := by
  have keys := shape.keys
  rw [if_pos (shape.has first).1] at keys
  have nodup : (area.dataFrames.map Prod.fst).Nodup := by
    rw [keys]
    exact List.nodup_range'
  exact (Prod.mk.inj (List.inj_on_of_nodup_map nodup first second rfl)).2

/-- The page of a tracker has a valid entry with its frame and the permission of the area. -/
theorem SpaceWf.tracker_lookup (wf : SpaceWf l tramp s t areas) (mem : area ∈ areas)
    (isEntry : (vpn, ppn) ∈ area.dataFrames) :
    t.lookup s.mem vpn = some (.new ppn (area.mapPerm.bits ||| PTEFlags.v)) := by
  have shape := wf.shape area mem
  obtain ⟨framed, has⟩ := shape.has isEntry
  obtain ⟨ppn', target, found⟩ := wf.onArea area mem vpn has
  simp only [MapArea.Target, framed] at target
  rw [shape.frame_unique isEntry target]
  exact found

/-- `translate` of the page of a tracker. -/
theorem SpaceWf.tracker_translate (wf : SpaceWf l tramp s t areas)
    (isEntry : (vpn, ppn) ∈ areaEntries areas) :
    ∃ pte, t.translate s.mem vpn = some pte ∧ pte.ppn = ppn := by
  obtain ⟨area, mem, inArea⟩ := List.mem_flatMap.mp isEntry
  have found := wf.tracker_lookup mem inArea
  rw [PageTable.lookup, Option.filter_eq_some_iff] at found
  exact ⟨_, found.1, PageTableEntry.ppn_new _ (wf.entry_inUse isEntry).2.2⟩

theorem SpaceWf.tracker_unique (wf : SpaceWf l tramp s t areas) {ppn' : Nat}
    (first : (vpn, ppn) ∈ areaEntries areas) (second : (vpn, ppn') ∈ areaEntries areas) :
    ppn = ppn' := by
  obtain ⟨pte, found, isPpn⟩ := wf.tracker_translate first
  obtain ⟨pte', found', isPpn'⟩ := wf.tracker_translate second
  rw [found, Option.some.injEq] at found'
  rw [← isPpn, ← isPpn', found']

/-! ## Pages -/

/-- The loop over the pages of an area fills the frames of these pages. -/
theorem copyPages_spec {vpns : List Nat} (wfSrc : src.Wf l tramp s) (wfDst : dst.Wf l tramp s)
    (disjoint : ∀ ppn ∈ src.own, ppn ∉ dst.own) (nodup : vpns.Nodup)
    (pages : ∀ vpn ∈ vpns, (∃ ppn, (vpn, ppn) ∈ areaEntries src.areas) ∧
      ∃ ppn, (vpn, ppn) ∈ areaEntries dst.areas) :
    ∃ mem, MemorySet.copyPages src dst s.mem vpns = some mem ∧
      (∀ ppn, (∀ vpn ∈ vpns, (vpn, ppn) ∉ areaEntries dst.areas) → SameFrame s.mem mem ppn) ∧
      ∀ vpn ∈ vpns, ∀ source target, (vpn, source) ∈ areaEntries src.areas →
        (vpn, target) ∈ areaEntries dst.areas →
        ∀ offset < 4096, mem.bytes target offset = s.mem.bytes source offset := by
  induction vpns generalizing s with
  | nil => exact ⟨s.mem, rfl, fun _ _ _ _ => rfl, fun vpn mem => absurd mem List.not_mem_nil⟩
  | cons vpn vpns ih =>
      obtain ⟨notMem, nodup⟩ := List.nodup_cons.mp nodup
      obtain ⟨⟨source, isSource⟩, target, isTarget⟩ := pages vpn List.mem_cons_self
      obtain ⟨srcPte, srcFound, rfl⟩ := wfSrc.tracker_translate isSource
      obtain ⟨dstPte, dstFound, rfl⟩ := wfDst.tracker_translate isTarget
      have targetFrame := (wfDst.entry_inUse isTarget).1
      have targetOwn : dstPte.ppn ∈ dst.own := mem_own.mpr (.inr targetFrame)
      have other : ∀ ppn, ppn ≠ dstPte.ppn → SameFrame s.mem
          (s.mem.fill dstPte.ppn fun offset => s.mem.bytes srcPte.ppn offset) ppn :=
        fun ppn differ offset bound => s.mem.bytes_fill_other _ differ bound
      have notSrc : ∀ ppn ∈ src.own, ppn ≠ dstPte.ppn := by
        rintro ppn isSrc rfl
        exact disjoint _ isSrc targetOwn
      have wfSrc' := wfSrc.write fun ppn table => other ppn (notSrc ppn (mem_own.mpr (.inl table)))
      have wfDst' := wfDst.write fun ppn table => other ppn (by
        rintro rfl
        exact wfDst.notTable _ targetFrame table)
      obtain ⟨mem, isMem, kept, copied⟩ := ih wfSrc' wfDst' nodup
        fun vpn mem => pages vpn (List.mem_cons_of_mem _ mem)
      refine ⟨mem, ?_, ?_, ?_⟩
      · rw [MemorySet.copyPages, MemorySet.translate, MemorySet.translate, srcFound,
          Option.bind_some, dstFound, Option.bind_some]
        exact isMem
      · intro ppn noTarget
        refine (other ppn ?_).trans
          (kept ppn fun vpn mem => noTarget vpn (List.mem_cons_of_mem _ mem))
        rintro rfl
        exact noTarget vpn List.mem_cons_self isTarget
      · intro vpn' mem source' target' isSource' isTarget' offset bound
        rcases List.mem_cons.mp mem with rfl | mem
        · have sameSource := wfSrc.tracker_unique isSource isSource'
          have sameTarget := wfDst.tracker_unique isTarget isTarget'
          subst sameSource sameTarget
          have notAgain : ∀ vpn ∈ vpns, (vpn, dstPte.ppn) ∉ areaEntries dst.areas := by
            intro vpn later isEntry
            rw [wfDst.page_unique isEntry isTarget] at later
            exact notMem later
          rw [kept dstPte.ppn notAgain offset bound, Memory.bytes_fill _ _ bound]
        · rw [copied vpn' mem source' target' isSource' isTarget' offset bound]
          have isOwn : source' ∈ src.own := mem_own.mpr (.inr (wfSrc.entry_inUse isSource').1)
          exact other source' (notSrc source' isOwn) offset bound

/-! ## Areas -/

/-- The second area has the pages and the permission of the first one. -/
structure SameArea (area area' : MapArea) : Prop where
  startVpn : area'.startVpn = area.startVpn
  endVpn : area'.endVpn = area.endVpn
  mapType : area'.mapType = area.mapType
  mapPerm : area'.mapPerm = area.mapPerm

/-- The frames of the second area have in `m'` the bytes that those of the first one have in
`m`. -/
structure CopiedArea (m m' : Memory) (area area' : MapArea) : Prop extends SameArea area area' where
  bytes : ∀ vpn source target, (vpn, source) ∈ area.dataFrames → (vpn, target) ∈ area'.dataFrames →
    ∀ offset < 4096, m'.bytes target offset = m.bytes source offset

theorem areaEntries_append (areas areas' : List MapArea) :
    areaEntries (areas ++ areas') = areaEntries areas ++ areaEntries areas' :=
  List.flatMap_append

/-- Pages of different areas are different. -/
theorem SpaceWf.entry_apart (wf : SpaceWf l tramp s t (areas ++ [area])) (has : area.Has vpn) :
    (vpn, ppn) ∉ areaEntries areas := by
  intro isEntry
  obtain ⟨other, mem, inOther⟩ := List.mem_flatMap.mp isEntry
  have shape := wf.shape other (List.mem_append_left _ mem)
  have apart := (List.pairwise_append.mp wf.apart).2.2 other mem area List.mem_cons_self
  exact apart vpn (shape.has inOther).2 has

/-- An address space `set` is filled with copies of areas of another one. -/
structure Copying (l tramp : Nat) (src set : MemorySet) (s : Phys) : Prop where
  wfSrc : src.Wf l tramp s
  framedSrc : src.Framed
  wf : set.Wf l tramp s
  framed : set.Framed
  disjoint : ∀ ppn ∈ src.own, ppn ∉ set.own

theorem MapArea.Shape.fromAnother (shape : area.Shape) : NewArea area.fromAnother := by
  have bound := shape.bound
  have le := shape.le
  exact ⟨shape.le, by simp only [MapArea.fromAnother]; omega,
    by simp only [MapArea.fromAnother]; omega, rfl⟩

/-- One area has been pushed: its pages can be copied, and nothing else changes. -/
theorem Copying.pushed_spec (copying : Copying l tramp src set s) (isArea : area ∈ src.areas)
    {pushed : Phys}
    {grownSet : MemorySet} (isPushed : set.push s area.fromAnother none = some (pushed, grownSet)) :
    ∃ mem entries, MemorySet.copyPages src grownSet pushed.mem area.pages = some mem ∧
      grownSet.areas = set.areas ++ [{ area.fromAnother with dataFrames := entries }] ∧
      Copying l tramp src grownSet { pushed with mem := mem } ∧
      Changes l s { pushed with mem := mem } set.own grownSet.own ∧
      (∀ entry ∈ areaEntries src.areas, SameFrame s.mem mem entry.2) ∧
      (∀ entry ∈ areaEntries set.areas, SameFrame s.mem mem entry.2) ∧
      ∀ vpn source target, (vpn, source) ∈ area.dataFrames → (vpn, target) ∈ entries →
        ∀ offset < 4096, mem.bytes target offset = s.mem.bytes source offset := by
  obtain ⟨wfSrc, framedSrc, wf, framed, disjoint⟩ := copying
  have shape := wfSrc.shape area isArea
  obtain ⟨⟨entries, isAreas⟩, grown⟩ := push_spec wf shape.fromAnother isPushed
  have isFramed := framedSrc area isArea
  have isLast : { area.fromAnother with dataFrames := entries } ∈ grownSet.areas := by
    rw [isAreas]
    exact List.mem_append_right _ List.mem_cons_self
  have framed' : grownSet.Framed := by
    intro other mem
    rw [isAreas] at mem
    rcases List.mem_append.mp mem with isOld | isLast
    · exact framed other isOld
    · rw [List.mem_singleton.mp isLast]
      exact isFramed
  have wfSrc' := wfSrc.other grown.changes disjoint
  have disjoint' : ∀ ppn ∈ src.own, ppn ∉ grownSet.own := fun ppn isSrc =>
    grown.changes.not_mem (wfSrc.own_inUse ppn isSrc) (disjoint ppn isSrc)
  -- both address spaces have a frame for every page of the area
  have pages : ∀ vpn ∈ area.pages, (∃ ppn, (vpn, ppn) ∈ areaEntries src.areas) ∧
      ∃ ppn, (vpn, ppn) ∈ areaEntries grownSet.areas := by
    intro vpn isPage
    have has := MapArea.mem_pages.mp isPage
    obtain ⟨source, isSource, -⟩ := wfSrc'.framedPage isArea isFramed has
    obtain ⟨target, isTarget, -⟩ := grown.wf.framedPage isLast isFramed has
    exact ⟨⟨source, isSource⟩, target, isTarget⟩
  obtain ⟨mem, isCopied, kept, copied⟩ :=
    copyPages_spec wfSrc' grown.wf disjoint' List.nodup_range' pages
  have keptOutside : ∀ ppn, ppn ∉ areaFrames grownSet.areas → SameFrame pushed.mem mem ppn := by
    intro ppn outside
    refine kept ppn fun vpn _ isEntry => outside ?_
    exact (grown.wf.entry_inUse isEntry).1
  have srcKept : ∀ ppn ∈ src.own, SameFrame pushed.mem mem ppn := fun ppn isSrc =>
    keptOutside ppn fun data => disjoint' ppn isSrc (mem_own.mpr (.inr data))
  have wfSet :=
    grown.wf.write fun ppn table => keptOutside ppn fun data => grown.wf.notTable ppn data table
  have written : Changes l pushed { pushed with mem := mem } grownSet.own grownSet.own :=
    .write grown.wf.table.ok grown.wf.own_inUse fun ppn _ notOwn =>
      keptOutside ppn fun data => notOwn (mem_own.mpr (.inr data))
  refine ⟨mem, entries, isCopied, isAreas, ⟨?_, framedSrc, wfSet, framed', disjoint'⟩,
    grown.changes.trans written, ?_, ?_, ?_⟩
  · exact wfSrc'.write fun ppn table => srcKept ppn (mem_own.mpr (.inl table))
  · intro entry isSource
    obtain ⟨isFrame, used, -⟩ := wfSrc.entry_inUse isSource
    have isOwn : entry.2 ∈ src.own := mem_own.mpr (.inr isFrame)
    exact (grown.changes.other entry.2 used (disjoint entry.2 isOwn)).trans (srcKept entry.2 isOwn)
  · intro entry isEntry
    obtain ⟨vpn, ppn⟩ := entry
    have isGrown : (vpn, ppn) ∈ areaEntries grownSet.areas := by
      rw [isAreas, areaEntries_append]
      exact List.mem_append_left _ isEntry
    have wfGrown := grown.wf
    rw [isAreas] at wfGrown
    have notCopied : ∀ other ∈ area.pages, (other, ppn) ∉ areaEntries grownSet.areas := by
      intro other isPage isOther
      rw [grown.wf.page_unique isOther isGrown] at isPage
      have has : area.Has vpn := MapArea.mem_pages.mp isPage
      exact wfGrown.entry_apart has isEntry
    exact (grown.data ppn (wf.entry_inUse isEntry).1).trans (kept ppn notCopied)
  · intro vpn source target inArea inCopy offset bound
    have isSource := mem_areaEntries isArea inArea
    have isOwn : source ∈ src.own := mem_own.mpr (.inr (wfSrc.entry_inUse isSource).1)
    have isPage := MapArea.mem_pages.mpr (shape.has inArea).2
    rw [copied vpn isPage source target isSource (mem_areaEntries isLast inCopy) offset bound]
    exact grown.changes.other source (wfSrc.own_inUse source isOwn)
      (disjoint source isOwn) offset bound

/-- The loop of `from_existed_user` over the areas. -/
theorem copyAreas_spec (copying : Copying l tramp src set s)
    (subset : ∀ area ∈ rest, area ∈ src.areas)
    {m : Memory} (unchanged : ∀ entry ∈ areaEntries src.areas, SameFrame m s.mem entry.2)
    (h : MemorySet.copyAreas src set s rest = some (s', set')) :
    ∃ new, set'.areas = set.areas ++ new ∧ List.Forall₂ (CopiedArea m s'.mem) rest new ∧
      set'.Wf l tramp s' ∧ set'.Framed ∧ Changes l s s' set.own set'.own ∧
      ∀ entry ∈ areaEntries set.areas, SameFrame s.mem s'.mem entry.2 := by
  induction rest generalizing s set with
  | nil =>
      obtain ⟨rfl, rfl⟩ := Prod.mk.inj (Option.some.inj h)
      exact ⟨[], by simp, .nil, copying.wf, copying.framed,
        .refl copying.wf.table.ok copying.wf.own_inUse, fun _ _ _ _ => rfl⟩
  | cons area rest ih =>
      obtain ⟨⟨pushed, grownSet⟩, isPushed, h⟩ := Option.bind_eq_some_iff.mp h
      have isArea := subset area List.mem_cons_self
      obtain ⟨mem, entries, isCopied, isAreas, copying', changes, srcKept, setKept, copied⟩ :=
        copying.pushed_spec isArea isPushed
      simp only [isCopied, Option.bind_some] at h
      obtain ⟨new, isLast, copies, wfLast, framedLast, changes', kept⟩ := ih copying'
        (fun other isOther => subset other (List.mem_cons_of_mem _ isOther))
        (fun entry isSource => (unchanged entry isSource).trans (srcKept entry isSource)) h
      refine ⟨{ area.fromAnother with dataFrames := entries } :: new, ?_,
        .cons ⟨⟨rfl, rfl, rfl, rfl⟩, ?_⟩ copies, wfLast, framedLast, changes.trans changes', ?_⟩
      · rw [isLast, isAreas, List.append_assoc]
        rfl
      · intro vpn source target inArea inCopy offset bound
        have isTarget : (vpn, target) ∈ areaEntries grownSet.areas := by
          rw [isAreas]
          exact mem_areaEntries (List.mem_append_right _ List.mem_cons_self) inCopy
        rw [kept _ isTarget offset bound, copied vpn source target inArea inCopy offset bound,
          unchanged _ (mem_areaEntries isArea inArea) offset bound]
      · intro entry isEntry
        have isGrown : entry ∈ areaEntries grownSet.areas := by
          rw [isAreas, areaEntries_append]
          exact List.mem_append_left _ isEntry
        exact (setKept entry isEntry).trans (kept entry isGrown)

/-- `from_existed_user` starts with an address space that has the trampoline only. -/
theorem Copying.start {mapped : Phys} (wfSrc : src.Wf l tramp s) (framedSrc : src.Framed)
    (noAreas : set.areas = []) (wf : set.Wf l tramp mapped)
    (changes : Changes l s mapped [] set.own) :
    Copying l tramp src set mapped where
  wfSrc := wfSrc.other changes fun _ _ => List.not_mem_nil
  framedSrc := framedSrc
  wf := wf
  framed := by
    intro area mem
    rw [noAreas] at mem
    exact absurd mem List.not_mem_nil
  disjoint := fun ppn isSrc => changes.not_mem (wfSrc.own_inUse ppn isSrc) List.not_mem_nil

/-- `from_existed_user` copies an address space into free frames. -/
theorem fromExistedUser_spec {strampoline : Nat} (wfSrc : src.Wf l tramp s) (framedSrc : src.Framed)
    (small : tramp < 2 ^ 44) (isTramp : pageAt (physAddr strampoline) = some tramp)
    (h : MemorySet.fromExistedUser s strampoline src = some (s', set')) :
    List.Forall₂ (CopiedArea s.mem s'.mem) src.areas set'.areas ∧ set'.Wf l tramp s' ∧ set'.Framed ∧
      Changes l s s' [] set'.own := by
  obtain ⟨⟨bare, bareSet⟩, isBare, h⟩ := Option.bind_eq_some_iff.mp h
  obtain ⟨⟨mapped, withTramp⟩, isMapped, h⟩ := Option.bind_eq_some_iff.mp h
  obtain ⟨noAreas, wf, changes⟩ := mapTrampoline_spec wfSrc.table.ok small isTramp isBare isMapped
  have unchanged : ∀ entry ∈ areaEntries src.areas, SameFrame s.mem mapped.mem entry.2 :=
    fun entry isEntry =>
    changes.other entry.2 (wfSrc.entry_inUse isEntry).2.1 List.not_mem_nil
  obtain ⟨new, isAreas, copies, wf', framed', changes', -⟩ := copyAreas_spec
    (.start wfSrc framedSrc noAreas wf changes) (fun _ mem => mem) unchanged h
  rw [noAreas, List.nil_append] at isAreas
  rw [isAreas]
  rw [← isAreas] at copies ⊢
  exact ⟨copies, wf', framed', changes.trans changes'⟩

end CoreFromDust.Os.Mm
