import CoreFromDust.Os.Mm.Proofs.ExecSpace

/-!
# Page tables without spare tables

`map` creates the tables on the way to its page and no others. So in a page table from which no
page has been removed, such as that of a new program, `translate` finds an entry for a page exactly
when some page in the range of the same last table is mapped.
-/

namespace CoreFromDust.Os.Mm

open SpaceWf

/-- The entries of two pages are in the same last table. -/
def SameTable (vpn vpn' : Nat) : Prop := vpn / 512 % 2 ^ 18 = vpn' / 512 % 2 ^ 18

instance (vpn vpn' : Nat) : Decidable (SameTable vpn vpn') := inferInstanceAs (Decidable (_ = _))

theorem upper_eq_iff {vpn vpn' : Nat} : upper vpn = upper vpn' ↔ SameTable vpn vpn' := by
  simp only [upper, SameTable, List.cons.injEq, and_true]
  omega

/-- Every last table has a valid entry. -/
def PageTable.Tight (t : PageTable) (m : Memory) : Prop :=
  ∀ vpn, (t.translate m vpn).isSome → ∃ page < 2 ^ 27, SameTable vpn page ∧ t.Maps m page

section Tables

variable {l tramp vpn : Nat} {s s' : Phys} {t t' : PageTable} {area area' : MapArea}
  {areas : List MapArea} {set set' : MemorySet}

/-- The pages with valid entries are those of the areas and the trampoline. -/
theorem SpaceWf.maps_iff (wf : SpaceWf l tramp s t areas) (small : vpn < 2 ^ 27) :
    t.Maps s.mem vpn ↔ (∃ area ∈ areas, area.Has vpn) ∨ vpn = 2 ^ 27 - 1 := by
  rw [PageTable.Maps]
  constructor
  · intro maps
    by_contra notMapped
    rw [not_or] at notMapped
    rw [wf.onNone vpn (by omega) fun area mem has => notMapped.1 ⟨area, mem, has⟩] at maps
    exact absurd maps (by simp)
  · rintro (⟨area, mem, has⟩ | rfl)
    · obtain ⟨ppn, -, found⟩ := wf.onArea area mem vpn has
      rw [found]
      rfl
    · rw [wf.onTrampoline]
      rfl

/-- In a tight page table, the last table for a page exists when it holds the entry of some page. -/
theorem SpaceWf.translate_isSome_iff (wf : SpaceWf l tramp s t areas)
    (tight : t.Tight s.mem) (vpn : Nat) :
    (t.translate s.mem vpn).isSome ↔
      ∃ page, ((∃ area ∈ areas, area.Has page) ∨ page = 2 ^ 27 - 1) ∧ SameTable vpn page := by
  constructor
  · intro found
    obtain ⟨page, small, same, maps⟩ := tight vpn found
    exact ⟨page, (wf.maps_iff small).mp maps, same⟩
  · rintro ⟨page, maps, same⟩
    have small : page < 2 ^ 27 := by
      rcases maps with ⟨area, mem, has⟩ | rfl
      · have bound := (wf.shape area mem).bound
        have below := has.2
        omega
      · decide
    obtain ⟨pte, found⟩ := Option.isSome_iff_exists.mp ((wf.maps_iff small).mpr maps)
    have onPage := (Option.filter_eq_some_iff.mp found).1
    rw [PageTable.translate_eq] at onPage
    obtain ⟨table, walk, -⟩ := Option.map_eq_some_iff.mp onPage
    rw [PageTable.translate_eq, upper_eq_iff.mpr same, walk]
    rfl

/-- `find_pte_create` creates tables on the way to its page only. -/
theorem findPteCreateFrom_walk {root index : Nat} {path rest frames frames' : List Nat} {ppn : Nat}
    {place : Nat × Nat} (ok : s.Ok l) (tree : TableTree s.mem root frames)
    (inUse : ∀ ppn ∈ frames, s.InUse l ppn) (found : Lib.walk s.mem.next root path = some ppn)
    (deep : path.length + rest.length = 2) (indices : Indices rest)
    (h : PageTable.findPteCreateFrom s frames ppn (rest ++ [index]) = some (s', frames', place))
    {path' : List Nat} (short : path'.length ≤ 2)
    (exists' : (Lib.walk s'.mem.next root path').isSome) :
    (Lib.walk s.mem.next root path').isSome ∨ path'.IsPrefix (path ++ rest) := by
  induction rest generalizing s frames ppn path with
  | nil =>
      simp only [List.nil_append, PageTable.findPteCreateFrom, Option.some.injEq,
        Prod.mk.injEq] at h
      obtain ⟨rfl, -, -⟩ := h
      exact .inl exists'
  | cons first rest ih =>
      have small : first < 512 := indices first List.mem_cons_self
      have indices' : Indices rest := fun i mem => indices i (List.mem_cons_of_mem _ mem)
      rw [List.length_cons] at deep
      have deep' : (path ++ [first]).length + rest.length = 2 := by
        rw [List.length_append, List.length_singleton]
        omega
      rw [List.append_cons]
      rw [findPteCreateFrom_cons] at h
      split at h
      · next valid =>
        have further :
            Lib.walk s.mem.next root (path ++ [first]) = some (s.mem.pte ppn first).ppn := by
          rw [Lib.walk_concat, found, Option.bind_some, next_eq_some small valid]
        exact ih ok tree inUse further deep' indices' h
      · next invalid =>
        obtain ⟨⟨fresh, allocated⟩, isAlloc, h⟩ := Option.bind_eq_some_iff.mp h
        have alloc := Phys.frameAlloc_spec ok isAlloc
        have free := next_eq_none invalid
        have grown := Grown.link tree inUse alloc found (by omega) small free
        have linked := tree.linked inUse alloc found (by omega) small free
        simp only [ppn_setPte_new alloc] at h
        rcases ih grown.changes.ok grown.tree (fun _ mem => grown.changes.mem_inUse mem)
          (linked.walk_new tree.tree) deep' indices' h with before | onPath
        · rw [linked.walk_eq tree.tree short] at before
          split at before
          · next isNew =>
            rw [isNew]
            exact .inr (List.prefix_append _ _)
          · exact .inl before
        · exact .inr onPath

/-- `map` adds entries for the pages of one last table. -/
theorem map_translate {ppn : Nat} {flags : UInt8} (owned : t.Owned l s)
    (h : t.map s vpn ppn flags = some (s', t')) {vpn' : Nat}
    (found : (t'.translate s'.mem vpn').isSome) :
    (t.translate s.mem vpn').isSome ∨ SameTable vpn' vpn := by
  obtain ⟨⟨grownPhys, grownTable, place⟩, isFound, h⟩ := Option.bind_eq_some_iff.mp h
  obtain ⟨sameRoot, grown, walk, isLower⟩ := PageTable.findPteCreate_spec owned isFound
  simp only at h
  split at h
  · exact absurd h (by simp)
  · obtain ⟨rfl, rfl⟩ := Prod.mk.inj (Option.some.inj h)
    obtain ⟨⟨grownPhys', frames, found'⟩, isFrom, isCreated⟩ := Option.map_eq_some_iff.mp isFound
    simp only [Prod.mk.injEq] at isCreated
    obtain ⟨rfl, rfl, rfl⟩ := isCreated
    rw [PageTable.translate_eq, Option.isSome_map] at found ⊢
    have kept :
        Lib.walk (grownPhys'.setPte found'.1 found'.2 (.new ppn (flags ||| PTEFlags.v))).mem.next
        t.rootPpn (upper vpn') = Lib.walk grownPhys'.mem.next t.rootPpn (upper vpn') := by
      rw [isLower]
      exact grown.tree.walk_setWord walk (upper_length vpn) (lower_lt vpn) (by simp [upper_length])
    rw [kept] at found
    have start : Lib.walk s.mem.next t.rootPpn [] = some t.rootPpn := rfl
    rcases findPteCreateFrom_walk owned.ok owned.tree owned.inUse start (by simp [upper_length])
      (indices_upper vpn) isFrom (by simp [upper_length]) found with before | onPath
    · exact .inl before
    · rw [List.nil_append] at onPath
      exact .inr (upper_eq_iff.mp (onPath.eq_of_length (by simp [upper_length])))

/-- `map` keeps a page table tight. -/
theorem PageTable.Tight.map {ppn : Nat} {flags : UInt8} (tight : t.Tight s.mem)
    (owned : t.Owned l s)
    (small : vpn < 2 ^ 27) (smallPpn : ppn < 2 ^ 44) (h : t.map s vpn ppn flags = some (s', t')) :
    t'.Tight s'.mem := by
  obtain ⟨-, updated⟩ := PageTable.map_spec owned small smallPpn h
  have isMapped : t'.Maps s'.mem vpn := by
    rw [PageTable.Maps, updated.entry]
    rfl
  intro vpn' found
  rcases map_translate owned h found with before | same
  · obtain ⟨page, below, samePage, maps⟩ := tight vpn' before
    by_cases isVpn : page = vpn
    · exact ⟨vpn, small, isVpn ▸ samePage, isMapped⟩
    · refine ⟨page, below, samePage, ?_⟩
      rw [PageTable.Maps, updated.other page below isVpn]
      exact maps
  · exact ⟨vpn, small, same, isMapped⟩

/-- Changes outside of the tables keep a page table tight. -/
theorem PageTable.Tight.congr {m : Memory} (tight : t.Tight s.mem) (owned : t.Owned l s)
    (same : ∀ ppn ∈ t.frames, SameFrame s.mem m ppn) : t.Tight m := by
  intro vpn found
  rw [owned.translate_congr same] at found
  obtain ⟨page, below, samePage, maps⟩ := tight vpn found
  refine ⟨page, below, samePage, ?_⟩
  rw [PageTable.Maps, PageTable.lookup, owned.translate_congr same]
  exact maps

/-- What others do keeps a page table tight. -/
theorem PageTable.Tight.other {frames frames' : List Nat} (tight : t.Tight s.mem)
    (owned : t.Owned l s)
    (changes : Changes l s s' frames frames') (disjoint : ∀ ppn ∈ t.frames, ppn ∉ frames) :
    t.Tight s'.mem :=
  tight.congr owned fun ppn mem => changes.other ppn (owned.inUse ppn mem) (disjoint ppn mem)

theorem mapOne_tight (wf : SpaceWf l tramp s t (area.upTo vpn :: areas)) (small : vpn < 2 ^ 27)
    (tight : t.Tight s.mem) (h : area.mapOne s t vpn = some (s', t', area')) : t'.Tight s'.mem := by
  unfold MapArea.mapOne at h
  split at h
  · obtain ⟨⟨mapped, table⟩, done, h⟩ := Option.map_eq_some_iff.mp h
    simp only [Prod.mk.injEq] at h
    obtain ⟨rfl, rfl, -⟩ := h
    exact tight.map wf.table small (by omega) done
  · obtain ⟨⟨ppn, allocated⟩, isAlloc, h⟩ := Option.bind_eq_some_iff.mp h
    obtain ⟨⟨inserted, withFrame⟩, isInserted, h⟩ := Option.bind_eq_some_iff.mp h
    obtain ⟨⟨mapped, table⟩, done, h⟩ := Option.map_eq_some_iff.mp h
    simp only [Prod.mk.injEq] at h
    obtain ⟨rfl, rfl, -⟩ := h
    have alloc := Phys.frameAlloc_spec wf.table.ok isAlloc
    rw [insertFrame_eq allocated ppn (wf.shape _ List.mem_cons_self)] at isInserted
    obtain ⟨rfl, rfl⟩ := Prod.mk.inj (Option.some.inj isInserted)
    have changes : Changes l s allocated [] [ppn] := Changes.alloc alloc (by simp)
    have wf' := wf.other changes (by simp)
    exact (tight.other wf.table changes (by simp)).map wf'.table small alloc.small done

theorem mapPages_tight (n : Nat) (wf : SpaceWf l tramp s t (area.upTo vpn :: areas))
    (small : vpn + n ≤ 2 ^ 27) (tight : t.Tight s.mem)
    (h : area.mapPages s t (List.range' vpn n) = some (s', t', area')) : t'.Tight s'.mem := by
  induction n generalizing s t area vpn with
  | zero =>
      simp only [List.range'_zero, MapArea.mapPages, Option.some.injEq, Prod.mk.injEq] at h
      obtain ⟨rfl, rfl, -⟩ := h
      exact tight
  | succ n ih =>
      rw [List.range'_succ, MapArea.mapPages] at h
      obtain ⟨⟨mapped, table, withPage⟩, first, h⟩ := Option.bind_eq_some_iff.mp h
      obtain ⟨-, grown⟩ := mapOne_spec wf (by omega) first
      exact ih grown.wf (by omega) (mapOne_tight wf (by omega) tight first) h

theorem push_tight (wf : set.Wf l tramp s) (isNew : NewArea area)
    (tight : set.pageTable.Tight s.mem)
    (h : set.push s area none = some (s', set')) : set'.pageTable.Tight s'.mem := by
  obtain ⟨⟨mapped, table, withFrames⟩, isMapped, h⟩ := Option.bind_eq_some_iff.mp h
  simp only [Option.map_some, Option.some.injEq, Prod.mk.injEq] at h
  obtain ⟨rfl, rfl⟩ := h
  have start := isNew.start
  have le := isNew.le
  have stop := isNew.stop
  have empty : SpaceWf l tramp s set.pageTable (area.upTo area.startVpn :: set.areas) :=
    wf.cons_empty rfl (by simp only [MapArea.upTo]; omega) isNew.noFrames
  exact mapPages_tight (area.endVpn - area.startVpn) empty (by omega) tight isMapped

theorem push_data_tight {data : List UInt8} (wf : set.Wf l tramp s) (isNew : NewArea area)
    (isFramed : area.mapType = .framed) (framed : set.Framed) (small : tramp < 2 ^ 44)
    (low : tramp < l)
    (tight : set.pageTable.Tight s.mem) (h : set.push s area (some data) = some (s', set')) :
    set'.pageTable.Tight s'.mem := by
  obtain ⟨⟨mapped, table, withFrames⟩, isMapped, h⟩ := Option.bind_eq_some_iff.mp h
  obtain ⟨copied, isCopied, h⟩ := Option.map_eq_some_iff.mp h
  obtain ⟨rfl, rfl⟩ := Prod.mk.inj h
  have pushed : set.push s area none = some (mapped, ⟨table, set.areas ++ [withFrames]⟩) := by
    rw [MemorySet.push, isMapped]
    rfl
  have tight' := push_tight wf isNew tight pushed
  obtain ⟨⟨entries, isAreas⟩, grown⟩ := push_spec wf isNew pushed
  have framed' : ∀ other ∈ set.areas ++ [withFrames], other.mapType = .framed := by
    intro other mem
    have isLast : withFrames = { area with dataFrames := entries } := by simpa using isAreas
    rcases List.mem_append.mp mem with isOld | isNew
    · exact framed other isOld
    · rw [List.mem_singleton.mp isNew, isLast]
      exact isFramed
  simp only [MapArea.copyData] at isCopied
  split at isCopied
  · obtain ⟨mem, isMem, rfl⟩ := Option.map_eq_some_iff.mp isCopied
    have written := copyDataFrom_spec grown.wf framed' small low isMem
    refine tight'.congr grown.wf.table fun ppn table => ?_
    exact written ppn (grown.wf.table.inUse ppn table) fun data => grown.wf.notTable ppn data table
  · exact absurd isCopied (by simp)

theorem pushSegments_tight {segments : List Segment} {maxEndVpn maxEndVpn' : Nat}
    (wf : set.Wf l tramp s) (framed : set.Framed) (small : tramp < 2 ^ 44) (low : tramp < l)
    (tight : set.pageTable.Tight s.mem)
    (h : set.pushSegments s maxEndVpn segments = some (s', set', maxEndVpn')) :
    set'.pageTable.Tight s'.mem := by
  induction segments generalizing s set maxEndVpn with
  | nil =>
      simp only [MemorySet.pushSegments, Option.some.injEq, Prod.mk.injEq] at h
      obtain ⟨rfl, rfl, -⟩ := h
      exact tight
  | cons ph segments ih =>
      obtain ⟨area, isArea, h⟩ := Option.bind_eq_some_iff.mp h
      obtain ⟨⟨pushed, withArea⟩, isPushed, h⟩ := Option.bind_eq_some_iff.mp h
      obtain ⟨isNew, isFramed, -⟩ := newArea_spec isArea
      have first := push_data_spec wf isNew isFramed framed small low isPushed
      exact ih first.wf (first.framed framed)
        (push_data_tight wf isNew isFramed framed small low tight isPushed) h

theorem insertFramedArea_tight {start stop : Nat} {permission : MapPermission}
    (wf : set.Wf l tramp s) (tight : set.pageTable.Tight s.mem)
    (h : set.insertFramedArea s (virtAddr start) (virtAddr stop) permission = some (s', set')) :
    set'.pageTable.Tight s'.mem := by
  obtain ⟨area, isArea, h⟩ := Option.bind_eq_some_iff.mp h
  exact push_tight wf (newArea_spec isArea).1 tight h

/-- The table of an address space with the trampoline only. -/
theorem mapTrampoline_tight {bare : Phys} {strampoline : Nat} (ok : s.Ok l) (small : tramp < 2 ^ 44)
    (isTramp : pageAt (physAddr strampoline) = some tramp)
    (isBare : MemorySet.newBare s = some (bare, set))
    (h : set.mapTrampoline bare strampoline = some (s', set')) : set'.pageTable.Tight s'.mem := by
  obtain ⟨⟨newPhys, table⟩, isNew, h'⟩ := Option.map_eq_some_iff.mp isBare
  obtain ⟨rfl, rfl⟩ := Prod.mk.inj h'
  obtain ⟨owned, -, empty⟩ := PageTable.new_spec ok isNew
  have page : pageAt (virtAddr trampoline) = some (2 ^ 27 - 1) := by decide
  rw [MemorySet.mapTrampoline, page, isTramp, Option.bind_some, Option.bind_some] at h
  obtain ⟨⟨mapped, table'⟩, done, h'⟩ := Option.map_eq_some_iff.mp h
  obtain ⟨rfl, rfl⟩ := Prod.mk.inj h'
  refine PageTable.Tight.map ?_ owned (by decide) small done
  intro vpn found
  rw [empty vpn] at found
  exact absurd found (by simp)

/-- The page table of a new program is tight. -/
theorem execSpace_tight {File : Type} {layout : KernelLayout} {k : Processes File}
    {id : Nat} {elf : Elf}
    {ustackBase entryPoint : Nat} (inv : Machine.Inv l tramp k.machine)
    (above : Above layout l tramp)
    (space : k.execSpace layout id elf = some (s', set', ustackBase, entryPoint)) :
    set'.pageTable.Tight s'.mem := by
  obtain ⟨pcb, -, space⟩ := Option.bind_eq_some_iff.mp space
  obtain ⟨old, isLive, space⟩ := Option.bind_eq_some_iff.mp space
  obtain ⟨⟨built, program, base, entry⟩, isElf, space⟩ := Option.bind_eq_some_iff.mp space
  obtain ⟨dropped, isDropped, space⟩ := Option.bind_eq_some_iff.mp space
  obtain ⟨⟨last, withRes⟩, isRes, space⟩ := Option.map_eq_some_iff.mp space
  simp only [Prod.mk.injEq] at space
  obtain ⟨rfl, rfl, -, -⟩ := space
  have tight : program.pageTable.Tight built.mem := by
    obtain ⟨_, _, _, _, _, isBare, isMapped, -, framedStart, wfStart, -, isPushed, -⟩ :=
      fromElf_parts inv.ok above.small above.isTramp isElf
    exact pushSegments_tight wfStart framedStart above.small above.low
      (mapTrampoline_tight inv.ok above.small above.isTramp isBare isMapped) isPushed
  have replaced := inv.replaced above isLive isElf isDropped
  have wfDropped := replaced.wfDropped
  -- the frames of the old address space are not tables of the new one
  have tightDropped := tight.other replaced.wf.table replaced.drops fun ppn mem =>
    replaced.apart ppn (mem_own.mpr (.inl mem))
  obtain ⟨⟨phys, withStack⟩, isStack, isRes⟩ := Option.bind_eq_some_iff.mp isRes
  have step := insertFramedArea_step wfDropped isStack
  exact insertFramedArea_tight step.wf (insertFramedArea_tight wfDropped tightDropped isStack) isRes

end Tables

end CoreFromDust.Os.Mm
