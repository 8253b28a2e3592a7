import CoreFromDust.Os.Mm.Proofs.TableMaps

/-!
# The page table is a partial map

Runs of one page table: pages are mapped and unmapped while the rest of the kernel allocates and
frees other frames and writes to frames that are not tables of this page table. The valid
entries are those of the last `map` of each page.
-/

namespace CoreFromDust.Os.Mm

/-- A page table in memory; `others` are the frames that others have allocated. -/
structure TableRun where
  phys : Phys
  table : PageTable
  others : List Nat

/-- What happens in a run. -/
inductive TableEvent where
  | map (vpn ppn : Nat) (flags : UInt8)
  | unmap (vpn : Nat)
  /-- somebody else allocates a frame -/
  | otherAlloc
  /-- somebody else drops a frame -/
  | otherDrop (index : Nat)
  /-- somebody else writes to a frame that is not a table of the page table -/
  | otherWrite (ppn offset : Nat) (byte : UInt8)
  deriving DecidableEq

/-- The pages and frames of the calls are in range. -/
def TableEvent.InRange : TableEvent → Prop
  | .map vpn ppn _ => vpn < 2 ^ 27 ∧ ppn < 2 ^ 44
  | .unmap vpn => vpn < 2 ^ 27
  | _ => True

/-- What an event does to the map from pages to frames and flags. -/
def TableEvent.apply (f : Nat → Option (Nat × UInt8)) : TableEvent → Nat → Option (Nat × UInt8)
  | .map vpn ppn flags => Function.update f vpn (some (ppn, flags))
  | .unmap vpn => Function.update f vpn none
  | _ => f

/-- The frame and the flags of the last `map` of each page that has not been unmapped since. -/
def mappings (events : List TableEvent) : Nat → Option (Nat × UInt8) :=
  events.foldl TableEvent.apply fun _ => none

namespace TableRun

/-- One step of a run; `none` is a panic. -/
def step (s : TableRun) : TableEvent → Option TableRun
  | .map vpn ppn flags =>
      (s.table.map s.phys vpn ppn flags).map fun (phys, table) =>
        { s with phys := phys, table := table }
  | .unmap vpn => (s.table.unmap s.phys vpn).map fun phys => { s with phys := phys }
  | .otherAlloc =>
      match s.phys.frameAlloc with
      | none => some s
      | some (ppn, phys) => some { s with phys := phys, others := ppn :: s.others }
  | .otherDrop index =>
      match s.others[index]? with
      | none => some s
      | some ppn =>
          (s.phys.frameDealloc ppn).map fun phys =>
            { s with phys := phys, others := s.others.eraseIdx index }
  | .otherWrite ppn offset byte =>
      if ppn ∈ s.table.frames ∨ 4096 ≤ offset then some s
      else some { s with phys := { s.phys with mem := s.phys.mem.writeBytes ppn offset [byte] } }

/-- A run. -/
def steps (s : TableRun) : List TableEvent → Option TableRun
  | [] => some s
  | event :: events => (s.step event).bind fun s => s.steps events

/-- The entry that a page has when it is mapped. -/
def mappedEntry (mapping : Nat × UInt8) : PageTableEntry :=
  .new mapping.1 (mapping.2 ||| PTEFlags.v)

/-- The tables form a tree of frames that nobody else uses, and the valid entries are those of
the map. -/
structure Inv (l : Nat) (f : Nat → Option (Nat × UInt8)) (s : TableRun) : Prop where
  owned : s.table.Owned l s.phys
  inUse : ∀ ppn ∈ s.others, s.phys.InUse l ppn
  nodup : s.others.Nodup
  disjoint : ∀ ppn ∈ s.others, ppn ∉ s.table.frames
  range : ∀ vpn mapping, f vpn = some mapping → mapping.1 < 2 ^ 44
  lookup : ∀ vpn < 2 ^ 27, s.table.lookup s.phys.mem vpn = (f vpn).map mappedEntry

variable {l : Nat} {f : Nat → Option (Nat × UInt8)} {s s' : TableRun}

/-- Memory may change where the tables are not. -/
theorem Inv.outside (inv : Inv l f s) {phys : Phys} {others : List Nat} (ok : phys.Ok l)
    (inUse : ∀ ppn ∈ s.table.frames, phys.InUse l ppn)
    (same : ∀ ppn ∈ s.table.frames, SameFrame s.phys.mem phys.mem ppn)
    (othersInUse : ∀ ppn ∈ others, phys.InUse l ppn) (nodup : others.Nodup)
    (disjoint : ∀ ppn ∈ others, ppn ∉ s.table.frames) : Inv l f ⟨phys, s.table, others⟩ where
  owned := ⟨ok, inv.owned.tree.congr same, inUse⟩
  inUse := othersInUse
  nodup := nodup
  disjoint := disjoint
  range := inv.range
  lookup := by
    intro vpn small
    rw [← inv.lookup vpn small, PageTable.lookup, PageTable.lookup, inv.owned.translate_congr same]

/-- A change of one entry. -/
theorem Inv.updated (inv : Inv l f s) {phys : Phys} {table : PageTable} {vpn : Nat}
    (mapping : Option (Nat × UInt8)) (small : vpn < 2 ^ 27)
    (inRange : ∀ value, mapping = some value → value.1 < 2 ^ 44)
    (updated : PageTable.Updated l vpn (mapping.map mappedEntry) s.phys phys s.table table) :
    Inv l (Function.update f vpn mapping) { s with phys := phys, table := table } where
  owned := updated.owned
  inUse := fun ppn mem => (updated.changes.inUse ppn).mpr
    (.inl ⟨inv.inUse ppn mem, inv.disjoint ppn mem⟩)
  nodup := inv.nodup
  disjoint := fun ppn mem => updated.changes.not_mem (inv.inUse ppn mem) (inv.disjoint ppn mem)
  range := by
    intro vpn' value isValue
    by_cases same : vpn' = vpn
    · subst same
      rw [Function.update_self] at isValue
      exact inRange value isValue
    · rw [Function.update_of_ne same] at isValue
      exact inv.range vpn' value isValue
  lookup := by
    intro vpn' small'
    by_cases same : vpn' = vpn
    · subst same
      rw [Function.update_self]
      exact updated.entry
    · rw [Function.update_of_ne same]
      exact (updated.other vpn' small' same).trans (inv.lookup vpn' small')

theorem Inv.step (inv : Inv l f s) {event : TableEvent} (inRange : event.InRange)
    (h : s.step event = some s') : Inv l (event.apply f) s' := by
  cases event with
  | map vpn ppn flags =>
      obtain ⟨⟨phys, table⟩, done, rfl⟩ := Option.map_eq_some_iff.mp h
      have updated := (PageTable.map_spec inv.owned inRange.1 inRange.2 done).2
      refine inv.updated (some (ppn, flags)) inRange.1 ?_ updated
      rintro value isValue
      rw [← Option.some.inj isValue]
      exact inRange.2
  | unmap vpn =>
      obtain ⟨phys, done, rfl⟩ := Option.map_eq_some_iff.mp h
      have updated := (PageTable.unmap_spec inv.owned inRange done).2
      exact inv.updated none inRange (by simp) updated
  | otherAlloc =>
      simp only [TableRun.step] at h
      split at h
      · rw [Option.some.injEq] at h
        subst h
        exact inv
      · next ppn phys found =>
        obtain rfl := Option.some.inj h
        have alloc := Phys.frameAlloc_spec inv.owned.ok found
        refine inv.outside alloc.ok (fun other mem => (alloc.inUse other).mpr
          (.inl (inv.owned.inUse other mem))) ?_ ?_ ?_ ?_
        · intro other mem offset bound
          rw [alloc.mem, Memory.bytes_fill_other _ _ _ bound]
          rintro rfl
          exact alloc.fresh (inv.owned.inUse other mem)
        · intro other mem
          rcases List.mem_cons.mp mem with rfl | mem
          · exact (alloc.inUse other).mpr (.inr rfl)
          · exact (alloc.inUse other).mpr (.inl (inv.inUse other mem))
        · exact List.nodup_cons.mpr ⟨fun mem => alloc.fresh (inv.inUse ppn mem), inv.nodup⟩
        · intro other mem
          rcases List.mem_cons.mp mem with rfl | mem
          · exact fun isTable => alloc.fresh (inv.owned.inUse other isTable)
          · exact inv.disjoint other mem
  | otherDrop index =>
      simp only [TableRun.step] at h
      split at h
      · rw [Option.some.injEq] at h
        subst h
        exact inv
      · next ppn found =>
        have isOther := List.mem_of_getElem? found
        obtain ⟨freed, done, isFreed⟩ := Phys.frameDealloc_spec inv.owned.ok (inv.inUse ppn isOther)
        rw [done, Option.map_some, Option.some.injEq] at h
        subst h
        obtain ⟨below, isPpn⟩ := List.getElem?_eq_some_iff.mp found
        have erased : s.others.eraseIdx index = s.others.erase ppn := by
          rw [← isPpn, List.Nodup.erase_getElem inv.nodup]
        refine inv.outside isFreed.ok ?_ ?_ ?_ (inv.nodup.eraseIdx index) ?_
        · intro other isTable
          refine (isFreed.inUse other).mpr ⟨inv.owned.inUse other isTable, ?_⟩
          rintro rfl
          exact inv.disjoint other isOther isTable
        · intro other _ offset _
          rw [isFreed.mem]
        · intro other mem
          rw [erased, inv.nodup.mem_erase_iff] at mem
          exact (isFreed.inUse other).mpr ⟨inv.inUse other mem.2, mem.1⟩
        · exact fun other mem => inv.disjoint other (List.mem_of_mem_eraseIdx mem)
  | otherWrite ppn offset byte =>
      simp only [TableRun.step] at h
      split at h
      · rw [Option.some.injEq] at h
        subst h
        exact inv
      · next outside =>
        rw [Option.some.injEq] at h
        subst h
        rw [not_or] at outside
        refine inv.outside ⟨inv.owned.ok.stack, inv.owned.ok.le, inv.owned.ok.small⟩
          inv.owned.inUse ?_ inv.inUse inv.nodup inv.disjoint
        intro other mem i bound
        refine Memory.bytes_writeBytes_other _ [byte]
          (by rw [List.length_singleton]; omega) ?_ bound
        rintro rfl
        exact outside.1 mem

theorem Inv.steps {events : List TableEvent} (inv : Inv l f s)
    (inRange : ∀ event ∈ events, event.InRange) (h : s.steps events = some s') :
    Inv l (events.foldl TableEvent.apply f) s' := by
  induction events generalizing s f with
  | nil =>
      obtain rfl := Option.some.inj h
      exact inv
  | cons event events ih =>
      obtain ⟨next, taken, h⟩ := Option.bind_eq_some_iff.mp h
      exact ih (inv.step (inRange event List.mem_cons_self) taken)
        (fun other mem => inRange other (List.mem_cons_of_mem _ mem)) h

/-- The page table realises a map from pages to frames and flags. -/
structure PartialMap (f : Nat → Option (Nat × UInt8)) (s : TableRun) : Prop where
  /-- `map` panics for mapped pages, and when frames for its tables are lacking -/
  mapPanics : ∀ vpn ppn flags, vpn < 2 ^ 27 → ppn < 2 ^ 44 →
    (s.table.map s.phys vpn ppn flags = none ↔ (f vpn).isSome ∨
      s.phys.freeFrames < missingTables s.phys.mem s.table.rootPpn (indexes vpn))
  /-- `unmap` panics for pages that are not mapped -/
  unmapPanics : ∀ vpn < 2 ^ 27, s.table.unmap s.phys vpn = none ↔ f vpn = none
  mapped : ∀ vpn < 2 ^ 27, (f vpn).isSome ↔
    ∃ pte, s.table.translate s.phys.mem vpn = some pte ∧ pte.isValid
  entry : ∀ vpn < 2 ^ 27, ∀ ppn flags, f vpn = some (ppn, flags) →
    ∃ pte, s.table.translate s.phys.mem vpn = some pte ∧ pte.isValid ∧ pte.ppn = ppn ∧
      pte.flags = flags ||| PTEFlags.v
  absent : ∀ vpn < 2 ^ 27, f vpn = none → s.table.translate s.phys.mem vpn = none ∨
    ∃ pte, s.table.translate s.phys.mem vpn = some pte ∧ pte.isValid = false
  mapOther : ∀ vpn ppn flags phys table, vpn < 2 ^ 27 → ppn < 2 ^ 44 →
    s.table.map s.phys vpn ppn flags = some (phys, table) →
    ∀ vpn' < 2 ^ 27, vpn' ≠ vpn → table.lookup phys.mem vpn' = s.table.lookup s.phys.mem vpn'
  unmapOther : ∀ vpn phys, vpn < 2 ^ 27 → s.table.unmap s.phys vpn = some phys →
    ∀ vpn' < 2 ^ 27, vpn' ≠ vpn → s.table.lookup phys.mem vpn' = s.table.lookup s.phys.mem vpn'
  token : ∀ vpn, (PageTable.fromToken s.table.token).translate s.phys.mem vpn =
    s.table.translate s.phys.mem vpn

theorem Inv.maps (inv : Inv l f s) {vpn : Nat} (small : vpn < 2 ^ 27) :
    s.table.Maps s.phys.mem vpn ↔ (f vpn).isSome := by
  rw [PageTable.Maps, inv.lookup vpn small, Option.isSome_map]

theorem Inv.partialMap (inv : Inv l f s) : PartialMap f s where
  mapPanics := by
    intro vpn ppn flags small _
    rw [PageTable.map_eq_none inv.owned, inv.maps small]
  unmapPanics := by
    intro vpn small
    rw [PageTable.unmap_eq_none, inv.maps small, Option.not_isSome_iff_eq_none]
  mapped := by
    intro vpn small
    rw [← inv.maps small, PageTable.Maps, PageTable.lookup, Option.isSome_filter]
    simp [Option.any_eq_true]
  entry := by
    intro vpn small ppn flags isMapped
    have found := inv.lookup vpn small
    have ppnSmall := inv.range vpn _ isMapped
    rw [isMapped, Option.map_some, PageTable.lookup, Option.filter_eq_some_iff] at found
    exact ⟨_, found.1, found.2, PageTableEntry.ppn_new _ ppnSmall,
      PageTableEntry.flags_new _ ppnSmall⟩
  absent := by
    intro vpn small notMapped
    have found := inv.lookup vpn small
    rw [notMapped, Option.map_none, PageTable.lookup, Option.filter_eq_none_iff] at found
    cases entry : s.table.translate s.phys.mem vpn with
    | none => exact .inl rfl
    | some pte => exact .inr ⟨pte, rfl, by simpa using found pte entry⟩
  mapOther := fun vpn ppn flags phys table small ppnSmall done =>
    (PageTable.map_spec inv.owned small ppnSmall done).2.other
  unmapOther := fun vpn phys small done => (PageTable.unmap_spec inv.owned small done).2.other
  token := by
    intro vpn
    have root := (inv.owned.inUse _ inv.owned.root_mem).lt inv.owned.ok
    simp only [PageTable.translate, PageTable.findPte, PageTable.rootPpn_fromToken root.2.2]

/-- In every run of a fresh page table the valid entries are those of the last `map` of each
page. -/
theorem pageTable_partialMap {phys phys' : Phys} {table : PageTable} {others : List Nat}
    (ok : phys.Ok l) (inUse : ∀ ppn ∈ others, phys.InUse l ppn) (nodup : others.Nodup)
    (fresh : PageTable.new phys = some (phys', table)) {events : List TableEvent}
    (inRange : ∀ event ∈ events, event.InRange)
    (run : (⟨phys', table, others⟩ : TableRun).steps events = some s) :
    PartialMap (mappings events) s := by
  obtain ⟨owned, changes, empty⟩ := PageTable.new_spec ok fresh
  have start : Inv l (fun _ => none) ⟨phys', table, others⟩ := by
    refine ⟨owned, ?_, nodup, ?_, by simp, fun vpn _ => by rw [PageTable.lookup, empty vpn]; rfl⟩
    · exact fun ppn mem => (changes.inUse ppn).mpr (.inl ⟨inUse ppn mem, List.not_mem_nil⟩)
    · exact fun ppn mem => changes.not_mem (inUse ppn mem) List.not_mem_nil
  exact (start.steps inRange run).partialMap

/-- Three pages under two tables of the last level, one of which is unmapped and mapped again,
while the owner of frame 3 writes to it and drops it. -/
theorem pageTable_partialMap_three : ∃ events s,
    (PageTable.new ⟨fun _ => 7, 4, 20, []⟩).bind (fun (phys, table) =>
      (⟨phys, table, [3]⟩ : TableRun).steps events) = some s ∧
    PartialMap (mappings events) s ∧ mappings events 5 = some (2 ^ 44 - 1, 14) ∧
    mappings events 6 = none := by
  refine ⟨[.map 5 9 2, .map 6 9 4, .otherWrite 3 0 255, .unmap 5,
    .map (2 ^ 27 - 1) 7 6, .otherAlloc, .otherDrop 1, .map 5 (2 ^ 44 - 1) 14, .unmap 6], ?_⟩
  obtain ⟨s, run⟩ := Option.isSome_iff_exists.mp (show ((PageTable.new ⟨fun _ => 7, 4, 20, []⟩).bind
    fun (phys, table) => (⟨phys, table, [3]⟩ : TableRun).steps
      [.map 5 9 2, .map 6 9 4, .otherWrite 3 0 255, .unmap 5, .map (2 ^ 27 - 1) 7 6, .otherAlloc,
        .otherDrop 1, .map 5 (2 ^ 44 - 1) 14, .unmap 6]).isSome = true by decide +kernel)
  refine ⟨s, run, ?_, rfl, rfl⟩
  obtain ⟨⟨phys, table⟩, fresh, run⟩ := Option.bind_eq_some_iff.mp run
  have ok : Phys.Ok 3 ⟨fun _ => 7, 4, 20, []⟩ :=
    ⟨⟨by decide, List.nodup_nil, by simp⟩, by decide, by decide⟩
  refine pageTable_partialMap ok ?_ (List.nodup_singleton 3) fresh ?_ run
  · intro ppn mem
    rw [List.mem_singleton] at mem
    subst mem
    exact ⟨by decide, by decide, List.not_mem_nil⟩
  · simp [TableEvent.InRange]

end TableRun

end CoreFromDust.Os.Mm
