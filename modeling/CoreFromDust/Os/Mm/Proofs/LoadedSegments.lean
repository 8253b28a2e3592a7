import CoreFromDust.Os.Mm.Proofs.EnoughFrames
import CoreFromDust.Os.Mm.Proofs.TightTables

/-!
# The pages of loaded segments

`copy_data` puts the bytes of a segment into the frames of its pages, the first byte at the start of
the first page. The frames are clean before, so the rest of the pages is zero, and later segments
leave them as they are.
-/

namespace CoreFromDust.Os.Mm

open SpaceWf

variable {l tramp vpn : Nat} {s s' : Phys} {t : PageTable} {area : MapArea} {areas : List MapArea}
  {set set' : MemorySet}

/-! ## `copy_data` -/

theorem bytes_writeBytes (m : Memory) (target ppn : Nat) {data : List UInt8} {offset : Nat}
    (fits : data.length ≤ 4096) (bound : offset < 4096) :
    (m.writeBytes target 0 data).bytes ppn offset =
      if ppn = target ∧ offset < data.length then data.getD offset 0 else m.bytes ppn offset := by
  unfold Memory.bytes Memory.writeBytes
  by_cases here : ppn = target ∧ offset < data.length
  · obtain ⟨rfl, inside⟩ := here
    rw [if_pos (by omega), if_pos ⟨rfl, inside⟩]
    congr 1
    omega
  · rw [if_neg (by omega), if_neg here]

/-- The byte that `copy_data` leaves at an offset of a page. -/
def copiedByte (vpn : Nat) (data : List UInt8) (old : UInt8) (page offset : Nat) : UInt8 :=
  if vpn ≤ page ∧ (page - vpn) * 4096 + offset < data.length then
    data.getD ((page - vpn) * 4096 + offset) 0
  else old

/-- The first page of the data, and the pages after it. -/
theorem copiedByte_step {data : List UInt8} (long : 4096 < data.length) (old : UInt8)
    {page offset : Nat} (bound : offset < 4096) :
    copiedByte (vpn + 1) (data.drop 4096)
    (if page = vpn then (data.take 4096).getD offset 0 else old)
      page offset = copiedByte vpn data old page offset := by
  unfold copiedByte
  rw [List.length_drop]
  by_cases first : page = vpn
  · subst first
    rw [if_neg (by omega), if_pos rfl, if_pos (by omega), List.getD_eq_getElem?_getD,
      List.getElem?_take_of_lt bound, Nat.sub_self, Nat.zero_mul, Nat.zero_add,
      List.getD_eq_getElem?_getD]
  · rw [if_neg first]
    by_cases later : vpn ≤ page ∧ (page - vpn) * 4096 + offset < data.length
    · rw [if_pos (by omega), if_pos later, List.getD_eq_getElem?_getD, List.getElem?_drop,
        List.getD_eq_getElem?_getD]
      congr 2
      omega
    · rw [if_neg (by omega), if_neg later]

/-- The loop of `copy_data` over data that fits the pages of an address space. -/
theorem copyDataFrom_bytes {data : List UInt8} (wf : SpaceWf l tramp s t areas)
    (pages : ∀ j, 4096 * j < data.length → ∃ ppn, (vpn + j, ppn) ∈ areaEntries areas)
    (first : (t.translate s.mem vpn).isSome) :
    ∃ mem, MapArea.copyDataFrom t s.mem vpn data = some mem ∧
      ∀ page ppn, (page, ppn) ∈ areaEntries areas → ∀ offset < 4096,
        mem.bytes ppn offset = copiedByte vpn data (s.mem.bytes ppn offset) page offset := by
  -- the loop takes a page of the data at a time
  generalize size : data.length = n
  induction n using Nat.strongRecOn generalizing s vpn data with
  | ind n ih =>
      obtain ⟨pte, found⟩ := Option.isSome_iff_exists.mp first
      rw [MapArea.copyDataFrom, found, Option.bind_some]
      -- a frame of the address space is the target exactly when its page is
      have isTarget : 0 < data.length → ∀ page ppn, (page, ppn) ∈ areaEntries areas →
          (ppn = pte.ppn ↔ page = vpn) := by
        intro nonempty page ppn isEntry
        obtain ⟨target, onPage⟩ := pages 0 (by omega)
        rw [Nat.add_zero] at onPage
        obtain ⟨pte', found', isPpn⟩ := wf.tracker_translate onPage
        rw [found, Option.some.injEq] at found'
        subst found' isPpn
        constructor
        · rintro rfl
          exact wf.page_unique isEntry onPage
        · rintro rfl
          exact wf.tracker_unique isEntry onPage
      split
      · next short =>
        refine ⟨_, rfl, fun page ppn isEntry offset bound => ?_⟩
        rw [bytes_writeBytes _ _ _ short bound, copiedByte]
        by_cases here : vpn ≤ page ∧ (page - vpn) * 4096 + offset < data.length
        · have isPage : page = vpn := by omega
          have isFrame := (isTarget (by omega) page ppn isEntry).mpr isPage
          subst isPage
          rw [if_pos ⟨isFrame, by omega⟩, if_pos here, Nat.sub_self, Nat.zero_mul, Nat.zero_add]
        · rw [if_neg, if_neg here]
          rintro ⟨isFrame, inside⟩
          have isPage := (isTarget (by omega) page ppn isEntry).mp isFrame
          exact here ⟨by omega, by omega⟩
      · next long =>
        have page : (data.take 4096).length = 4096 := by
          rw [List.length_take]
          omega
        have written : ∀ page ppn, (page, ppn) ∈ areaEntries areas → ∀ offset < 4096,
            (s.mem.writeBytes pte.ppn 0 (data.take 4096)).bytes ppn offset =
              if page = vpn then (data.take 4096).getD offset 0 else s.mem.bytes ppn offset := by
          intro other ppn isEntry offset bound
          rw [bytes_writeBytes _ _ _ (by omega) bound]
          simp only [isTarget (by omega) other ppn isEntry, page, bound, and_true]
        have isData : pte.ppn ∈ areaFrames areas := by
          obtain ⟨target, onPage⟩ := pages 0 (by omega)
          rw [Nat.add_zero] at onPage
          rw [← (isTarget (by omega) vpn target onPage).mpr rfl]
          exact (wf.entry_inUse onPage).1
        have wf' :
            SpaceWf l tramp { s with mem := s.mem.writeBytes pte.ppn 0 (data.take 4096) } t areas :=
          wf.write fun ppn table offset bound => by
            refine Memory.bytes_writeBytes_other _ _ (by omega) ?_ bound
            rintro rfl
            exact wf.notTable _ isData table
        have pages' : ∀ j, 4096 * j < (data.drop 4096).length →
            ∃ ppn, (vpn + 1 + j, ppn) ∈ areaEntries areas := by
          intro j inside
          rw [List.length_drop] at inside
          rw [Nat.add_assoc, Nat.add_comm 1]
          exact pages (j + 1) (by omega)
        have next :
            (t.translate (s.mem.writeBytes pte.ppn 0 (data.take 4096)) (vpn + 1)).isSome := by
          obtain ⟨ppn, isEntry⟩ := pages' 0 (by rw [List.length_drop]; omega)
          obtain ⟨pte', found', -⟩ := wf'.tracker_translate isEntry
          exact Option.isSome_iff_exists.mpr ⟨pte', found'⟩
        obtain ⟨mem, copied, bytes⟩ := ih (n - 4096) (by omega) wf' pages' next
          (by rw [List.length_drop, size])
        refine ⟨mem, copied, fun page ppn isEntry offset bound => ?_⟩
        rw [bytes page ppn isEntry offset bound, written page ppn isEntry offset bound,
          copiedByte_step (by omega) _ bound]

/-! ## `push` -/

/-- `push` with data is `push` without, and then `copy_data`. -/
theorem push_data_eq (wf : set.Wf l tramp s) (isNew : NewArea area)
    (framed : area.mapType = .framed) (data : List UInt8) :
    set.push s area (some data) = (set.push s area none).bind fun (s, grown) =>
      (MapArea.copyDataFrom grown.pageTable s.mem area.startVpn data).map fun mem =>
        ({ s with mem := mem }, grown) := by
  cases isMapped : area.map s set.pageTable with
  | none => simp only [MemorySet.push, isMapped, Option.bind_none]
  | some result =>
      obtain ⟨mapped, table, withFrames⟩ := result
      have pushed : set.push s area none = some (mapped, ⟨table, set.areas ++ [withFrames]⟩) := by
        rw [MemorySet.push, isMapped]
        rfl
      obtain ⟨⟨entries, isAreas⟩, -⟩ := push_spec wf isNew pushed
      have isLast : withFrames = { area with dataFrames := entries } := by simpa using isAreas
      rw [pushed, MemorySet.push, isMapped, Option.bind_some, Option.bind_some]
      simp only [MapArea.copyData, isLast, framed, if_true, Option.map_map]
      rfl

/-- `push` of an area with data for its pages: the data is at the start of the area, zeros are
behind it, and the other areas are as before. -/
theorem push_bytes {pushed : Phys} {grown : MemorySet} {data : List UInt8} (wf : set.Wf l tramp s)
    (isNew : NewArea area) (framed : area.mapType = .framed)
    (fits : data.length ≤ (area.endVpn - area.startVpn) * 4096)
    (isPushed : set.push s area none = some (pushed, grown))
    (first : (grown.pageTable.translate pushed.mem area.startVpn).isSome) :
    ∃ mem entries, set.push s area (some data) = some ({ pushed with mem := mem }, grown) ∧
      grown.areas = set.areas ++ [{ area with dataFrames := entries }] ∧
      (∀ vpn ppn, (vpn, ppn) ∈ entries → ∀ offset < 4096,
        mem.bytes ppn offset = data.getD ((vpn - area.startVpn) * 4096 + offset) 0) ∧
      ∀ entry ∈ areaEntries set.areas, SameFrame s.mem mem entry.2 := by
  obtain ⟨⟨entries, isAreas⟩, step⟩ := push_spec wf isNew isPushed
  have wf' := step.wf
  rw [isAreas] at wf'
  have isLast : { area with dataFrames := entries } ∈ grown.areas := by
    rw [isAreas]
    simp
  have pages : ∀ j, 4096 * j < data.length →
      ∃ ppn, (area.startVpn + j, ppn) ∈ areaEntries grown.areas := by
    intro j inside
    have has : MapArea.Has { area with dataFrames := entries } (area.startVpn + j) := by
      refine ⟨Nat.le_add_right _ _, ?_⟩
      simp only
      omega
    obtain ⟨ppn, isEntry, -⟩ := step.wf.framedPage isLast framed has
    exact ⟨ppn, isEntry⟩
  obtain ⟨mem, copied, bytes⟩ := copyDataFrom_bytes step.wf pages first
  refine ⟨mem, entries, ?_, isAreas, ?_, ?_⟩
  · rw [push_data_eq wf isNew framed, isPushed, Option.bind_some]
    simp only [copied, Option.map_some]
  · intro vpn ppn isEntry offset bound
    have onPage := mem_areaEntries isLast isEntry
    have lower : area.startVpn ≤ vpn := ((step.wf.shape _ isLast).has isEntry).2.1
    -- the frame is new, so it is clean
    have fresh : ppn ∉ areaFrames set.areas := by
      intro isOld
      have nodup := wf'.nodup
      rw [areaFrames, List.flatMap_append, List.nodup_append] at nodup
      refine nodup.2.2 ppn isOld ppn ?_ rfl
      rw [List.flatMap_singleton]
      exact List.mem_map.mpr ⟨(vpn, ppn), isEntry, rfl⟩
    rw [bytes vpn ppn onPage offset bound, copiedByte]
    split
    · rfl
    · next beyond =>
      rw [step.zero ppn (step.wf.entry_inUse onPage).1 fresh offset bound, List.getD_eq_default]
      exact Nat.le_of_not_lt fun inside => beyond ⟨lower, inside⟩
  · rintro ⟨vpn, ppn⟩ isEntry offset bound
    have isOld : (vpn, ppn) ∈ areaEntries grown.areas := by
      rw [isAreas, areaEntries_append]
      exact List.mem_append_left _ isEntry
    have outside :
        ¬ (area.startVpn ≤ vpn ∧ (vpn - area.startVpn) * 4096 + offset < data.length) := by
      rintro ⟨lower, inside⟩
      have has : MapArea.Has { area with dataFrames := entries } vpn := by
        refine ⟨lower, ?_⟩
        simp only
        omega
      exact wf'.entry_apart has isEntry
    rw [bytes vpn ppn isOld offset bound, copiedByte, if_neg outside]
    exact step.data ppn (wf.entry_inUse isEntry).1 offset bound

theorem copyDataFrom_first {m mem : Memory} {data : List UInt8}
    (copied : MapArea.copyDataFrom t m vpn data = some mem) : (t.translate m vpn).isSome := by
  rw [MapArea.copyDataFrom] at copied
  obtain ⟨pte, found, -⟩ := Option.bind_eq_some_iff.mp copied
  exact Option.isSome_iff_exists.mpr ⟨pte, found⟩

/-! ## Segments -/

/-- The permission of the pages of a segment: `U` and the flags of its header. -/
def Segment.permission (ph : Segment) : MapPermission := ⟨ph.read, ph.write, ph.execute, true⟩

/-- The area of a segment. -/
def Segment.mapArea (ph : Segment) : MapArea :=
  ⟨floor (virtAddr ph.virtualAddr), ph.endVpn, [], .framed, ph.permission⟩

/-- The bytes of the file fit into the segment, which ends in the lower half of the addresses. -/
structure Segment.Fits (ph : Segment) : Prop where
  fileSize : ph.data.length ≤ ph.memSize
  below : ph.virtualAddr + ph.memSize < 2 ^ 38

namespace Segment

variable {ph : Segment}

theorem Fits.range (fits : ph.Fits) : ph.mapArea.startVpn = ph.virtualAddr / 4096 ∧
    ph.mapArea.endVpn = (ph.virtualAddr + ph.memSize + 4095) / 4096 := by
  have below := fits.below
  refine ⟨?_, ?_⟩
  · simp only [mapArea, floor, virtAddr]
    omega
  · have isSum : (ph.virtualAddr + ph.memSize) % 2 ^ 64 % 2 ^ 39 = ph.virtualAddr + ph.memSize := by
      omega
    simp only [mapArea, endVpn, ceil, virtAddr, isSum]
    split <;> omega

theorem Fits.isArea (fits : ph.Fits) :
    MapArea.new (virtAddr ph.virtualAddr)
    (virtAddr ((ph.virtualAddr + ph.memSize) % 2 ^ 64)) .framed
      ⟨ph.read, ph.write, ph.execute, true⟩ = some ph.mapArea := by
  obtain ⟨start, stop⟩ := fits.range
  have le : ph.mapArea.startVpn ≤ ph.mapArea.endVpn := by omega
  exact if_pos le

theorem Fits.isNew (fits : ph.Fits) : NewArea ph.mapArea := (newArea_spec fits.isArea).1

theorem Fits.data_le (fits : ph.Fits) :
    ph.data.length ≤ (ph.mapArea.endVpn - ph.mapArea.startVpn) * 4096 := by
  obtain ⟨start, stop⟩ := fits.range
  have fileSize := fits.fileSize
  omega

theorem Fits.pushSegments_cons (fits : ph.Fits) (maxEndVpn : Nat) (segments : List Segment) :
    set.pushSegments s maxEndVpn (ph :: segments) =
      (set.push s ph.mapArea (some ph.data)).bind fun (s, set) =>
        set.pushSegments s ph.mapArea.endVpn segments := by
  rw [MemorySet.pushSegments, fits.isArea]
  rfl

end Segment

/-- The area holds the bytes of a segment: those of the file from the start of the first page on,
and zeros behind them. -/
structure LoadedArea (m : Memory) (ph : Segment) (area : MapArea) : Prop where
  isArea : area = { ph.mapArea with dataFrames := area.dataFrames }
  bytes : ∀ vpn ppn, (vpn, ppn) ∈ area.dataFrames → ∀ offset < 4096,
    m.bytes ppn offset = ph.data.getD ((vpn - ph.mapArea.startVpn) * 4096 + offset) 0

/-- The loop of `from_elf` loads the segments. -/
theorem pushSegments_loads {segments : List Segment} {maxEndVpn maxEndVpn' : Nat}
    (wf : set.Wf l tramp s)
    (framed : set.Framed) (small : tramp < 2 ^ 44) (low : tramp < l)
    (fits : ∀ ph ∈ segments, ph.Fits)
    (h : set.pushSegments s maxEndVpn segments = some (s', set', maxEndVpn')) :
    ∃ new, set'.areas = set.areas ++ new ∧ List.Forall₂ (LoadedArea s'.mem) segments new ∧
      ∀ entry ∈ areaEntries set.areas, SameFrame s.mem s'.mem entry.2 := by
  induction segments generalizing s set maxEndVpn with
  | nil =>
      simp only [MemorySet.pushSegments, Option.some.injEq, Prod.mk.injEq] at h
      obtain ⟨rfl, rfl, -⟩ := h
      exact ⟨[], by simp, .nil, fun _ _ _ _ => rfl⟩
  | cons ph segments ih =>
      have first := fits ph List.mem_cons_self
      rw [first.pushSegments_cons] at h
      obtain ⟨⟨copied, withArea⟩, isCopied, h⟩ := Option.bind_eq_some_iff.mp h
      have step := push_data_spec wf first.isNew rfl framed small low isCopied
      have both := isCopied
      rw [push_data_eq wf first.isNew rfl] at both
      obtain ⟨⟨pushed, grown⟩, isPushed, both⟩ := Option.bind_eq_some_iff.mp both
      obtain ⟨mem, isMem, -⟩ := Option.map_eq_some_iff.mp both
      obtain ⟨mem, entries, isCopied', isAreas, bytes, kept⟩ := push_bytes wf first.isNew rfl
        first.data_le isPushed (copyDataFrom_first isMem)
      rw [isCopied, Option.some.injEq, Prod.mk.injEq] at isCopied'
      obtain ⟨rfl, rfl⟩ := isCopied'
      obtain ⟨new, isLast, loaded, kept'⟩ := ih step.wf (step.framed framed)
        (fun other mem => fits other (List.mem_cons_of_mem _ mem)) h
      refine ⟨{ ph.mapArea with dataFrames := entries } :: new, ?_, .cons ⟨rfl, ?_⟩ loaded, ?_⟩
      · rw [isLast, isAreas, List.append_assoc]
        rfl
      · intro vpn ppn isEntry offset bound
        have isNew : (vpn, ppn) ∈ areaEntries withArea.areas := by
          rw [isAreas]
          exact mem_areaEntries (List.mem_append_right _ List.mem_cons_self) isEntry
        rw [kept' _ isNew offset bound]
        exact bytes vpn ppn isEntry offset bound
      · intro entry isEntry
        have isOld : entry ∈ areaEntries withArea.areas := by
          rw [isAreas, areaEntries_append]
          exact List.mem_append_left _ isEntry
        exact (kept entry isEntry).trans (kept' entry isOld)

/-- Each segment without pages finds the last table of its first page with the entry of a page of an
earlier segment. -/
def FindsTables : List Segment → List Segment → Prop
  | _, [] => True
  | earlier, ph :: segments =>
      ((∃ vpn, ph.Has vpn) ∨ ∃ other ∈ earlier, ∃ vpn, other.Has vpn ∧
        SameTable ph.mapArea.startVpn vpn) ∧ FindsTables (earlier ++ [ph]) segments

/-- Number of pages of a segment. -/
def Segment.pageCount (ph : Segment) : Nat := ph.mapArea.endVpn - ph.mapArea.startVpn

/-- With three frames for each page, the loop of `from_elf` over disjoint segments returns exactly
when the segments without pages find a table. -/
theorem pushSegments_isSome_iff {segments earlier : List Segment} {maxEndVpn : Nat}
    (wf : set.Wf l tramp s) (framed : set.Framed) (small : tramp < 2 ^ 44) (low : tramp < l)
    (tight : set.pageTable.Tight s.mem) (fits : ∀ ph ∈ segments, ph.Fits)
    (apart : segments.Pairwise fun ph other => ∀ vpn, ph.Has vpn → ¬ other.Has vpn)
    (apartEarlier : ∀ ph ∈ segments, ∀ other ∈ earlier, ∀ vpn, ph.Has vpn → ¬ other.Has vpn)
    (pages : ∀ vpn, (∃ area ∈ set.areas, area.Has vpn) ↔ ∃ ph ∈ earlier, ph.Has vpn)
    (enough : 3 * (segments.map Segment.pageCount).sum ≤ s.freeFrames) :
    (set.pushSegments s maxEndVpn segments).isSome ↔ FindsTables earlier segments := by
  induction segments generalizing s set earlier maxEndVpn with
  | nil => simp [MemorySet.pushSegments, FindsTables]
  | cons ph segments ih =>
      have first := fits ph List.mem_cons_self
      obtain ⟨start, stop⟩ := first.range
      have below := first.below
      obtain ⟨apartFirst, apart⟩ := List.pairwise_cons.mp apart
      rw [List.map_cons, List.sum_cons, Segment.pageCount] at enough
      have apartAreas : ∀ other ∈ set.areas, other.Apart ph.mapArea := by
        intro other mem vpn isOther isNew
        obtain ⟨before, isBefore, has⟩ := (pages vpn).mp ⟨other, mem, isOther⟩
        exact apartEarlier ph List.mem_cons_self before isBefore vpn isNew has
      obtain ⟨⟨pushed, grown⟩, isPushed, takes⟩ :=
        push_takes wf first.isNew rfl (by omega) apartAreas (by omega)
      obtain ⟨⟨entries, isAreas⟩, step⟩ := push_spec wf first.isNew isPushed
      have pages' : ∀ vpn, (∃ area ∈ grown.areas, area.Has vpn) ↔
          ∃ other ∈ earlier ++ [ph], other.Has vpn := by
        intro vpn
        have last : MapArea.Has { ph.mapArea with dataFrames := entries } vpn ↔
            ph.Has vpn := Iff.rfl
        simp only [isAreas, List.mem_append, List.mem_singleton, or_and_right, exists_or,
          exists_eq_left, pages vpn, last]
      -- the page of the first byte has an entry, valid or not
      have found : (grown.pageTable.translate pushed.mem ph.mapArea.startVpn).isSome ↔
          (∃ vpn, ph.Has vpn) ∨ ∃ other ∈ earlier, ∃ vpn, other.Has vpn ∧
            SameTable ph.mapArea.startVpn vpn := by
        have notTramp : ¬ SameTable ph.mapArea.startVpn (2 ^ 27 - 1) := by
          unfold SameTable
          omega
        rw [step.wf.translate_isSome_iff (push_tight wf first.isNew tight isPushed)]
        simp only [pages', List.mem_append, List.mem_singleton]
        constructor
        · rintro ⟨page, ⟨other, isEarlier | rfl, has⟩ | rfl, same⟩
          · exact .inr ⟨other, isEarlier, page, has, same⟩
          · exact .inl ⟨page, has⟩
          · exact absurd same notTramp
        · rintro (⟨vpn, lower, upper⟩ | ⟨other, isEarlier, vpn, has, same⟩)
          · exact ⟨ph.mapArea.startVpn,
              .inl ⟨ph, .inr rfl, Nat.le_refl _, lower.trans_lt upper⟩, rfl⟩
          · exact ⟨vpn, .inl ⟨other, .inl isEarlier, has⟩, same⟩
      rw [first.pushSegments_cons, FindsTables, ← found]
      by_cases isFound : (grown.pageTable.translate pushed.mem ph.mapArea.startVpn).isSome
      · obtain ⟨mem, -, isCopied, -⟩ := push_bytes wf first.isNew rfl first.data_le isPushed isFound
        have copied := push_data_spec wf first.isNew rfl framed small low isCopied
        have tight' := push_data_tight wf first.isNew rfl framed small low tight isCopied
        have sameFree : (⟨mem, pushed.allocator⟩ : Phys).freeFrames = pushed.freeFrames := rfl
        simp only at takes
        rw [isCopied, Option.bind_some]
        simp only [isFound, true_and]
        refine ih copied.wf (copied.framed framed) tight'
          (fun other mem => fits other (List.mem_cons_of_mem _ mem)) apart ?_ pages' (by omega)
        intro later isLater other isOther vpn has
        rcases List.mem_append.mp isOther with isEarlier | isLast
        · exact apartEarlier later (List.mem_cons_of_mem _ isLater) other isEarlier vpn has
        · rw [List.mem_singleton.mp isLast]
          exact fun isFirst => apartFirst later isLater vpn isFirst has
      · have stops : set.push s ph.mapArea (some ph.data) = none := by
          rw [push_data_eq wf first.isNew rfl, isPushed, Option.bind_some]
          cases copied :
            MapArea.copyDataFrom grown.pageTable pushed.mem ph.mapArea.startVpn ph.data with
          | none => simp only [copied, Option.map_none]
          | some mem => exact absurd (copyDataFrom_first copied) isFound
        simp [stops, isFound]

end CoreFromDust.Os.Mm
