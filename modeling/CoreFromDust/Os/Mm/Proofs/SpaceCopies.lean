import CoreFromDust.Os.Mm.Proofs.SpaceOps

/-!
# Building and copying address spaces

The entries of a user address space lead to the frames of its areas, to the trampoline or, when
they are empty, to frame 0, never to a table. So the kernel may write through them, and the
address spaces that `from_elf` and `from_existed_user` build are well-formed.
-/

namespace CoreFromDust.Os.Mm

open SpaceWf

variable {l tramp vpn : Nat} {s s' : Phys} {t t' : PageTable} {area : MapArea}
  {areas old new : List MapArea} {set set' : MemorySet}

/-! ## Frames of pages -/

/-- The trackers of a list of areas with their pages. -/
def areaEntries (areas : List MapArea) : List (Nat × Nat) := areas.flatMap MapArea.dataFrames

theorem areaFrames_eq (areas : List MapArea) :
    areaFrames areas = (areaEntries areas).map Prod.snd := by
  rw [areaEntries, List.map_flatMap]
  rfl

theorem mem_areaEntries {entry : Nat × Nat} (mem : area ∈ areas)
    (isEntry : entry ∈ area.dataFrames) :
    entry ∈ areaEntries areas :=
  List.mem_flatMap.mpr ⟨area, mem, isEntry⟩

/-- A frame is held for one page. -/
theorem SpaceWf.page_unique (wf : SpaceWf l tramp s t areas) {vpn' ppn : Nat}
    (first : (vpn, ppn) ∈ areaEntries areas) (second : (vpn', ppn) ∈ areaEntries areas) :
    vpn = vpn' := by
  have nodup := wf.nodup
  rw [areaFrames_eq] at nodup
  exact (Prod.mk.inj (List.inj_on_of_nodup_map nodup first second rfl)).1

/-- The frame of a page of a framed area. -/
theorem SpaceWf.framedPage (wf : SpaceWf l tramp s t areas) (mem : area ∈ areas)
    (framed : area.mapType = .framed) (has : area.Has vpn) :
    ∃ ppn, (vpn, ppn) ∈ areaEntries areas ∧
      t.lookup s.mem vpn = some (.new ppn (area.mapPerm.bits ||| PTEFlags.v)) := by
  obtain ⟨ppn, target, found⟩ := wf.onArea area mem vpn has
  simp only [MapArea.Target, framed] at target
  exact ⟨ppn, mem_areaEntries mem target, found⟩

theorem SpaceWf.entry_inUse (wf : SpaceWf l tramp s t areas) {ppn : Nat}
    (mem : (vpn, ppn) ∈ areaEntries areas) :
    ppn ∈ areaFrames areas ∧ s.InUse l ppn ∧ ppn < 2 ^ 44 := by
  have isFrame : ppn ∈ areaFrames areas := by
    rw [areaFrames_eq]
    exact List.mem_map.mpr ⟨(vpn, ppn), mem, rfl⟩
  have used := wf.inUse ppn isFrame
  exact ⟨isFrame, used, (used.lt wf.table.ok).2.2⟩

/-- `translate` takes a page number modulo `2 ^ 27`. -/
theorem translate_mod (t : PageTable) (m : Memory) (vpn : Nat) :
    t.translate m vpn = t.translate m (vpn % 2 ^ 27) := by
  have same : indexes vpn = indexes (vpn % 2 ^ 27) := by
    simp only [indexes, List.cons.injEq, and_true]
    omega
  rw [PageTable.translate, PageTable.translate, PageTable.findPte, PageTable.findPte, same]

/-- Where the entries of a user address space lead. -/
theorem SpaceWf.target (wf : SpaceWf l tramp s t areas)
    (framed : ∀ area ∈ areas, area.mapType = .framed) (small : tramp < 2 ^ 44)
    {pte : PageTableEntry} (found : t.translate s.mem vpn = some pte) :
    (vpn % 2 ^ 27, pte.ppn) ∈ areaEntries areas ∨ pte.ppn = tramp ∨ pte.ppn = 0 := by
  rw [translate_mod] at found
  have below : vpn % 2 ^ 27 < 2 ^ 27 := Nat.mod_lt _ (by decide)
  rcases wf.table.translate_clean found with valid | rfl
  · have lookup : t.lookup s.mem (vpn % 2 ^ 27) = some pte := by
      rw [PageTable.lookup, found, Option.filter_some_pos valid]
    by_cases isTramp : vpn % 2 ^ 27 = 2 ^ 27 - 1
    · rw [isTramp, wf.onTrampoline, Option.some.injEq] at lookup
      rw [← lookup, PageTableEntry.ppn_new _ small]
      exact .inr (.inl rfl)
    · by_cases inArea : ∃ area ∈ areas, area.Has (vpn % 2 ^ 27)
      · obtain ⟨area, mem, has⟩ := inArea
        obtain ⟨ppn, isEntry, entry⟩ := wf.framedPage mem (framed area mem) has
        rw [entry, Option.some.injEq] at lookup
        rw [← lookup, PageTableEntry.ppn_new _ (wf.entry_inUse isEntry).2.2]
        exact .inl isEntry
      · rw [wf.onNone _ (by omega) fun area mem has => inArea ⟨area, mem, has⟩] at lookup
        exact absurd lookup (by simp)
  · exact .inr (.inr rfl)

/-! ## Writing through the page table -/

/-- The memory after writes to data frames. -/
theorem SpaceWf.write (wf : SpaceWf l tramp s t areas) {mem : Memory}
    (same : ∀ ppn ∈ t.frames, SameFrame s.mem mem ppn) :
    SpaceWf l tramp { s with mem := mem } t areas :=
  wf.congr ⟨wf.table.ok.stack, wf.table.ok.le, wf.table.ok.small⟩ (fun _ used _ => used) same

/-- A frame in use that is not a data frame is not written through a user address space. -/
theorem SpaceWf.ne_target (wf : SpaceWf l tramp s t areas)
    (framed : ∀ area ∈ areas, area.mapType = .framed) (small : tramp < 2 ^ 44) (low : tramp < l)
    {pte : PageTableEntry} (found : t.translate s.mem vpn = some pte) {ppn : Nat}
    (used : s.InUse l ppn) (notData : ppn ∉ areaFrames areas) : ppn ≠ pte.ppn := by
  rintro rfl
  have lower := used.1
  rcases wf.target framed small found with isEntry | isTramp | isZero
  · exact notData (wf.entry_inUse isEntry).1
  · omega
  · omega

/-- `copy_data` writes to data frames of the address space. -/
theorem copyDataFrom_spec {data : List UInt8} {mem : Memory} (wf : SpaceWf l tramp s t areas)
    (framed : ∀ area ∈ areas, area.mapType = .framed) (small : tramp < 2 ^ 44) (low : tramp < l)
    (h : MapArea.copyDataFrom t s.mem vpn data = some mem) :
    ∀ ppn, s.InUse l ppn → ppn ∉ areaFrames areas → SameFrame s.mem mem ppn := by
  -- the loop takes a page of the data at a time
  generalize size : data.length = n
  induction n using Nat.strongRecOn generalizing s vpn data with
  | ind n ih =>
      rw [MapArea.copyDataFrom] at h
      obtain ⟨pte, found, h⟩ := Option.bind_eq_some_iff.mp h
      split at h
      · next short =>
        obtain rfl := Option.some.inj h
        intro ppn used notData offset bound
        exact Memory.bytes_writeBytes_other _ data (by omega)
          (wf.ne_target framed small low found used notData) bound
      · next long =>
        have page : (data.take 4096).length = 4096 := by
          rw [List.length_take]
          omega
        have first : ∀ ppn, s.InUse l ppn → ppn ∉ areaFrames areas →
            SameFrame s.mem (s.mem.writeBytes pte.ppn 0 (data.take 4096)) ppn := by
          intro ppn used notData offset bound
          exact Memory.bytes_writeBytes_other _ _ (by omega)
            (wf.ne_target framed small low found used notData) bound
        have wf' := wf.write fun ppn table => first ppn (wf.table.inUse ppn table) fun data =>
          wf.notTable ppn data table
        have rest := ih (n - 4096) (by omega) wf' h (by rw [List.length_drop, size])
        exact fun ppn used notData => (first ppn used notData).trans (rest ppn used notData)

/-- An operation of an address space on its frames. -/
structure SpaceStep (l tramp : Nat) (s s' : Phys) (set set' : MemorySet) : Prop where
  wf : set'.Wf l tramp s'
  changes : Changes l s s' set.own set'.own
  framed : set.Framed → set'.Framed

theorem SpaceStep.trans {s'' : Phys} {set'' : MemorySet} (first : SpaceStep l tramp s s' set set')
    (second : SpaceStep l tramp s' s'' set' set'') : SpaceStep l tramp s s'' set set'' :=
  ⟨second.wf, first.changes.trans second.changes, second.framed ∘ first.framed⟩

/-- `insert_framed_area`. -/
theorem insertFramedArea_step {start stop : Nat} {permission : MapPermission}
    (wf : set.Wf l tramp s)
    (h : set.insertFramedArea s (virtAddr start) (virtAddr stop) permission = some (s', set')) :
    SpaceStep l tramp s s' set set' := by
  obtain ⟨⟨area, entries, isArea, isAreas⟩, grown⟩ := insertFramedArea_spec wf h
  refine ⟨grown.wf, grown.changes, fun framed other mem => ?_⟩
  rw [isAreas] at mem
  rcases List.mem_append.mp mem with isOld | isLast
  · exact framed other isOld
  · rw [List.mem_singleton.mp isLast]
    exact (newArea_spec isArea).2.1

/-- `push` of a framed area with data. -/
theorem push_data_spec {data : List UInt8} (wf : set.Wf l tramp s) (isNew : NewArea area)
    (isFramed : area.mapType = .framed) (framed : set.Framed) (small : tramp < 2 ^ 44)
    (low : tramp < l) (h : set.push s area (some data) = some (s', set')) :
    SpaceStep l tramp s s' set set' := by
  obtain ⟨⟨mapped, table, withFrames⟩, isMapped, h⟩ := Option.bind_eq_some_iff.mp h
  obtain ⟨copied, isCopied, h⟩ := Option.map_eq_some_iff.mp h
  obtain ⟨rfl, rfl⟩ := Prod.mk.inj h
  have pushed : set.push s area none = some (mapped, ⟨table, set.areas ++ [withFrames]⟩) := by
    rw [MemorySet.push, isMapped]
    rfl
  obtain ⟨⟨entries, isAreas⟩, grown⟩ := push_spec wf isNew pushed
  have framed' : (⟨table, set.areas ++ [withFrames]⟩ : MemorySet).Framed := by
    intro other mem
    change other ∈ set.areas ++ [withFrames] at mem
    change set.areas ++ [withFrames] = _ at isAreas
    rw [isAreas] at mem
    rcases List.mem_append.mp mem with isOld | isLast
    · exact framed other isOld
    · rw [List.mem_singleton.mp isLast]
      exact isFramed
  simp only [MapArea.copyData] at isCopied
  split at isCopied
  · obtain ⟨mem, isMem, rfl⟩ := Option.map_eq_some_iff.mp isCopied
    have written := copyDataFrom_spec grown.wf framed' small low isMem
    refine ⟨grown.wf.write fun ppn isTable => ?_, grown.changes.trans ?_, fun _ => framed'⟩
    · exact written ppn (grown.wf.table.inUse ppn isTable) fun data =>
        grown.wf.notTable ppn data isTable
    · refine .write grown.wf.table.ok grown.wf.own_inUse fun ppn used notOwn => written ppn used ?_
      exact fun data => notOwn (mem_own.mpr (.inr data))
  · exact absurd isCopied (by simp)

/-- The segments of an ELF file. -/
theorem pushSegments_spec {segments : List Segment} {maxEndVpn maxEndVpn' : Nat}
    (wf : set.Wf l tramp s) (framed : set.Framed) (small : tramp < 2 ^ 44) (low : tramp < l)
    (h : set.pushSegments s maxEndVpn segments = some (s', set', maxEndVpn')) :
    SpaceStep l tramp s s' set set' := by
  induction segments generalizing s set maxEndVpn with
  | nil =>
      simp only [MemorySet.pushSegments, Option.some.injEq, Prod.mk.injEq] at h
      obtain ⟨rfl, rfl, -⟩ := h
      exact ⟨wf, .refl wf.table.ok wf.own_inUse, id⟩
  | cons ph segments ih =>
      obtain ⟨area, isArea, h⟩ := Option.bind_eq_some_iff.mp h
      obtain ⟨⟨pushed, withArea⟩, isPushed, h⟩ := Option.bind_eq_some_iff.mp h
      obtain ⟨isNew, isFramed, -⟩ := newArea_spec isArea
      have first := push_data_spec wf isNew isFramed framed small low isPushed
      exact first.trans (ih first.wf (first.framed framed) h)

/-- `from_elf` pushes the segments to an address space with the trampoline only. -/
theorem fromElf_parts {strampoline base entry : Nat} {elf : Elf} (ok : s.Ok l)
    (small : tramp < 2 ^ 44) (isTramp : pageAt (physAddr strampoline) = some tramp)
    (h : MemorySet.fromElf s strampoline elf = some (s', set', base, entry)) :
    ∃ (bare : Phys) (bareSet : MemorySet) (mapped : Phys) (set : MemorySet) (maxEndVpn : Nat),
      MemorySet.newBare s = some (bare, bareSet) ∧
      bareSet.mapTrampoline bare strampoline = some (mapped, set) ∧
      set.areas = [] ∧ set.Framed ∧ set.Wf l tramp mapped ∧ Changes l s mapped [] set.own ∧
      set.pushSegments mapped 0 elf.segments = some (s', set', maxEndVpn) ∧
      (usizeOfVirtAddr (maxEndVpn * 4096) + 4096) % 2 ^ 64 = base := by
  obtain ⟨⟨bare, bareSet⟩, isBare, h⟩ := Option.bind_eq_some_iff.mp h
  obtain ⟨⟨mapped, set⟩, isMapped, h⟩ := Option.bind_eq_some_iff.mp h
  obtain ⟨⟨pushed, last, maxEndVpn⟩, isPushed, h⟩ := Option.map_eq_some_iff.mp h
  simp only [Prod.mk.injEq] at h
  obtain ⟨rfl, rfl, isBase, -⟩ := h
  obtain ⟨noAreas, wf, changes⟩ := mapTrampoline_spec ok small isTramp isBare isMapped
  have framed : set.Framed := by
    intro area mem
    rw [noAreas] at mem
    exact absurd mem List.not_mem_nil
  exact ⟨bare, bareSet, mapped, set, maxEndVpn, isBare, isMapped, noAreas, framed, wf,
    changes, isPushed, isBase⟩

/-- `from_elf` builds a well-formed address space from free frames. -/
theorem fromElf_spec {strampoline base entry : Nat} {elf : Elf} (ok : s.Ok l)
    (small : tramp < 2 ^ 44)
    (low : tramp < l) (isTramp : pageAt (physAddr strampoline) = some tramp)
    (h : MemorySet.fromElf s strampoline elf = some (s', set', base, entry)) :
    set'.Wf l tramp s' ∧ set'.Framed ∧ Changes l s s' [] set'.own := by
  obtain ⟨_, _, _, _, _, -, -, -, framed, wf, changes, isPushed, -⟩ :=
    fromElf_parts ok small isTramp h
  have step := pushSegments_spec wf framed small low isPushed
  exact ⟨step.wf, step.framed framed, changes.trans step.changes⟩

/-- The sections of the kernel. -/
theorem pushSections_spec {sections : List (Nat × Nat × MapPermission)} (wf : set.Wf l tramp s)
    (h : set.pushSections s sections = some (s', set')) :
    set'.Wf l tramp s' ∧ Changes l s s' set.own set'.own := by
  induction sections generalizing s set with
  | nil =>
      obtain ⟨rfl, rfl⟩ := Prod.mk.inj (Option.some.inj h)
      exact ⟨wf, .refl wf.table.ok wf.own_inUse⟩
  | cons first sections ih =>
      obtain ⟨start, stop, permission⟩ := first
      obtain ⟨area, isArea, h⟩ := Option.bind_eq_some_iff.mp h
      obtain ⟨⟨pushed, withArea⟩, isPushed, h⟩ := Option.bind_eq_some_iff.mp h
      obtain ⟨-, grown⟩ := push_spec wf (newArea_spec isArea).1 isPushed
      obtain ⟨wf', changes⟩ := ih grown.wf h
      exact ⟨wf', grown.changes.trans changes⟩

/-- `new_kernel` builds a well-formed address space. -/
theorem newKernel_spec {layout : KernelLayout} (ok : s.Ok l) (small : tramp < 2 ^ 44)
    (isTramp : pageAt (physAddr layout.strampoline) = some tramp)
    (h : MemorySet.newKernel s layout = some (s', set')) :
    set'.Wf l tramp s' ∧ Changes l s s' [] set'.own := by
  obtain ⟨⟨bare, bareSet⟩, isBare, h⟩ := Option.bind_eq_some_iff.mp h
  obtain ⟨⟨mapped, withTramp⟩, isMapped, h⟩ := Option.bind_eq_some_iff.mp h
  obtain ⟨-, wf, changes⟩ := mapTrampoline_spec ok small isTramp isBare isMapped
  obtain ⟨wf', changes'⟩ := pushSections_spec wf h
  exact ⟨wf', changes.trans changes'⟩

end CoreFromDust.Os.Mm
