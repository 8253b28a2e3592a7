import CoreFromDust.Os.Mm.Proofs.LoadedSegments
import CoreFromDust.Os.Mm.ExecArgs

/-!
# The image of an ELF file

`from_elf` loads the segments of an ELF file. `copy_data` starts at the beginning of the first page
of a segment, also when the segment starts in the middle of it, so the program finds its image
exactly when the segments start at page boundaries or have only zeros in the file.
-/

namespace CoreFromDust.Os.Mm

open SpaceWf

/-- The segments fit into the lower half of the addresses, on pages of their own. -/
structure Elf.Loadable (elf : Elf) : Prop where
  fits : ∀ ph ∈ elf.segments, ph.Fits
  apart : elf.segments.Pairwise fun ph other => ∀ vpn, ph.Has vpn → ¬ other.Has vpn

/-- The image that the ELF file describes: the bytes of the file at the start of each segment, zeros
behind them, and pages with the flags of the segment that the user may access. -/
structure ElfImage (s : Phys) (set : MemorySet) (elf : Elf) : Prop where
  bytes : ∀ ph ∈ elf.segments, ∀ i < ph.memSize,
    set.pageTable.load s.mem (ph.virtualAddr + i) = some (ph.data.getD i 0)
  pages : ∀ ph ∈ elf.segments, ∀ vpn, ph.Has vpn → ∃ pte,
    set.pageTable.lookup s.mem vpn = some pte ∧ pte.flags = ph.permission.bits ||| PTEFlags.v

/-- The frames that `from_elf` may take: three for each page, and those of the trampoline. -/
def Elf.frameBound (elf : Elf) : Nat := 3 * (elf.segments.map Segment.pageCount).sum + 3

/-- A segment whose bytes in the file `copy_data` puts into their place: it starts at a page
boundary, or its bytes are those of a clean page. -/
def Segment.InPlace (ph : Segment) : Prop := ph.virtualAddr % 4096 = 0 ∨ ∀ byte ∈ ph.data, byte = 0

instance (ph : Segment) : Decidable ph.InPlace := inferInstanceAs (Decidable (_ ∨ _))

/-! ## Shifted bytes -/

theorem getD_eq_zero_iff {data : List UInt8} :
    (∀ i, data.getD i 0 = 0) ↔ ∀ byte ∈ data, byte = 0 := by
  constructor
  · intro zero byte mem
    obtain ⟨i, isByte⟩ := List.mem_iff_getElem?.mp mem
    have atIndex := zero i
    rwa [List.getD_eq_getElem?_getD, isByte] at atIndex
  · intro zero i
    rw [List.getD_eq_getElem?_getD]
    cases isByte : data[i]? with
    | none => rfl
    | some byte => exact zero byte (List.mem_of_getElem? isByte)

/-- Bytes with zeros behind them that are the same after a shift are zeros. -/
theorem getD_shift_iff {data : List UInt8} {n offset : Nat} (fits : data.length ≤ n) :
    (∀ i < n, data.getD (offset + i) 0 = data.getD i 0) ↔ offset = 0 ∨ ∀ byte ∈ data, byte = 0 := by
  rw [← getD_eq_zero_iff]
  constructor
  · intro same
    refine (Nat.eq_zero_or_pos offset).imp_right fun positive i => ?_
    -- each byte is the one `offset` further on, and so in the end one of the zeros
    induction distance : data.length - i using Nat.strongRecOn generalizing i with
    | ind distance ih =>
        rcases Nat.lt_or_ge i data.length with inside | beyond
        · rw [← same i (by omega)]
          exact ih (data.length - (offset + i)) (by omega) _ rfl
        · exact List.getD_eq_default _ _ beyond
  · rintro (rfl | zero) i -
    · rw [Nat.zero_add]
    · rw [zero, zero]

/-! ## Loaded segments -/

section Image

variable {l tramp : Nat} {s : Phys} {set : MemorySet} {area : MapArea} {ph : Segment}

/-- The bytes of a loaded segment, shifted by the offset of its start in the page. -/
theorem LoadedArea.load (loaded : LoadedArea s.mem ph area) (wf : set.Wf l tramp s)
    (mem : area ∈ set.areas) (fits : ph.Fits) {i : Nat} (bound : i < ph.memSize) :
    set.pageTable.load s.mem (ph.virtualAddr + i) =
    some (ph.data.getD (ph.virtualAddr % 4096 + i) 0) := by
  obtain ⟨start, stop⟩ := fits.range
  have below := fits.below
  have isVa : virtAddr (ph.virtualAddr + i) = ph.virtualAddr + i := Nat.mod_eq_of_lt (by omega)
  have has : area.Has (floor (virtAddr (ph.virtualAddr + i))) := by
    rw [loaded.isArea, isVa]
    refine ⟨?_, ?_⟩
    · simp only [start, floor]
      omega
    · simp only [stop, floor]
      omega
  obtain ⟨ppn, isTarget, found⟩ := wf.onArea area mem _ has
  have framed : area.mapType = .framed := by
    rw [loaded.isArea]
    rfl
  simp only [MapArea.Target, framed] at isTarget
  have isPpn := PageTableEntry.ppn_new (area.mapPerm.bits ||| PTEFlags.v)
    (wf.entry_inUse (mem_areaEntries mem isTarget)).2.2
  have isByte :=
    loaded.bytes _ ppn isTarget (pageOffset (ph.virtualAddr + i)) (Nat.mod_lt _ (by decide))
  rw [PageTable.load, PageTable.byteAt,
    if_pos (by rw [isVa, usizeOfVirtAddr_low (by omega)]), found,
    Option.map_some, Option.map_some, isPpn]
  rw [Memory.bytes] at isByte
  rw [isByte, isVa, start]
  congr 2
  unfold floor pageOffset
  omega

/-- The entries of the pages of a loaded segment. -/
theorem LoadedArea.lookup (loaded : LoadedArea s.mem ph area) (wf : set.Wf l tramp s)
    (mem : area ∈ set.areas) {vpn : Nat} (has : ph.Has vpn) :
    ∃ pte, set.pageTable.lookup s.mem vpn = some pte ∧
      pte.flags = ph.permission.bits ||| PTEFlags.v := by
  have hasArea : area.Has vpn := by
    rw [loaded.isArea]
    exact has
  have framed : area.mapType = .framed := by
    rw [loaded.isArea]
    rfl
  obtain ⟨ppn, isEntry, found⟩ := wf.framedPage mem framed hasArea
  refine ⟨_, found, ?_⟩
  rw [PageTableEntry.flags_new _ (wf.entry_inUse isEntry).2.2, loaded.isArea]
  rfl

/-- The image of loaded segments. -/
theorem elfImage_iff {elf : Elf} (wf : set.Wf l tramp s) (fits : ∀ ph ∈ elf.segments, ph.Fits)
    (loaded : List.Forall₂ (LoadedArea s.mem) elf.segments set.areas) :
    ElfImage s set elf ↔ ∀ ph ∈ elf.segments, ph.InPlace := by
  have bytes_iff : ∀ ph ∈ elf.segments, ph.InPlace ↔ ∀ i < ph.memSize,
      set.pageTable.load s.mem (ph.virtualAddr + i) = some (ph.data.getD i 0) := by
    intro ph mem
    obtain ⟨area, isArea, loadedArea⟩ := exists_of_forall₂ loaded.flip ph mem
    rw [Segment.InPlace, ← getD_shift_iff (fits ph mem).fileSize]
    refine forall₂_congr fun i bound => ?_
    rw [loadedArea.load wf isArea (fits ph mem) bound, Option.some.injEq]
  constructor
  · exact fun image ph mem => (bytes_iff ph mem).mpr (image.bytes ph mem)
  · intro inPlace
    refine ⟨fun ph mem => (bytes_iff ph mem).mp (inPlace ph mem), fun ph mem vpn has => ?_⟩
    obtain ⟨area, isArea, loadedArea⟩ := exists_of_forall₂ loaded.flip ph mem
    exact loadedArea.lookup wf isArea has

end Image

/-- In every state that a run of the machine reaches, `from_elf` of an ELF file with disjoint
segments that it loads builds the image exactly when the bytes of each segment are in place. With
enough free frames it loads the file exactly when the segments without a page find a table. -/
theorem fromElf_image_iff {layout : KernelLayout} {booted k : Machine} (mem : Memory)
    (boot : Machine.boot mem layout = some booted) (events : List SpaceEvent)
    (run : booted.steps layout events = some k) {elf : Elf} (loadable : elf.Loadable) :
    (∀ s set base entry, MemorySet.fromElf k.phys layout.strampoline elf =
      some (s, set, base, entry) → (ElfImage s set elf ↔ ∀ ph ∈ elf.segments, ph.InPlace)) ∧
    (elf.frameBound ≤ k.phys.freeFrames →
      ((MemorySet.fromElf k.phys layout.strampoline elf).isSome ↔
        FindsTables [] elf.segments)) := by
  obtain ⟨inv, above⟩ := Machine.inv_boot boot
  have ok := (inv.steps above run).ok
  refine ⟨fun s set base entry built => ?_, fun enough => ?_⟩
  · obtain ⟨_, _, _, start, _, -, -, noAreas, framedStart, wfStart, -, isPushed, -⟩ :=
      fromElf_parts ok above.small above.isTramp built
    obtain ⟨wf, -, -⟩ := fromElf_spec ok above.small above.low above.isTramp built
    obtain ⟨new, isAreas, loaded, -⟩ :=
      pushSegments_loads wfStart framedStart above.small above.low loadable.fits isPushed
    rw [noAreas, List.nil_append] at isAreas
    exact elfImage_iff wf loadable.fits (isAreas ▸ loaded)
  · rw [Elf.frameBound] at enough
    obtain ⟨bare, bareSet, mapped, start, isBare, isMapped, takes⟩ :=
      trampolineSpace_takes ok above.isTramp (by omega)
    obtain ⟨noAreas, wfStart, -⟩ := mapTrampoline_spec ok above.small above.isTramp isBare isMapped
    have tight := mapTrampoline_tight ok above.small above.isTramp isBare isMapped
    have framedStart : start.Framed := by
      intro area mem
      rw [noAreas] at mem
      exact absurd mem List.not_mem_nil
    simp only [MemorySet.fromElf, isBare, isMapped, Option.bind_some, Option.isSome_map]
    refine pushSegments_isSome_iff wfStart framedStart above.small above.low tight loadable.fits
      loadable.apart (fun _ _ _ mem => absurd mem List.not_mem_nil) (fun vpn => ?_) (by omega)
    simp [noAreas]

/-- A program with a page of code, and clean memory from the middle of the next page on. -/
def codeAndBss : Elf :=
  ⟨[⟨0x10000, 0x1000, true, false, true, [19, 5]⟩, ⟨0x11800, 0x900, true, true, false, []⟩],
    0x10000⟩

/-- Its image. -/
theorem fromElf_image_codeAndBss : ∃ booted s set base entry,
    Machine.boot (fun _ => 0) tinyLayout = some booted ∧
    MemorySet.fromElf booted.phys tinyLayout.strampoline codeAndBss = some (s, set, base, entry) ∧
    ElfImage s set codeAndBss := by
  have enough : ((Machine.boot (fun _ => 0) tinyLayout).map fun k =>
      decide (codeAndBss.frameBound ≤ k.phys.freeFrames)) = some true := by decide +kernel
  obtain ⟨booted, boot, enough⟩ := Option.map_eq_some_iff.mp enough
  have loadable : codeAndBss.Loadable := by
    refine ⟨fun ph mem => ?_, ?_⟩
    · simp only [codeAndBss, List.mem_cons, List.not_mem_nil, or_false] at mem
      rcases mem with rfl | rfl <;> exact ⟨by decide, by decide⟩
    · refine List.pairwise_cons.mpr ⟨fun ph mem vpn isCode isBss => ?_, List.pairwise_singleton _ _⟩
      obtain rfl := List.mem_singleton.mp mem
      have upper : vpn < 0x11 := isCode.2
      have lower : 0x11 ≤ vpn := isBss.1
      omega
  obtain ⟨image, returns⟩ := fromElf_image_iff _ boot [] rfl loadable
  have tables : FindsTables [] codeAndBss.segments :=
    ⟨.inl ⟨0x10, by decide⟩, .inl ⟨0x11, by decide⟩, trivial⟩
  obtain ⟨⟨s, set, base, entry⟩, built⟩ :=
    Option.isSome_iff_exists.mp ((returns (of_decide_eq_true enough)).mpr tables)
  exact ⟨booted, s, set, base, entry, boot, built,
    (image s set base entry built).mpr (by decide +kernel)⟩

/-- A program whose only byte is in the middle of a page. -/
def middleElf : Elf := ⟨[⟨0x10800, 1, true, false, true, [7]⟩], 0x10800⟩

/-- The byte is at the start of the page, and where it should be there is a zero. -/
theorem fromElf_image_middle : middleElf.Loadable ∧ ∃ booted s set base entry,
    Machine.boot (fun _ => 0) tinyLayout = some booted ∧
    MemorySet.fromElf booted.phys tinyLayout.strampoline middleElf = some (s, set, base, entry) ∧
    set.pageTable.load s.mem 0x10800 = some 0 ∧ ¬ ElfImage s set middleElf := by
  have loads : ((Machine.boot (fun _ => 0) tinyLayout).bind fun k =>
      (MemorySet.fromElf k.phys tinyLayout.strampoline middleElf).map fun built =>
        built.2.1.pageTable.load built.1.mem 0x10800) = some (some 0) := by decide +kernel
  obtain ⟨booted, boot, loads⟩ := Option.bind_eq_some_iff.mp loads
  obtain ⟨⟨s, set, base, entry⟩, built, isZero⟩ := Option.map_eq_some_iff.mp loads
  refine ⟨⟨?_, by simp [middleElf]⟩, booted, s, set, base, entry, boot, built, isZero,
    fun image => ?_⟩
  · intro ph mem
    obtain rfl := List.mem_singleton.mp mem
    exact ⟨by decide, by decide⟩
  · have isByte := image.bytes _ List.mem_cons_self 0 (by decide)
    exact absurd (isZero.symm.trans isByte) (by decide)

end CoreFromDust.Os.Mm
