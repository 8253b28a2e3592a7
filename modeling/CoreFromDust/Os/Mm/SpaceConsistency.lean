import CoreFromDust.Os.Mm.Spaces

/-!
# Address-space consistency

In every run of the machine the areas, the frames they hold and the page table of each address
space are in step, and no frame serves two pages or a page and a table.
-/

namespace CoreFromDust.Os.Mm

/-- The page of the trampoline. -/
def trampolineVpn : Nat := floor (virtAddr trampoline)

/-- The areas of an address space, their frames and its page table in memory are in step. -/
structure MemorySet.Consistent (m : Memory) (set : MemorySet) : Prop where
  apart : set.areas.Pairwise MapArea.Apart
  avoid : ∀ area ∈ set.areas, ¬ area.Has trampolineVpn
  valid : ∀ vpn < 2 ^ 27, set.pageTable.Maps m vpn ↔
    vpn = trampolineVpn ∨ ∃ area ∈ set.areas, area.Has vpn
  keys : ∀ area ∈ set.areas, area.mapType = .framed →
    ∀ vpn, (∃ ppn, (vpn, ppn) ∈ area.dataFrames) ↔ area.Has vpn
  oneFrame : ∀ area ∈ set.areas, ∀ vpn ppn ppn',
    (vpn, ppn) ∈ area.dataFrames → (vpn, ppn') ∈ area.dataFrames → ppn = ppn'
  entry : ∀ area ∈ set.areas, ∀ vpn ppn, (vpn, ppn) ∈ area.dataFrames →
    ∃ pte, set.translate m vpn = some pte ∧ pte.isValid ∧ pte.ppn = ppn ∧
      pte.flags = area.mapPerm.bits ||| PTEFlags.v

/-- Every address space of the machine is in order, and no frame is used twice. -/
structure Machine.Consistent (k : Machine) : Prop where
  space : ∀ id set, k.live id = some set → set.Consistent k.phys.mem
  /-- a frame is the target of one page of one address space -/
  onePage : ∀ id id' space space' area area' vpn vpn' ppn, k.spaces id = some space →
    k.spaces id' = some space' → area ∈ space.set.areas → area' ∈ space'.set.areas →
    (vpn, ppn) ∈ area.dataFrames → (vpn', ppn) ∈ area'.dataFrames → id = id' ∧ vpn = vpn'
  /-- the target of a page is no table, neither by the trackers nor by the links -/
  noTable : ∀ id id' space space' area vpn ppn, k.spaces id = some space →
    k.spaces id' = some space' → area ∈ space.set.areas → (vpn, ppn) ∈ area.dataFrames →
    ppn ∉ space'.set.pageTable.frames
  tables : ∀ id set ppn, k.live id = some set →
    Lib.Reaches k.phys.mem.next set.pageTable.rootPpn 2 ppn → ppn ∈ set.pageTable.frames

open SpaceWf

variable {l tramp : Nat} {s : Phys} {k : Machine} {set : MemorySet}

theorem SpaceWf.consistent (wf : set.Wf l tramp s) : set.Consistent s.mem where
  apart := wf.apart
  avoid := by
    intro area mem has
    have bound := (wf.shape area mem).bound
    have isLast : trampolineVpn = 2 ^ 27 - 1 := by decide
    have upper := has.2
    omega
  valid := by
    intro vpn small
    have isLast : trampolineVpn = 2 ^ 27 - 1 := by decide
    rw [PageTable.Maps, isLast]
    constructor
    · intro mapped
      by_contra outside
      rw [not_or] at outside
      rw [wf.onNone vpn (by omega) fun area mem has => outside.2 ⟨area, mem, has⟩] at mapped
      exact absurd mapped (by simp)
    · rintro (rfl | ⟨area, mem, has⟩)
      · rw [wf.onTrampoline, Option.isSome_some]
      · obtain ⟨ppn, -, found⟩ := wf.onArea area mem vpn has
        rw [found, Option.isSome_some]
  keys := by
    intro area mem framed vpn
    constructor
    · rintro ⟨ppn, isEntry⟩
      exact ((wf.shape area mem).has isEntry).2
    · intro has
      obtain ⟨ppn, target, -⟩ := wf.onArea area mem vpn has
      simp only [MapArea.Target, framed] at target
      exact ⟨ppn, target⟩
  oneFrame :=
    fun area mem vpn ppn ppn' first second => (wf.shape area mem).frame_unique first second
  entry := by
    intro area mem vpn ppn isEntry
    have small := (wf.entry_inUse (mem_areaEntries mem isEntry)).2.2
    have found := wf.tracker_lookup mem isEntry
    rw [PageTable.lookup, Option.filter_eq_some_iff] at found
    exact ⟨_, found.1, found.2, PageTableEntry.ppn_new _ small, PageTableEntry.flags_new _ small⟩

theorem Machine.Inv.consistent (inv : Machine.Inv l tramp k) : k.Consistent where
  space := fun id set isLive => ((inv.live isLive).2.wf rfl).consistent
  onePage := by
    intro id id' space space' area area' vpn vpn' ppn found found' mem mem' isEntry isEntry'
    have entry := mem_areaEntries mem isEntry
    have entry' := mem_areaEntries mem' isEntry'
    have isOwn : ∀ {space : Space} {vpn : Nat}, (vpn, ppn) ∈ areaEntries space.set.areas →
        ppn ∈ space.set.own := by
      intro space vpn isEntry
      rw [mem_own, areaFrames_eq]
      exact .inr (List.mem_map.mpr ⟨(vpn, ppn), isEntry, rfl⟩)
    by_cases same : id = id'
    · subst same
      rw [found, Option.some.injEq] at found'
      subst found'
      have alive : space.zombie = false := by
        by_contra isZombie
        obtain ⟨empty, -⟩ := (inv.space id space found).remains (by simpa using isZombie)
        rw [empty] at mem
        exact absurd mem List.not_mem_nil
      exact ⟨rfl, ((inv.space id space found).wf alive).page_unique entry entry'⟩
    · exact absurd (isOwn entry')
        (inv.disjoint id id' space space' same found found' ppn (isOwn entry))
  noTable := by
    intro id id' space space' area vpn ppn found found' mem isEntry isTable
    have entry := mem_areaEntries mem isEntry
    have isFrame : ppn ∈ areaFrames space.set.areas := by
      rw [areaFrames_eq]
      exact List.mem_map.mpr ⟨(vpn, ppn), entry, rfl⟩
    by_cases same : id = id'
    · subst same
      rw [found, Option.some.injEq] at found'
      subst found'
      have nodup := (inv.space id space found).own_nodup
      exact (List.nodup_append.mp nodup).2.2 ppn isTable ppn isFrame rfl
    · exact inv.disjoint id id' space space' same found found' ppn (mem_own.mpr (.inr isFrame))
        (mem_own.mpr (.inl isTable))
  tables := fun id set ppn isLive reached => ((inv.live isLive).2.wf rfl).table.tree.mem ppn reached

/-- In every run from the boot of the machine the address spaces are consistent. -/
theorem addressSpaces_consistent (mem : Memory) (layout : KernelLayout) (booted : Machine)
    (boot : Machine.boot mem layout = some booted) (events : List SpaceEvent)
    (run : booted.steps layout events = some k) : k.Consistent := by
  obtain ⟨inv, above⟩ := Machine.inv_boot boot
  exact (inv.steps above run).consistent

/-- A process with a segment and a stack forks, exits and is dropped, while the kernel inserts and
removes a stack of its own. -/
def tinyRun : List SpaceEvent :=
  [.fromElf 0 ⟨[⟨0x10000, 0x1001, true, false, true, [1, 2, 3]⟩], 0x10000⟩,
    .insertFramedArea (.user 0) 0x13000 0x15000 ⟨true, true, false, true⟩,
    .insertFramedArea .kernel (2 ^ 64 - 0x3000) (2 ^ 64 - 0x1000) ⟨true, true, false, false⟩,
    .store (.user 0) 0x13 5 7, .store .kernel (2 ^ 27 - 2) 0 9, .fromExistedUser 0 1,
    .removeAreaWithStartVpn (.user 0) 0x13, .removeAreaWithStartVpn .kernel (2 ^ 27 - 3),
    .recycleDataPages 0, .drop 0]

theorem addressSpaces_consistent_tiny :
    ∃ booted k, Machine.boot (fun _ => 0) tinyLayout = some booted ∧
    booted.steps tinyLayout tinyRun = some k ∧ k.Consistent := by
  have runs : ((Machine.boot (fun _ => 0) tinyLayout).bind fun booted =>
      booted.steps tinyLayout tinyRun).isSome = true := by decide +kernel
  obtain ⟨k, run⟩ := Option.isSome_iff_exists.mp runs
  obtain ⟨booted, boot, run⟩ := Option.bind_eq_some_iff.mp run
  exact ⟨booted, k, boot, run,
    addressSpaces_consistent (fun _ => 0) tinyLayout booted boot tinyRun run⟩

end CoreFromDust.Os.Mm
