import CoreFromDust.Os.Mm.PageTable

/-!
# Address spaces

Embedding of `MapArea` and `MemorySet` of `os/src/mm/memory_set.rs`. A `BTreeMap` from pages to
`FrameTracker`s is the list of its entries in the order of the pages. The functions take the
memory and return it; `none` is a panic. The linker symbols and the parts of an ELF file that the
kernel asks `xmas_elf` for are arguments.
-/

namespace CoreFromDust.Os.Mm

/-- `MapType`. -/
inductive MapType where
  | identical
  | framed
  deriving DecidableEq, Repr

/-- `MapPermission`: a set of the flags `R`, `W`, `X` and `U`. -/
structure MapPermission where
  r : Bool
  w : Bool
  x : Bool
  u : Bool
  deriving DecidableEq, Repr

/-- The bits of a permission, which are those of `PTEFlags`. -/
def MapPermission.bits (p : MapPermission) : UInt8 :=
  (if p.r then PTEFlags.r else 0) ||| (if p.w then PTEFlags.w else 0) |||
    (if p.x then PTEFlags.x else 0) ||| (if p.u then PTEFlags.u else 0)

/-- `MapArea`; `startVpn` and `endVpn` are its `vpn_range`. -/
structure MapArea where
  startVpn : Nat
  endVpn : Nat
  dataFrames : List (Nat × Nat)
  mapType : MapType
  mapPerm : MapPermission
  deriving DecidableEq, Repr

/-- Drop a list of `FrameTracker`s. -/
def Phys.dropFrames (s : Phys) : List Nat → Option Phys
  | [] => some s
  | ppn :: frames => (s.frameDealloc ppn).bind fun s => s.dropFrames frames

namespace MapArea

/-- `MapArea::new`; `VPNRange::new` asserts that the range is not reversed. -/
def new (startVa endVa : Nat) (mapType : MapType) (mapPerm : MapPermission) : Option MapArea :=
  if floor startVa ≤ ceil endVa then some ⟨floor startVa, ceil endVa, [], mapType, mapPerm⟩
  else none

/-- `MapArea::from_another`. -/
def fromAnother (another : MapArea) : MapArea := { another with dataFrames := [] }

/-- The pages of an area, in the order of its iterator. -/
def pages (area : MapArea) : List Nat := List.range' area.startVpn (area.endVpn - area.startVpn)

/-- Insert a `FrameTracker` into `data_frames`; one that was there for the page is dropped. -/
def insertFrame (area : MapArea) (s : Phys) (vpn ppn : Nat) : Option (Phys × MapArea) :=
  (s.dropFrames (area.dataFrames.lookup vpn).toList).map fun s =>
    (s, { area with dataFrames := area.dataFrames.filter (·.1 < vpn) ++
      (vpn, ppn) :: area.dataFrames.filter (vpn < ·.1) })

/-- Remove the `FrameTracker` of a page from `data_frames` and drop it. -/
def removeFrame (area : MapArea) (s : Phys) (vpn : Nat) : Option (Phys × MapArea) :=
  (s.dropFrames (area.dataFrames.lookup vpn).toList).map fun s =>
    (s, { area with dataFrames := area.dataFrames.filter (·.1 ≠ vpn) })

/-- `MapArea::map_one`. -/
def mapOne (area : MapArea) (s : Phys) (t : PageTable) (vpn : Nat) :
    Option (Phys × PageTable × MapArea) :=
  match area.mapType with
  | .identical => (t.map s vpn vpn area.mapPerm.bits).map fun (s, t) => (s, t, area)
  | .framed =>
      s.frameAlloc.bind fun (ppn, s) =>
        (area.insertFrame s vpn ppn).bind fun (s, area) =>
          (t.map s vpn ppn area.mapPerm.bits).map fun (s, t) => (s, t, area)

/-- `MapArea::unmap_one`. -/
def unmapOne (area : MapArea) (s : Phys) (t : PageTable) (vpn : Nat) : Option (Phys × MapArea) :=
  (if area.mapType = .framed then area.removeFrame s vpn else some (s, area)).bind fun (s, area) =>
    (t.unmap s vpn).map fun s => (s, area)

/-- Map a list of pages of the area. -/
def mapPages (area : MapArea) (s : Phys) (t : PageTable) : List Nat →
    Option (Phys × PageTable × MapArea)
  | [] => some (s, t, area)
  | vpn :: vpns => (area.mapOne s t vpn).bind fun (s, t, area) => area.mapPages s t vpns

/-- `MapArea::map`. -/
def map (area : MapArea) (s : Phys) (t : PageTable) : Option (Phys × PageTable × MapArea) :=
  area.mapPages s t area.pages

/-- Unmap a list of pages of the area. -/
def unmapPages (area : MapArea) (s : Phys) (t : PageTable) : List Nat → Option (Phys × MapArea)
  | [] => some (s, area)
  | vpn :: vpns => (area.unmapOne s t vpn).bind fun (s, area) => area.unmapPages s t vpns

/-- `MapArea::unmap`. -/
def unmap (area : MapArea) (s : Phys) (t : PageTable) : Option (Phys × MapArea) :=
  area.unmapPages s t area.pages

/-- The loop of `copy_data` from a page on, with the data that is left. -/
def copyDataFrom (t : PageTable) (m : Memory) (vpn : Nat) (data : List UInt8) : Option Memory :=
  (t.translate m vpn).bind fun pte =>
    if data.length ≤ 4096 then some (m.writeBytes pte.ppn 0 data)
    else copyDataFrom t (m.writeBytes pte.ppn 0 (data.take 4096)) (vpn + 1) (data.drop 4096)
  termination_by data.length
  decreasing_by
    rw [List.length_drop]
    omega

/-- `MapArea::copy_data`. -/
def copyData (area : MapArea) (s : Phys) (t : PageTable) (data : List UInt8) : Option Phys :=
  if area.mapType = .framed then
    (copyDataFrom t s.mem area.startVpn data).map fun mem => { s with mem := mem }
  else none

/-- The `FrameTracker`s of an area. -/
def frames (area : MapArea) : List Nat := area.dataFrames.map Prod.snd

end MapArea

/-- `MemorySet`. -/
structure MemorySet where
  pageTable : PageTable
  areas : List MapArea
  deriving DecidableEq, Repr

/-- The linker symbols; the linker script puts the trampoline into `.text` and the sections after
each other, and the kernel fits into memory. -/
structure KernelLayout where
  stext : Nat
  etext : Nat
  srodata : Nat
  erodata : Nat
  sdata : Nat
  edata : Nat
  sbssWithStack : Nat
  ebss : Nat
  ekernel : Nat
  strampoline : Nat
  inText : stext ≤ strampoline ∧ strampoline < etext
  ordered : etext ≤ srodata ∧ srodata ≤ erodata ∧ erodata ≤ sdata ∧ sdata ≤ edata ∧
    edata ≤ sbssWithStack ∧ sbssWithStack ≤ ebss ∧ ebss ≤ ekernel
  fits : ekernel ≤ 0x80800000

/-- `TRAMPOLINE`. -/
def trampoline : Nat := 2 ^ 64 - 4096

/-- `MEMORY_END`. -/
def memoryEnd : Nat := 0x80800000

/-- `MMIO`. -/
def mmio : List (Nat × Nat) := [(0x10001000, 0x1000)]

/-- A program header of the type `Load`, with its flags and the bytes of the file it names. -/
structure Segment where
  virtualAddr : Nat
  memSize : Nat
  read : Bool
  write : Bool
  execute : Bool
  data : List UInt8
  deriving DecidableEq, Repr

/-- An ELF file. -/
structure Elf where
  segments : List Segment
  entryPoint : Nat
  deriving DecidableEq, Repr

namespace MemorySet

/-- `MemorySet::new_bare`. -/
def newBare (s : Phys) : Option (Phys × MemorySet) :=
  (PageTable.new s).map fun (s, t) => (s, ⟨t, []⟩)

/-- `MemorySet::push`. -/
def push (set : MemorySet) (s : Phys) (area : MapArea) (data : Option (List UInt8)) :
    Option (Phys × MemorySet) :=
  (area.map s set.pageTable).bind fun (s, t, area) =>
    (match data with
      | none => some s
      | some data => area.copyData s t data).map fun s => (s, ⟨t, set.areas ++ [area]⟩)

/-- `MemorySet::insert_framed_area`. -/
def insertFramedArea (set : MemorySet) (s : Phys) (startVa endVa : Nat)
    (permission : MapPermission) : Option (Phys × MemorySet) :=
  (MapArea.new startVa endVa .framed permission).bind fun area => set.push s area none

/-- `MemorySet::map_trampoline`. -/
def mapTrampoline (set : MemorySet) (s : Phys) (strampoline : Nat) : Option (Phys × MemorySet) :=
  (pageAt (virtAddr trampoline)).bind fun vpn =>
    (pageAt (physAddr strampoline)).bind fun ppn =>
      (set.pageTable.map s vpn ppn (PTEFlags.r ||| PTEFlags.x)).map fun (s, t) =>
        (s, { set with pageTable := t })

/-- The sections that `new_kernel` maps, each with its permission. -/
def kernelSections (layout : KernelLayout) : List (Nat × Nat × MapPermission) :=
  [(layout.stext, layout.etext, ⟨true, false, true, false⟩),
    (layout.srodata, layout.erodata, ⟨true, false, false, false⟩),
    (layout.sdata, layout.edata, ⟨true, true, false, false⟩),
    (layout.sbssWithStack, layout.ebss, ⟨true, true, false, false⟩),
    (layout.ekernel, memoryEnd, ⟨true, true, false, false⟩)] ++
  mmio.map fun pair => (pair.1, pair.1 + pair.2, ⟨true, true, false, false⟩)

/-- Push identical areas. -/
def pushSections (set : MemorySet) (s : Phys) :
    List (Nat × Nat × MapPermission) → Option (Phys × MemorySet)
  | [] => some (s, set)
  | (start, stop, permission) :: sections =>
      (MapArea.new (virtAddr start) (virtAddr stop) .identical permission).bind fun area =>
        (set.push s area none).bind fun (s, set) => set.pushSections s sections

/-- `MemorySet::new_kernel`. -/
def newKernel (s : Phys) (layout : KernelLayout) : Option (Phys × MemorySet) :=
  (newBare s).bind fun (s, set) =>
    (set.mapTrampoline s layout.strampoline).bind fun (s, set) =>
      set.pushSections s (kernelSections layout)

/-- The loop of `from_elf`; `maxEndVpn` is the end of the area before. -/
def pushSegments (set : MemorySet) (s : Phys) (maxEndVpn : Nat) :
    List Segment → Option (Phys × MemorySet × Nat)
  | [] => some (s, set, maxEndVpn)
  | ph :: segments =>
      (MapArea.new (virtAddr ph.virtualAddr)
        (virtAddr ((ph.virtualAddr + ph.memSize) % 2 ^ 64)) .framed
        ⟨ph.read, ph.write, ph.execute, true⟩).bind fun area =>
        (set.push s area (some ph.data)).bind fun (s, set) =>
          set.pushSegments s area.endVpn segments

/-- `MemorySet::from_elf`: the address space, `user_stack_base` and the entry point. -/
def fromElf (s : Phys) (strampoline : Nat) (elf : Elf) : Option (Phys × MemorySet × Nat × Nat) :=
  (newBare s).bind fun (s, set) =>
    (set.mapTrampoline s strampoline).bind fun (s, set) =>
      (set.pushSegments s 0 elf.segments).map fun (s, set, maxEndVpn) =>
        (s, set, (usizeOfVirtAddr (maxEndVpn * 4096) + 4096) % 2 ^ 64, elf.entryPoint)

/-- `MemorySet::translate`. -/
def translate (set : MemorySet) (m : Memory) (vpn : Nat) : Option PageTableEntry :=
  set.pageTable.translate m vpn

/-- `MemorySet::remove_area_with_start_vpn`. -/
def removeAreaWithStartVpn (set : MemorySet) (s : Phys) (startVpn : Nat) :
    Option (Phys × MemorySet) :=
  match set.areas.findIdx? fun area => area.startVpn = startVpn with
  | none => some (s, set)
  | some idx =>
      set.areas[idx]?.bind fun area =>
        (area.unmap s set.pageTable).bind fun (s, area) =>
          (s.dropFrames area.frames).map fun s => (s, { set with areas := set.areas.eraseIdx idx })

/-- Copy the bytes of a list of pages from one address space to another. -/
def copyPages (src dst : MemorySet) (m : Memory) : List Nat → Option Memory
  | [] => some m
  | vpn :: vpns =>
      (src.translate m vpn).bind fun srcPte =>
        (dst.translate m vpn).bind fun dstPte =>
          copyPages src dst (m.fill dstPte.ppn fun offset => m.bytes srcPte.ppn offset) vpns

/-- The loop of `from_existed_user` over the areas. -/
def copyAreas (src set : MemorySet) (s : Phys) : List MapArea → Option (Phys × MemorySet)
  | [] => some (s, set)
  | area :: areas =>
      (set.push s area.fromAnother none).bind fun (s, set) =>
        (copyPages src set s.mem area.pages).bind fun mem =>
          copyAreas src set { s with mem := mem } areas

/-- `MemorySet::from_existed_user`. -/
def fromExistedUser (s : Phys) (strampoline : Nat) (userSpace : MemorySet) :
    Option (Phys × MemorySet) :=
  (newBare s).bind fun (s, set) =>
    (set.mapTrampoline s strampoline).bind fun (s, set) => copyAreas userSpace set s userSpace.areas

/-- The `FrameTracker`s of the areas. -/
def dataFrames (set : MemorySet) : List Nat := set.areas.flatMap MapArea.frames

/-- `MemorySet::recycle_data_pages`. -/
def recycleDataPages (set : MemorySet) (s : Phys) : Option (Phys × MemorySet) :=
  (s.dropFrames set.dataFrames).map fun s => (s, { set with areas := [] })

/-- The drop of an address space: the page table first, then the areas. -/
def drop (set : MemorySet) (s : Phys) : Option Phys :=
  s.dropFrames (set.pageTable.frames ++ set.dataFrames)

end MemorySet

end CoreFromDust.Os.Mm
