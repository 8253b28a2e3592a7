import CoreFromDust.Os.Mm.FrameAllocator

/-!
# Page tables

Embedding of `PageTableEntry` and `PageTable` of `os/src/mm/page_table.rs`. A page table is three
levels of tables of 512 entries in frames of physical memory. `none` is a panic where the source
has no `Option`.
-/

namespace CoreFromDust.Os.Mm

/-! ## Entries -/

namespace PTEFlags

/-- `PTEFlags::V`. -/
def v : UInt8 := 1

/-- `PTEFlags::R`. -/
def r : UInt8 := 2

/-- `PTEFlags::W`. -/
def w : UInt8 := 4

/-- `PTEFlags::X`. -/
def x : UInt8 := 8

/-- `PTEFlags::U`. -/
def u : UInt8 := 16

end PTEFlags

/-- `PageTableEntry`. -/
structure PageTableEntry where
  bits : Nat
  deriving DecidableEq, Repr

namespace PageTableEntry

/-- `PageTableEntry::new`. -/
def new (ppn : Nat) (flags : UInt8) : PageTableEntry := ⟨ppn * 2 ^ 10 % 2 ^ 64 ||| flags.toNat⟩

/-- `PageTableEntry::empty`. -/
def empty : PageTableEntry := ⟨0⟩

/-- `PageTableEntry::ppn`. -/
def ppn (pte : PageTableEntry) : Nat := physPageNum (pte.bits / 2 ^ 10 % 2 ^ 44)

/-- `PageTableEntry::flags`; every byte is a set of flags. -/
def flags (pte : PageTableEntry) : UInt8 := UInt8.ofNat pte.bits

/-- `PageTableEntry::is_valid`. -/
def isValid (pte : PageTableEntry) : Bool := pte.flags &&& PTEFlags.v ≠ 0

variable {ppn : Nat} (flags : UInt8)

theorem new_bits (small : ppn < 2 ^ 44) : (new ppn flags).bits = ppn * 2 ^ 10 + flags.toNat := by
  have byte := flags.toNat_lt
  have shifted : ppn * 2 ^ 10 % 2 ^ 64 = ppn * 2 ^ 10 := Nat.mod_eq_of_lt (by omega)
  have joined := Nat.shiftLeft_add_eq_or_of_lt (i := 10) (b := flags.toNat) (by omega) ppn
  rw [Nat.shiftLeft_eq] at joined
  rw [new, shifted, joined]

theorem new_bits_lt (small : ppn < 2 ^ 44) : (new ppn flags).bits < 2 ^ 64 := by
  have byte := flags.toNat_lt
  rw [new_bits flags small]
  omega

theorem ppn_new (small : ppn < 2 ^ 44) : (new ppn flags).ppn = ppn := by
  have byte := flags.toNat_lt
  rw [PageTableEntry.ppn, new_bits flags small, physPageNum]
  omega

theorem flags_new (small : ppn < 2 ^ 44) : (new ppn flags).flags = flags := by
  have byte := flags.toNat_lt
  rw [PageTableEntry.flags, new_bits flags small]
  apply UInt8.toNat_inj.mp
  rw [UInt8.toNat_ofNat']
  omega

theorem isValid_new (small : ppn < 2 ^ 44) : (new ppn (flags ||| PTEFlags.v)).isValid = true := by
  have kept : (flags ||| 1) &&& 1 = 1 := by
    apply UInt8.toNat_inj.mp
    simp
  rw [isValid, flags_new _ small, PTEFlags.v, kept]
  decide

theorem not_isValid_empty : empty.isValid = false := rfl

theorem ppn_lt (pte : PageTableEntry) : pte.ppn < 2 ^ 44 := Nat.mod_lt _ (by decide)

end PageTableEntry

/-! ## Tables -/

/-- The entry at an index of the table in a frame, `PhysPageNum::get_pte_array`. -/
def Memory.pte (m : Memory) (ppn index : Nat) : PageTableEntry := ⟨m.word ppn index⟩

/-- Overwrite an entry of the table in a frame. -/
def Phys.setPte (s : Phys) (ppn index : Nat) (pte : PageTableEntry) : Phys :=
  { s with mem := s.mem.setWord ppn index pte.bits }

/-- `PageTable`. -/
structure PageTable where
  rootPpn : Nat
  frames : List Nat
  deriving DecidableEq, Repr

namespace PageTable

/-- `PageTable::new`. -/
def new (s : Phys) : Option (Phys × PageTable) :=
  s.frameAlloc.map fun (frame, s) => (s, ⟨frame, [frame]⟩)

/-- The loop of `find_pte` from the table in the frame `ppn` on: the place of the entry. -/
def findPteFrom (m : Memory) (ppn : Nat) : List Nat → Option (Nat × Nat)
  | [] => none
  | [index] => some (ppn, index)
  | index :: idxs =>
      if (m.pte ppn index).isValid then findPteFrom m (m.pte ppn index).ppn idxs else none

/-- `PageTable::find_pte`. -/
def findPte (t : PageTable) (m : Memory) (vpn : Nat) : Option (Nat × Nat) :=
  findPteFrom m t.rootPpn (indexes vpn)

/-- The loop of `find_pte_create` from the table in the frame `ppn` on; `frames` are those of
the page table. -/
def findPteCreateFrom (s : Phys) (frames : List Nat) (ppn : Nat) :
    List Nat → Option (Phys × List Nat × (Nat × Nat))
  | [] => none
  | [index] => some (s, frames, (ppn, index))
  | index :: idxs =>
      if (s.mem.pte ppn index).isValid then
        findPteCreateFrom s frames (s.mem.pte ppn index).ppn idxs
      else
        s.frameAlloc.bind fun (frame, s) =>
          let s := s.setPte ppn index (.new frame PTEFlags.v)
          findPteCreateFrom s (frames ++ [frame]) (s.mem.pte ppn index).ppn idxs

/-- `PageTable::find_pte_create`. -/
def findPteCreate (t : PageTable) (s : Phys) (vpn : Nat) :
    Option (Phys × PageTable × (Nat × Nat)) :=
  (findPteCreateFrom s t.frames t.rootPpn (indexes vpn)).map fun (s, frames, place) =>
    (s, { t with frames := frames }, place)

/-- `PageTable::map`. -/
def map (t : PageTable) (s : Phys) (vpn ppn : Nat) (flags : UInt8) : Option (Phys × PageTable) :=
  (t.findPteCreate s vpn).bind fun (s, t, place) =>
    if (s.mem.pte place.1 place.2).isValid then none
    else some (s.setPte place.1 place.2 (.new ppn (flags ||| PTEFlags.v)), t)

/-- `PageTable::unmap`. -/
def unmap (t : PageTable) (s : Phys) (vpn : Nat) : Option Phys :=
  (t.findPte s.mem vpn).bind fun place =>
    if (s.mem.pte place.1 place.2).isValid then some (s.setPte place.1 place.2 .empty) else none

/-- `PageTable::translate`. -/
def translate (t : PageTable) (m : Memory) (vpn : Nat) : Option PageTableEntry :=
  (t.findPte m vpn).map fun place => m.pte place.1 place.2

/-- `PageTable::from_token`. -/
def fromToken (satp : Nat) : PageTable := ⟨physPageNum (satp % 2 ^ 44), []⟩

/-- `PageTable::token`. -/
def token (t : PageTable) : Nat := 8 * 2 ^ 60 ||| t.rootPpn

/-- The entry that the processor uses for a page: `translate` of a valid entry. -/
def lookup (t : PageTable) (m : Memory) (vpn : Nat) : Option PageTableEntry :=
  (t.translate m vpn).filter PageTableEntry.isValid

/-- A page has a valid leaf entry. -/
def Maps (t : PageTable) (m : Memory) (vpn : Nat) : Prop := (t.lookup m vpn).isSome

end PageTable

end CoreFromDust.Os.Mm
