import Mathlib.Data.Nat.Bitwise
import CoreFromDust.Lib.LittleEndian

/-!
# Addresses and physical memory

Embedding of `os/src/mm/address.rs`. Addresses and page numbers are natural numbers below
`2 ^ 64`; a conversion from `usize` drops the bits that the source drops. A page has 4096 bytes
and a table of 512 entries of 8 bytes fills one page.
-/

namespace CoreFromDust.Os.Mm

/-- Physical memory: the byte at each physical address. -/
abbrev Memory := Nat → UInt8

/-- `PhysAddr::from(usize)`. -/
def physAddr (v : Nat) : Nat := v % 2 ^ 56

/-- `PhysPageNum::from(usize)`. -/
def physPageNum (v : Nat) : Nat := v % 2 ^ 44

/-- `VirtAddr::from(usize)`. -/
def virtAddr (v : Nat) : Nat := v % 2 ^ 39

/-- `usize::from(VirtAddr)`, which extends the sign of a 39-bit address. -/
def usizeOfVirtAddr (va : Nat) : Nat := if 2 ^ 38 ≤ va then va ||| (2 ^ 64 - 2 ^ 39) else va

/-- `floor` of a `VirtAddr` or `PhysAddr`. -/
def floor (address : Nat) : Nat := address / 4096

/-- `ceil` of a `VirtAddr` or `PhysAddr`. -/
def ceil (address : Nat) : Nat := if address = 0 then 0 else (address - 1 + 4096) / 4096

/-- `page_offset`. -/
def pageOffset (address : Nat) : Nat := address % 4096

/-- `VirtPageNum::from(VirtAddr)` and `PhysPageNum::from(PhysAddr)`, which assert that the address
is the start of a page. -/
def pageAt (address : Nat) : Option Nat :=
  if pageOffset address = 0 then some (floor address) else none

/-- `VirtPageNum::indexes`. -/
def indexes (vpn : Nat) : List Nat := [vpn / 2 ^ 18 % 512, vpn / 2 ^ 9 % 512, vpn % 512]

/-- The bytes of a frame, `PhysPageNum::get_bytes_array`. -/
def Memory.bytes (m : Memory) (ppn offset : Nat) : UInt8 := m (ppn * 4096 + offset)

/-- Overwrite the bytes of a frame from an offset on. -/
def Memory.writeBytes (m : Memory) (ppn offset : Nat) (data : List UInt8) : Memory := fun address =>
  if ppn * 4096 + offset ≤ address ∧ address < ppn * 4096 + offset + data.length then
    data.getD (address - (ppn * 4096 + offset)) 0
  else m address

/-- Fill a frame with the bytes of `f`. -/
def Memory.fill (m : Memory) (ppn : Nat) (f : Nat → UInt8) : Memory := fun address =>
  if ppn * 4096 ≤ address ∧ address < ppn * 4096 + 4096 then f (address - ppn * 4096) else m address

/-- The 8-byte word at an index of a frame. -/
def Memory.word (m : Memory) (ppn index : Nat) : Nat :=
  Lib.leValue 8 fun i => m (ppn * 4096 + 8 * index + i)

/-- Overwrite the 8-byte word at an index of a frame. -/
def Memory.setWord (m : Memory) (ppn index value : Nat) : Memory := fun address =>
  if ppn * 4096 + 8 * index ≤ address ∧ address < ppn * 4096 + 8 * index + 8 then
    Lib.leByte value (address - (ppn * 4096 + 8 * index))
  else m address

namespace Memory

variable (m : Memory) {ppn other index index' offset value : Nat}

/-- A word is read as it was written. -/
theorem word_setWord (small : value < 2 ^ 64) :
    (m.setWord ppn index value).word ppn index = value := by
  unfold word
  rw [Lib.leValue_congr 8 (g := Lib.leByte value), Lib.leValue_leByte]
  · exact Nat.mod_eq_of_lt (by omega)
  · intro i bound
    unfold setWord
    rw [if_pos (by omega)]
    congr 1
    omega

/-- Words at other places stay. -/
theorem word_setWord_other (index' : Nat) (small : index < 512) (small' : index' < 512)
    (apart : other ≠ ppn ∨ index' ≠ index) :
    (m.setWord ppn index value).word other index' = m.word other index' := by
  unfold word
  refine Lib.leValue_congr 8 fun i bound => ?_
  unfold setWord
  rw [if_neg (by omega)]

theorem bytes_setWord_other (small : index < 512) (apart : other ≠ ppn) (bound : offset < 4096) :
    (m.setWord ppn index value).bytes other offset = m.bytes other offset := by
  unfold bytes setWord
  rw [if_neg (by omega)]

theorem bytes_setWord_apart (apart : offset / 8 ≠ index) :
    (m.setWord ppn index value).bytes ppn offset = m.bytes ppn offset := by
  unfold bytes setWord
  rw [if_neg (by omega)]

/-- A word depends on the bytes of its frame. -/
theorem word_congr {m m' : Memory} (small : index < 512)
    (same : ∀ offset < 4096, m'.bytes ppn offset = m.bytes ppn offset) :
    m'.word ppn index = m.word ppn index := by
  unfold word
  refine Lib.leValue_congr 8 fun i bound => ?_
  have byte := same (8 * index + i) (by omega)
  unfold bytes at byte
  rwa [Nat.add_assoc]

theorem bytes_fill (f : Nat → UInt8) (bound : offset < 4096) :
    (m.fill ppn f).bytes ppn offset = f offset := by
  unfold bytes fill
  rw [if_pos (by omega)]
  congr 1
  omega

theorem bytes_fill_other (f : Nat → UInt8) (apart : other ≠ ppn) (bound : offset < 4096) :
    (m.fill ppn f).bytes other offset = m.bytes other offset := by
  unfold bytes fill
  rw [if_neg (by omega)]

theorem word_fill_zero (small : index < 512) : (m.fill ppn fun _ => 0).word ppn index = 0 := by
  unfold word
  rw [Lib.leValue_congr 8 (g := fun _ => 0), Lib.leValue_zero_bytes]
  intro i bound
  unfold fill
  rw [if_pos (by omega)]

theorem bytes_writeBytes_other (data : List UInt8) (inside : offset + data.length ≤ 4096)
    (apart : other ≠ ppn) {i : Nat} (bound : i < 4096) :
    (m.writeBytes ppn offset data).bytes other i = m.bytes other i := by
  unfold bytes writeBytes
  rw [if_neg (by omega)]

end Memory

end CoreFromDust.Os.Mm
