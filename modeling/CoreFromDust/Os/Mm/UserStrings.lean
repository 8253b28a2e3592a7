import CoreFromDust.EasyFs.Proofs.LayoutCodec
import CoreFromDust.Os.Mm.UserRefs

/-!
# Strings of the user

Embedding of `translated_str` of `os/src/mm/page_table.rs`. It makes a `char` of each byte, so a
string of the user arrives as it is exactly when it is ASCII; every byte of another character
becomes a character of its own.
-/

namespace CoreFromDust.Os.Mm

open SpaceWf
open EasyFs (strBytes)

/-- `ch as char`. -/
def asChar (ch : UInt8) : Char := Char.ofNat ch.toNat

/-- The loop of `translated_str`; it reads until the byte 0, so it takes fuel. -/
def translatedStrLoop (t : PageTable) (m : Memory) : Nat → Nat → String → Outcome String
  | 0, _, _ => .running
  | fuel + 1, va, string =>
      match (t.translateVa m (virtAddr va)).bind getMut with
      | none => .panicked
      | some pa =>
          if m pa = 0 then .returned string
          else translatedStrLoop t m fuel ((va + 1) % 2 ^ 64) (string.push (asChar (m pa)))

/-- `translated_str`. -/
def translatedStr (m : Memory) (token ptr fuel : Nat) : Outcome String :=
  translatedStrLoop (.fromToken token) m fuel ptr ""

/-- The program has stored the bytes of a string and a byte 0 at `ptr`, on its pages. -/
def StoredAt (t : PageTable) (m : Memory) (ptr : Nat) (s : String) : Prop :=
  ∀ i, i ≤ (strBytes s).length → t.UserByte m (ptr + i) ∧
    t.load m (ptr + i) = (strBytes s ++ [0])[i]?

/-! ## The characters of the bytes -/

theorem strBytes_eq (s : String) : strBytes s = s.toList.flatMap String.utf8EncodeChar := by
  rw [strBytes, ← String.utf8Encode_toList, List.utf8Encode]
  simp

/-- An ASCII character is one byte, which `as char` makes it again. -/
theorem map_asChar_utf8EncodeChar {c : Char} (ascii : c.toNat < 128) :
    (String.utf8EncodeChar c).map asChar = [c] := by
  have small : c.val.toNat ≤ 0x7f := Nat.le_of_lt_succ ascii
  have byte : (UInt8.ofNat c.toNat).toNat = c.toNat := by
    rw [UInt8.toNat_ofNat']
    omega
  have code : String.utf8EncodeChar c = [UInt8.ofNat c.toNat] := if_pos small
  rw [code, List.map_singleton, asChar, byte, Char.ofNat_toNat]

/-- A character has at least one byte, and only an ASCII character has no more. -/
theorem length_utf8EncodeChar_cases (c : Char) :
    c.toNat < 128 ∧ (String.utf8EncodeChar c).length = 1 ∨
      2 ≤ (String.utf8EncodeChar c).length := by
  simp only [String.utf8EncodeChar]
  split
  · next small => exact .inl ⟨Nat.lt_succ_of_le small, rfl⟩
  · right
    split
    · simp
    · split <;> simp

/-- A list of characters has at least as many bytes, and more unless all of them are ASCII. -/
theorem length_flatMap_utf8EncodeChar (cs : List Char) :
    cs.length ≤ (cs.flatMap String.utf8EncodeChar).length ∧
      ((cs.flatMap String.utf8EncodeChar).length = cs.length → ∀ c ∈ cs, c.toNat < 128) := by
  induction cs with
  | nil => simp
  | cons c cs ih =>
      obtain ⟨atLeast, ascii⟩ := ih
      rw [List.flatMap_cons, List.length_append, List.length_cons]
      rcases length_utf8EncodeChar_cases c with ⟨isAscii, one⟩ | more
      · refine ⟨by omega, fun same => ?_⟩
        exact List.forall_mem_cons.mpr ⟨isAscii, ascii (by omega)⟩
      · exact ⟨by omega, fun same => by omega⟩

/-- Every byte becomes a character, so only ASCII strings stay as they are. -/
theorem map_asChar_strBytes_iff (s : String) :
    (strBytes s).map asChar = s.toList ↔ ∀ c ∈ s.toList, c.toNat < 128 := by
  rw [strBytes_eq]
  constructor
  · intro same
    refine (length_flatMap_utf8EncodeChar s.toList).2 ?_
    rw [← List.length_map (f := asChar), same]
  · intro ascii
    rw [List.map_flatMap]
    have each : ∀ c ∈ s.toList, (String.utf8EncodeChar c).map asChar = [c] :=
      fun c mem => map_asChar_utf8EncodeChar (ascii c mem)
    rw [List.flatMap_congr each, List.flatMap_singleton']

/-! ## The loop -/

section Loop

variable {t : PageTable} {m : Memory}

/-- The loop over bytes that are not 0 and the byte 0 behind them. -/
theorem translatedStrLoop_eq {bytes : List UInt8} {ptr fuel : Nat} (noNul : 0 ∉ bytes)
    (word : ptr + bytes.length < 2 ^ 64)
    (refs : ∀ i ≤ bytes.length, ∃ pa, (t.translateVa m (virtAddr (ptr + i))).bind getMut = some pa ∧
      m pa = (bytes ++ [0]).getD i 0) (enough : bytes.length < fuel) (string : String) :
    translatedStrLoop t m fuel ptr string =
      .returned (bytes.foldl (fun string ch => string.push (asChar ch)) string) := by
  induction bytes generalizing ptr fuel string with
  | nil =>
      obtain ⟨fuel, rfl⟩ := Nat.exists_eq_add_one_of_ne_zero (by omega : fuel ≠ 0)
      obtain ⟨pa, isRef, isByte⟩ := refs 0 (Nat.zero_le _)
      rw [Nat.add_zero] at isRef
      rw [translatedStrLoop, isRef]
      exact if_pos isByte
  | cons ch bytes ih =>
      obtain ⟨fuel, rfl⟩ := Nat.exists_eq_add_one_of_ne_zero (by omega : fuel ≠ 0)
      rw [List.length_cons] at word enough
      obtain ⟨pa, isRef, isByte⟩ := refs 0 (Nat.zero_le _)
      rw [Nat.add_zero] at isRef
      have isCh : m pa = ch := isByte
      have nonzero : ch ≠ 0 := fun isZero => noNul (by rw [isZero]; exact List.mem_cons_self)
      rw [translatedStrLoop, isRef]
      simp only [isCh, if_neg nonzero, Nat.mod_eq_of_lt (by omega : ptr + 1 < 2 ^ 64),
        List.foldl_cons]
      refine ih (fun mem => noNul (List.mem_cons_of_mem _ mem)) (by omega) (fun i bound => ?_)
        (by omega) _
      obtain ⟨pa, isRef, isByte⟩ := refs (i + 1) (by rw [List.length_cons]; omega)
      refine ⟨pa, ?_, isByte⟩
      rw [show ptr + 1 + i = ptr + (i + 1) by omega]
      exact isRef

theorem toList_foldl_push (bytes : List UInt8) (string : String) :
    (bytes.foldl (fun string ch => string.push (asChar ch)) string).toList =
      string.toList ++ bytes.map asChar := by
  induction bytes generalizing string with
  | nil => simp
  | cons ch bytes ih =>
      rw [List.foldl_cons, ih, String.toList_push, List.map_cons, List.append_assoc,
        List.singleton_append]

end Loop

section Strings

variable {l tramp ptr : Nat} {s : Phys} {set : MemorySet} {string : String}

/-- What `translated_str` returns for a string of the user. -/
theorem UserSpace.translatedStr (user : UserSpace l tramp s set)
    (stored : StoredAt set.pageTable s.mem ptr string) (noNul : 0 ∉ strBytes string) {fuel : Nat}
    (enough : (strBytes string).length < fuel) :
    translatedStr s.mem set.pageTable.token ptr fuel =
      .returned (String.ofList ((strBytes string).map asChar)) := by
  have last := (stored (strBytes string).length (Nat.le_refl _)).1.lt
  rw [Mm.translatedStr, translatedStrLoop_eq noNul last (fun i bound => ?_) enough]
  · congr 1
    rw [← String.ofList_toList (s := List.foldl _ _ _), toList_foldl_push]
    simp
  · obtain ⟨onPage, isByte⟩ := stored i bound
    obtain ⟨pte, found, byte, -, -⟩ := user.userByte onPage
    have isRef := user.refmut_user onPage found
    refine ⟨_, isRef, ?_⟩
    rw [PageTable.load, byte, Option.map_some] at isByte
    rw [List.getD_eq_getElem?_getD, ← isByte, Option.getD_some, pageOffset]

end Strings

/-- In every run of the machine, for every string without a byte 0 that a process has stored with a
byte 0 behind it, `translated_str` returns the string exactly when it is ASCII. -/
theorem translatedStr_faithful_iff {layout : KernelLayout} {booted k : Machine} {set : MemorySet}
    (mem : Memory) (boot : Machine.boot mem layout = some booted) (events : List SpaceEvent)
    (run : booted.steps layout events = some k) (id : Nat) (isLive : k.live (.user id) = some set)
    (ptr : Nat) (string : String) (noNul : 0 ∉ strBytes string)
    (stored : StoredAt set.pageTable k.phys.mem ptr string) :
    (∀ fuel, (strBytes string).length < fuel →
        translatedStr k.phys.mem set.pageTable.token ptr fuel = .returned string) ↔
      ∀ c ∈ string.toList, c.toNat < 128 := by
  obtain ⟨inv, above⟩ := Machine.inv_boot boot
  have user := (inv.steps above run).userSpace above isLive
  have same : String.ofList ((strBytes string).map asChar) = string ↔
      (strBytes string).map asChar = string.toList := by
    rw [← String.toList_inj, String.toList_ofList]
  rw [← map_asChar_strBytes_iff, ← same]
  constructor
  · intro faithful
    have returned := faithful _ (Nat.lt_succ_self _)
    rw [user.translatedStr stored noNul (Nat.lt_succ_self _), Outcome.returned.injEq] at returned
    exact returned
  · intro isSame fuel enough
    rw [user.translatedStr stored noNul enough, isSame]

/-- The main thread stores two bytes on its stack, the first one at the end of a page. -/
def twoBytesRun (first second : UInt8) : List SpaceEvent :=
  mainThreadRun ++ [.store (.user 0) 0x12 0xfff first, .store (.user 0) 0x13 0 second]

/-- Its machine and address space. -/
def twoBytes (first second : UInt8) : Option (Machine × MemorySet) :=
  (Machine.boot (fun _ => 0) tinyLayout).bind fun booted =>
    (booted.steps tinyLayout (twoBytesRun first second)).bind fun k =>
      (k.live (.user 0)).map fun set => (k, set)

theorem twoBytes_storedAt {first second : UInt8} {string : String}
    (bytes : strBytes string = [first, second])
    (result : ((twoBytes first second).map fun main =>
      ((main.2.pageTable.lookup main.1.phys.mem 0x12).map PageTableEntry.user,
        (main.2.pageTable.lookup main.1.phys.mem 0x13).map PageTableEntry.user,
        main.2.pageTable.load main.1.phys.mem 0x12fff,
        main.2.pageTable.load main.1.phys.mem 0x13000,
        main.2.pageTable.load main.1.phys.mem 0x13001)) =
      some (some true, some true, some first, some second, some 0)) : ∃ booted k set,
    Machine.boot (fun _ => 0) tinyLayout = some booted ∧
    booted.steps tinyLayout (twoBytesRun first second) = some k ∧ k.live (.user 0) = some set ∧
    StoredAt set.pageTable k.phys.mem 0x12fff string := by
  obtain ⟨⟨k, set⟩, isMain, result⟩ := Option.map_eq_some_iff.mp result
  obtain ⟨booted, boot, h⟩ := Option.bind_eq_some_iff.mp isMain
  obtain ⟨last, run, h⟩ := Option.bind_eq_some_iff.mp h
  obtain ⟨found, isLive, h⟩ := Option.map_eq_some_iff.mp h
  obtain ⟨rfl, rfl⟩ := Prod.mk.inj h
  simp only [Prod.mk.injEq] at result
  obtain ⟨onFirst, onSecond, isFirst, isSecond, isNul⟩ := result
  obtain ⟨pte, foundFirst, allowFirst⟩ := Option.map_eq_some_iff.mp onFirst
  obtain ⟨pte', foundSecond, allowSecond⟩ := Option.map_eq_some_iff.mp onSecond
  refine ⟨booted, last, found, boot, run, isLive, fun i bound => ?_⟩
  rw [bytes] at bound ⊢
  have cases : i = 0 ∨ i = 1 ∨ i = 2 := by
    rw [List.length_cons, List.length_singleton] at bound
    omega
  rcases cases with rfl | rfl | rfl
  · exact ⟨⟨by decide, pte, foundFirst, allowFirst⟩, isFirst⟩
  · exact ⟨⟨by decide, pte', foundSecond, allowSecond⟩, isSecond⟩
  · exact ⟨⟨by decide, pte', foundSecond, allowSecond⟩, isNul⟩

/-- The name `sh` arrives. -/
theorem translatedStr_faithful_iff_sh : ∃ booted k set,
    Machine.boot (fun _ => 0) tinyLayout = some booted ∧
    booted.steps tinyLayout (twoBytesRun 115 104) = some k ∧ k.live (.user 0) = some set ∧
    StoredAt set.pageTable k.phys.mem 0x12fff "sh" ∧
    translatedStr k.phys.mem set.pageTable.token 0x12fff 3 = .returned "sh" := by
  have bytes : strBytes "sh" = [115, 104] := by decide +kernel
  obtain ⟨booted, k, set, boot, run, isLive, stored⟩ :=
    twoBytes_storedAt bytes (by decide +kernel)
  refine ⟨booted, k, set, boot, run, isLive, stored, ?_⟩
  exact (translatedStr_faithful_iff _ boot _ run 0 isLive 0x12fff "sh" (by rw [bytes]; decide)
    stored).mpr (by simp) 3 (by rw [bytes]; decide)

/-- The character `é` arrives as two characters. -/
theorem translatedStr_accent : ∃ booted k set,
    Machine.boot (fun _ => 0) tinyLayout = some booted ∧
    booted.steps tinyLayout (twoBytesRun 0xc3 0xa9) = some k ∧ k.live (.user 0) = some set ∧
    0 ∉ strBytes "é" ∧ StoredAt set.pageTable k.phys.mem 0x12fff "é" ∧
    ∀ fuel, 2 < fuel →
      translatedStr k.phys.mem set.pageTable.token 0x12fff fuel = .returned "Ã©" ∧ "Ã©" ≠ "é" := by
  have bytes : strBytes "é" = [0xc3, 0xa9] := by decide +kernel
  have noNul : 0 ∉ strBytes "é" := by
    rw [bytes]
    decide
  obtain ⟨booted, k, set, boot, run, isLive, stored⟩ :=
    twoBytes_storedAt bytes (by decide +kernel)
  refine ⟨booted, k, set, boot, run, isLive, noNul, stored, fun fuel enough => ⟨?_, by decide⟩⟩
  obtain ⟨inv, above⟩ := Machine.inv_boot boot
  have user := (inv.steps above run).userSpace above isLive
  rw [user.translatedStr stored noNul (by rw [bytes]; exact enough), bytes]
  rfl

end CoreFromDust.Os.Mm
