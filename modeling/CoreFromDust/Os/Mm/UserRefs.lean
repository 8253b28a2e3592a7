import CoreFromDust.Os.Mm.UserBytes
import CoreFromDust.Os.Mm.Proofs.UserWrites

/-!
# References to objects of the user

`translated_refmut` and `translated_ref` translate the first byte of an object only. The reference
is the user's object when the object lies on one page, or when its second page happens to be in the
frame after that of the first one; otherwise the bytes on the second page are bytes of another
frame.
-/

namespace CoreFromDust.Os.Mm

open SpaceWf

/-- `translated_ref`: the physical address of the reference. -/
def translatedRef (m : Memory) (token ptr : Nat) : Option Nat :=
  ((PageTable.fromToken token).translateVa m (virtAddr ptr)).bind getMut

/-- The types that `translated_refmut` and `translated_ref` are used with. -/
inductive RefType where
  | u8
  | i32
  | usize
  deriving DecidableEq, Repr

/-- `size_of::<T>()`. -/
def RefType.size : RefType → Nat
  | .u8 => 1
  | .i32 => 4
  | .usize => 8

/-- `*translated_refmut(token, ptr) = value`, with the bytes of the value. -/
def storeRef (m : Memory) (token ptr : Nat) (data : List UInt8) : Option Memory :=
  (translatedRefmut m token ptr).map fun pa => m.writeAt pa data

/-- The stores of `sys_pipe`. -/
def storePipe (m : Memory) (token pipe readFd writeFd : Nat) : Option Memory :=
  (storeRef m token pipe (usizeBytes readFd)).bind fun m =>
    storeRef m token ((pipe + 8) % 2 ^ 64) (usizeBytes writeFd)

/-- The byte that a program reads at a virtual address. -/
def PageTable.load (t : PageTable) (m : Memory) (va : Nat) : Option UInt8 := (t.byteAt m va).map m

/-- The address lies on a page with a valid entry that the user may access. -/
def PageTable.UserByte (t : PageTable) (m : Memory) (va : Nat) : Prop :=
  usizeOfVirtAddr (virtAddr va) = va ∧
    ∃ pte, t.lookup m (floor (virtAddr va)) = some pte ∧ pte.user = true

/-- The reference to an object at `ptr` denotes the bytes of the user: it covers their physical
bytes, the user reads what is stored through it, and no other byte changes. -/
def Denotes (t : PageTable) (m : Memory) (ptr size : Nat) : Prop :=
  ∃ pa, translatedRefmut m t.token ptr = some pa ∧ translatedRef m t.token ptr = some pa ∧
    (∀ i < size, t.byteAt m (ptr + i) = some (pa + i)) ∧
    ∀ data, data.length = size → ∃ m', storeRef m t.token ptr data = some m' ∧
      (∀ i < size, t.load m' (ptr + i) = data[i]?) ∧
      ∀ address, (∀ i < size, t.byteAt m (ptr + i) ≠ some address) → m' address = m address

/-- The object lies on one page, or its second page is in the frame after that of the first. -/
def RefFits (t : PageTable) (m : Memory) (ptr size : Nat) : Prop :=
  ptr % 4096 + size ≤ 4096 ∨
    (t.lookup m (floor (virtAddr (ptr + size - 1)))).map PageTableEntry.ppn =
      (t.lookup m (floor (virtAddr ptr))).map fun pte => pte.ppn + 1

theorem writeAt_apply (m : Memory) (pa : Nat) (data : List UInt8) (address : Nat) :
    m.writeAt pa data address =
      if pa ≤ address ∧ address < pa + data.length then data.getD (address - pa) 0 else
      m address := by
  have whole : floor pa * 4096 + pageOffset pa = pa := by
    unfold floor pageOffset
    omega
  rw [Memory.writeAt, Memory.writeBytes, whole]

section Reference

variable {l tramp ptr size : Nat} {s : Phys} {set : MemorySet} {m : Memory} {t : PageTable}

theorem PageTable.UserByte.lt {va : Nat} (onPage : t.UserByte m va) : va < 2 ^ 64 := by
  have canonical := onPage.1
  have small := virtAddr_lt va
  rcases Nat.lt_or_ge (virtAddr va) (2 ^ 38) with low | high
  · rw [usizeOfVirtAddr_low low] at canonical
    omega
  · rw [usizeOfVirtAddr_high high small] at canonical
    omega

/-- The trampoline is not a user page. -/
theorem UserSpace.userByte_ne_trampoline (user : UserSpace l tramp s set) {va : Nat}
    (isUser : set.pageTable.UserByte s.mem va) : floor (virtAddr va) ≠ 2 ^ 27 - 1 := by
  obtain ⟨-, pte, found, allowed⟩ := isUser
  intro isTramp
  rw [isTramp, user.wf.onTrampoline, Option.some.injEq] at found
  rw [← found, PageTableEntry.user, PageTableEntry.flags_new _ user.small] at allowed
  exact absurd allowed (by decide)

/-- The bytes of a user page lie in data frames of the address space. -/
theorem UserSpace.userByte (user : UserSpace l tramp s set) {va : Nat}
    (isUser : set.pageTable.UserByte s.mem va) :
    ∃ pte, set.pageTable.lookup s.mem (floor (virtAddr va)) = some pte ∧
      set.pageTable.byteAt s.mem va = some (pte.ppn * 4096 + pageOffset va) ∧
      pte.ppn ∈ areaFrames set.areas ∧ 0 < pte.ppn := by
  have notTramp := user.userByte_ne_trampoline isUser
  obtain ⟨canonical, pte, found, -⟩ := isUser
  have byte : set.pageTable.byteAt s.mem va = some (pte.ppn * 4096 + pageOffset va) := by
    rw [PageTable.byteAt, if_pos canonical, found]
    rfl
  have below : floor (virtAddr va) < 2 ^ 27 := by
    have small := virtAddr_lt va
    unfold floor
    omega
  have wf := user.wf
  have isArea : ∃ area ∈ set.areas, area.Has (floor (virtAddr va)) := by
    by_contra noArea
    rw [wf.onNone _ (by omega) fun area mem has => noArea ⟨area, mem, has⟩] at found
    exact absurd found (by simp)
  obtain ⟨area, mem, has⟩ := isArea
  obtain ⟨ppn, isEntry, lookup⟩ := wf.framedPage mem (user.framed area mem) has
  obtain ⟨isFrame, used, small⟩ := wf.entry_inUse isEntry
  have isPpn : pte.ppn = ppn := by
    rw [found, Option.some.injEq] at lookup
    rw [lookup, PageTableEntry.ppn_new _ small]
  have lower := used.1
  have low := user.low
  exact ⟨pte, found, byte, by rw [isPpn]; exact isFrame, by omega⟩

/-- The physical addresses of bytes of one object that are on the page of its start, or on the
next one. -/
theorem byteAt_add {i : Nat} (onPage : t.UserByte m (ptr + i)) (near : i < 4096)
    {pte pte' : PageTableEntry} (found : t.lookup m (floor (virtAddr ptr)) = some pte)
    (found' : t.lookup m (floor (virtAddr (ptr + i))) = some pte') :
    t.byteAt m (ptr + i) = some (if ptr % 4096 + i < 4096 then pte.ppn * 4096 + ptr % 4096 + i
      else pte'.ppn * 4096 + (ptr % 4096 + i - 4096)) := by
  rw [PageTable.byteAt, if_pos onPage.1, found']
  split
  · next inPage =>
    have samePage : floor (virtAddr (ptr + i)) = floor (virtAddr ptr) := by
      unfold floor virtAddr
      omega
    rw [samePage, found, Option.some.injEq] at found'
    rw [← found', Option.map_some, Option.some.injEq, pageOffset]
    omega
  · rw [Option.map_some, Option.some.injEq, pageOffset]
    omega

/-- The reference covers the bytes exactly when the object fits. -/
theorem covers_iff (onPages : ∀ i < size, t.UserByte m (ptr + i)) (nonempty : 0 < size)
    (near : size ≤ 4096) {pte : PageTableEntry}
    (found : t.lookup m (floor (virtAddr ptr)) = some pte) :
    (∀ i < size, t.byteAt m (ptr + i) = some (pte.ppn * 4096 + ptr % 4096 + i)) ↔
      RefFits t m ptr size := by
  obtain ⟨last, foundLast, -⟩ := (onPages (size - 1) (by omega)).2
  rw [show ptr + (size - 1) = ptr + size - 1 by omega] at foundLast
  rw [RefFits, found, foundLast, Option.map_some, Option.map_some, Option.some.injEq]
  constructor
  · intro covers
    refine or_iff_not_imp_left.mpr fun crosses => ?_
    have byte := covers (size - 1) (by omega)
    rw [byteAt_add (onPages (size - 1) (by omega)) (by omega) found
      (by rw [show ptr + (size - 1) = ptr + size - 1 by omega]; exact foundLast),
      if_neg (by omega), Option.some.injEq] at byte
    omega
  · intro fits i bound
    obtain ⟨other, foundOther, -⟩ := (onPages i bound).2
    rw [byteAt_add (onPages i bound) (by omega) found foundOther, Option.some.injEq]
    split
    · rfl
    · next crosses =>
      -- the bytes behind the boundary are on the page of the last byte
      have samePage : floor (virtAddr (ptr + i)) = floor (virtAddr (ptr + size - 1)) := by
        unfold floor virtAddr
        omega
      rw [samePage, foundLast, Option.some.injEq] at foundOther
      rw [← foundOther]
      omega

/-- A reference to an object on user pages. -/
theorem UserSpace.refmut_user (user : UserSpace l tramp s set)
    (onPage : set.pageTable.UserByte s.mem ptr) {pte : PageTableEntry}
    (found : set.pageTable.lookup s.mem (floor (virtAddr ptr)) = some pte) :
    translatedRefmut s.mem set.pageTable.token ptr = some (pte.ppn * 4096 + ptr % 4096) := by
  obtain ⟨pte', found', -, -, positive⟩ := user.userByte onPage
  rw [found, Option.some.injEq] at found'
  rw [translatedRefmut_eq_some_iff]
  refine ⟨by rw [found']; omega, pte, ?_, ?_⟩
  · rw [translate_fromToken user.wf]
    exact (Option.filter_eq_some_iff.mp found).1
  · unfold pageOffset virtAddr
    omega

/-- A store to bytes of user pages changes data frames only. -/
theorem UserSpace.writeAt_dataWrites (user : UserSpace l tramp s set) {pa : Nat} {data : List UInt8}
    (onPages : ∀ i < data.length, set.pageTable.UserByte s.mem (ptr + i))
    (covers : ∀ i < data.length, set.pageTable.byteAt s.mem (ptr + i) = some (pa + i)) :
    DataWrites l s set m (m.writeAt pa data) := by
  intro ppn used notData offset bound
  rw [Memory.bytes, Memory.bytes, writeAt_apply, if_neg]
  rintro ⟨lower, upper⟩
  have inside : ppn * 4096 + offset - pa < data.length := by omega
  obtain ⟨pte, -, byte, isFrame, -⟩ := user.userByte (onPages _ inside)
  rw [covers _ inside, Option.some.injEq, pageOffset] at byte
  have isPpn : pte.ppn = ppn := by omega
  rw [isPpn] at isFrame
  exact notData isFrame

/-- Changes to data frames keep the translation. -/
theorem DataWrites.translate (writes : DataWrites l s set s.mem m)
    (wf : set.Wf l tramp s) (vpn : Nat) :
    set.pageTable.translate m vpn = set.pageTable.translate s.mem vpn :=
  wf.table.translate_congr (fun ppn table => writes ppn (wf.table.inUse ppn table) fun data =>
    wf.notTable ppn data table) vpn

theorem DataWrites.byteAt (writes : DataWrites l s set s.mem m) (wf : set.Wf l tramp s) (va : Nat) :
    set.pageTable.byteAt m va = set.pageTable.byteAt s.mem va := by
  rw [PageTable.byteAt, PageTable.byteAt, PageTable.lookup, PageTable.lookup, writes.translate wf]

theorem DataWrites.translatedRefmut (writes : DataWrites l s set s.mem m) (wf : set.Wf l tramp s)
    (ptr : Nat) : translatedRefmut m set.pageTable.token ptr =
      translatedRefmut s.mem set.pageTable.token ptr := by
  have same : ∀ vpn, (PageTable.fromToken set.pageTable.token).translate m vpn =
      (PageTable.fromToken set.pageTable.token).translate s.mem vpn := by
    intro vpn
    rw [translate_fromToken wf, translate_fromToken wf]
    exact writes.translate wf vpn
  rw [Mm.translatedRefmut, Mm.translatedRefmut, PageTable.translateVa, PageTable.translateVa, same]

/-- The user reads what is stored through a reference that covers the bytes. -/
theorem UserSpace.denotes_iff (user : UserSpace l tramp s set) (nonempty : 0 < size)
    (near : size ≤ 4096) (onPages : ∀ i < size, set.pageTable.UserByte s.mem (ptr + i)) :
    Denotes set.pageTable s.mem ptr size ↔ RefFits set.pageTable s.mem ptr size := by
  obtain ⟨pte, found, -⟩ := (onPages 0 nonempty).2
  have isRef := user.refmut_user (onPages 0 nonempty) found
  rw [Nat.add_zero] at found isRef
  rw [← covers_iff onPages nonempty near found]
  constructor
  · rintro ⟨pa, isPa, -, covers, -⟩
    rw [isRef, Option.some.injEq] at isPa
    rw [isPa]
    exact covers
  · intro covers
    refine ⟨_, isRef, isRef, covers, fun data length => ?_⟩
    subst length
    refine ⟨_, by rw [storeRef, isRef, Option.map_some], fun i bound => ?_, fun address apart => ?_⟩
    · have writes := user.writeAt_dataWrites (m := s.mem) onPages covers
      rw [PageTable.load, writes.byteAt user.wf, covers i bound, Option.map_some, writeAt_apply,
        if_pos (by omega), Nat.add_sub_cancel_left, List.getD_eq_getElem _ _ bound,
        List.getElem?_eq_getElem bound]
    · rw [writeAt_apply, if_neg]
      rintro ⟨lower, upper⟩
      refine apart (address - (pte.ppn * 4096 + ptr % 4096)) (by omega) ?_
      rw [covers _ (by omega), Option.some.injEq]
      omega

/-- Different addresses of the user are different bytes. -/
theorem UserSpace.byteAt_injective (user : UserSpace l tramp s set) {va va' address : Nat}
    (onPage : set.pageTable.UserByte s.mem va) (onPage' : set.pageTable.UserByte s.mem va')
    (byte : set.pageTable.byteAt s.mem va = some address)
    (byte' : set.pageTable.byteAt s.mem va' = some address) : va = va' := by
  obtain ⟨pte, found, isByte, -, positive⟩ := user.userByte onPage
  obtain ⟨pte', found', isByte', -, -⟩ := user.userByte onPage'
  rw [isByte, Option.some.injEq, pageOffset] at byte
  rw [isByte', Option.some.injEq, pageOffset] at byte'
  have entry : ∀ {address : Nat} {pte : PageTableEntry}, set.pageTable.UserByte s.mem address →
      set.pageTable.lookup s.mem (floor (virtAddr address)) = some pte →
      (floor (virtAddr address), pte.ppn) ∈ areaEntries set.areas := by
    intro address pte onPage found
    obtain ⟨pte', found', -, isFrame, positive⟩ := user.userByte onPage
    rw [found, Option.some.injEq] at found'
    subst found'
    have below : floor (virtAddr address) % 2 ^ 27 = floor (virtAddr address) := by
      unfold floor virtAddr
      omega
    have used := (user.wf.inUse _ isFrame).1
    have low := user.low
    rcases user.wf.target user.framed user.small (Option.filter_eq_some_iff.mp found).1 with
      isEntry | isTramp | isZero
    · rwa [below] at isEntry
    · omega
    · omega
  have samePpn : pte.ppn = pte'.ppn := by omega
  have isEntry := entry onPage found
  rw [samePpn] at isEntry
  have samePage := user.wf.page_unique isEntry (entry onPage' found')
  rw [← onPage.1, ← onPage'.1]
  congr 1
  unfold floor virtAddr at samePage
  unfold virtAddr
  omega

/-- `sys_pipe` with an array of two words that fit: the program reads the two descriptors. -/
theorem UserSpace.storePipe (user : UserSpace l tramp s set) (readFd writeFd : Nat)
    (onPages : ∀ i < 16, set.pageTable.UserByte s.mem (ptr + i))
    (fits : RefFits set.pageTable s.mem ptr 8) (fits' : RefFits set.pageTable s.mem (ptr + 8) 8) :
    ∃ m', storePipe s.mem set.pageTable.token ptr readFd writeFd = some m' ∧
      (∀ i < 8, set.pageTable.load m' (ptr + i) = (usizeBytes readFd)[i]?) ∧
      ∀ i < 8, set.pageTable.load m' (ptr + 8 + i) = (usizeBytes writeFd)[i]? := by
  have first : ∀ i < 8, set.pageTable.UserByte s.mem (ptr + i) :=
    fun i bound => onPages i (by omega)
  have second : ∀ i < 8, set.pageTable.UserByte s.mem (ptr + 8 + i) := by
    intro i bound
    rw [Nat.add_assoc]
    exact onPages (8 + i) (by omega)
  obtain ⟨pa, isRef, -, covers, -⟩ := (user.denotes_iff (by omega) (by omega) first).mpr fits
  obtain ⟨pa', isRef', -, covers', -⟩ := (user.denotes_iff (by omega) (by omega) second).mpr fits'
  have length := usizeBytes_length readFd
  have length' := usizeBytes_length writeFd
  have word : ptr + 8 < 2 ^ 64 := (onPages 8 (by omega)).lt
  -- the first store keeps the translation, so the second one goes where it would have gone before
  have writes : DataWrites l s set s.mem (s.mem.writeAt pa (usizeBytes readFd)) :=
    user.writeAt_dataWrites (by rw [length]; exact first) (by rw [length]; exact covers)
  have writes' := writes.trans (user.writeAt_dataWrites
    (show ∀ i < (usizeBytes writeFd).length, _ by rw [length']; exact second)
    (by rw [length']; exact covers'))
  refine ⟨(s.mem.writeAt pa (usizeBytes readFd)).writeAt pa' (usizeBytes writeFd), ?_,
    fun i bound => ?_, fun i bound => ?_⟩
  · rw [Mm.storePipe, storeRef, isRef, Option.map_some, Option.bind_some,
      Nat.mod_eq_of_lt word, storeRef, writes.translatedRefmut user.wf, isRef', Option.map_some]
  · rw [PageTable.load, writes'.byteAt user.wf, covers i bound, Option.map_some,
      writeAt_apply, if_neg, writeAt_apply, if_pos (by omega), Nat.add_sub_cancel_left,
      List.getD_eq_getElem _ _ (by omega), List.getElem?_eq_getElem (by omega)]
    rintro ⟨lower, upper⟩
    have byte' := covers' (pa + i - pa') (by omega)
    rw [show pa' + (pa + i - pa') = pa + i by omega] at byte'
    have same := user.byteAt_injective (first i bound) (second _ (by omega)) (covers i bound) byte'
    omega
  · rw [PageTable.load, writes'.byteAt user.wf, covers' i bound, Option.map_some, writeAt_apply,
      if_pos (by omega), Nat.add_sub_cancel_left, List.getD_eq_getElem _ _ (by omega),
      List.getElem?_eq_getElem (by omega)]

end Reference

/-- In every run of the machine, for each type `T` that `translated_refmut` is used with and each
pointer of a process whose bytes lie on user pages, the reference denotes the object of the user
exactly when the object does not cross a page or its second page is in the next frame. -/
theorem translatedRefmut_denotes_iff {layout : KernelLayout} {booted k : Machine} {set : MemorySet}
    (mem : Memory) (boot : Machine.boot mem layout = some booted) (events : List SpaceEvent)
    (run : booted.steps layout events = some k) (id : Nat) (isLive : k.live (.user id) = some set)
    (type : RefType) (ptr : Nat)
    (onPages : ∀ i < type.size, set.pageTable.UserByte k.phys.mem (ptr + i)) :
    Denotes set.pageTable k.phys.mem ptr type.size ↔
      RefFits set.pageTable k.phys.mem ptr type.size := by
  obtain ⟨inv, above⟩ := Machine.inv_boot boot
  have user := (inv.steps above run).userSpace above isLive
  exact user.denotes_iff (by cases type <;> decide) (by cases type <;> decide) onPages

/-- A word on the stack of the main thread. -/
theorem translatedRefmut_denotes_iff_stack : ∃ booted k set,
    Machine.boot (fun _ => 0) tinyLayout = some booted ∧
    booted.steps tinyLayout mainThreadRun = some k ∧ k.live (.user 0) = some set ∧
    (∀ i < RefType.size .usize, set.pageTable.UserByte k.phys.mem (0x13000 + i)) ∧
    Denotes set.pageTable k.phys.mem 0x13000 (RefType.size .usize) := by
  have present : (mainThread.map fun main =>
      (main.2.pageTable.lookup main.1.phys.mem 0x13).map PageTableEntry.user) =
        some (some true) := by
    decide +kernel
  obtain ⟨⟨k, set⟩, isMain, found⟩ := Option.map_eq_some_iff.mp present
  obtain ⟨pte, found, allowed⟩ := Option.map_eq_some_iff.mp found
  obtain ⟨booted, boot, run, isLive⟩ := mainThread_eq_some isMain
  have onPages : ∀ i < RefType.size .usize, set.pageTable.UserByte k.phys.mem (0x13000 + i) := by
    intro i bound
    have small : i < 8 := bound
    have isVa : virtAddr (0x13000 + i) = 0x13000 + i := virtAddr_of_lt (by omega)
    have page : floor (0x13000 + i) = 0x13 := by
      unfold floor
      omega
    refine ⟨by rw [isVa, usizeOfVirtAddr_low (by omega)], pte, ?_, allowed⟩
    rw [isVa, page]
    exact found
  refine ⟨booted, k, set, boot, run, isLive, onPages, ?_⟩
  exact (translatedRefmut_denotes_iff _ boot mainThreadRun run 0 isLive .usize 0x13000 onPages).mpr
    (.inl (by decide))

/-- A second thread is created, exits and is created again, so its stack and its trap context get
recycled frames. -/
def threadAgainRun : List SpaceEvent :=
  mainThreadRun ++ userResEvents 0 0x12000 1 ++
    [.removeAreaWithStartVpn (.user 0) 0x15, .removeAreaWithStartVpn (.user 0) (2 ^ 27 - 3)] ++
    userResEvents 0 0x12000 1

/-- Its machine and address space. -/
def threadAgain : Option (Machine × MemorySet) :=
  (Machine.boot (fun _ => 0) tinyLayout).bind fun booted =>
    (booted.steps tinyLayout threadAgainRun).bind fun k =>
      (k.live (.user 0)).map fun set => (k, set)

/-- An `i32` that crosses from the first to the second page of the stack of the second thread. -/
theorem translatedRefmut_crossing : ∃ booted k set,
    Machine.boot (fun _ => 0) tinyLayout = some booted ∧
    booted.steps tinyLayout threadAgainRun = some k ∧ k.live (.user 0) = some set ∧
    (∀ i < RefType.size .i32, set.pageTable.UserByte k.phys.mem (0x15ffe + i)) ∧
    ¬ Denotes set.pageTable k.phys.mem 0x15ffe (RefType.size .i32) := by
  have present : (threadAgain.map fun main =>
      ((main.2.pageTable.lookup main.1.phys.mem 0x15).map PageTableEntry.user,
        (main.2.pageTable.lookup main.1.phys.mem 0x16).map PageTableEntry.user,
        translatedRefmut main.1.phys.mem main.2.pageTable.token 0x15ffe,
        main.2.pageTable.byteAt main.1.phys.mem 0x16000)) =
      some (some true, some true, some 0x807f4ffe, some 0x807f3000) := by
    decide +kernel
  obtain ⟨⟨k, set⟩, isMain, result⟩ := Option.map_eq_some_iff.mp present
  obtain ⟨booted, boot, h⟩ := Option.bind_eq_some_iff.mp isMain
  obtain ⟨last, run, h⟩ := Option.bind_eq_some_iff.mp h
  obtain ⟨found, isLive, h⟩ := Option.map_eq_some_iff.mp h
  obtain ⟨rfl, rfl⟩ := Prod.mk.inj h
  simp only [Prod.mk.injEq] at result
  obtain ⟨onFirst, onSecond, isRef, isByte⟩ := result
  obtain ⟨first, foundFirst, allowFirst⟩ := Option.map_eq_some_iff.mp onFirst
  obtain ⟨second, foundSecond, allowSecond⟩ := Option.map_eq_some_iff.mp onSecond
  refine ⟨booted, last, found, boot, run, isLive, fun i bound => ?_, ?_⟩
  · have small : i < 4 := bound
    have isVa : virtAddr (0x15ffe + i) = 0x15ffe + i := virtAddr_of_lt (by omega)
    refine ⟨by rw [isVa, usizeOfVirtAddr_low (by omega)], ?_⟩
    have page : floor (0x15ffe + i) = 0x15 ∨ floor (0x15ffe + i) = 0x16 := by
      unfold floor
      omega
    rw [isVa]
    rcases page with page | page
    · rw [page]
      exact ⟨first, foundFirst, allowFirst⟩
    · rw [page]
      exact ⟨second, foundSecond, allowSecond⟩
  · rintro ⟨pa, isPa, -, covers, -⟩
    rw [isRef, Option.some.injEq] at isPa
    have byte := covers 2 (by decide)
    rw [isByte, Option.some.injEq] at byte
    omega

end CoreFromDust.Os.Mm
