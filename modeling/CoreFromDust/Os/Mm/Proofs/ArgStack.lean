import CoreFromDust.Os.Mm.UserRefs
import CoreFromDust.Os.Mm.Proofs.ProcessSteps

/-!
# The arguments on the user stack

The stack of the main thread has two pages with frames of their own. A store through
`translated_refmut` to an address of the stack changes the byte of that address and no other, so
the loops of `exec` leave the argument strings and the array `argv` as they are written.
-/

namespace CoreFromDust.Os.Mm

open SpaceWf

/-- The stack of the main thread at `base`. -/
structure MainStack (l tramp : Nat) (s : Phys) (set : MemorySet) (base : Nat) : Prop where
  user : UserSpace l tramp s set
  aligned : base % 4096 = 0
  word : base + 8192 < 2 ^ 64
  inside : virtAddr base + 8192 < 2 ^ 39
  area : ∃ area ∈ set.areas, area.startVpn = floor (virtAddr base) ∧
    area.endVpn = floor (virtAddr base) + 2

/-- The physical address that the page table assigns to a virtual one. -/
def PageTable.physOf (t : PageTable) (m : Memory) (va : Nat) : Nat :=
  ((t.lookup m (floor (virtAddr va))).map fun pte => pte.ppn * 4096 + pageOffset va).getD 0

section Stack

variable {l tramp base : Nat} {s : Phys} {set : MemorySet} {m m' : Memory}

theorem MainStack.virtAddr_eq (stack : MainStack l tramp s set base) {va : Nat} (lower : base ≤ va)
    (upper : va < base + 8192) : virtAddr va = virtAddr base + (va - base) := by
  have inside := stack.inside
  unfold virtAddr at inside ⊢
  omega

/-- The frame of an address of the stack. -/
theorem MainStack.entry (stack : MainStack l tramp s set base) {va : Nat} (lower : base ≤ va)
    (upper : va < base + 8192) :
    ∃ pte, set.pageTable.lookup s.mem (floor (virtAddr va)) = some pte ∧
      (floor (virtAddr va), pte.ppn) ∈ areaEntries set.areas ∧
      set.pageTable.physOf s.mem va = pte.ppn * 4096 + va % 4096 := by
  obtain ⟨area, mem, start, stop⟩ := stack.area
  have aligned := stack.aligned
  have isVa := stack.virtAddr_eq lower upper
  have page : virtAddr base % 4096 = 0 := by
    unfold virtAddr
    omega
  have has : area.Has (floor (virtAddr va)) := by
    rw [MapArea.Has, start, stop, isVa]
    unfold floor
    omega
  obtain ⟨ppn, isEntry, found⟩ := stack.user.wf.framedPage mem (stack.user.framed area mem) has
  have small := (stack.user.wf.entry_inUse isEntry).2.2
  refine ⟨_, found, ?_, ?_⟩
  · rw [PageTableEntry.ppn_new _ small]
    exact isEntry
  · rw [PageTable.physOf, found]
    rfl

/-- A reference to an address of the stack, before and after stores to data frames. -/
theorem MainStack.refmut (stack : MainStack l tramp s set base)
    (writes : DataWrites l s set s.mem m)
    {va : Nat} (lower : base ≤ va) (upper : va < base + 8192) :
    translatedRefmut m set.pageTable.token va = some (set.pageTable.physOf s.mem va) := by
  obtain ⟨pte, found, isEntry, isPhys⟩ := stack.entry lower upper
  have used := (stack.user.wf.entry_inUse isEntry).2.1.1
  have low := stack.user.low
  rw [writes.translatedRefmut stack.user.wf, translatedRefmut_eq_some_iff, isPhys]
  refine ⟨by omega, pte, ?_, ?_⟩
  · rw [translate_fromToken stack.user.wf]
    exact (Option.filter_eq_some_iff.mp found).1
  · unfold pageOffset virtAddr
    omega

/-- Different addresses of the stack are different bytes. -/
theorem MainStack.physOf_injective (stack : MainStack l tramp s set base) {va va' : Nat}
    (lower : base ≤ va) (upper : va < base + 8192) (lower' : base ≤ va')
    (upper' : va' < base + 8192)
    (same : set.pageTable.physOf s.mem va = set.pageTable.physOf s.mem va') : va = va' := by
  obtain ⟨pte, -, isEntry, isPhys⟩ := stack.entry lower upper
  obtain ⟨pte', -, isEntry', isPhys'⟩ := stack.entry lower' upper'
  rw [isPhys, isPhys'] at same
  have samePpn : pte.ppn = pte'.ppn := by omega
  rw [samePpn] at isEntry
  have samePage := stack.user.wf.page_unique isEntry isEntry'
  have aligned := stack.aligned
  rw [stack.virtAddr_eq lower upper, stack.virtAddr_eq lower' upper'] at samePage
  unfold floor at samePage
  unfold virtAddr at samePage
  omega

/-- The bytes of a page of the stack are in one frame. -/
theorem MainStack.physOf_add (stack : MainStack l tramp s set base) {va i : Nat} (lower : base ≤ va)
    (upper : va + i < base + 8192) (samePage : va % 4096 + i < 4096) :
    set.pageTable.physOf s.mem (va + i) = set.pageTable.physOf s.mem va + i := by
  obtain ⟨pte, found, -, isPhys⟩ := stack.entry lower (by omega)
  obtain ⟨pte', found', -, isPhys'⟩ := stack.entry (show base ≤ va + i by omega) upper
  have page : floor (virtAddr (va + i)) = floor (virtAddr va) := by
    unfold floor virtAddr
    omega
  rw [page, found, Option.some.injEq] at found'
  rw [isPhys, isPhys', ← found']
  omega

/-- A store to the stack changes data frames only. -/
theorem MainStack.dataPlace (stack : MainStack l tramp s set base) {va size : Nat}
    (lower : base ≤ va) (upper : va < base + 8192) (samePage : va % 4096 + size ≤ 4096) :
    DataPlace l s set (set.pageTable.physOf s.mem va) size :=
  stack.user.refmut .refl (stack.refmut .refl lower upper) size samePage

/-- A store to the stack, seen at the addresses of the stack. -/
theorem MainStack.writeAt (stack : MainStack l tramp s set base) {va va' : Nat} (data : List UInt8)
    (lower : base ≤ va) (upper : va + data.length ≤ base + 8192) (nonempty : data ≠ [])
    (samePage : va % 4096 + data.length ≤ 4096) (lower' : base ≤ va') (upper' : va' < base + 8192) :
    m.writeAt (set.pageTable.physOf s.mem va) data (set.pageTable.physOf s.mem va') =
      if va ≤ va' ∧ va' < va + data.length then data.getD (va' - va) 0
      else m (set.pageTable.physOf s.mem va') := by
  have positive := List.length_pos_of_ne_nil nonempty
  rw [writeAt_apply]
  split
  · next covered =>
    -- the byte is one of those that are written, so its address is too
    obtain ⟨i, isByte⟩ := Nat.exists_eq_add_of_le covered.1
    have small : i < data.length := by omega
    have moved := stack.physOf_add lower (show va + i < base + 8192 by omega) (by omega)
    have same : va' = va + i := stack.physOf_injective lower' upper' (by omega) (by omega)
      (isByte.trans moved.symm)
    rw [if_pos (by omega), same, moved]
    simp only [Nat.add_sub_cancel_left]
  · next outside =>
    rw [if_neg]
    rintro ⟨above, below⟩
    obtain ⟨i, rfl⟩ := Nat.exists_eq_add_of_le above
    have moved := stack.physOf_add lower (show va + i < base + 8192 by omega) (by omega)
    omega

/-! ## The loops of exec -/

/-- The loop over the bytes of an argument. -/
theorem MainStack.pushBytes (stack : MainStack l tramp s set base) (bytes : List UInt8) {p : Nat}
    (writes : DataWrites l s set s.mem m) (lower : base ≤ p)
    (upper : p + bytes.length ≤ base + 8192) :
    ∃ m', pushBytes m set.pageTable.token p bytes = some m' ∧ DataWrites l s set s.mem m' ∧
      ∀ va, base ≤ va → va < base + 8192 → m' (set.pageTable.physOf s.mem va) =
        if p ≤ va ∧ va < p + bytes.length then bytes.getD (va - p) 0
        else m (set.pageTable.physOf s.mem va) := by
  induction bytes generalizing m p with
  | nil =>
      refine ⟨m, rfl, writes, fun va _ _ => ?_⟩
      rw [if_neg (by rw [List.length_nil]; omega)]
  | cons c rest ih =>
      rw [List.length_cons] at upper
      have word := stack.word
      have place := stack.dataPlace lower (by omega) (show p % 4096 + 1 ≤ 4096 by omega)
      obtain ⟨m', pushed, writes', bytes⟩ := ih (m := m.writeAt (set.pageTable.physOf s.mem p) [c])
        (p := p + 1) (writes.trans (place.writeAt [c] rfl)) (by omega) (by omega)
      refine ⟨m', ?_, writes', fun va lower' upper' => ?_⟩
      · rw [Mm.pushBytes, stack.refmut writes lower (by omega), Option.bind_some,
          Nat.mod_eq_of_lt (by omega : p + 1 < 2 ^ 64), pushed]
      · rw [bytes va lower' upper', List.length_cons]
        have first := stack.writeAt (m := m) [c] lower
          (by rw [List.length_singleton]; omega) (by simp) (by rw [List.length_singleton]; omega)
          lower' upper'
        rw [List.length_singleton] at first
        rcases Nat.lt_trichotomy va p with before | rfl | after
        · rw [if_neg (by omega), if_neg (by omega), first, if_neg (by omega)]
        · rw [if_neg (by omega), if_pos (by omega), first, if_pos (by omega), Nat.sub_self]
          rfl
        · rw [first, if_neg (by omega : ¬ (p ≤ va ∧ va < p + 1))]
          by_cases last : va < p + 1 + rest.length
          · rw [if_pos ⟨after, last⟩, if_pos (by omega),
              show va - p = (va - (p + 1)) + 1 by omega, List.getD_cons_succ]
          · rw [if_neg (by omega), if_neg (by omega)]

/-- What `exec` leaves on the stack for arguments with their slots of `argv`: each slot has the
address of its string, and the strings lie below each other. -/
def ArgsAt (read : Nat → UInt8) (userSp : Nat) : List (Nat × List UInt8) → Prop
  | [] => True
  | (slot, arg) :: rest =>
      (∀ j < 8, read (slot + j) = Lib.leByte (userSp - (arg.length + 1)) j) ∧
      (∀ j ≤ arg.length, read (userSp - (arg.length + 1) + j) = (arg ++ [0]).getD j 0) ∧
      ArgsAt read (userSp - (arg.length + 1)) rest

/-- The bytes that the arguments take. -/
def argBytes (args : List (List UInt8)) : Nat := (args.map fun arg => arg.length + 1).sum

theorem argBytes_cons (arg : List UInt8) (args : List (List UInt8)) :
    argBytes (arg :: args) = arg.length + 1 + argBytes args := by
  rw [argBytes, List.map_cons, List.sum_cons]
  rfl

/-- A slot of `argv` above the strings. -/
structure SlotAt (base userSp slot : Nat) : Prop where
  above : userSp ≤ slot
  aligned : slot % 8 = 0
  inside : slot + 8 ≤ base + 8192

/-- The loop over the arguments. -/
theorem MainStack.pushArgs (stack : MainStack l tramp s set base) {args : List (Nat × List UInt8)}
    {userSp : Nat} (writes : DataWrites l s set s.mem m)
    (slots : ∀ entry ∈ args, SlotAt base userSp entry.1) (nodup : (args.map Prod.fst).Nodup)
    (enough : base + argBytes (args.map Prod.snd) ≤ userSp) (upper : userSp ≤ base + 8192) :
    ∃ m', pushArgs m set.pageTable.token userSp
        (args.map fun entry => (set.pageTable.physOf s.mem entry.1, entry.2)) =
        some (m', userSp - argBytes (args.map Prod.snd)) ∧ DataWrites l s set s.mem m' ∧
      ArgsAt (fun va => m' (set.pageTable.physOf s.mem va)) userSp args ∧
      ∀ va, userSp ≤ va → va < base + 8192 → (∀ entry ∈ args, va < entry.1 ∨ entry.1 + 8 ≤ va) →
        m' (set.pageTable.physOf s.mem va) = m (set.pageTable.physOf s.mem va) := by
  induction args generalizing m userSp with
  | nil => exact ⟨m, by simp [Mm.pushArgs, argBytes], writes, trivial, fun _ _ _ _ => rfl⟩
  | cons first rest ih =>
      obtain ⟨slot, arg⟩ := first
      simp only [List.map_cons, argBytes_cons] at enough nodup ⊢
      obtain ⟨notRest, nodup⟩ := List.nodup_cons.mp nodup
      have word := stack.word
      obtain ⟨above, aligned, inside⟩ := slots (slot, arg) List.mem_cons_self
      simp only at above aligned inside
      have others : ∀ entry ∈ rest, entry.1 + 8 ≤ slot ∨ slot + 8 ≤ entry.1 := by
        intro entry mem
        have isSlot := (slots entry (List.mem_cons_of_mem _ mem)).aligned
        have differ : entry.1 ≠ slot := fun same =>
          notRest (List.mem_map.mpr ⟨entry, mem, same⟩)
        omega
      -- `user_sp` goes down by the length of the argument
      have lowered : wrappingSub userSp (arg.length + 1) = userSp - (arg.length + 1) := by
        unfold wrappingSub
        omega
      have length := usizeBytes_length (userSp - (arg.length + 1))
      have place := stack.dataPlace (show base ≤ slot by omega) (by omega)
        (show slot % 4096 + 8 ≤ 4096 by omega)
      have written := writes.trans (place.writeAt (usizeBytes (userSp - (arg.length + 1))) length)
      obtain ⟨pushed, isPushed, pushedWrites, pushedBytes⟩ := stack.pushBytes (arg ++ [0]) written
        (show base ≤ userSp - (arg.length + 1) by omega)
        (by rw [List.length_append, List.length_singleton]; omega)
      obtain ⟨m', isRest, restWrites, restArgs, restKept⟩ := @ih pushed
        (userSp - (arg.length + 1)) pushedWrites
        (fun entry mem => by
          have isSlot := slots entry (List.mem_cons_of_mem _ mem)
          exact ⟨by have := isSlot.above; omega, isSlot.aligned, isSlot.inside⟩)
        nodup (by omega) (by omega)
      refine ⟨m', ?_, restWrites, ⟨fun j small => ?_, fun j small => ?_, restArgs⟩, ?_⟩
      · rw [Mm.pushArgs, lowered, isPushed, Option.bind_some, isRest, Nat.sub_sub]
      · have kept := restKept (slot + j) (by omega) (by omega) fun entry mem => by
          have apart := others entry mem
          omega
        have store := stack.writeAt (m := m) (usizeBytes (userSp - (arg.length + 1)))
          (show base ≤ slot by omega) (by rw [length]; omega)
          (by rw [← List.length_pos_iff_ne_nil, length]; omega) (by rw [length]; omega)
          (show base ≤ slot + j by omega) (by omega)
        simp only at kept ⊢
        rw [kept, pushedBytes _ (by omega) (by omega), List.length_append, List.length_singleton,
          if_neg (by omega), store, length, if_pos (by omega), Nat.add_sub_cancel_left,
          List.getD_eq_getElem _ _ (by rw [length]; exact small)]
        simp [usizeBytes]
      · have kept :=
          restKept (userSp - (arg.length + 1) + j) (by omega) (by omega) fun entry mem => by
          have isAbove := (slots entry (List.mem_cons_of_mem _ mem)).above
          omega
        simp only at kept ⊢
        rw [kept, pushedBytes _ (by omega) (by omega), List.length_append, List.length_singleton,
          if_pos (by omega), Nat.add_sub_cancel_left]
      · intro va lower below apart
        have kept := restKept va (by omega) below fun entry mem =>
          apart entry (List.mem_cons_of_mem _ mem)
        have notSlot := apart (slot, arg) List.mem_cons_self
        have store := stack.writeAt (m := m) (usizeBytes (userSp - (arg.length + 1)))
          (show base ≤ slot by omega) (by rw [length]; omega)
          (by rw [← List.length_pos_iff_ne_nil, length]; omega) (by rw [length]; omega)
          (show base ≤ va by omega) below
        rw [kept, pushedBytes va (by omega) below, List.length_append, List.length_singleton,
          if_neg (by omega), store, length, if_neg (by simp only at notSlot; omega)]

/-- The addresses of the slots of `argv`. -/
def slotVas (argvBase count : Nat) : List Nat :=
  (List.range (count + 1)).map fun i => argvBase + i * 8

theorem mapM_eq_some_map {α β : Type} {f : α → Option β} {g : α → β} {xs : List α}
    (same : ∀ x ∈ xs, f x = some (g x)) : xs.mapM f = some (xs.map g) := by
  induction xs with
  | nil => rfl
  | cons x xs ih =>
      rw [List.mapM_cons, same x List.mem_cons_self,
        ih fun y mem => same y (List.mem_cons_of_mem _ mem)]
      rfl

theorem sublist_map_fst_zip {α β : Type} (xs : List α) (ys : List β) :
    ((xs.zip ys).map Prod.fst).Sublist xs := by
  induction xs generalizing ys with
  | nil => simp
  | cons x xs ih =>
      cases ys with
      | nil => simp
      | cons y ys => exact (ih ys).cons_cons x

/-- The references to the slots of `argv`. -/
theorem MainStack.argvSlots (stack : MainStack l tramp s set base) {argvBase count : Nat}
    (lower : base ≤ argvBase) (top : argvBase + 8 * (count + 1) = base + 8192) :
    argvSlots s.mem set.pageTable.token argvBase count =
      some ((slotVas argvBase count).map (set.pageTable.physOf s.mem)) := by
  have word := stack.word
  rw [Mm.argvSlots, slotVas, List.map_map]
  refine mapM_eq_some_map fun i mem => ?_
  have small := List.mem_range.mp mem
  rw [Nat.mod_eq_of_lt (by omega : argvBase + i * 8 < 2 ^ 64)]
  exact stack.refmut .refl (by omega) (by omega)

theorem nodup_slotVas (argvBase count : Nat) : (slotVas argvBase count).Nodup := by
  refine List.Nodup.map (fun i j same => ?_) List.nodup_range
  have offsets : argvBase + i * 8 = argvBase + j * 8 := same
  omega

/-- What `exec` pushes on the stack when the arguments fit. -/
theorem MainStack.pushArgv (stack : MainStack l tramp s set base) (args : List (List UInt8))
    {argvBase : Nat} (top : argvBase + 8 * (args.length + 1) = base + 8192)
    (fits : base + argBytes args ≤ argvBase) :
    ∃ m', pushArgv s.mem set.pageTable.token (base + 8192) args =
        some (m', argvBase - argBytes args - (argvBase - argBytes args) % 8, argvBase) ∧
      DataWrites l s set s.mem m' ∧
      ArgsAt (fun va => m' (set.pageTable.physOf s.mem va)) argvBase
        ((slotVas argvBase args.length).zip args) ∧
      ∀ j < 8, m' (set.pageTable.physOf s.mem (argvBase + args.length * 8 + j)) = 0 := by
  have word := stack.word
  have aligned := stack.aligned
  have length := usizeBytes_length 0
  have isBase : wrappingSub (base + 8192) ((args.length + 1) * 8) = argvBase := by
    unfold wrappingSub
    omega
  have slots := stack.argvSlots (by omega) top
  have last : ((slotVas argvBase args.length).map (set.pageTable.physOf s.mem))[args.length]? =
      some (set.pageTable.physOf s.mem (argvBase + args.length * 8)) := by
    simp [slotVas]
  have place := stack.dataPlace (show base ≤ argvBase + args.length * 8 by omega) (by omega)
    (show (argvBase + args.length * 8) % 4096 + 8 ≤ 4096 by omega)
  have written : DataWrites l s set s.mem
      (s.mem.writeAt (set.pageTable.physOf s.mem (argvBase + args.length * 8)) (usizeBytes 0)) :=
    place.writeAt (usizeBytes 0) length
  have strings : ((slotVas argvBase args.length).zip args).map Prod.snd = args := by
    rw [List.map_snd_zip]
    simp [slotVas]
  have addresses : (((slotVas argvBase args.length).zip args).map Prod.fst).Nodup :=
    (nodup_slotVas argvBase args.length).sublist
      (sublist_map_fst_zip _ _)
  -- the slots of the arguments come before the slot of the null pointer
  have isSlot : ∀ entry ∈ (slotVas argvBase args.length).zip args,
      SlotAt base argvBase entry.1 ∧ entry.1 + 8 ≤ argvBase + args.length * 8 := by
    intro entry mem
    obtain ⟨i, bound, isEntry⟩ := List.mem_iff_getElem.mp mem
    have bound' : i < args.length := by
      rw [List.length_zip] at bound
      omega
    have isVa : entry.1 = argvBase + i * 8 := by
      rw [← isEntry, List.getElem_zip]
      simp [slotVas]
    exact ⟨⟨by omega, by omega, by omega⟩, by omega⟩
  obtain ⟨m', isPushed, writes, argsAt, kept⟩ := stack.pushArgs written
    (fun entry mem => (isSlot entry mem).1) addresses (by rw [strings]; exact fits) (by omega)
  rw [strings] at isPushed
  have pairs : ((slotVas argvBase args.length).map (set.pageTable.physOf s.mem)).zip args =
      ((slotVas argvBase args.length).zip args).map fun entry =>
        (set.pageTable.physOf s.mem entry.1, entry.2) := List.zip_map_left
  refine ⟨m', ?_, writes, argsAt, fun j small => ?_⟩
  · rw [Mm.pushArgv, isBase]
    simp only [slots, Option.bind_some, last, pairs, isPushed, Option.map_some]
  · rw [kept _ (by omega) (by omega) fun entry mem => .inr (by have := (isSlot entry mem).2; omega),
      stack.writeAt _ (by omega) (by rw [length]; omega)
        (by rw [← List.length_pos_iff_ne_nil, length]; omega) (by rw [length]; omega)
        (by omega) (by omega),
      length, if_pos (by omega), Nat.add_sub_cancel_left,
      List.getD_eq_getElem _ _ (by rw [length]; exact small)]
    simp [usizeBytes, Lib.leByte]

end Stack

end CoreFromDust.Os.Mm
