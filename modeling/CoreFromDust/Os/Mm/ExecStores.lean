import CoreFromDust.Os.Mm.ExecArgs
import CoreFromDust.Os.Mm.SpaceConsistency
import CoreFromDust.Os.Mm.Proofs.TightTables

/-!
# The stores of exec

The stores of `ProcessControlBlock::exec` while it pushes the arguments, in their order, up to the
end or to a panic. The loops do not look at the bounds of the stack, so the stores stay in the stack
exactly when the arguments fit or `translated_refmut` panics at the first address below the stack.
-/

namespace CoreFromDust.Os.Mm

open SpaceWf
open EasyFs (strBytes)

/-- A byte that the kernel stores through a reference to user memory. -/
structure Store where
  va : Nat
  pa : Nat
  byte : UInt8

/-- The stores of a `usize` through a reference. -/
def wordStores (va pa value : Nat) : List Store :=
  (List.range 8).map fun i => ⟨va + i, pa + i, Lib.leByte value i⟩

/-- The stores of the loop over the bytes of an argument. -/
def byteStores (m : Memory) (token p : Nat) : List UInt8 → List Store
  | [] => []
  | c :: rest =>
      match translatedRefmut m token p with
      | none => []
      | some pa => ⟨p, pa, c⟩ :: byteStores (m.writeAt pa [c]) token ((p + 1) % 2 ^ 64) rest

/-- The stores of the loop over the arguments, each with the address and the reference of its slot
in `argv`. -/
def argStores (m : Memory) (token userSp : Nat) : List ((Nat × Nat) × List UInt8) → List Store
  | [] => []
  | ((va, slot), arg) :: rest =>
      let userSp := wrappingSub userSp (arg.length + 1)
      let m := m.writeAt slot (usizeBytes userSp)
      wordStores va slot userSp ++ byteStores m token userSp (arg ++ [0]) ++
        match pushBytes m token userSp (arg ++ [0]) with
        | none => []
        | some m => argStores m token userSp rest

/-- The addresses of the slots of `argv`, which may wrap around. -/
def argvVas (argvBase count : Nat) : List Nat :=
  (List.range (count + 1)).map fun arg => (argvBase + arg * 8) % 2 ^ 64

/-- The stores of `exec` for a list of arguments. -/
def argvStores (m : Memory) (token ustackTop : Nat) (args : List (List UInt8)) : List Store :=
  let argvBase := wrappingSub ustackTop ((args.length + 1) * 8)
  match argvSlots m token argvBase args.length with
  | none => []
  | some slots =>
      match slots[args.length]? with
      | none => []
      | some last =>
          wordStores ((argvBase + args.length * 8) % 2 ^ 64) last 0 ++
            argStores (m.writeAt last (usizeBytes 0)) token argvBase
              (((argvVas argvBase args.length).zip slots).zip args)

/-! ## The stores are those of exec -/

/-- The memory after a store. -/
def Store.apply (m : Memory) (store : Store) : Memory := Function.update m store.pa store.byte

section Replay

variable {m m' : Memory} {token : Nat}

theorem writeAt_singleton (m : Memory) (pa : Nat) (c : UInt8) :
    m.writeAt pa [c] = Function.update m pa c := by
  funext address
  rw [writeAt_apply, Function.update_apply, List.length_singleton]
  by_cases same : address = pa
  · rw [if_pos (by omega), if_pos same, same, Nat.sub_self]
    rfl
  · rw [if_neg (by omega), if_neg same]

theorem writeAt_append (m : Memory) (pa : Nat) (first rest : List UInt8) :
    m.writeAt pa (first ++ rest) = (m.writeAt pa first).writeAt (pa + first.length) rest := by
  funext address
  simp only [writeAt_apply, List.length_append]
  by_cases inFirst : pa ≤ address ∧ address < pa + first.length
  · rw [if_pos (by omega), if_neg (by omega), if_pos inFirst, List.getD_append _ _ _ _ (by omega)]
  · by_cases inRest : pa + first.length ≤ address ∧ address < pa + first.length + rest.length
    · rw [if_pos (by omega), if_pos inRest, List.getD_append_right _ _ _ _ (by omega)]
      congr 1
      omega
    · rw [if_neg (by omega), if_neg inRest, if_neg inFirst]

/-- The stores of a word write the word. -/
theorem wordStores_replay (m : Memory) (va pa value : Nat) :
    (wordStores va pa value).foldl Store.apply m = m.writeAt pa (usizeBytes value) := by
  have general :
      ∀ n, ((List.range n).map fun i => (⟨va + i, pa + i, Lib.leByte value i⟩ : Store)).foldl
      Store.apply m = m.writeAt pa ((List.range n).map (Lib.leByte value)) := by
    intro n
    induction n with
    | zero =>
        funext address
        rw [writeAt_apply, if_neg (by simp)]
        rfl
    | succ n ih =>
        rw [List.range_succ, List.map_append, List.foldl_append, ih, List.map_append,
          writeAt_append, List.length_map, List.length_range, List.map_singleton,
          List.map_singleton, writeAt_singleton]
        rfl
  exact general 8

theorem byteStores_replay {bytes : List UInt8} {p : Nat} (h : pushBytes m token p bytes = some m') :
    m' = (byteStores m token p bytes).foldl Store.apply m := by
  induction bytes generalizing m p with
  | nil => exact (Option.some.inj h).symm
  | cons c rest ih =>
      obtain ⟨pa, isPa, h⟩ := Option.bind_eq_some_iff.mp h
      rw [byteStores, isPa, List.foldl_cons, ih h, writeAt_singleton]
      rfl

theorem argStores_replay {args : List ((Nat × Nat) × List UInt8)} {userSp userSp' : Nat}
    (h : pushArgs m token userSp (args.map fun entry => (entry.1.2, entry.2)) =
      some (m', userSp')) :
    m' = (argStores m token userSp args).foldl Store.apply m := by
  induction args generalizing m userSp with
  | nil => exact (Prod.mk.inj (Option.some.inj h)).1.symm
  | cons entry rest ih =>
      obtain ⟨⟨va, slot⟩, arg⟩ := entry
      obtain ⟨pushed, isPushed, h⟩ := Option.bind_eq_some_iff.mp h
      simp only at isPushed h
      simp only [argStores, isPushed, List.foldl_append, wordStores_replay]
      rw [← byteStores_replay isPushed]
      exact ih h

theorem length_of_mapM_eq_some {α β : Type} {f : α → Option β} {xs : List α} {ys : List β}
    (h : xs.mapM f = some ys) : ys.length = xs.length := by
  induction xs generalizing ys with
  | nil =>
      obtain rfl := Option.some.inj h
      rfl
  | cons x xs ih =>
      rw [List.mapM_cons] at h
      obtain ⟨y, -, h⟩ := Option.bind_eq_some_iff.mp h
      obtain ⟨rest, isRest, h⟩ := Option.bind_eq_some_iff.mp h
      obtain rfl := Option.some.inj h
      rw [List.length_cons, List.length_cons, ih isRest]

/-- The memory that `exec` leaves is the old one with the stores. -/
theorem argvStores_replay {ustackTop userSp argvBase : Nat} {args : List (List UInt8)}
    (h : pushArgv m token ustackTop args = some (m', userSp, argvBase)) :
    m' = (argvStores m token ustackTop args).foldl Store.apply m := by
  obtain ⟨slots, isSlots, h⟩ := Option.bind_eq_some_iff.mp h
  obtain ⟨last, isLast, h⟩ := Option.bind_eq_some_iff.mp h
  obtain ⟨⟨pushed, sp⟩, isPushed, h⟩ := Option.map_eq_some_iff.mp h
  simp only [Prod.mk.injEq] at h
  obtain ⟨rfl, -, -⟩ := h
  simp only [argvStores, isSlots, isLast, List.foldl_append, wordStores_replay]
  refine @argStores_replay _ _ _ _ _ sp ?_
  rw [← isPushed]
  congr 1
  have length : slots.length = args.length + 1 := by
    rw [length_of_mapM_eq_some isSlots, List.length_range]
  have addresses : (argvVas (wrappingSub ustackTop ((args.length + 1) * 8)) args.length).length =
      slots.length := by
    rw [argvVas, List.length_map, List.length_range, length]
  have snds := List.map_snd_zip addresses.ge
  have pairs := @List.zip_map_left _ _ _ Prod.snd
    ((argvVas (wrappingSub ustackTop ((args.length + 1) * 8)) args.length).zip slots) args
  rw [snds] at pairs
  exact pairs.symm

end Replay

/-! ## References of a new program -/

/-- The pages of a new program: its segments, the stack and the trap context of the main thread, and
the trampoline. -/
def Elf.Maps (elf : Elf) (vpn : Nat) : Prop :=
  (∃ ph ∈ elf.segments, ph.Has vpn) ∨
    floor (virtAddr elf.ustackBase) ≤ vpn ∧ vpn < floor (virtAddr elf.ustackBase) + 2 ∨
    vpn = trapCxVpn ∨ vpn = trampolineVpn

/-- `translated_refmut` returns for the address in a new program: the last table for it exists, and
the reference is not the null pointer. -/
def Elf.RefExists (elf : Elf) (va : Nat) : Prop :=
  (∃ page, elf.Maps page ∧ SameTable (floor (virtAddr va)) page) ∧
    (va % 4096 = 0 → elf.Maps (floor (virtAddr va)))

/-- The address space of a new program. -/
structure ProgramSpace (l tramp : Nat) (s : Phys) (set : MemorySet) (elf : Elf) : Prop where
  stack : MainStack l tramp s set elf.ustackBase
  pages : ∀ vpn, (∃ area ∈ set.areas, area.Has vpn) ↔ (∃ ph ∈ elf.segments, ph.Has vpn) ∨
    floor (virtAddr elf.ustackBase) ≤ vpn ∧ vpn < floor (virtAddr elf.ustackBase) + 2 ∨
    vpn = trapCxVpn
  tight : set.pageTable.Tight s.mem
  trampoline : 0 < tramp

section References

variable {l tramp : Nat} {s : Phys} {set : MemorySet} {elf : Elf} {m : Memory}

theorem ProgramSpace.maps_iff (program : ProgramSpace l tramp s set elf) (vpn : Nat) :
    elf.Maps vpn ↔ (∃ area ∈ set.areas, area.Has vpn) ∨ vpn = 2 ^ 27 - 1 := by
  have isTrampoline : trampolineVpn = 2 ^ 27 - 1 := by decide
  rw [program.pages, Elf.Maps, isTrampoline]
  simp only [or_assoc]

/-- The valid entries of the page table of a new program. -/
theorem ProgramSpace.table_maps_iff (program : ProgramSpace l tramp s set elf) {vpn : Nat}
    (small : vpn < 2 ^ 27) : set.pageTable.Maps s.mem vpn ↔ elf.Maps vpn := by
  rw [program.maps_iff]
  exact program.stack.user.wf.maps_iff small

/-- The last table for a page of a new program exists when it holds the entry of some page. -/
theorem ProgramSpace.translate_isSome_iff (program : ProgramSpace l tramp s set elf) (vpn : Nat) :
    (set.pageTable.translate s.mem vpn).isSome ↔ ∃ page, elf.Maps page ∧ SameTable vpn page := by
  simp only [program.maps_iff]
  exact program.stack.user.wf.translate_isSome_iff program.tight vpn

/-- The entry of a page that is not mapped names frame 0. -/
theorem ProgramSpace.ppn_eq_zero_iff (program : ProgramSpace l tramp s set elf) {vpn : Nat}
    (small : vpn < 2 ^ 27) {pte : PageTableEntry}
    (found : set.pageTable.translate s.mem vpn = some pte) :
    pte.ppn = 0 ↔ ¬ elf.Maps vpn := by
  have user := program.stack.user
  have low := user.low
  have positive := program.trampoline
  constructor
  · intro isZero maps
    -- the frames of the areas are above the trampoline, which is not frame 0
    rcases (program.maps_iff vpn).mp maps with ⟨area, mem, has⟩ | rfl
    · obtain ⟨ppn, isEntry, lookup⟩ := user.wf.framedPage mem (user.framed area mem) has
      rw [(Option.filter_eq_some_iff.mp lookup).1, Option.some.injEq] at found
      obtain ⟨-, used, small⟩ := user.wf.entry_inUse isEntry
      rw [← found, PageTableEntry.ppn_new _ small] at isZero
      have lower := used.1
      omega
    · rw [(Option.filter_eq_some_iff.mp user.wf.onTrampoline).1, Option.some.injEq] at found
      rw [← found, PageTableEntry.ppn_new _ user.small] at isZero
      omega
  · intro notMapped
    rcases user.wf.table.translate_clean found with valid | rfl
    · refine absurd ((program.table_maps_iff small).mp ?_) notMapped
      rw [PageTable.Maps, PageTable.lookup, found, Option.filter_some_pos valid]
      rfl
    · rfl

/-- `translated_refmut` returns where the reference exists. -/
theorem ProgramSpace.refmut_isSome_iff (program : ProgramSpace l tramp s set elf)
    (writes : DataWrites l s set s.mem m) (va : Nat) :
    (translatedRefmut m set.pageTable.token va).isSome ↔ elf.RefExists va := by
  have user := program.stack.user
  have small : floor (virtAddr va) < 2 ^ 27 := by
    unfold floor virtAddr
    omega
  have offset : pageOffset (virtAddr va) = va % 4096 := by
    unfold pageOffset virtAddr
    omega
  rw [writes.translatedRefmut user.wf, Elf.RefExists, ← program.translate_isSome_iff,
    Option.isSome_iff_exists]
  simp only [translatedRefmut_eq_some_iff, translate_fromToken user.wf, offset, MemorySet.translate]
  constructor
  · rintro ⟨pa, nonzero, pte, found, whole⟩
    refine ⟨by rw [found]; rfl, fun aligned => ?_⟩
    by_contra notMapped
    have isZero := (program.ppn_eq_zero_iff small found).mpr notMapped
    omega
  · rintro ⟨isSome, mapped⟩
    obtain ⟨pte, found⟩ := Option.isSome_iff_exists.mp isSome
    refine ⟨_, fun isZero => ?_, pte, found, rfl⟩
    exact (program.ppn_eq_zero_iff small found).mp (by omega) (mapped (by omega))

end References

/-! ## Stores in the stack -/

/-- The store is to an address of the stack at `base`, and it goes to the frame of that address. -/
def OnStack (t : PageTable) (m : Memory) (base : Nat) (store : Store) : Prop :=
  base ≤ store.va ∧ store.va < base + 8192 ∧
    ∃ pte, t.lookup m (floor (virtAddr store.va)) = some pte ∧
      store.pa = pte.ppn * 4096 + pageOffset store.va

/-- The address of the first argument that starts below the stack at `base`, when the ones before it
end at `userSp`. -/
def firstBelow (base userSp : Nat) : List (List UInt8) → Option Nat
  | [] => none
  | arg :: rest =>
      if base + (arg.length + 1) ≤ userSp then firstBelow base (userSp - (arg.length + 1)) rest
      else some (wrappingSub userSp (arg.length + 1))

/-- The stores for the arguments of a new program stay in the stack: the array `argv` fits into the
stack, and `exec` panics at the first byte of the first argument that does not, if there is one; or
the array does not fit, and `exec` panics at one of its slots. -/
def Elf.StoresFit (elf : Elf) (args : List (List UInt8)) : Prop :=
  if 8 * (args.length + 1) ≤ 8192 then
    ∀ va, firstBelow elf.ustackBase (elf.ustackBase + 8192 - 8 * (args.length + 1)) args = some va →
      ¬ elf.RefExists va
  else
    ∃ i ≤ args.length,
      ¬ elf.RefExists
      ((wrappingSub (elf.ustackBase + 8192) ((args.length + 1) * 8) + i * 8) % 2 ^ 64)

section Stores

variable {l tramp base : Nat} {s : Phys} {set : MemorySet} {elf : Elf} {m : Memory}

theorem MainStack.onStack (stack : MainStack l tramp s set base) {va : Nat} (lower : base ≤ va)
    (upper : va < base + 8192) (byte : UInt8) :
    OnStack set.pageTable s.mem base ⟨va, set.pageTable.physOf s.mem va, byte⟩ := by
  obtain ⟨pte, found, -, isPhys⟩ := stack.entry lower upper
  exact ⟨lower, upper, pte, found, isPhys⟩

/-- The stores to a slot of `argv` in the stack. -/
theorem MainStack.wordStores (stack : MainStack l tramp s set base) {va : Nat} (lower : base ≤ va)
    (upper : va + 8 ≤ base + 8192) (aligned : va % 8 = 0) (value : Nat) :
    ∀ store ∈ wordStores va (set.pageTable.physOf s.mem va) value,
      OnStack set.pageTable s.mem base store := by
  intro store mem
  obtain ⟨i, bound, rfl⟩ := List.mem_map.mp mem
  rw [List.mem_range] at bound
  rw [← stack.physOf_add lower (by omega) (by omega)]
  exact stack.onStack (by omega) (by omega) _

/-- The stores of an argument in the stack. -/
theorem MainStack.byteStores (stack : MainStack l tramp s set base) (bytes : List UInt8) {p : Nat}
    (writes : DataWrites l s set s.mem m) (lower : base ≤ p)
    (upper : p + bytes.length ≤ base + 8192) :
    ∀ store ∈ byteStores m set.pageTable.token p bytes, OnStack set.pageTable s.mem base store := by
  induction bytes generalizing m p with
  | nil => exact fun store mem => absurd mem List.not_mem_nil
  | cons c rest ih =>
      rw [List.length_cons] at upper
      have word := stack.word
      have place := stack.dataPlace lower (by omega) (show p % 4096 + 1 ≤ 4096 by omega)
      rw [Mm.byteStores, stack.refmut writes lower (by omega), Nat.mod_eq_of_lt (by omega)]
      intro store mem
      rcases List.mem_cons.mp mem with rfl | mem
      · exact stack.onStack lower (by omega) c
      · exact ih (writes.trans (place.writeAt [c] rfl)) (by omega) (by omega) store mem

/-- The stores of an argument that starts outside of the stack. -/
theorem ProgramSpace.byteStores_iff (program : ProgramSpace l tramp s set elf)
    (writes : DataWrites l s set s.mem m) {p : Nat} {bytes : List UInt8} (nonempty : bytes ≠ [])
    (outside : p < elf.ustackBase ∨ elf.ustackBase + 8192 ≤ p) :
    (∀ store ∈ byteStores m set.pageTable.token p bytes,
      OnStack set.pageTable s.mem elf.ustackBase store) ↔ ¬ elf.RefExists p := by
  obtain ⟨c, rest, rfl⟩ := List.exists_cons_of_ne_nil nonempty
  rw [← program.refmut_isSome_iff writes, Mm.byteStores]
  cases translatedRefmut m set.pageTable.token p with
  | none => simp
  | some pa =>
      constructor
      · intro inside
        obtain ⟨lower, upper, -⟩ := inside _ List.mem_cons_self
        simp only at lower upper
        omega
      · intro isNone
        exact absurd rfl isNone

/-- The stores of the arguments, with their slots in the stack. -/
theorem ProgramSpace.argStores_iff (program : ProgramSpace l tramp s set elf)
    {args : List (Nat × List UInt8)} {userSp : Nat} (writes : DataWrites l s set s.mem m)
    (slots : ∀ entry ∈ args, SlotAt elf.ustackBase elf.ustackBase entry.1)
    (sizes : ∀ entry ∈ args, entry.2.length < 2 ^ 63) (lower : elf.ustackBase ≤ userSp)
    (upper : userSp ≤ elf.ustackBase + 8192) :
    (∀ store ∈ argStores m set.pageTable.token userSp
        (args.map fun entry => ((entry.1, set.pageTable.physOf s.mem entry.1), entry.2)),
      OnStack set.pageTable s.mem elf.ustackBase store) ↔
    ∀ va, firstBelow elf.ustackBase userSp (args.map Prod.snd) = some va → ¬ elf.RefExists va := by
  induction args generalizing m userSp with
  | nil => simp [argStores, firstBelow]
  | cons first rest ih =>
      obtain ⟨slot, arg⟩ := first
      have stack := program.stack
      have word := stack.word
      obtain ⟨above, aligned, inside⟩ := slots (slot, arg) List.mem_cons_self
      have size := sizes (slot, arg) List.mem_cons_self
      simp only at above aligned inside size
      have place := stack.dataPlace above (by omega) (show slot % 4096 + 8 ≤ 4096 by omega)
      have written := writes.trans (place.writeAt
        (usizeBytes (wrappingSub userSp (arg.length + 1))) (usizeBytes_length _))
      have onSlot := stack.wordStores above inside aligned (wrappingSub userSp (arg.length + 1))
      simp only [List.map_cons, argStores, firstBelow, List.forall_mem_append]
      by_cases fits : elf.ustackBase + (arg.length + 1) ≤ userSp
      · have lowered : wrappingSub userSp (arg.length + 1) = userSp - (arg.length + 1) := by
          unfold wrappingSub
          omega
        have length : (arg ++ [0]).length = arg.length + 1 := List.length_append
        rw [lowered] at written onSlot ⊢
        have onBytes := stack.byteStores (arg ++ [0]) written
          (show elf.ustackBase ≤ userSp - (arg.length + 1) by omega) (by omega)
        obtain ⟨pushed, isPushed, pushedWrites, -⟩ := stack.pushBytes (arg ++ [0]) written
          (show elf.ustackBase ≤ userSp - (arg.length + 1) by omega) (by omega)
        rw [isPushed, if_pos fits]
        have onRest := @ih _ (userSp - (arg.length + 1)) pushedWrites
          (fun entry mem => slots entry (List.mem_cons_of_mem _ mem))
          (fun entry mem => sizes entry (List.mem_cons_of_mem _ mem)) (by omega) (by omega)
        simp only [onRest, and_iff_right (And.intro onSlot onBytes)]
      · -- the address is below the stack, or so far below that it wraps around
        have outside : wrappingSub userSp (arg.length + 1) < elf.ustackBase ∨
            elf.ustackBase + 8192 ≤ wrappingSub userSp (arg.length + 1) := by
          unfold wrappingSub
          omega
        have onBytes := program.byteStores_iff written (show arg ++ [0] ≠ [] by simp) outside
        simp only [if_neg fits, Option.some.injEq, forall_eq']
        constructor
        · exact fun onStack => onBytes.mp onStack.1.2
        · intro notExists
          refine ⟨⟨onSlot, onBytes.mpr notExists⟩, ?_⟩
          have panics : translatedRefmut (m.writeAt (set.pageTable.physOf s.mem slot)
              (usizeBytes (wrappingSub userSp (arg.length + 1)))) set.pageTable.token
              (wrappingSub userSp (arg.length + 1)) = none := by
            rw [← Option.not_isSome_iff_eq_none, program.refmut_isSome_iff written]
            exact notExists
          have isNone : pushBytes (m.writeAt (set.pageTable.physOf s.mem slot)
              (usizeBytes (wrappingSub userSp (arg.length + 1)))) set.pageTable.token
              (wrappingSub userSp (arg.length + 1)) (arg ++ [0]) = none := by
            obtain ⟨c, bytes, isCons⟩ := List.exists_cons_of_ne_nil (l := arg ++ [0]) (by simp)
            rw [isCons, pushBytes, panics]
            rfl
          rw [isNone]
          exact fun store mem => absurd mem List.not_mem_nil

theorem mapM_isSome_iff {α β : Type} {f : α → Option β} {xs : List α} :
    (xs.mapM f).isSome ↔ ∀ x ∈ xs, (f x).isSome := by
  induction xs with
  | nil => simp
  | cons x xs ih =>
      rw [List.mapM_cons, List.forall_mem_cons, ← ih]
      cases f x <;> cases xs.mapM f <;> simp

/-- The stores when the array `argv` fits into the stack. -/
theorem ProgramSpace.argvStores_fit (program : ProgramSpace l tramp s set elf)
    {args : List (List UInt8)} (sizes : ∀ arg ∈ args, arg.length < 2 ^ 63)
    (fits : 8 * (args.length + 1) ≤ 8192) :
    (∀ store ∈ argvStores s.mem set.pageTable.token (elf.ustackBase + 8192) args,
      OnStack set.pageTable s.mem elf.ustackBase store) ↔
    ∀ va, firstBelow elf.ustackBase (elf.ustackBase + 8192 - 8 * (args.length + 1)) args = some va →
      ¬ elf.RefExists va := by
  have stack := program.stack
  have word := stack.word
  have aligned := stack.aligned
  obtain ⟨argvBase, top⟩ : ∃ argvBase, argvBase + 8 * (args.length + 1) = elf.ustackBase + 8192 :=
    ⟨elf.ustackBase + 8192 - 8 * (args.length + 1), by omega⟩
  have isBase : wrappingSub (elf.ustackBase + 8192) ((args.length + 1) * 8) = argvBase := by
    unfold wrappingSub
    omega
  have isVas : argvVas argvBase args.length = slotVas argvBase args.length := by
    refine List.map_congr_left fun i mem => ?_
    rw [List.mem_range] at mem
    exact Nat.mod_eq_of_lt (by omega)
  have isSlots := stack.argvSlots (by omega) top
  have isLast : ((slotVas argvBase args.length).map (set.pageTable.physOf s.mem))[args.length]? =
      some (set.pageTable.physOf s.mem (argvBase + args.length * 8)) := by
    simp [slotVas]
  have place :=
    stack.dataPlace (show elf.ustackBase ≤ argvBase + args.length * 8 by omega) (by omega)
    (show (argvBase + args.length * 8) % 4096 + 8 ≤ 4096 by omega)
  have onNull := stack.wordStores (show elf.ustackBase ≤ argvBase + args.length * 8 by omega)
    (by omega) (by omega) 0
  have strings : ((slotVas argvBase args.length).zip args).map Prod.snd = args := by
    rw [List.map_snd_zip]
    simp [slotVas]
  have entries : ((slotVas argvBase args.length).zip
      ((slotVas argvBase args.length).map (set.pageTable.physOf s.mem))).zip args =
      ((slotVas argvBase args.length).zip args).map fun entry =>
        ((entry.1, set.pageTable.physOf s.mem entry.1), entry.2) := by
    have pairs := List.zip_map' (f := id) (g := set.pageTable.physOf s.mem)
      (l := slotVas argvBase args.length)
    rw [List.map_id] at pairs
    rw [pairs]
    exact List.zip_map_left
  have isSlot : ∀ entry ∈ (slotVas argvBase args.length).zip args,
      SlotAt elf.ustackBase elf.ustackBase entry.1 := by
    intro entry mem
    obtain ⟨i, bound, isVa⟩ := List.mem_map.mp (List.of_mem_zip mem).1
    rw [List.mem_range] at bound
    rw [← isVa]
    exact ⟨by omega, by omega, by omega⟩
  have onArgs := program.argStores_iff (place.writeAt (usizeBytes 0) (usizeBytes_length 0)) isSlot
    (fun entry mem => sizes entry.2 (List.of_mem_zip mem).2)
    (show elf.ustackBase ≤ argvBase by omega) (by omega)
  rw [strings] at onArgs
  rw [argvStores, isBase]
  simp only [isSlots, isLast, isVas, entries, List.forall_mem_append,
    Nat.mod_eq_of_lt (show argvBase + args.length * 8 < 2 ^ 64 by omega), onArgs,
    and_iff_right onNull, show elf.ustackBase + 8192 - 8 * (args.length + 1) = argvBase by omega]

/-- The address of the first argument is stored to the first slot. -/
theorem argStores_first {token argvBase : Nat} {slots : List Nat} {args : List (List UInt8)}
    (length : slots.length = args.length + 1) (nonempty : args ≠ []) (small : argvBase < 2 ^ 64) :
    ∃ store ∈ argStores m token argvBase (((argvVas argvBase args.length).zip slots).zip args),
      store.va = argvBase := by
  obtain ⟨slot, slots, rfl⟩ := List.exists_cons_of_length_eq_add_one length
  obtain ⟨arg, args, rfl⟩ := List.exists_cons_of_ne_nil nonempty
  have isVas : argvVas argvBase (arg :: args).length = argvBase ::
      ((List.range (args.length + 1)).map fun i => (argvBase + (i + 1) * 8) % 2 ^ 64) := by
    simp only [argvVas, List.length_cons, List.range_succ_eq_map, List.map_cons, List.map_map,
      Nat.zero_mul, Nat.add_zero, Nat.mod_eq_of_lt small, Function.comp_def, Nat.succ_eq_add_one]
  rw [isVas, List.zip_cons_cons, List.zip_cons_cons, argStores]
  refine ⟨⟨argvBase + 0, slot + 0, Lib.leByte (wrappingSub argvBase (arg.length + 1)) 0⟩,
    List.mem_append_left _ (List.mem_append_left _ ?_), Nat.add_zero argvBase⟩
  exact List.mem_map.mpr ⟨0, List.mem_range.mpr (by decide), rfl⟩

/-- The stores when the array `argv` reaches below the stack. -/
theorem ProgramSpace.argvStores_overflow (program : ProgramSpace l tramp s set elf)
    {args : List (List UInt8)} (count : args.length < 2 ^ 60)
    (overflow : 8192 < 8 * (args.length + 1)) :
    (∀ store ∈ argvStores s.mem set.pageTable.token (elf.ustackBase + 8192) args,
      OnStack set.pageTable s.mem elf.ustackBase store) ↔
    ∃ i ≤ args.length,
      ¬ elf.RefExists
      ((wrappingSub (elf.ustackBase + 8192) ((args.length + 1) * 8) + i * 8) % 2 ^ 64) := by
  have word := program.stack.word
  have allSome : (argvSlots s.mem set.pageTable.token
      (wrappingSub (elf.ustackBase + 8192) ((args.length + 1) * 8)) args.length).isSome ↔
      ∀ i ≤ args.length, elf.RefExists
        ((wrappingSub (elf.ustackBase + 8192) ((args.length + 1) * 8) + i * 8) % 2 ^ 64) := by
    simp only [argvSlots, mapM_isSome_iff, List.mem_range, Nat.lt_succ_iff,
      program.refmut_isSome_iff .refl]
  have outside :
      ∀ argvBase, argvBase = wrappingSub (elf.ustackBase + 8192) ((args.length + 1) * 8) →
      argvBase < 2 ^ 64 ∧ (argvBase < elf.ustackBase ∨ elf.ustackBase + 8192 ≤ argvBase) := by
    intro argvBase isBase
    rw [wrappingSub] at isBase
    omega
  obtain ⟨small, outside⟩ := outside _ rfl
  have isExists : (∃ i ≤ args.length, ¬ elf.RefExists
      ((wrappingSub (elf.ustackBase + 8192) ((args.length + 1) * 8) + i * 8) % 2 ^ 64)) ↔
      argvSlots s.mem set.pageTable.token
        (wrappingSub (elf.ustackBase + 8192) ((args.length + 1) * 8)) args.length = none := by
    rw [← Option.not_isSome_iff_eq_none, allSome]
    simp only [not_forall, exists_prop]
  rw [isExists, argvStores]
  generalize wrappingSub (elf.ustackBase + 8192) ((args.length + 1) * 8) = argvBase at *
  cases isSlots : argvSlots s.mem set.pageTable.token argvBase args.length with
  | none => simp
  | some slots =>
      have length : slots.length = args.length + 1 := by
        rw [length_of_mapM_eq_some isSlots, List.length_range]
      have nonempty : args ≠ [] := List.ne_nil_of_length_pos (by omega)
      have isLast : slots[args.length]? = some slots[args.length] :=
        List.getElem?_eq_getElem (by omega)
      refine iff_of_false (fun onStack => ?_) (by simp)
      simp only [isLast] at onStack
      obtain ⟨store, mem, isVa⟩ := argStores_first length nonempty small
      obtain ⟨lower, upper, -⟩ := onStack store (List.mem_append_right _ mem)
      omega

/-- The stores of `exec` stay in the stack exactly when they fit. -/
theorem ProgramSpace.argvStores_iff (program : ProgramSpace l tramp s set elf)
    {args : List (List UInt8)} (count : args.length < 2 ^ 60)
    (sizes : ∀ arg ∈ args, arg.length < 2 ^ 63) :
    (∀ store ∈ argvStores s.mem set.pageTable.token (elf.ustackBase + 8192) args,
      OnStack set.pageTable s.mem elf.ustackBase store) ↔ elf.StoresFit args := by
  rw [Elf.StoresFit]
  split
  · next fits => exact program.argvStores_fit sizes fits
  · next overflow => exact program.argvStores_overflow count (by omega)

end Stores

/-- The address space that `exec` builds. -/
theorem programSpace_of_execSpace {File : Type} {layout : KernelLayout} {l tramp : Nat}
    {k : Processes File}
    {id : Nat} {elf : Elf} {phys : Phys} {set : MemorySet} {ustackBase entryPoint : Nat}
    (inv : Machine.Inv l tramp k.machine) (above : Above layout l tramp)
    (linked : 4096 ≤ physAddr layout.strampoline)
    (space : k.execSpace layout id elf = some (phys, set, ustackBase, entryPoint)) :
    ustackBase = elf.ustackBase ∧ ustackTop ustackBase = ustackBase + 8192 ∧
      ProgramSpace l tramp phys set elf := by
  obtain ⟨stack, -, -, isBase, pages⟩ := execSpace_spec inv above space
  have isTramp := above.isTramp
  have positive : 0 < tramp := by
    rw [pageAt] at isTramp
    split at isTramp
    · rw [Option.some.injEq, floor] at isTramp
      omega
    · exact absurd isTramp (by simp)
  have word := stack.word
  have isTop : ustackTop ustackBase = ustackBase + 8192 := by
    have zero : mainTid = 0 := rfl
    rw [ustackTop, ustackBottomFromTid, zero]
    omega
  have tight := execSpace_tight inv above space
  rw [isBase] at stack pages
  exact ⟨isBase, isTop, stack, pages, tight, positive⟩

/-- In every state that a run of the machine reaches, for every program whose address space can be
built and all arguments of lengths that Rust allows: every byte that `exec` stores for the arguments
lies in the stack of the main thread exactly when the arguments fit or the first one that does not
is at an address where `translated_refmut` panics. -/
theorem exec_stores_onStack_iff {File : Type} {layout : KernelLayout} {booted : Machine}
    {k : Processes File} (mem : Memory) (boot : Machine.boot mem layout = some booted)
    (linked : 4096 ≤ physAddr layout.strampoline) (events : List SpaceEvent)
    (run : booted.steps layout events = some k.machine) (id : Nat) (elf : Elf) (args : List String)
    (count : args.length < 2 ^ 60)
    (sizes : ∀ arg ∈ args, (strBytes arg).length < 2 ^ 63) {phys : Phys}
    {set : MemorySet} {ustackBase entryPoint : Nat}
    (space : k.execSpace layout id elf = some (phys, set, ustackBase, entryPoint)) :
    ustackTop ustackBase = ustackBase + 8192 ∧
      ((∀ store ∈ argvStores phys.mem set.pageTable.token (ustackTop ustackBase)
        (args.map strBytes), OnStack set.pageTable phys.mem ustackBase store) ↔
        elf.StoresFit (args.map strBytes)) := by
  obtain ⟨inv, above⟩ := Machine.inv_boot boot
  obtain ⟨isBase, isTop, program⟩ :=
    programSpace_of_execSpace (inv.steps above run) above linked space
  refine ⟨isTop, ?_⟩
  rw [isTop, isBase]
  refine program.argvStores_iff (by rw [List.length_map]; exact count) fun bytes mem => ?_
  obtain ⟨arg, isArg, rfl⟩ := List.mem_map.mp mem
  exact sizes arg isArg

/-- The stores for two short arguments. -/
theorem exec_stores_onStack_ls : ∃ booted k phys set ustackBase entryPoint,
    Machine.boot (fun _ => 0) tinyLayout = some booted ∧
    booted.steps tinyLayout mainThreadRun = some (mainProcess k).machine ∧
    (mainProcess k).execSpace tinyLayout 0 onePageElf = some (phys, set, ustackBase, entryPoint) ∧
    ∀ store ∈ argvStores phys.mem set.pageTable.token (ustackTop ustackBase)
      (["ls", "-l"].map strBytes), OnStack set.pageTable phys.mem ustackBase store := by
  obtain ⟨booted, k, phys, set, ustackBase, entryPoint, boot, run, space⟩ := onePage_execSpace
  have fits : onePageElf.StoresFit (["ls", "-l"].map strBytes) := by
    have noneBelow : firstBelow onePageElf.ustackBase (onePageElf.ustackBase + 8192 - 8 * 3)
        (["ls", "-l"].map strBytes) = none := by decide +kernel
    rw [Elf.StoresFit, if_pos (by decide)]
    intro va isBelow
    exact absurd (isBelow.symm.trans noneBelow) (by simp)
  exact ⟨booted, k, phys, set, ustackBase, entryPoint, boot, run, space,
    (exec_stores_onStack_iff (k := mainProcess k) _ boot (by decide) mainThreadRun run 0 onePageElf
      ["ls", "-l"] (by decide) (by decide) space).2.mpr fits⟩

/-- The array `argv` for 1023 empty arguments fills the stack, and the first string is stored to the
guard page, which is not mapped. -/
theorem exec_stores_guardPage : ∃ booted k phys set ustackBase entryPoint,
    Machine.boot (fun _ => 0) tinyLayout = some booted ∧
    booted.steps tinyLayout mainThreadRun = some (mainProcess k).machine ∧
    (mainProcess k).execSpace tinyLayout 0 onePageElf = some (phys, set, ustackBase, entryPoint) ∧
    ¬ ∀ store ∈ argvStores phys.mem set.pageTable.token (ustackTop ustackBase)
        ((List.replicate 1023 "").map strBytes),
      OnStack set.pageTable phys.mem ustackBase store := by
  obtain ⟨booted, k, phys, set, ustackBase, entryPoint, boot, run, space⟩ := onePage_execSpace
  refine ⟨booted, k, phys, set, ustackBase, entryPoint, boot, run, space, ?_⟩
  obtain ⟨inv, above⟩ := Machine.inv_boot boot
  obtain ⟨isElfBase, isTop, program⟩ := programSpace_of_execSpace (k := mainProcess k)
    (inv.steps above run) above (by decide) space
  have isArgs : (List.replicate 1023 "").map strBytes = List.replicate 1023 [] := by
    rw [List.map_replicate]
    rfl
  have length : (List.replicate 1023 ([] : List UInt8)).length = 1023 := List.length_replicate
  have isBase : onePageElf.ustackBase = 0x12000 := by decide +kernel
  have isBelow : firstBelow 0x12000 0x12000 (List.replicate 1023 []) = some 0x11fff := by
    rw [List.replicate_succ, firstBelow]
    rfl
  have isRef : onePageElf.RefExists 0x11fff := by
    refine ⟨⟨0x10, .inl ⟨_, List.mem_cons_self, by decide⟩, by decide⟩, fun aligned => ?_⟩
    exact absurd aligned (by decide)
  rw [isTop, isElfBase, isArgs, program.argvStores_iff (by rw [length]; decide) fun arg mem => by
    rw [List.eq_of_mem_replicate mem]; decide]
  rw [Elf.StoresFit, length, if_pos (by decide), isBase]
  exact fun noRefs => noRefs 0x11fff isBelow isRef


end CoreFromDust.Os.Mm
