import CoreFromDust.Os.Mm.UserStrings
import CoreFromDust.Os.Mm.Proofs.ExecSpace

/-!
# The arguments of a program

`exec` writes the arguments to the stack of the new program, and `_start` of `user/src/lib.rs`
reads them back. When they fit into the stack, `_start` gets the arguments that `exec` was given.
-/

namespace CoreFromDust.Os.Mm

open SpaceWf
open EasyFs (strBytes fromUtf8)

/-! ## The program's side -/

/-- `read_volatile` of a `usize`; the access to a page that is not mapped ends the program. -/
def readUsize (read : Nat → Option UInt8) (address : Nat) : Option Nat :=
  ((List.range 8).mapM fun i => read (address + i)).map fun bytes => Lib.leValue 8 (bytes.getD · 0)

/-- The `find` of `_start` for the byte 0 of a string, from an index on. -/
def findNul (read : Nat → Option UInt8) (strStart : Nat) : Nat → Nat → Outcome Nat
  | 0, _ => .running
  | fuel + 1, i =>
      match read (strStart + i) with
      | none => .panicked
      | some byte => if byte = 0 then .returned i else findNul read strStart fuel (i + 1)

/-- One round of the loop of `_start`. -/
def startArg (read : Nat → Option UInt8) (fuel argv i : Nat) : Outcome String :=
  match readUsize read (argv + i * 8) with
  | none => .panicked
  | some strStart =>
      match findNul read strStart fuel 0 with
      | .running => .running
      | .panicked => .panicked
      | .returned len =>
          match ((List.range len).mapM fun j => read (strStart + j)).bind fromUtf8 with
          | none => .panicked
          | some arg => .returned arg

/-- The loop of `_start` over a list of indices, with the arguments that have been pushed. -/
def startLoop (read : Nat → Option UInt8) (fuel argv : Nat) (v : List String) :
    List Nat → Outcome (List String)
  | [] => .returned v
  | i :: rest =>
      match startArg read fuel argv i with
      | .running => .running
      | .panicked => .panicked
      | .returned arg => startLoop read fuel argv (v ++ [arg]) rest

/-- The arguments that `_start` passes to `main`. -/
def start (read : Nat → Option UInt8) (fuel argc argv : Nat) : Outcome (List String) :=
  startLoop read fuel argv [] (List.range argc)

/-! ## The address space of the new program -/

/-- The byte that the page table assigns to a virtual address, whether or not its sign is
extended. -/
def PageTable.loadVa (t : PageTable) (m : Memory) (va : Nat) : Option UInt8 :=
  (t.lookup m (floor (virtAddr va))).map fun pte => m (pte.ppn * 4096 + pageOffset va)

/-! ## Reading the arguments back -/

section Decode

variable {read : Nat → Option UInt8}

/-- A word is read as it was stored. -/
theorem readUsize_eq {address value : Nat} (small : value < 2 ^ 64)
    (bytes : ∀ j < 8, read (address + j) = some (Lib.leByte value j)) :
    readUsize read address = some value := by
  have each : ∀ j ∈ List.range 8, read (address + j) = some (Lib.leByte value j) :=
    fun j mem => bytes j (List.mem_range.mp mem)
  rw [readUsize, mapM_eq_some_map each, Option.map_some, Option.some.injEq,
    Lib.leValue_congr 8 (g := Lib.leByte value), Lib.leValue_leByte]
  · exact Nat.mod_eq_of_lt (by omega)
  · intro j bound
    simp [List.getD_eq_getElem?_getD, bound]

/-- The search for the byte 0 behind a string. -/
theorem findNul_eq {strStart fuel i : Nat} {bytes : List UInt8} (noNul : 0 ∉ bytes)
    (stored : ∀ j ≤ bytes.length, read (strStart + j) = some ((bytes ++ [0]).getD j 0))
    (le : i ≤ bytes.length) (enough : bytes.length - i < fuel) :
    findNul read strStart fuel i = .returned bytes.length := by
  induction fuel generalizing i with
  | zero => omega
  | succ fuel ih =>
      rw [findNul, stored i le]
      rcases Nat.eq_or_lt_of_le le with atEnd | inside
      · rw [atEnd, List.getD_eq_getElem _ _ (by simp), List.getElem_concat_length rfl]
        rfl
      · have isByte : (bytes ++ [0]).getD i 0 = bytes[i] := by
          rw [List.getD_eq_getElem _ _ (by simp; omega), List.getElem_append_left inside]
        have nonzero : bytes[i] ≠ 0 :=
          fun isZero => noNul (by rw [← isZero]; exact List.getElem_mem inside)
        simp only [isByte, if_neg nonzero]
        exact ih inside (by omega)

/-- One argument. -/
theorem startArg_eq {fuel argv i strStart : Nat} {arg : String} (small : strStart < 2 ^ 64)
    (noNul : 0 ∉ strBytes arg)
    (slot : ∀ j < 8, read (argv + i * 8 + j) = some (Lib.leByte strStart j))
    (stored : ∀ j ≤ (strBytes arg).length, read (strStart + j) =
      some ((strBytes arg ++ [0]).getD j 0))
    (enough : (strBytes arg).length < fuel) : startArg read fuel argv i = .returned arg := by
  have each : ∀ j ∈ List.range (strBytes arg).length,
      read (strStart + j) = some ((strBytes arg).getD j 0) := by
    intro j mem
    have bound := List.mem_range.mp mem
    rw [stored j (by omega), List.getD_eq_getElem _ _ (by simp; omega),
      List.getElem_append_left bound, List.getD_eq_getElem _ _ bound]
  have whole : (List.range (strBytes arg).length).map (fun j => (strBytes arg).getD j 0) =
      strBytes arg := by
    refine List.ext_getElem (by simp) fun j _ bound => ?_
    rw [List.getElem_map, List.getElem_range, List.getD_eq_getElem _ _ bound]
  simp only [startArg, readUsize_eq small slot, findNul_eq noNul stored (Nat.zero_le _) enough,
    mapM_eq_some_map each, whole, Option.bind_some, EasyFs.fromUtf8_strBytes]

/-- The loop over the arguments that `exec` has left on the stack. -/
theorem startLoop_eq {bytes : Nat → UInt8} {base fuel argv userSp : Nat} {indices : List Nat}
    {args v : List String} (agree : ∀ va, base ≤ va → va < base + 8192 → read va = some (bytes va))
    (word : base + 8192 < 2 ^ 64)
    (argsAt : ArgsAt bytes userSp ((indices.map fun i => argv + i * 8).zip (args.map strBytes)))
    (slots : ∀ i ∈ indices, base ≤ argv + i * 8 ∧ argv + i * 8 + 8 ≤ base + 8192)
    (noNul : ∀ arg ∈ args, 0 ∉ strBytes arg) (length : indices.length = args.length)
    (lower : base + argBytes (args.map strBytes) ≤ userSp) (upper : userSp ≤ base + 8192)
    (enough : 8192 < fuel) : startLoop read fuel argv v indices = .returned (v ++ args) := by
  induction indices generalizing args v userSp with
  | nil =>
      rw [List.eq_nil_of_length_eq_zero length.symm, startLoop, List.append_nil]
  | cons i indices ih =>
      cases args with
      | nil => exact absurd length (by simp)
      | cons arg args =>
          rw [List.map_cons, argBytes_cons] at lower
          obtain ⟨slot, stored, rest⟩ := argsAt
          have place := slots i List.mem_cons_self
          have isArg : startArg read fuel argv i = .returned arg := by
            refine startArg_eq (show userSp - ((strBytes arg).length + 1) < 2 ^ 64 by omega)
              (noNul arg List.mem_cons_self) (fun j small => ?_) (fun j small => ?_) (by omega)
            · rw [agree _ (by omega) (by omega), slot j small]
            · rw [agree _ (by omega) (by omega), stored j small]
          rw [startLoop, isArg]
          simp only
          rw [ih rest (fun i mem => slots i (List.mem_cons_of_mem _ mem))
            (fun arg mem => noNul arg (List.mem_cons_of_mem _ mem))
            (by simpa using length) (by omega) (by omega), List.append_assoc, List.singleton_append]

end Decode

/-! ## The block of arguments -/

/-- Where `exec` puts the strings, from an address downwards. -/
def stringPlaces (userSp : Nat) : List (List UInt8) → List (Nat × List UInt8)
  | [] => []
  | arg :: args => (userSp - (arg.length + 1), arg) :: stringPlaces (userSp - (arg.length + 1)) args

/-- The arguments of a program in the stack from `base` to `base + 8192`, as the program reads it:
`_start` gets the arguments, the array `argv` ends with a null pointer at the top of the stack, the
strings lie below the array and below each other, and `sp` is not above any of them. -/
structure ArgBlock (read : Nat → Option UInt8) (base argvBase sp : Nat)
    (args : List String) : Prop where
  decoded : ∀ fuel, 8192 < fuel → start read fuel args.length argvBase = .returned args
  null : readUsize read (argvBase + args.length * 8) = some 0
  top : argvBase + 8 * (args.length + 1) = base + 8192
  strings : ∃ places : List (Nat × List UInt8), places.map Prod.snd = args.map strBytes ∧
    (∀ i < args.length, readUsize read (argvBase + i * 8) = places[i]?.map Prod.fst) ∧
    (∀ place ∈ places, base ≤ place.1 ∧ sp ≤ place.1 ∧ place.1 + place.2.length + 1 ≤ argvBase) ∧
    places.Pairwise fun place later => later.1 + later.2.length + 1 ≤ place.1
  aligned : sp % 8 = 0
  inside : base ≤ sp ∧ sp ≤ argvBase

section Block

variable {read : Nat → Option UInt8} {base userSp : Nat}

theorem stringPlaces_snd (userSp : Nat) (args : List (List UInt8)) :
    (stringPlaces userSp args).map Prod.snd = args := by
  induction args generalizing userSp with
  | nil => rfl
  | cons arg args ih => rw [stringPlaces, List.map_cons, ih]

/-- The strings lie between the last one and the start. -/
theorem stringPlaces_bounds {args : List (List UInt8)} (enough : argBytes args ≤ userSp) :
    ∀ place ∈ stringPlaces userSp args,
      userSp - argBytes args ≤ place.1 ∧ place.1 + place.2.length + 1 ≤ userSp := by
  induction args generalizing userSp with
  | nil => exact fun place mem => absurd mem List.not_mem_nil
  | cons arg args ih =>
      rw [argBytes_cons] at enough ⊢
      intro place mem
      rcases List.mem_cons.mp mem with rfl | mem
      · simp only
        omega
      · have bounds := ih (show argBytes args ≤ userSp - (arg.length + 1) by omega) place mem
        omega

theorem stringPlaces_pairwise {args : List (List UInt8)} (enough : argBytes args ≤ userSp) :
    (stringPlaces userSp args).Pairwise fun place later =>
    later.1 + later.2.length + 1 ≤ place.1 := by
  induction args generalizing userSp with
  | nil => exact .nil
  | cons arg args ih =>
      rw [argBytes_cons] at enough
      refine .cons (fun later mem => ?_) (ih (by omega))
      exact (stringPlaces_bounds
        (show argBytes args ≤ userSp - (arg.length + 1) by omega) later mem).2

/-- The slots have the addresses of the strings. -/
theorem readUsize_slots {bytes : Nat → UInt8} {indices : List Nat} {argv : Nat}
    {args : List (List UInt8)}
    (agree : ∀ va, base ≤ va → va < base + 8192 → read va = some (bytes va))
    (word : base + 8192 < 2 ^ 64)
    (argsAt : ArgsAt bytes userSp ((indices.map fun i => argv + i * 8).zip args))
    (slots : ∀ i ∈ indices, base ≤ argv + i * 8 ∧ argv + i * 8 + 8 ≤ base + 8192)
    (length : indices.length = args.length) (upper : userSp ≤ base + 8192) :
    indices.map (fun i => readUsize read (argv + i * 8)) =
      (stringPlaces userSp args).map fun place => some place.1 := by
  induction indices generalizing args userSp with
  | nil => rw [List.eq_nil_of_length_eq_zero length.symm, stringPlaces, List.map_nil, List.map_nil]
  | cons i indices ih =>
      cases args with
      | nil => exact absurd length (by simp)
      | cons arg args =>
          obtain ⟨slot, -, rest⟩ := argsAt
          have place := slots i List.mem_cons_self
          have isWord : readUsize read (argv + i * 8) = some (userSp - (arg.length + 1)) := by
            refine readUsize_eq (by omega) fun j small => ?_
            rw [agree _ (by omega) (by omega), slot j small]
          rw [List.map_cons, stringPlaces, List.map_cons, isWord,
            ih rest (fun i mem => slots i (List.mem_cons_of_mem _ mem))
            (by simpa using length) (by omega)]

/-- The block of arguments that `exec` leaves. -/
theorem argBlock_of_argsAt {bytes : Nat → UInt8} {argvBase : Nat} {args : List String}
    (agree : ∀ va, base ≤ va → va < base + 8192 → read va = some (bytes va))
    (word : base + 8192 < 2 ^ 64)
    (noNul : ∀ arg ∈ args, 0 ∉ strBytes arg) (top : argvBase + 8 * (args.length + 1) = base + 8192)
    (fits : base + argBytes (args.map strBytes) + 7 ≤ argvBase)
    (argsAt : ArgsAt bytes argvBase ((slotVas argvBase args.length).zip (args.map strBytes)))
    (null : ∀ j < 8, bytes (argvBase + args.length * 8 + j) = 0) :
    ArgBlock read base argvBase (argvBase - argBytes (args.map strBytes) -
      (argvBase - argBytes (args.map strBytes)) % 8) args := by
  -- the slot of the null pointer has no argument
  have pairs : (slotVas argvBase args.length).zip (args.map strBytes) =
      ((List.range args.length).map fun i => argvBase + i * 8).zip (args.map strBytes) := by
    have same : ((List.range args.length).map fun i => argvBase + i * 8).length =
        (args.map strBytes).length := by simp
    have split := @List.zip_append _ _ _ [argvBase + args.length * 8] _ [] same
    rw [List.append_nil, List.zip_nil_right, List.append_nil] at split
    rw [slotVas, List.range_succ, List.map_append, List.map_singleton, split]
  rw [pairs] at argsAt
  have slots : ∀ i ∈ List.range args.length, base ≤ argvBase + i * 8 ∧
      argvBase + i * 8 + 8 ≤ base + 8192 := by
    intro i mem
    have small := List.mem_range.mp mem
    omega
  refine ⟨fun fuel enough => ?_, ?_, top, ⟨stringPlaces argvBase (args.map strBytes),
    stringPlaces_snd _ _, fun i small => ?_, fun place mem => ?_, stringPlaces_pairwise (by omega)⟩,
    by omega, by omega⟩
  · exact startLoop_eq agree word argsAt slots noNul (by simp) (by omega) (by omega) enough
  · refine readUsize_eq (by omega) fun j small => ?_
    rw [agree _ (by omega) (by omega), null j small]
    simp [Lib.leByte]
  · have all := readUsize_slots agree word argsAt slots (by simp) (by omega)
    have each := congrArg (fun list => list[i]?) all
    simp only [List.getElem?_map, List.getElem?_range small, Option.map_some] at each
    cases isPlace : (stringPlaces argvBase (args.map strBytes))[i]? with
    | none =>
        rw [isPlace] at each
        exact absurd each (by simp)
    | some place =>
        rw [isPlace, Option.map_some, Option.some.injEq] at each
        rw [each, Option.map_some]
  · have bounds := stringPlaces_bounds (by omega) place mem
    omega

end Block

/-! ## Trap contexts -/

section Words

variable {m : Memory} {ppn index : Nat}

theorem setWords_apply_other {words : List Nat} {address : Nat} (apart : address / 4096 ≠ ppn)
    (inside : index + words.length ≤ 512) : m.setWords ppn index words address = m address := by
  induction words generalizing m index with
  | nil => rfl
  | cons word words ih =>
      rw [List.length_cons] at inside
      rw [Memory.setWords, ih (by omega), Memory.setWord, if_neg (by omega)]

theorem word_setWords_before {words : List Nat} {i : Nat} (before : i < index)
    (inside : index + words.length ≤ 512) :
    (m.setWords ppn index words).word ppn i = m.word ppn i := by
  induction words generalizing m index with
  | nil => rfl
  | cons word words ih =>
      rw [List.length_cons] at inside
      rw [Memory.setWords, ih (by omega) (by omega),
        Memory.word_setWord_other m i (by omega) (by omega) (.inr (by omega))]

/-- The words of a trap context are read as they were written. -/
theorem word_setWords {words : List Nat} {i value : Nat} (isWord : words[i]? = some value)
    (small : value < 2 ^ 64) (inside : index + words.length ≤ 512) :
    (m.setWords ppn index words).word ppn (index + i) = value := by
  induction words generalizing m index i with
  | nil => exact absurd isWord (by simp)
  | cons word words ih =>
      rw [List.length_cons] at inside
      rw [Memory.setWords]
      cases i with
      | zero =>
          rw [List.getElem?_cons_zero, Option.some.injEq] at isWord
          subst isWord
          rw [word_setWords_before (i := index + 0) (by omega) (by omega), Nat.add_zero,
            Memory.word_setWord m small]
      | succ i =>
          rw [List.getElem?_cons_succ] at isWord
          rw [show index + (i + 1) = index + 1 + i by omega]
          exact ih isWord (by omega)

end Words

/-- The bytes of the stack after `exec` has written the trap context. -/
theorem MainStack.loadVa {l tramp base ppn : Nat} {s : Phys} {set : MemorySet} {m : Memory}
    {words : List Nat} (stack : MainStack l tramp s set base) (writes : DataWrites l s set s.mem m)
    (below : floor (virtAddr base) + 2 ≤ trapCxVpn)
    (isTrapCx : (trapCxVpn, ppn) ∈ areaEntries set.areas)
    (inside : words.length ≤ 512) {va : Nat} (lower : base ≤ va) (upper : va < base + 8192) :
    set.pageTable.loadVa (m.setWords ppn 0 words) va =
    some (m (set.pageTable.physOf s.mem va)) := by
  obtain ⟨pte, found, isEntry, isPhys⟩ := stack.entry lower upper
  have written : DataWrites l s set s.mem (m.setWords ppn 0 words) :=
    writes.trans (.setWords words (mem_areaFrames isTrapCx) (by omega))
  have otherFrame : pte.ppn ≠ ppn := by
    rintro rfl
    have samePage := stack.user.wf.page_unique isEntry isTrapCx
    have aligned := stack.aligned
    rw [stack.virtAddr_eq lower upper] at samePage
    unfold floor virtAddr at samePage below
    omega
  have lookup : set.pageTable.lookup (m.setWords ppn 0 words) (floor (virtAddr va)) = some pte := by
    rw [PageTable.lookup, written.translate stack.user.wf]
    exact found
  rw [PageTable.loadVa, lookup, Option.map_some, Option.some.injEq, isPhys, pageOffset]
  exact setWords_apply_other (by omega) (by omega)

/-- The state after `exec`, when the address space has been built and the arguments are pushed. -/
theorem exec_eq {File : Type} {layout : KernelLayout} {k : Processes File} {id : Nat} {elf : Elf}
    {args : List (List UInt8)} {phys : Phys} {set : MemorySet} {ustackBase entryPoint : Nat}
    {mem : Memory} {sp argvBase trapCxPpn : Nat} (sstatus trapHandler : Nat)
    (space : k.execSpace layout id elf = some (phys, set, ustackBase, entryPoint))
    (isTrapCx : set.trapCxPpn phys.mem mainTid = some trapCxPpn)
    (isPushed : pushArgv phys.mem set.pageTable.token (ustackTop ustackBase) args =
      some (mem, sp, argvBase)) :
    ∃ (pcb : Pcb File) (cx : TrapContext), cx.words[2]? = some sp ∧
      cx.words[10]? = some args.length ∧ cx.words[11]? = some argvBase ∧
      k.exec layout id elf args sstatus trapHandler = some { k with
        machine := k.machine.put { phys with mem := mem.setWords trapCxPpn 0 cx.words } (.user id)
          (some ⟨set, false⟩)
        pcbs := Function.update k.pcbs id
          (some { pcb with ustackBase := ustackBase, trapCxPpn := trapCxPpn }) } := by
  obtain ⟨pcb, isPcb, space⟩ := Option.bind_eq_some_iff.mp space
  obtain ⟨old, isLive, space⟩ := Option.bind_eq_some_iff.mp space
  obtain ⟨⟨built, program, base, entry⟩, isElf, space⟩ := Option.bind_eq_some_iff.mp space
  obtain ⟨dropped, isDropped, space⟩ := Option.bind_eq_some_iff.mp space
  obtain ⟨⟨last, withRes⟩, isRes, space⟩ := Option.map_eq_some_iff.mp space
  simp only [Prod.mk.injEq] at space
  obtain ⟨rfl, rfl, rfl, rfl⟩ := space
  let cx := TrapContext.appInitContext sstatus entry sp k.kernelToken
    (kernelStackPosition pcb.kstack).2 trapHandler
  refine ⟨pcb, { cx with x := (cx.x.set 10 args.length).set 11 argvBase }, rfl, rfl, rfl, ?_⟩
  simp only [Processes.exec, isPcb, isLive, isElf, isDropped, isRes, isTrapCx, isPushed,
    Option.bind_some, Option.map_some, cx]

/-- In every state that a run of the machine reaches, for all arguments without a byte 0 that fit
into the stack: `exec` of a program whose address space can be built returns, the trap context has
the number of the arguments, the address of `argv` and the stack pointer, and the program reads its
arguments from the stack, through the page table and, when the addresses of the stack extend their
sign, as the processor does. -/
theorem exec_args_roundtrip {File : Type} {layout : KernelLayout} {booted : Machine}
    {k : Processes File}
    (mem : Memory) (boot : Machine.boot mem layout = some booted) (events : List SpaceEvent)
    (run : booted.steps layout events = some k.machine) (id : Nat) (elf : Elf) (args : List String)
    (sstatus trapHandler : Nat) {phys : Phys} {set : MemorySet} {ustackBase entryPoint : Nat}
    (space : k.execSpace layout id elf = some (phys, set, ustackBase, entryPoint))
    (noNul : ∀ arg ∈ args, 0 ∉ strBytes arg)
    (fits : 8 * (args.length + 1) + argBytes (args.map strBytes) + 7 ≤ 8192) :
    ∃ k' pcb argvBase sp,
      k.exec layout id elf (args.map strBytes) sstatus trapHandler = some k' ∧
      k'.pcbs id = some pcb ∧ pcb.ustackBase = ustackBase ∧
      ustackTop ustackBase = ustackBase + 8192 ∧ k'.machine.live (.user id) = some set ∧
      k'.machine.phys.mem.word pcb.trapCxPpn 10 = args.length ∧
      k'.machine.phys.mem.word pcb.trapCxPpn 11 = argvBase ∧
      k'.machine.phys.mem.word pcb.trapCxPpn 2 = sp ∧
      ArgBlock (set.pageTable.loadVa k'.machine.phys.mem) ustackBase argvBase sp args ∧
      ((∀ va, ustackBase ≤ va → va < ustackBase + 8192 → usizeOfVirtAddr (virtAddr va) = va) →
        ArgBlock (set.pageTable.load k'.machine.phys.mem) ustackBase argvBase sp args) := by
  obtain ⟨inv, above⟩ := Machine.inv_boot boot
  obtain ⟨stack, has, below, -, -⟩ := execSpace_spec (inv.steps above run) above space
  have word := stack.word
  have isTop : ustackTop ustackBase = ustackBase + 8192 := by
    have zero : mainTid = 0 := rfl
    rw [ustackTop, ustackBottomFromTid, zero]
    omega
  obtain ⟨trapCxPpn, isEntry, isTrapCx⟩ := stack.user.wf.trapCx stack.user.framed has
  obtain ⟨argvBase, top⟩ : ∃ argvBase, argvBase + 8 * (args.length + 1) = ustackBase + 8192 :=
    ⟨ustackBase + 8192 - 8 * (args.length + 1), by omega⟩
  obtain ⟨pushed, isPushed, writes, argsAt, null⟩ := stack.pushArgv (args.map strBytes)
    (show argvBase + 8 * ((args.map strBytes).length + 1) = _ by rw [List.length_map]; exact top)
    (by omega)
  rw [List.length_map] at argsAt null
  rw [← isTop] at isPushed
  obtain ⟨pcb, cx, isSp, isCount, isArgv, isExec⟩ :=
    exec_eq sstatus trapHandler space isTrapCx isPushed
  rw [List.length_map] at isCount
  have length := cx.words_length
  have block : ∀ read : Nat → Option UInt8,
      (∀ va, ustackBase ≤ va → va < ustackBase + 8192 →
        read va = some (pushed (set.pageTable.physOf phys.mem va))) →
      ArgBlock read ustackBase argvBase (argvBase - argBytes (args.map strBytes) -
        (argvBase - argBytes (args.map strBytes)) % 8) args :=
    fun read agree => argBlock_of_argsAt agree word noNul top (by omega) argsAt null
  have loads : ∀ va, ustackBase ≤ va → va < ustackBase + 8192 →
      set.pageTable.loadVa (pushed.setWords trapCxPpn 0 cx.words) va =
        some (pushed (set.pageTable.physOf phys.mem va)) :=
    fun va lower upper => stack.loadVa writes below isEntry (by omega) lower upper
  have words : ∀ i value, cx.words[i]? = some value → value < 2 ^ 64 →
      (pushed.setWords trapCxPpn 0 cx.words).word trapCxPpn i = value := by
    intro i value isWord small
    have read := @word_setWords pushed trapCxPpn 0 _ _ _ isWord small (by omega)
    rwa [Nat.zero_add] at read
  refine ⟨_, _, argvBase, _, isExec, Function.update_self _ _ _, rfl, isTop,
    Machine.live_eq_some.mpr (k.machine.put_spaces_self _ _ _), ?_, ?_, ?_, block _ loads,
    fun canonical => ?_⟩
  · exact words _ _ isCount (by omega)
  · exact words _ _ isArgv (by omega)
  · exact words _ _ isSp (by omega)
  · refine block _ fun va lower upper => ?_
    have isByte := loads va lower upper
    rw [PageTable.loadVa] at isByte
    rw [PageTable.load, PageTable.byteAt, if_pos (canonical va lower upper), Option.map_map]
    exact isByte

/-- A program with one page of code. -/
def onePageElf : Elf := ⟨[⟨0x10000, 0x1000, true, false, true, [19]⟩], 0x10000⟩

/-- The process of the main thread, on its machine. -/
def mainProcess (machine : Machine) : Processes Unit :=
  ⟨machine, fun _ => some ⟨0, [], 0x12000, 0x807f1, 0⟩, 1, .new, .new⟩

/-- The address space for a program with one page of code. -/
theorem onePage_execSpace : ∃ booted k phys set ustackBase entryPoint,
    Machine.boot (fun _ => 0) tinyLayout = some booted ∧
    booted.steps tinyLayout mainThreadRun = some (mainProcess k).machine ∧
    (mainProcess k).execSpace tinyLayout 0 onePageElf =
    some (phys, set, ustackBase, entryPoint) := by
  have present : (mainThread.map fun main =>
      ((mainProcess main.1).execSpace tinyLayout 0 onePageElf).isSome) =
        some true := by decide +kernel
  obtain ⟨⟨k, old⟩, isMain, isSpace⟩ := Option.map_eq_some_iff.mp present
  obtain ⟨⟨phys, set, ustackBase, entryPoint⟩, space⟩ := Option.isSome_iff_exists.mp isSpace
  obtain ⟨booted, boot, run, -⟩ := mainThread_eq_some isMain
  exact ⟨booted, k, phys, set, ustackBase, entryPoint, boot, run, space⟩

/-- It executes the program with two arguments. -/
theorem exec_args_roundtrip_ls : ∃ booted k phys set ustackBase entryPoint,
    Machine.boot (fun _ => 0) tinyLayout = some booted ∧
    booted.steps tinyLayout mainThreadRun = some (mainProcess k).machine ∧
    (mainProcess k).execSpace tinyLayout 0 onePageElf = some (phys, set, ustackBase, entryPoint) ∧
    ∃ k' pcb argvBase sp,
      (mainProcess k).exec tinyLayout 0 onePageElf (["ls", "-l"].map strBytes) 0 0 = some k' ∧
      k'.pcbs 0 = some pcb ∧ k'.machine.phys.mem.word pcb.trapCxPpn 10 = 2 ∧
      ArgBlock (set.pageTable.loadVa k'.machine.phys.mem) ustackBase argvBase sp ["ls", "-l"] := by
  obtain ⟨booted, k, phys, set, ustackBase, entryPoint, boot, run, space⟩ := onePage_execSpace
  obtain ⟨k', pcb, argvBase, sp, isExec, isPcb, -, -, -, count, -, -, block, -⟩ :=
    exec_args_roundtrip (k := mainProcess k) _ boot mainThreadRun run 0 onePageElf
      ["ls", "-l"] 0 0 space (by decide) (by decide)
  exact ⟨booted, k, phys, set, ustackBase, entryPoint, boot, run, space, k', pcb,
    argvBase, sp, isExec, isPcb, count, block⟩

end CoreFromDust.Os.Mm
