import CoreFromDust.Lib.LittleEndian
import Mathlib.Logic.Function.Basic
import Mathlib.Order.Fin.Basic

/-!
# Straight-line RISC-V code

A hart of RV64 with the supervisor registers that a trap uses, on paged memory. `run` executes
instructions one after another; the page that they are fetched from has to be mapped all the time,
also after a write to `satp`. A write to a CSR stores its operand as it is. `none` is an exception.
-/

namespace CoreFromDust.Lib.RiscV

/-- A general register. -/
abbrev Reg := Fin 32

/-- The register `x` with a number. -/
abbrev xreg (n : Nat) : Reg := Fin.ofNat 32 n

/-- `x1`. -/
abbrev x1 : Reg := 1

/-- `x3`. -/
abbrev x3 : Reg := 3

/-- `sp`. -/
abbrev sp : Reg := 2

/-- `t0`. -/
abbrev t0 : Reg := 5

/-- `t1`. -/
abbrev t1 : Reg := 6

/-- `t2`. -/
abbrev t2 : Reg := 7

/-- `a0`. -/
abbrev a0 : Reg := 10

/-- `a1`. -/
abbrev a1 : Reg := 11

/-- The control and status registers. -/
inductive Csr where
  | sstatus
  | sepc
  | sscratch
  | satp
  deriving DecidableEq, Repr

/-- The instructions. The offset of a load or store is in bytes. -/
inductive Instr where
  | csrrw (rd : Reg) (csr : Csr) (rs : Reg)
  | csrr (rd : Reg) (csr : Csr)
  | csrw (csr : Csr) (rs : Reg)
  | sd (rs2 : Reg) (offset : Nat) (rs1 : Reg)
  | ld (rd : Reg) (offset : Nat) (rs1 : Reg)
  | mv (rd rs : Reg)
  | sfenceVma
  | jr (rs : Reg)
  | sret
  deriving DecidableEq, Repr

/-- Address translation: the frame of a page under a value of `satp`. -/
abbrev Mmu := UInt64 → Nat → Option Nat

/-- The eight bytes from an address on. -/
def load64 (m : Nat → UInt8) (address : Nat) : UInt64 :=
  UInt64.ofNat (leValue 8 fun i => m (address + i))

/-- Overwrite the eight bytes from an address on. -/
def store64 (m : Nat → UInt8) (address : Nat) (v : UInt64) : Nat → UInt8 := fun a =>
  if address ≤ a ∧ a < address + 8 then leByte v.toNat (a - address) else m a

/-- The physical address of an aligned doubleword. -/
def physical (mmu : Mmu) (satp va : UInt64) : Option Nat :=
  if va.toNat % 8 = 0 then
    (mmu satp (va.toNat / 4096)).map fun frame => frame * 4096 + va.toNat % 4096
  else none

/-- A hart and the physical memory. `jumped` is where it went when it left the code. -/
structure Hart where
  x : Reg → UInt64
  csr : Csr → UInt64
  mem : Nat → UInt8
  jumped : Option UInt64

namespace Hart

/-- The value of a register; `x0` is zero. -/
def get (h : Hart) (r : Reg) : UInt64 := if r = 0 then 0 else h.x r

/-- Write a register; a write to `x0` is lost. -/
def set (h : Hart) (r : Reg) (v : UInt64) : Hart :=
  { h with x := if r = 0 then h.x else Function.update h.x r v }

/-- Write a control and status register. -/
def setCsr (h : Hart) (csr : Csr) (v : UInt64) : Hart :=
  { h with csr := Function.update h.csr csr v }

section Fields

variable (h : Hart) (r s : Reg) (c d : Csr) (v : UInt64)

@[simp] theorem get_set :
    (h.set r v).get s = if s = 0 then 0 else if s = r then v else h.get s := by
  unfold get set
  by_cases zero : s = 0
  · simp [zero]
  · by_cases same : s = r
    · subst same
      simp [zero]
    · by_cases written : r = 0 <;> simp [zero, same, written]

theorem get_set_self {h : Hart} {r : Reg} {v : UInt64} (notZero : r ≠ 0) :
    (h.set r v).get r = v := by
  simp [notZero]

theorem get_set_of_ne {h : Hart} {r s : Reg} {v : UInt64} (other : s ≠ r) :
    (h.set r v).get s = h.get s := by
  rw [get_set, if_neg other, ite_eq_right_iff]
  intro zero
  rw [get, if_pos zero]

@[simp] theorem set_csr : (h.set r v).csr = h.csr := rfl
@[simp] theorem setCsr_get : (h.setCsr c v).get r = h.get r := rfl
@[simp] theorem setCsr_csr : (h.setCsr c v).csr d = if d = c then v else h.csr d := by
  simp [setCsr, Function.update_apply]
@[simp] theorem setCsr_mem : (h.setCsr c v).mem = h.mem := rfl

end Fields

/-- The hart with the first two arguments of a function call. -/
def withArgs (h : Hart) (arg0 arg1 : UInt64) : Hart := (h.set a0 arg0).set a1 arg1

theorem withArgs_a0 (h : Hart) (arg0 arg1 : UInt64) : (h.withArgs arg0 arg1).get a0 = arg0 := by
  rw [withArgs, get_set_of_ne (by decide), get_set_self (by decide)]

theorem withArgs_a1 (h : Hart) (arg0 arg1 : UInt64) : (h.withArgs arg0 arg1).get a1 = arg1 := by
  rw [withArgs, get_set_self (by decide)]

end Hart

/-- `sstatus` after `sret`: `SIE` is the old `SPIE`, `SPIE` is 1 and `SPP` is 0. -/
def sretStatus (sstatus : UInt64) : UInt64 :=
  (sstatus &&& ~~~(0x102 : UInt64)) ||| (((sstatus >>> 5) &&& 1) <<< 1) ||| 0x20

/-- One instruction. -/
def exec (mmu : Mmu) (h : Hart) : Instr → Option Hart
  | .csrrw rd csr rs => some ((h.setCsr csr (h.get rs)).set rd (h.csr csr))
  | .csrr rd csr => some (h.set rd (h.csr csr))
  | .csrw csr rs => some (h.setCsr csr (h.get rs))
  | .sd rs2 offset rs1 =>
      (physical mmu (h.csr .satp) (h.get rs1 + UInt64.ofNat offset)).map fun address =>
        { h with mem := store64 h.mem address (h.get rs2) }
  | .ld rd offset rs1 =>
      (physical mmu (h.csr .satp) (h.get rs1 + UInt64.ofNat offset)).map fun address =>
        h.set rd (load64 h.mem address)
  | .mv rd rs => some (h.set rd (h.get rs))
  | .sfenceVma => some h
  | .jr rs => some { h with jumped := some (h.get rs) }
  | .sret => some { h.setCsr .sstatus (sretStatus (h.csr .sstatus)) with
      jumped := some (h.csr .sepc) }

/-- The page of the code and the frame that it is in. -/
structure Text where
  page : Nat
  frame : Nat

/-- The code is mapped under a value of `satp`. -/
def Text.Mapped (text : Text) (mmu : Mmu) (satp : UInt64) : Prop :=
  mmu satp text.page = some text.frame

instance (text : Text) (mmu : Mmu) (satp : UInt64) : Decidable (text.Mapped mmu satp) :=
  inferInstanceAs (Decidable (_ = _))

/-- A sequence of instructions. -/
def run (mmu : Mmu) (text : Text) : List Instr → Hart → Option Hart
  | [], h => some h
  | i :: is, h =>
      if text.Mapped mmu (h.csr .satp) then (exec mmu h i).bind (run mmu text is) else none

section Run

variable {mmu : Mmu} {text : Text}

theorem run_cons {i : Instr} {is : List Instr} {h : Hart} (mapped : text.Mapped mmu (h.csr .satp)) :
    run mmu text (i :: is) h = (exec mmu h i).bind (run mmu text is) := if_pos mapped

/-- A sequence from where its first part has ended. -/
theorem run_append {is js : List Instr} {h h' : Hart} (ran : run mmu text is h = some h') :
    run mmu text (is ++ js) h = run mmu text js h' := by
  induction is generalizing h with
  | nil =>
      simp only [run, Option.some.injEq] at ran
      rw [List.nil_append, ran]
  | cons i is ih =>
      simp only [run] at ran
      split at ran
      · next mapped =>
        obtain ⟨h₁, first, rest⟩ := Option.bind_eq_some_iff.mp ran
        rw [List.cons_append, run_cons mapped, first, Option.bind_some, ih rest]
      · simp at ran

end Run

/-! ## Memory -/

section Memory

variable {m : Nat → UInt8} {base k : Nat} {v : UInt64}

theorem load64_store64 (m : Nat → UInt8) (address : Nat) (v : UInt64) :
    load64 (store64 m address v) address = v := by
  have small := v.toNat_lt
  rw [load64, leValue_congr 8 (g := leByte v.toNat), leValue_leByte, Nat.mod_eq_of_lt (by omega),
    UInt64.ofNat_toNat]
  intro i hi
  rw [store64, if_pos (by omega), Nat.add_sub_cancel_left]

theorem load64_store64_apart (m : Nat → UInt8) {address other : Nat} (v : UInt64)
    (apart : other + 8 ≤ address ∨ address + 8 ≤ other) :
    load64 (store64 m address v) other = load64 m other := by
  have same : leValue 8 (fun i => store64 m address v (other + i)) =
      leValue 8 fun i => m (other + i) := by
    apply leValue_congr
    intro i hi
    rw [store64, if_neg (by omega)]
  rw [load64, load64, same]

-- unfolding a doubleword would expand its eight bytes
attribute [irreducible] load64

/-- Two doublewords do not overlap. -/
def Apart (address other : Nat) : Prop := address + 8 ≤ other ∨ other + 8 ≤ address

/-- Store doublewords to slots, each at an address of its own. -/
def storeAt (slot : Nat → Nat) (words : List (Nat × UInt64)) (m : Nat → UInt8) : Nat → UInt8 :=
  words.foldl (fun m word => store64 m (slot word.1) word.2) m

section StoreAt

variable {slot : Nat → Nat} {words : List (Nat × UInt64)}

theorem storeAt_cons (word : Nat × UInt64) (words : List (Nat × UInt64)) :
    storeAt slot (word :: words) m = storeAt slot words (store64 m (slot word.1) word.2) := rfl

/-- A doubleword that is not stored to. -/
theorem load64_storeAt_apart {address : Nat}
    (apart : ∀ k ∈ words.map Prod.fst, Apart (slot k) address) :
    load64 (storeAt slot words m) address = load64 m address := by
  induction words generalizing m with
  | nil => rfl
  | cons word words ih =>
      rw [List.map_cons] at apart
      rw [storeAt_cons, ih fun k mem => apart k (List.mem_cons_of_mem _ mem),
        load64_store64_apart _ _ (apart word.1 List.mem_cons_self).symm]

/-- A slot that is stored to once. -/
theorem load64_storeAt (once : (words.map Prod.fst).Nodup)
    (apart : ∀ j ∈ words.map Prod.fst, j ≠ k → Apart (slot j) (slot k)) (mem : (k, v) ∈ words) :
    load64 (storeAt slot words m) (slot k) = v := by
  induction words generalizing m with
  | nil => simp at mem
  | cons word words ih =>
      rw [List.map_cons, List.nodup_cons] at once
      rw [List.map_cons] at apart
      have later : ∀ j ∈ words.map Prod.fst, j ≠ k → Apart (slot j) (slot k) :=
        fun j mem => apart j (List.mem_cons_of_mem _ mem)
      rw [storeAt_cons]
      rcases List.mem_cons.mp mem with rfl | mem
      · rw [load64_storeAt_apart, load64_store64]
        intro j inWords
        apply later j inWords
        rintro rfl
        exact once.1 inWords
      · exact ih once.2 later mem

/-- A byte that is not stored to. -/
theorem storeAt_outside {address : Nat}
    (outside : ∀ k ∈ words.map Prod.fst, address < slot k ∨ slot k + 8 ≤ address) :
    storeAt slot words m address = m address := by
  induction words generalizing m with
  | nil => rfl
  | cons word words ih =>
      rw [List.map_cons] at outside
      have here := outside word.1 List.mem_cons_self
      rw [storeAt_cons, ih fun k mem => outside k (List.mem_cons_of_mem _ mem), store64,
        if_neg (by omega)]

end StoreAt

/-- Store doublewords at the given slots of a region. -/
def storeAll (base : Nat) (words : List (Nat × UInt64)) (m : Nat → UInt8) : Nat → UInt8 :=
  words.foldl (fun m word => store64 m (base + word.1 * 8) word.2) m

/-- The slots of a region follow each other. -/
theorem storeAll_eq (words : List (Nat × UInt64)) :
    storeAll base words m = storeAt (fun k => base + k * 8) words m := rfl

theorem apart_of_ne {j : Nat} (differ : j ≠ k) : Apart (base + j * 8) (base + k * 8) := by
  unfold Apart
  omega

theorem storeAll_append (words words' : List (Nat × UInt64)) :
    storeAll base (words ++ words') m = storeAll base words' (storeAll base words m) :=
  List.foldl_append

/-- A slot that is not stored to. -/
theorem load64_storeAll_other {words : List (Nat × UInt64)} (absent : k ∉ words.map Prod.fst) :
    load64 (storeAll base words m) (base + k * 8) = load64 m (base + k * 8) := by
  rw [storeAll_eq, load64_storeAt_apart]
  intro j mem
  apply apart_of_ne
  rintro rfl
  exact absent mem

/-- A slot that is stored to once. -/
theorem load64_storeAll {words : List (Nat × UInt64)} (once : (words.map Prod.fst).Nodup)
    (mem : (k, v) ∈ words) : load64 (storeAll base words m) (base + k * 8) = v :=
  load64_storeAt once (fun _ _ differ => apart_of_ne differ) mem

/-- Bytes outside of the slots. -/
theorem storeAll_outside {words : List (Nat × UInt64)} {address : Nat} (slots : Nat)
    (inside : ∀ word ∈ words, word.1 < slots)
    (outside : address < base ∨ base + slots * 8 ≤ address) :
    storeAll base words m address = m address := by
  rw [storeAll_eq]
  apply storeAt_outside
  intro k mem
  obtain ⟨word, inWords, rfl⟩ := List.mem_map.mp mem
  have below := inside word inWords
  omega

end Memory

/-! ## Loads and stores relative to a register -/

/-- A pointer to `slots` doublewords, of which each is somewhere in the physical memory. -/
def PointsTo (mmu : Mmu) (satp va : UInt64) (slot : Nat → Nat) (slots : Nat) : Prop :=
  ∀ k, k < slots → physical mmu satp (va + UInt64.ofNat (k * 8)) = some (slot k)

/-- A pointer to `slots` doublewords, which are at `base` in the physical memory. -/
def Points (mmu : Mmu) (satp va : UInt64) (base slots : Nat) : Prop :=
  ∀ k, k < slots → physical mmu satp (va + UInt64.ofNat (k * 8)) = some (base + k * 8)

theorem Points.pointsTo {mmu : Mmu} {satp va : UInt64} {base slots : Nat}
    (points : Points mmu satp va base slots) :
    PointsTo mmu satp va (fun k => base + k * 8) slots := points

/-- An aligned pointer into a page that is mapped, to doublewords that do not reach past its end. -/
theorem points_of_page {mmu : Mmu} {satp va : UInt64} {frame slots : Nat}
    (mapped : mmu satp (va.toNat / 4096) = some frame) (aligned : va.toNat % 8 = 0)
    (inside : va.toNat % 4096 + slots * 8 ≤ 4096) :
    Points mmu satp va (frame * 4096 + va.toNat % 4096) slots := by
  intro k hk
  have small := va.toNat_lt
  have sum : (va + UInt64.ofNat (k * 8)).toNat = va.toNat + k * 8 := by
    rw [UInt64.toNat_add, UInt64.toNat_ofNat']
    omega
  rw [physical, sum, if_pos (by omega), show (va.toNat + k * 8) / 4096 = va.toNat / 4096 by omega,
    mapped, Option.map_some, show (va.toNat + k * 8) % 4096 = va.toNat % 4096 + k * 8 by omega,
    Nat.add_assoc]

/-- Instructions that store registers to slots relative to a pointer. -/
def stores (rs : Reg) (pairs : List (Reg × Nat)) : List Instr :=
  pairs.map fun pair => .sd pair.1 (pair.2 * 8) rs

/-- Instructions that load registers from slots relative to a pointer. -/
def loadsFrom (rs : Reg) (pairs : List (Reg × Nat)) : List Instr :=
  pairs.map fun pair => .ld pair.1 (pair.2 * 8) rs

/-- Instructions that load registers, each from the slot of its number. -/
def loads (rs : Reg) (regs : List Reg) : List Instr := regs.map fun r => .ld r (r.val * 8) rs

section Relative

variable {mmu : Mmu} {text : Text} {h : Hart} {rs : Reg} {va : UInt64} {base slots : Nat}
  {slot : Nat → Nat}

theorem exec_ld {rd : Reg} {k : Nat} (points : PointsTo mmu (h.csr .satp) va slot slots)
    (pointer : h.get rs = va) (hk : k < slots) :
    exec mmu h (.ld rd (k * 8) rs) = some (h.set rd (load64 h.mem (slot k))) := by
  rw [exec, pointer, points k hk, Option.map_some]

theorem exec_sd {r : Reg} {k : Nat} (points : PointsTo mmu (h.csr .satp) va slot slots)
    (pointer : h.get rs = va) (hk : k < slots) :
    exec mmu h (.sd r (k * 8) rs) = some { h with mem := store64 h.mem (slot k) (h.get r) } := by
  rw [exec, pointer, points k hk, Option.map_some]

theorem run_storesAt (points : PointsTo mmu (h.csr .satp) va slot slots) (pointer : h.get rs = va)
    (mapped : text.Mapped mmu (h.csr .satp)) {pairs : List (Reg × Nat)}
    (inside : ∀ pair ∈ pairs, pair.2 < slots) :
    run mmu text (stores rs pairs) h =
      some { h with mem := storeAt slot (pairs.map fun pair => (pair.2, h.get pair.1)) h.mem } := by
  induction pairs generalizing h with
  | nil => rfl
  | cons pair pairs ih =>
      have first := exec_sd (r := pair.1) points pointer (inside pair List.mem_cons_self)
      have rest := ih (h := { h with mem := store64 h.mem (slot pair.2) (h.get pair.1) })
        points pointer mapped fun pair mem => inside pair (List.mem_cons_of_mem _ mem)
      rw [stores, List.map_cons, run_cons mapped, first, Option.bind_some, ← stores, rest]
      rfl

theorem run_stores (points : Points mmu (h.csr .satp) va base slots) (pointer : h.get rs = va)
    (mapped : text.Mapped mmu (h.csr .satp)) {pairs : List (Reg × Nat)}
    (inside : ∀ pair ∈ pairs, pair.2 < slots) :
    run mmu text (stores rs pairs) h =
      some { h with mem := storeAll base (pairs.map fun pair => (pair.2, h.get pair.1)) h.mem } :=
  run_storesAt points.pointsTo pointer mapped inside

/-- A load changes one register. -/
theorem run_ldAt (rd : Reg) (k : Nat) (points : PointsTo mmu (h.csr .satp) va slot slots)
    (pointer : h.get rs = va) (mapped : text.Mapped mmu (h.csr .satp)) (hk : k < slots)
    (notZero : rd ≠ 0) :
    ∃ g, (∀ is, run mmu text (.ld rd (k * 8) rs :: is) h = run mmu text is g) ∧
      g.csr = h.csr ∧ g.mem = h.mem ∧ g.jumped = h.jumped ∧
      g.get rd = load64 h.mem (slot k) ∧ ∀ r, r ≠ rd → g.get r = h.get r := by
  refine ⟨h.set rd (load64 h.mem (slot k)), fun is => ?_, rfl, rfl, rfl,
    Hart.get_set_self notZero, fun r other => Hart.get_set_of_ne other⟩
  rw [run_cons mapped, exec_ld points pointer hk, Option.bind_some]

theorem run_ld (rd : Reg) (k : Nat) (points : Points mmu (h.csr .satp) va base slots)
    (pointer : h.get rs = va) (mapped : text.Mapped mmu (h.csr .satp)) (hk : k < slots)
    (notZero : rd ≠ 0) :
    ∃ g, (∀ is, run mmu text (.ld rd (k * 8) rs :: is) h = run mmu text is g) ∧
      g.csr = h.csr ∧ g.mem = h.mem ∧ g.jumped = h.jumped ∧
      g.get rd = load64 h.mem (base + k * 8) ∧ ∀ r, r ≠ rd → g.get r = h.get r :=
  run_ldAt rd k points.pointsTo pointer mapped hk notZero

/-- Loads change their registers, of which each comes from one slot. -/
theorem run_loadsFrom (points : PointsTo mmu (h.csr .satp) va slot slots) (pointer : h.get rs = va)
    (mapped : text.Mapped mmu (h.csr .satp)) (pairs : List (Reg × Nat))
    (inside : ∀ pair ∈ pairs, pair.2 < slots) (notZero : 0 ∉ pairs.map Prod.fst)
    (notPointer : rs ∉ pairs.map Prod.fst)
    (single : ∀ r k k', (r, k) ∈ pairs → (r, k') ∈ pairs → k = k') :
    ∃ h', run mmu text (loadsFrom rs pairs) h = some h' ∧
      (∀ r k, (r, k) ∈ pairs → h'.get r = load64 h.mem (slot k)) ∧
      (∀ r, r ∉ pairs.map Prod.fst → h'.get r = h.get r) ∧
      h'.csr = h.csr ∧ h'.mem = h.mem ∧ h'.jumped = h.jumped := by
  induction pairs generalizing h with
  | nil => exact ⟨h, rfl, by simp, by simp, rfl, rfl, rfl⟩
  | cons first pairs ih =>
      rw [List.map_cons, List.mem_cons, not_or] at notZero notPointer
      obtain ⟨g, loaded, csr, mem, jumped, value, others⟩ := run_ldAt first.1 first.2 points pointer
        mapped (inside first List.mem_cons_self) (Ne.symm notZero.1)
      rw [← csr] at points mapped
      obtain ⟨h', ran, regsEq, restEq, csr', mem', jumped'⟩ := ih points
        ((others rs notPointer.1).trans pointer) mapped
        (fun pair later => inside pair (List.mem_cons_of_mem _ later)) notZero.2 notPointer.2
        fun r k k' here there =>
          single r k k' (List.mem_cons_of_mem _ here) (List.mem_cons_of_mem _ there)
      refine ⟨h', ?_, ?_, ?_, csr'.trans csr, mem'.trans mem, jumped'.trans jumped⟩
      · rw [loadsFrom, List.map_cons, loaded, ← loadsFrom, ran]
      · intro r k here
        by_cases later : r ∈ pairs.map Prod.fst
        · obtain ⟨⟨_, k'⟩, inPairs, rfl⟩ := List.mem_map.mp later
          rw [regsEq _ _ inPairs, mem]
          rw [single _ _ _ here (List.mem_cons_of_mem _ inPairs)]
        · rcases List.mem_cons.mp here with rfl | inPairs
          · rw [restEq _ later, value]
          · exact absurd (List.mem_map_of_mem inPairs) later
      · intro r absent
        rw [List.map_cons, List.mem_cons, not_or] at absent
        rw [restEq r absent.2, others r absent.1]

theorem run_loads (points : Points mmu (h.csr .satp) va base slots) (pointer : h.get rs = va)
    (mapped : text.Mapped mmu (h.csr .satp)) (regs : List Reg) (inside : ∀ r ∈ regs, r.val < slots)
    (notZero : 0 ∉ regs) (notPointer : rs ∉ regs) :
    ∃ h', run mmu text (loads rs regs) h = some h' ∧
      (∀ r, h'.get r = if r ∈ regs then load64 h.mem (base + r.val * 8) else h.get r) ∧
      h'.csr = h.csr ∧ h'.mem = h.mem ∧ h'.jumped = h.jumped := by
  have same : loads rs regs = loadsFrom rs (regs.map fun r => (r, r.val)) := by
    rw [loads, loadsFrom, List.map_map]
    rfl
  have fsts : (regs.map fun r => (r, r.val)).map Prod.fst = regs := by
    rw [List.map_map]
    exact List.map_id regs
  have own : ∀ r k, (r, k) ∈ regs.map (fun r => (r, r.val)) → k = r.val := by
    intro r k mem
    obtain ⟨r', -, eq⟩ := List.mem_map.mp mem
    rw [Prod.mk.injEq] at eq
    rw [← eq.2, eq.1]
  obtain ⟨h', ran, regsEq, restEq, rest⟩ := run_loadsFrom points.pointsTo
    pointer mapped (regs.map fun r => (r, r.val)) (by simpa using inside) (by rwa [fsts])
    (by rwa [fsts]) fun r k k' here there => (own r k here).trans (own r k' there).symm
  refine ⟨h', by rw [same, ran], fun r => ?_, rest⟩
  split
  · next mem => exact regsEq r r.val (List.mem_map_of_mem mem)
  · next absent => exact restEq r (by rwa [fsts])

end Relative

end CoreFromDust.Lib.RiscV
