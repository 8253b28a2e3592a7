import CoreFromDust.Os.Trap

/-!
# Switches

Embedding of `os/src/task/switch.S` and of the struct `TaskContext` of `os/src/task/context.rs` as
it lies in memory, and what a call of `__switch` does: it stores the registers that a function call
keeps to one context and loads them from another one.
-/

namespace CoreFromDust.Os

open CoreFromDust.Lib.RiscV

/-- The register `s` with a number. -/
def sreg (n : Nat) : Reg := xreg (if n < 2 then 8 + n else 16 + n)

/-- `TaskContext`. -/
structure TaskContext where
  ra : UInt64
  sp : UInt64
  s : Fin 12 → UInt64

namespace TaskContext

/-- The size and alignment of the fields as `TaskContext` declares them. -/
def layout : List (Nat × Nat) := [(8, 8), (8, 8), (12 * 8, 8)]

/-- The offset of a field by its position in the declaration. -/
def offset (field : Nat) : Nat := (reprC layout 0).getD field 0

/-- The number of doublewords of a `TaskContext`. -/
def size : Nat := (offset 2 + 12 * 8) / 8

/-- The `TaskContext` whose doublewords are at the given addresses of the physical memory. -/
def ofMemory (m : Nat → UInt8) (slot : Nat → Nat) : TaskContext where
  ra := load64 m (slot (offset 0 / 8))
  sp := load64 m (slot (offset 1 / 8))
  s n := load64 m (slot (offset 2 / 8 + n))

/-- `TaskContext::goto_trap_return`. -/
def gotoTrapReturn (trapReturn kstackPtr : UInt64) : TaskContext :=
  ⟨trapReturn, kstackPtr, fun _ => 0⟩

/-- The registers of a hart that a `TaskContext` is for. -/
def ofHart (h : Hart) : TaskContext := ⟨h.get x1, h.get Lib.RiscV.sp, fun n => h.get (sreg n)⟩

end TaskContext

/-- The macro `SAVE_SN`. -/
def saveSn (n : Nat) : Instr := .sd (sreg n) ((n + 2) * 8) a0

/-- The macro `LOAD_SN`. -/
def loadSn (n : Nat) : Instr := .ld (sreg n) ((n + 2) * 8) a1

/-- `__switch`. -/
def switch : List Instr :=
  -- save kernel stack of current task
  [.sd sp 8 a0,
    -- save ra & s0~s11 of current execution
    .sd x1 0 a0] ++
  (List.range 12).map saveSn ++
  -- restore ra & s0~s11 of next execution
  [.ld x1 0 a1] ++
  (List.range 12).map loadSn ++
  -- restore kernel stack of next task
  [.ld sp 8 a1,
    .jr x1]

/-! ## One switch -/

/-- The doublewords of a context do not overlap. -/
def Separate (slot : Nat → Nat) : Prop :=
  ∀ j k, j < TaskContext.size → k < TaskContext.size → j ≠ k → Apart (slot j) (slot k)

/-- Two contexts do not overlap. -/
def ContextsApart (slot slot' : Nat → Nat) : Prop :=
  ∀ j k, j < TaskContext.size → k < TaskContext.size → Apart (slot j) (slot' k)

theorem ContextsApart.symm {slot slot' : Nat → Nat} (apart : ContextsApart slot slot') :
    ContextsApart slot' slot := fun j k hj hk => (apart k j hk hj).symm

section Switch

variable {mmu : Mmu} {text : Text} {h : Hart} {slot slot' : Nat → Nat} {m : Nat → UInt8}

/-- The doublewords of a context: the numbers by which the assembly code counts them. -/
theorem TaskContext.ofMemory_eq (m : Nat → UInt8) (slot : Nat → Nat) : ofMemory m slot =
    ⟨load64 m (slot 0), load64 m (slot 1), fun n => load64 m (slot (n.val + 2))⟩ := by
  have s : ∀ n : Fin 12, offset 2 / 8 + n.val = n.val + 2 := fun n => Nat.add_comm 2 n.val
  simp only [ofMemory, s]
  rfl

end Switch

/-! ## The call -/

/-- A pointer to a `TaskContext` in an address space: its doublewords are in the memory and do not
overlap. -/
structure TaskCxPtr (mmu : Mmu) (satp : UInt64) where
  address : UInt64
  slot : Nat → Nat
  points : PointsTo mmu satp address slot TaskContext.size
  separate : Separate slot

/-- The call `__switch(current_task_cx_ptr, next_task_cx_ptr)`. -/
def callSwitch (mmu : Mmu) (text : Text) (currentTaskCxPtr nextTaskCxPtr : UInt64) (h : Hart) :
    Option Hart :=
  run mmu text switch (h.withArgs currentTaskCxPtr nextTaskCxPtr)

section Call

variable {mmu : Mmu} {satp : UInt64} {text : Text} {h : Hart}

end Call

end CoreFromDust.Os
