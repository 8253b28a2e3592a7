import CoreFromDust.Lib.RiscV

/-!
# Traps

Embedding of `os/src/trap/trap.S` and of the struct `TrapContext` of `os/src/trap/context.rs` as
it lies in memory.
-/

namespace CoreFromDust.Os

open CoreFromDust.Lib.RiscV

/-- The offsets of the fields of a `repr(C)` struct from their sizes and alignments, in the order of
the declaration. -/
def reprC : List (Nat × Nat) → Nat → List Nat
  | [], _ => []
  | (size, align) :: fields, offset =>
      let start := (offset + align - 1) / align * align
      start :: reprC fields (start + size)

/-- `TrapContext`; `Sstatus` is a struct of one `usize`. -/
structure TrapContext where
  x : Reg → UInt64
  sstatus : UInt64
  sepc : UInt64
  kernelSatp : UInt64
  kernelSp : UInt64
  trapHandler : UInt64

namespace TrapContext

/-- The size and alignment of the fields as `TrapContext` declares them. -/
def layout : List (Nat × Nat) := [(32 * 8, 8), (8, 8), (8, 8), (8, 8), (8, 8), (8, 8)]

/-- The offset of a field by its position in the declaration. -/
def offset (field : Nat) : Nat := (reprC layout 0).getD field 0

/-- `size_of::<TrapContext>()`. -/
def size : Nat := offset 5 + 8

/-- The `TrapContext` at an address of the physical memory. -/
def ofMemory (m : Nat → UInt8) (base : Nat) : TrapContext where
  x n := load64 m (base + offset 0 + n.val * 8)
  sstatus := load64 m (base + offset 1)
  sepc := load64 m (base + offset 2)
  kernelSatp := load64 m (base + offset 3)
  kernelSp := load64 m (base + offset 4)
  trapHandler := load64 m (base + offset 5)

end TrapContext

/-- The macro `SAVE_GP`. -/
def saveGp (n : Nat) : Instr := .sd (xreg n) (n * 8) sp

/-- The macro `LOAD_GP`. -/
def loadGp (n : Nat) : Instr := .ld (xreg n) (n * 8) sp

/-- `__alltraps`. -/
def alltraps : List Instr :=
  [.csrrw sp .sscratch sp,
    -- now sp->*TrapContext in user space, sscratch->user stack
    .sd x1 (1 * 8) sp,
    .sd x3 (3 * 8) sp] ++
  (List.range' 5 27).map saveGp ++
  [.csrr t0 .sstatus,
    .csrr t1 .sepc,
    .sd t0 (32 * 8) sp,
    .sd t1 (33 * 8) sp,
    -- read user stack from sscratch and save it in TrapContext
    .csrr t2 .sscratch,
    .sd t2 (2 * 8) sp,
    -- load kernel_satp into t0
    .ld t0 (34 * 8) sp,
    -- load trap_handler into t1
    .ld t1 (36 * 8) sp,
    -- move to kernel_sp
    .ld sp (35 * 8) sp,
    -- switch to kernel space
    .csrw .satp t0,
    .sfenceVma,
    .jr t1]

/-- `__restore` up to its `sret`. -/
def restoreContext : List Instr :=
  -- switch to user space
  [.csrw .satp a1,
    .sfenceVma,
    .csrw .sscratch a0,
    .mv sp a0,
    -- restore sstatus/sepc
    .ld t0 (32 * 8) sp,
    .ld t1 (33 * 8) sp,
    .csrw .sstatus t0,
    .csrw .sepc t1,
    .ld x1 (1 * 8) sp,
    .ld x3 (3 * 8) sp] ++
  (List.range' 5 27).map loadGp ++
  -- back to user stack
  [.ld sp (2 * 8) sp]

/-- `__restore`. -/
def restore : List Instr := restoreContext ++ [.sret]

end CoreFromDust.Os
