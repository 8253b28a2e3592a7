import CoreFromDust.Os.Mm.MemorySet

/-!
# Stacks and trap contexts

Embedding of the address arithmetic of `os/src/task/id.rs`, which wraps, and of
`TaskUserRes::alloc_user_res` and `kstack_alloc` on the address spaces they insert areas into.
-/

namespace CoreFromDust.Os.Mm

/-- Subtraction of `usize` values in a release build. -/
def wrappingSub (a b : Nat) : Nat := (a + 2 ^ 64 - b % 2 ^ 64) % 2 ^ 64

/-- `TRAP_CONTEXT_BASE`. -/
def trapContextBase : Nat := trampoline - 4096

/-- `trap_cx_bottom_from_tid`. -/
def trapCxBottomFromTid (tid : Nat) : Nat := wrappingSub trapContextBase (tid * 4096)

/-- `ustack_bottom_from_tid`. -/
def ustackBottomFromTid (ustackBase tid : Nat) : Nat := (ustackBase + tid * (4096 + 8192)) % 2 ^ 64

/-- `kernel_stack_position`: the bottom and the top of a kernel stack. -/
def kernelStackPosition (kstackId : Nat) : Nat × Nat :=
  (wrappingSub (wrappingSub trampoline (kstackId * (8192 + 4096))) 8192,
    wrappingSub trampoline (kstackId * (8192 + 4096)))

/-- `TaskUserRes::alloc_user_res` for a thread of the process with this address space. -/
def MemorySet.allocUserRes (set : MemorySet) (s : Phys) (ustackBase tid : Nat) :
    Option (Phys × MemorySet) :=
  (set.insertFramedArea s (virtAddr (ustackBottomFromTid ustackBase tid))
    (virtAddr ((ustackBottomFromTid ustackBase tid + 8192) % 2 ^ 64))
    ⟨true, true, false, true⟩).bind fun (s, set) =>
      set.insertFramedArea s (virtAddr (trapCxBottomFromTid tid))
        (virtAddr ((trapCxBottomFromTid tid + 4096) % 2 ^ 64)) ⟨true, true, false, false⟩

/-- `TaskUserRes::dealloc_user_res`. -/
def MemorySet.deallocUserRes (set : MemorySet) (s : Phys) (ustackBase tid : Nat) :
    Option (Phys × MemorySet) :=
  (pageAt (virtAddr (ustackBottomFromTid ustackBase tid))).bind fun vpn =>
    (set.removeAreaWithStartVpn s vpn).bind fun (s, set) =>
      (pageAt (virtAddr (trapCxBottomFromTid tid))).bind fun vpn => set.removeAreaWithStartVpn s vpn

/-- The area that `kstack_alloc` inserts into `KERNEL_SPACE` for a kernel stack. -/
def MemorySet.insertKernelStack (kernel : MemorySet) (s : Phys) (kstackId : Nat) :
    Option (Phys × MemorySet) :=
  kernel.insertFramedArea s (virtAddr (kernelStackPosition kstackId).1)
    (virtAddr (kernelStackPosition kstackId).2) ⟨true, true, false, false⟩

end CoreFromDust.Os.Mm
