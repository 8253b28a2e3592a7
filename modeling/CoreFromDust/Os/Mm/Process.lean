import CoreFromDust.Os.State
import CoreFromDust.Os.Mm.Spaces
import CoreFromDust.Os.Mm.UserRes

/-!
# Processes and their memory

Embedding of what `ProcessControlBlock::new`, `exec` and `fork` of `os/src/task/process.rs` and
`sys_fork` do to memory, for processes with one thread. A process and its address space go by the
same name. The type of the files is a parameter. `none` is a panic.
-/

namespace CoreFromDust.Os.Mm

/-! ## Trap contexts -/

/-- `TrapContext`, a `repr(C)` struct of words. -/
structure TrapContext where
  x : Vector Nat 32
  sstatus : Nat
  sepc : Nat
  kernelSatp : Nat
  kernelSp : Nat
  trapHandler : Nat
  deriving DecidableEq, Repr

namespace TrapContext

/-- The words of a trap context in the order of its fields. -/
def words (cx : TrapContext) : List Nat :=
  cx.x.toList ++ [cx.sstatus, cx.sepc, cx.kernelSatp, cx.kernelSp, cx.trapHandler]

/-- `TrapContext::app_init_context`; `sstatus` is the register with `SPP` set to `User`. -/
def appInitContext (sstatus entry sp kernelSatp kernelSp trapHandler : Nat) : TrapContext :=
  ⟨(Vector.replicate 32 0).set 2 sp, sstatus, entry, kernelSatp, kernelSp, trapHandler⟩

/-- The index of `x[10]` among the words. -/
def a0Index : Nat := 10

/-- The index of `kernel_sp` among the words. -/
def kernelSpIndex : Nat := 35

end TrapContext

/-- Overwrite words of a frame from an index on. -/
def Memory.setWords (m : Memory) (ppn index : Nat) : List Nat → Memory
  | [] => m
  | word :: words => (m.setWord ppn index word).setWords ppn (index + 1) words

/-! ## References to user memory -/

/-- `PageTable::translate_va`. -/
def PageTable.translateVa (t : PageTable) (m : Memory) (va : Nat) : Option Nat :=
  (t.translate m (floor va)).map fun pte => physAddr (pte.ppn * 4096 + pageOffset va)

/-- `PhysAddr::get_mut` and `PhysAddr::get_ref`, which panic at the null pointer. -/
def getMut (pa : Nat) : Option Nat := if pa = 0 then none else some pa

/-- `translated_refmut`: the physical address of the reference. -/
def translatedRefmut (m : Memory) (token ptr : Nat) : Option Nat :=
  ((PageTable.fromToken token).translateVa m (virtAddr ptr)).bind getMut

theorem translatedRefmut_eq_some_iff {m : Memory} {token ptr pa : Nat} :
    translatedRefmut m token ptr = some pa ↔ pa ≠ 0 ∧
      ∃ pte, (PageTable.fromToken token).translate m (floor (virtAddr ptr)) = some pte ∧
        pte.ppn * 4096 + pageOffset (virtAddr ptr) = pa := by
  rw [translatedRefmut, PageTable.translateVa, Option.bind_eq_some_iff]
  constructor
  · rintro ⟨address, isAddress, isRef⟩
    obtain ⟨pte, found, rfl⟩ := Option.map_eq_some_iff.mp isAddress
    have small := pte.ppn_lt
    rw [getMut] at isRef
    split at isRef
    · exact absurd isRef (by simp)
    · next nonzero =>
      have isPa : physAddr (pte.ppn * 4096 + pageOffset (virtAddr ptr)) = pa :=
        Option.some.inj isRef
      have whole : pte.ppn * 4096 + pageOffset (virtAddr ptr) = pa := by
        rw [← isPa, physAddr, pageOffset]
        omega
      exact ⟨by omega, pte, found, whole⟩
  · rintro ⟨nonzero, pte, found, whole⟩
    have small := pte.ppn_lt
    have isPa : physAddr (pte.ppn * 4096 + pageOffset (virtAddr ptr)) = pa := by
      rw [← whole, physAddr, pageOffset]
      omega
    exact ⟨pa, by rw [found, Option.map_some, isPa], by rw [getMut, if_neg nonzero]⟩

/-- Write bytes through a reference. -/
def Memory.writeAt (m : Memory) (pa : Nat) (data : List UInt8) : Memory :=
  m.writeBytes (floor pa) (pageOffset pa) data

/-- The bytes of a `usize`. -/
def usizeBytes (value : Nat) : List UInt8 := (List.range 8).map (Lib.leByte value)

/-- The loop of `exec` over the bytes of an argument, with the byte 0 after them. -/
def pushBytes (m : Memory) (token p : Nat) : List UInt8 → Option Memory
  | [] => some m
  | c :: rest =>
      (translatedRefmut m token p).bind fun pa =>
        pushBytes (m.writeAt pa [c]) token ((p + 1) % 2 ^ 64) rest

/-- The loop of `exec` over the arguments, each with its slot in `argv`. -/
def pushArgs (m : Memory) (token userSp : Nat) : List (Nat × List UInt8) → Option (Memory × Nat)
  | [] => some (m, userSp)
  | (slot, arg) :: rest =>
      let userSp := wrappingSub userSp (arg.length + 1)
      (pushBytes (m.writeAt slot (usizeBytes userSp)) token userSp (arg ++ [0])).bind fun m =>
        pushArgs m token userSp rest

/-- The slots of `argv`: a reference for each argument and one for the null pointer. -/
def argvSlots (m : Memory) (token argvBase count : Nat) : Option (List Nat) :=
  (List.range (count + 1)).mapM fun arg => translatedRefmut m token ((argvBase + arg * 8) % 2 ^ 64)

/-- What `exec` pushes on the user stack: the memory, `user_sp` and `argv_base`. -/
def pushArgv (m : Memory) (token ustackTop : Nat) (args : List (List UInt8)) :
    Option (Memory × Nat × Nat) :=
  let argvBase := wrappingSub ustackTop ((args.length + 1) * 8)
  (argvSlots m token argvBase args.length).bind fun slots =>
    slots[args.length]?.bind fun last =>
      (pushArgs (m.writeAt last (usizeBytes 0)) token argvBase (slots.zip args)).map
        fun (m, userSp) =>
        (m, userSp - userSp % 8, argvBase)

/-! ## Processes -/

/-- A process with one thread: its pid, its files, and `ustack_base`, `trap_cx_ppn` and `kstack` of
the thread. -/
structure Pcb (File : Type) where
  pid : Nat
  fdTable : List (Option File)
  ustackBase : Nat
  trapCxPpn : Nat
  kstack : Nat

/-- The machine with its processes; `next` is the name of the next one. -/
structure Processes (File : Type) where
  machine : Machine
  pcbs : Nat → Option (Pcb File)
  next : Nat
  pidAllocator : RecycleAllocator
  kstackAllocator : RecycleAllocator

/-- The `tid` of the first thread of a process. -/
def mainTid : Nat := RecycleAllocator.new.alloc.1

/-- `TaskUserRes::ustack_top` of the first thread. -/
def ustackTop (ustackBase : Nat) : Nat := (ustackBottomFromTid ustackBase mainTid + 8192) % 2 ^ 64

/-- `TaskUserRes::trap_cx_ppn`. -/
def MemorySet.trapCxPpn (set : MemorySet) (m : Memory) (tid : Nat) : Option Nat :=
  (pageAt (virtAddr (trapCxBottomFromTid tid))).bind fun vpn =>
    (set.translate m vpn).map PageTableEntry.ppn

/-- The machine with other contents of memory. -/
def Machine.withMem (k : Machine) (mem : Memory) : Machine :=
  { k with phys := { k.phys with mem := mem } }

/-- The loop of `fork` over the `fd_table`. -/
def copyFdTable {File : Type} : List (Option File) → List (Option File)
  | [] => []
  | some file :: rest => some file :: copyFdTable rest
  | none :: rest => none :: copyFdTable rest

namespace Processes

variable {File : Type}

/-- The machine after `mm::init`, without processes. -/
def boot (mem : Memory) (layout : KernelLayout) : Option (Processes File) :=
  (Machine.boot mem layout).map fun machine => ⟨machine, fun _ => none, 0, .new, .new⟩

/-- `kstack_alloc`. -/
def kstackAlloc (k : Processes File) : Option (Nat × Processes File) :=
  (k.machine.live .kernel).bind fun kernel =>
    (kernel.insertKernelStack k.machine.phys k.kstackAllocator.alloc.1).map fun (phys, kernel) =>
      (k.kstackAllocator.alloc.1,
        { k with
          machine := k.machine.put phys .kernel (some ⟨kernel, false⟩)
          kstackAllocator := k.kstackAllocator.alloc.2 })

/-- `TaskControlBlock::new` for the first thread of a process: `trap_cx_ppn` and the kernel
stack. -/
def newTask (k : Processes File) (id ustackBase : Nat) (allocUserRes : Bool) :
    Option (Nat × Nat × Processes File) :=
  (k.machine.live (.user id)).bind fun set =>
    (if allocUserRes then set.allocUserRes k.machine.phys ustackBase mainTid
      else some (k.machine.phys, set)).bind fun (phys, set) =>
      (set.trapCxPpn phys.mem mainTid).bind fun ppn =>
        (kstackAlloc { k with machine := k.machine.put phys (.user id) (some ⟨set, false⟩) }).map
          fun (kstack, k) => (ppn, kstack, k)

/-- `kernel_token`. -/
def kernelToken (k : Processes File) : Nat :=
  ((k.machine.live .kernel).map fun kernel => kernel.pageTable.token).getD 0

/-- `ProcessControlBlock::new`, with the files that it opens. -/
def new (k : Processes File) (layout : KernelLayout) (elf : Elf) (files : List (Option File))
    (sstatus trapHandler : Nat) : Option (Processes File) :=
  (MemorySet.fromElf k.machine.phys layout.strampoline elf).bind
    fun (phys, set, ustackBase, entryPoint) =>
      (newTask { k with
          machine := k.machine.put phys (.user k.next) (some ⟨set, false⟩)
          next := k.next + 1
          pidAllocator := k.pidAllocator.alloc.2 } k.next ustackBase true).map
        fun (trapCxPpn, kstack, new) =>
          let cx :=
            TrapContext.appInitContext sstatus entryPoint (ustackTop ustackBase) new.kernelToken
            (kernelStackPosition kstack).2 trapHandler
          { new with
            machine := new.machine.withMem (new.machine.phys.mem.setWords trapCxPpn 0 cx.words)
            pcbs := Function.update new.pcbs k.next
              (some ⟨k.pidAllocator.alloc.1, files, ustackBase, trapCxPpn, kstack⟩) }

/-- `ProcessControlBlock::exec`; the old address space is dropped when the new one is there. -/
def exec (k : Processes File) (layout : KernelLayout) (id : Nat) (elf : Elf)
    (args : List (List UInt8)) (sstatus trapHandler : Nat) : Option (Processes File) :=
  (k.pcbs id).bind fun pcb =>
    (k.machine.live (.user id)).bind fun old =>
      (MemorySet.fromElf k.machine.phys layout.strampoline elf).bind
        fun (phys, set, ustackBase, entryPoint) =>
          (old.drop phys).bind fun phys =>
            (set.allocUserRes phys ustackBase mainTid).bind fun (phys, set) =>
              (set.trapCxPpn phys.mem mainTid).bind fun trapCxPpn =>
                (pushArgv phys.mem set.pageTable.token (ustackTop ustackBase) args).map
                  fun (mem, userSp, argvBase) =>
                    let cx := TrapContext.appInitContext sstatus entryPoint userSp k.kernelToken
                      (kernelStackPosition pcb.kstack).2 trapHandler
                    let cx := { cx with x := (cx.x.set 10 args.length).set 11 argvBase }
                    { k with
                      machine :=
                      k.machine.put { phys with mem := mem.setWords trapCxPpn 0 cx.words }
                        (.user id) (some ⟨set, false⟩)
                      pcbs := Function.update k.pcbs id
                        (some { pcb with ustackBase := ustackBase, trapCxPpn := trapCxPpn }) }

/-- The part of `exec` before the arguments: the address space with the stack and the trap context
of the main thread, `ustack_base` and the entry point. -/
def execSpace (k : Processes File) (layout : KernelLayout) (id : Nat)
    (elf : Elf) : Option (Phys × MemorySet × Nat × Nat) :=
  (k.pcbs id).bind fun _ =>
    (k.machine.live (.user id)).bind fun old =>
      (MemorySet.fromElf k.machine.phys layout.strampoline elf).bind
        fun (phys, set, ustackBase, entryPoint) =>
          (old.drop phys).bind fun phys =>
            (set.allocUserRes phys ustackBase mainTid).map fun (phys, set) =>
              (phys, set, ustackBase, entryPoint)

/-- `ProcessControlBlock::fork`; the child is `k.next`. -/
def fork (k : Processes File) (layout : KernelLayout) (id : Nat) : Option (Processes File) :=
  (k.pcbs id).bind fun parent =>
    (k.machine.live (.user id)).bind fun set =>
      (MemorySet.fromExistedUser k.machine.phys layout.strampoline set).bind fun (phys, copy) =>
        (newTask { k with
            machine := k.machine.put phys (.user k.next) (some ⟨copy, false⟩)
            next := k.next + 1
            pidAllocator := k.pidAllocator.alloc.2 } k.next parent.ustackBase false).map
          fun (trapCxPpn, kstack, new) =>
            { new with
              machine := new.machine.withMem (new.machine.phys.mem.setWord trapCxPpn
                TrapContext.kernelSpIndex (kernelStackPosition kstack).2)
              pcbs := Function.update new.pcbs k.next (some ⟨k.pidAllocator.alloc.1,
                copyFdTable parent.fdTable, parent.ustackBase, trapCxPpn, kstack⟩) }

/-- `sys_fork` in the process `id`: its result and the state. -/
def sysFork (k : Processes File) (layout : KernelLayout) (id : Nat) :
    Option (Nat × Processes File) :=
  (k.fork layout id).bind fun new =>
    (new.pcbs k.next).map fun child =>
      (child.pid, { new with machine := new.machine.withMem (new.machine.phys.mem.setWord
        child.trapCxPpn TrapContext.a0Index 0) })

end Processes

/-- What the processes do. -/
inductive ProcessEvent (File : Type) where
  | new (elf : Elf) (files : List (Option File)) (sstatus trapHandler : Nat)
  | exec (id : Nat) (elf : Elf) (args : List (List UInt8)) (sstatus trapHandler : Nat)
  | fork (id : Nat)
  /-- the program writes to its memory, or the kernel to that of the process -/
  | store (id vpn offset : Nat) (byte : UInt8)
  /-- the process opens, closes or duplicates files -/
  | files (id : Nat) (fdTable : List (Option File))

namespace Processes

variable {File : Type}

/-- One step; `none` is a panic or a step that cannot be taken. -/
def step (layout : KernelLayout) (k : Processes File) : ProcessEvent File → Option (Processes File)
  | .new elf files sstatus trapHandler => k.new layout elf files sstatus trapHandler
  | .exec id elf args sstatus trapHandler => k.exec layout id elf args sstatus trapHandler
  | .fork id => (k.sysFork layout id).map Prod.snd
  | .store id vpn offset byte =>
      (k.machine.step layout (.store (.user id) vpn offset byte)).map fun machine =>
        { k with machine := machine }
  | .files id fdTable =>
      (k.pcbs id).map fun pcb =>
        { k with pcbs := Function.update k.pcbs id (some { pcb with fdTable := fdTable }) }

/-- The processes after a list of events. -/
def steps (layout : KernelLayout) (k : Processes File) :
    List (ProcessEvent File) → Option (Processes File)
  | [] => some k
  | event :: events => (k.step layout event).bind fun k => k.steps layout events

end Processes

end CoreFromDust.Os.Mm
