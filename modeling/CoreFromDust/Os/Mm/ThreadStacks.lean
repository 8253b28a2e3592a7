import CoreFromDust.Lib.Faults
import CoreFromDust.Os.Mm.Process
import CoreFromDust.Os.Mm.Proofs.ExecSpace

/-!
# Threads and their stacks

Embedding of what `TaskUserRes`, `KernelStack` and `TaskControlBlock` of `os/src/task/id.rs` and
`task.rs`, the functions of `process.rs` and `mod.rs` that create and end threads and processes,
and `sys_thread_create` and `sys_waittid` do to ids and address spaces. A process and its address
space go by the same name. A TCB is dropped at any time after `tasks` of its process has let go of
it, and a PCB at any time after it has become a zombie. What the kernel writes to pages of a
process is a store.
-/

namespace CoreFromDust.Os.Mm

open CoreFromDust.Lib

/-- The panic of the assertion `is mapped before mapping`, or another one. A step that cannot be
taken counts as another one. -/
inductive Panic where
  | mapped
  | other
  deriving DecidableEq

/-- Another panic where there is no value. -/
abbrev orPanic {α : Type} (x : Option α) : Except Panic α := orError .other x

/-! ## Areas -/

namespace MemorySet

/-- The assertion of `PageTable::map` fails for a page of the range. -/
def hitsMapped (set : MemorySet) (m : Memory) (startVa endVa : Nat) : Bool :=
  (List.range' (floor startVa) (ceil endVa - floor startVa)).any fun vpn =>
    (set.pageTable.lookup m vpn).isSome

/-- `MemorySet::insert_framed_area`, with the panic that it ends in. -/
def insertArea (set : MemorySet) (s : Phys) (startVa endVa : Nat) (permission : MapPermission) :
    Except Panic (Phys × MemorySet) :=
  if set.hitsMapped s.mem startVa endVa then .error .mapped
  else orPanic (set.insertFramedArea s startVa endVa permission)

/-- `TaskUserRes::alloc_user_res` on the address space of the process. -/
def insertUserRes (set : MemorySet) (s : Phys) (ustackBase tid : Nat) :
    Except Panic (Phys × MemorySet) :=
  (set.insertArea s (virtAddr (ustackBottomFromTid ustackBase tid))
    (virtAddr ((ustackBottomFromTid ustackBase tid + 8192) % 2 ^ 64))
    ⟨true, true, false, true⟩).bind fun (s, set) =>
      set.insertArea s (virtAddr (trapCxBottomFromTid tid))
        (virtAddr ((trapCxBottomFromTid tid + 4096) % 2 ^ 64)) ⟨true, true, false, false⟩

/-- `kstack_alloc` on `KERNEL_SPACE`. -/
def insertKstack (kernel : MemorySet) (s : Phys) (kstackId : Nat) :
    Except Panic (Phys × MemorySet) :=
  kernel.insertArea s (virtAddr (kernelStackPosition kstackId).1)
    (virtAddr (kernelStackPosition kstackId).2) ⟨true, true, false, false⟩

/-- `KernelStack::drop` on `KERNEL_SPACE`. -/
def removeKstack (kernel : MemorySet) (s : Phys) (kstackId : Nat) : Option (Phys × MemorySet) :=
  (pageAt (virtAddr (kernelStackPosition kstackId).1)).bind fun vpn =>
    kernel.removeAreaWithStartVpn s vpn

end MemorySet

/-! ## The state -/

/-- `TaskUserRes`. -/
structure TaskUserRes where
  tid : Nat
  ustackBase : Nat
  process : Nat
  deriving DecidableEq

/-- `TaskControlBlock`. The `TaskUserRes` of a thread goes by the name of the thread; `res` tells
whether the TCB holds it. -/
structure Tcb where
  process : Nat
  kstack : Nat
  res : Bool
  exitCode : Option Int

/-- The part of a PCB that is about its threads. -/
structure ThreadPcb where
  tasks : List (Option Nat)
  taskResAllocator : RecycleAllocator

/-- The machine with its processes and threads. `userRes` are the `TaskUserRes` values that exist,
in a TCB or in `recycle_res`; `recycling` is a process that is about to become a zombie, with the
names of what is in its `recycle_res`. -/
structure ThreadMachine where
  machine : Machine
  pcbs : Nat → Option ThreadPcb
  nextProc : Nat
  tcbs : Nat → Option Tcb
  userRes : Nat → Option TaskUserRes
  nextTcb : Nat
  kstackAllocator : RecycleAllocator
  recycling : Option (Nat × List Nat)

namespace ThreadMachine

/-- The machine after `mm::init`, without processes. -/
def boot (mem : Memory) (layout : KernelLayout) : Option ThreadMachine :=
  (Machine.boot mem layout).map fun machine =>
    ⟨machine, fun _ => none, 0, fun _ => none, fun _ => none, 0, .new, none⟩

/-- The `memory_set` of a process, or `KERNEL_SPACE`. -/
def memorySet (k : ThreadMachine) (id : SpaceId) : Option MemorySet :=
  (k.machine.spaces id).map Space.set

/-- The state with another `memory_set` of a process, or of the kernel. -/
def putSpace (k : ThreadMachine) (id : SpaceId) (phys : Phys) (set : MemorySet) : ThreadMachine :=
  { k with
    machine :=
    k.machine.put phys id ((k.machine.spaces id).map fun space => { space with set := set }) }

/-- The state with the address space of a new process. -/
def addSpace (k : ThreadMachine) (id : SpaceId) (phys : Phys) (set : MemorySet) : ThreadMachine :=
  { k with machine := k.machine.put phys id (some ⟨set, false⟩) }

/-- The state with another PCB. -/
def putPcb (k : ThreadMachine) (p : Nat) (pcb : Option ThreadPcb) : ThreadMachine :=
  { k with pcbs := Function.update k.pcbs p pcb }

/-- The state with another TCB. -/
def putTcb (k : ThreadMachine) (t : Nat) (tcb : Option Tcb) : ThreadMachine :=
  { k with tcbs := Function.update k.tcbs t tcb }

/-- The state with another `TaskUserRes`. -/
def putRes (k : ThreadMachine) (t : Nat) (res : Option TaskUserRes) : ThreadMachine :=
  { k with userRes := Function.update k.userRes t res }

/-! ## Kernel stacks -/

/-- `kstack_alloc`. -/
def kstackAlloc (k : ThreadMachine) : Except Panic (Nat × ThreadMachine) :=
  (orPanic (k.memorySet .kernel)).bind fun kernel =>
    (kernel.insertKstack k.machine.phys k.kstackAllocator.alloc.1).map fun (phys, kernel) =>
      (k.kstackAllocator.alloc.1,
        { k.putSpace .kernel phys kernel with kstackAllocator := k.kstackAllocator.alloc.2 })

/-- `KernelStack::drop`. -/
def dropKstack (k : ThreadMachine) (kstackId : Nat) : Option ThreadMachine :=
  (k.memorySet .kernel).bind fun kernel =>
    (kernel.removeKstack k.machine.phys kstackId).bind fun (phys, kernel) =>
      (k.kstackAllocator.dealloc kstackId).map fun allocator =>
        { k.putSpace .kernel phys kernel with kstackAllocator := allocator }

/-! ## The user resources of a thread -/

/-- `TaskUserRes::alloc_user_res`. -/
def allocUserRes (k : ThreadMachine) (res : TaskUserRes) : Except Panic ThreadMachine :=
  (orPanic (k.memorySet (.user res.process))).bind fun set =>
    (set.insertUserRes k.machine.phys res.ustackBase res.tid).map fun (phys, set) =>
      k.putSpace (.user res.process) phys set

/-- `TaskUserRes::new` for the thread that comes next. -/
def newUserRes (k : ThreadMachine) (process ustackBase : Nat) (allocUserRes : Bool) :
    Except Panic ThreadMachine :=
  (orPanic (k.pcbs process)).bind fun pcb =>
    let res := ⟨pcb.taskResAllocator.alloc.1, ustackBase, process⟩
    let k := k.putPcb process (some { pcb with taskResAllocator := pcb.taskResAllocator.alloc.2 })
    (if allocUserRes then k.allocUserRes res else .ok k).map fun k => k.putRes k.nextTcb (some res)

/-- `TaskUserRes::drop`: `dealloc_tid` and `dealloc_user_res`. -/
def dropUserRes (k : ThreadMachine) (t : Nat) : Option ThreadMachine :=
  (k.userRes t).bind fun res =>
    (k.pcbs res.process).bind fun pcb =>
      (pcb.taskResAllocator.dealloc res.tid).bind fun allocator =>
        (k.memorySet (.user res.process)).bind fun set =>
          (set.deallocUserRes k.machine.phys res.ustackBase res.tid).map fun (phys, set) =>
            ((k.putPcb res.process (some { pcb with taskResAllocator := allocator })).putSpace
              (.user res.process) phys set).putRes t none

/-! ## New threads -/

/-- The part of `TaskControlBlock::new` after `TaskUserRes::new`: `trap_cx_ppn`, and the kernel
stack. -/
def finishTask (k : ThreadMachine) (process : Nat) : Except Panic (Nat × ThreadMachine) :=
  (orPanic (k.userRes k.nextTcb)).bind fun res =>
    (orPanic (k.memorySet (.user process))).bind fun set =>
      (orPanic (set.trapCxPpn k.machine.phys.mem res.tid)).bind fun _ =>
        k.kstackAlloc.map fun (kstack, k) =>
          (k.nextTcb,
            { k.putTcb k.nextTcb (some ⟨process, kstack, true, none⟩) with nextTcb :=
              k.nextTcb + 1 })

/-- `TaskControlBlock::new`; the name of the thread is returned. -/
def newTask (k : ThreadMachine) (process ustackBase : Nat) (allocUserRes : Bool) :
    Except Panic (Nat × ThreadMachine) :=
  (k.newUserRes process ustackBase allocUserRes).bind fun k => k.finishTask process

/-- A PCB without threads and its address space. -/
def newPcb (k : ThreadMachine) (phys : Phys) (set : MemorySet) : ThreadMachine :=
  { (k.addSpace (.user k.nextProc) phys set).putPcb k.nextProc (some ⟨[], .new⟩) with
    nextProc := k.nextProc + 1 }

/-- Push the first thread of a process to its `tasks`. -/
def pushTask (k : ThreadMachine) (process t : Nat) : Option ThreadMachine :=
  (k.pcbs process).map fun pcb =>
    k.putPcb process (some { pcb with tasks := pcb.tasks ++ [some t] })

/-- `ProcessControlBlock::new`. -/
def newProcess (k : ThreadMachine) (layout : KernelLayout) (elf : Elf) :
    Except Panic ThreadMachine :=
  (orPanic (MemorySet.fromElf k.machine.phys layout.strampoline elf)).bind
    fun (phys, set, ustackBase, _) =>
      ((k.newPcb phys set).newTask k.nextProc ustackBase true).bind fun (t, last) =>
        orPanic (last.pushTask k.nextProc t)

/-- The TCB of a thread with its `TaskUserRes`, which the code unwraps. -/
def unwrapRes (k : ThreadMachine) (t : Nat) : Option (Tcb × TaskUserRes) :=
  (k.tcbs t).bind fun tcb => if tcb.res then (k.userRes t).map fun res => (tcb, res) else none

/-- `ProcessControlBlock::fork` of the process of a thread. -/
def fork (k : ThreadMachine) (layout : KernelLayout) (t : Nat) : Except Panic ThreadMachine :=
  (orPanic (k.unwrapRes t)).bind fun (tcb, _) =>
    (orPanic (k.pcbs tcb.process)).bind fun parent =>
      if parent.tasks.length = 1 then
        (orPanic (k.memorySet (.user tcb.process))).bind fun set =>
          (orPanic (MemorySet.fromExistedUser k.machine.phys layout.strampoline set)).bind
            fun (phys, copy) =>
              (orPanic (parent.tasks[0]?.join.bind k.unwrapRes)).bind fun (_, res) =>
                ((k.newPcb phys copy).newTask k.nextProc res.ustackBase false).bind fun (t, last) =>
                  orPanic (last.pushTask k.nextProc t)
      else .error .other

/-- `ProcessControlBlock::exec` of the process of a thread, without the arguments. -/
def exec (k : ThreadMachine) (layout : KernelLayout) (t : Nat) (elf : Elf) :
    Except Panic ThreadMachine :=
  (orPanic (k.unwrapRes t)).bind fun (tcb, _) =>
    (orPanic (k.pcbs tcb.process)).bind fun pcb =>
      if pcb.tasks.length = 1 then
        (orPanic (k.memorySet (.user tcb.process))).bind fun old =>
          (orPanic (MemorySet.fromElf k.machine.phys layout.strampoline elf)).bind
            fun (built, set, ustackBase, _) =>
              (orPanic (old.drop built)).bind fun phys =>
                (orPanic pcb.tasks[0]?.join).bind fun main =>
                  (orPanic (k.unwrapRes main)).bind fun (_, res) =>
                    (((k.putSpace (.user tcb.process) phys set).putRes main
                      (some { res with ustackBase := ustackBase })).allocUserRes
                        { res with ustackBase := ustackBase }).bind fun k =>
                      (orPanic (k.memorySet (.user res.process))).bind fun set =>
                        (orPanic (set.trapCxPpn k.machine.phys.mem res.tid)).map fun _ => k
      else .error .other

/-- `sys_thread_create` of a thread. -/
def sysThreadCreate (k : ThreadMachine) (t : Nat) : Except Panic ThreadMachine :=
  (orPanic (k.unwrapRes t)).bind fun (tcb, res) =>
    (k.newTask tcb.process res.ustackBase true).bind fun (new, k) =>
      (orPanic (k.unwrapRes new)).bind fun (_, newRes) =>
        (orPanic (k.pcbs tcb.process)).map fun pcb =>
          k.putPcb tcb.process (some { pcb with
            tasks := (pcb.tasks ++ List.replicate (newRes.tid + 1 - pcb.tasks.length) none).set
              newRes.tid (some new) })

/-! ## The end of threads -/

/-- The loop of `exit_current_and_run_next` over `tasks` that takes `res` of each thread: the names
of what is pushed to `recycle_res`. -/
def takeUserRes (k : ThreadMachine) : List Nat → Option (List Nat × ThreadMachine)
  | [] => some ([], k)
  | t :: rest =>
      (k.tcbs t).bind fun tcb =>
        ((k.putTcb t (some { tcb with res := false })).takeUserRes rest).map fun (recycleRes, k) =>
          ((if tcb.res then [t] else []) ++ recycleRes, k)

/-- `exit_current_and_run_next` of a thread, up to the drop of `recycle_res` when it is the main
thread of its process. -/
def exitCurrent (k : ThreadMachine) (t : Nat) (exitCode : Int) : Option ThreadMachine :=
  (k.unwrapRes t).bind fun (tcb, res) =>
    ((k.putTcb t (some { tcb with res := false, exitCode := some exitCode })).dropUserRes t).bind
      fun k =>
        if res.tid = 0 then
          (k.pcbs tcb.process).bind fun pcb =>
            (k.takeUserRes pcb.tasks.reduceOption).map fun (recycleRes, k) =>
              { k with recycling := some (tcb.process, recycleRes) }
        else some k

/-- The end of `exit_current_and_run_next`: `recycle_res` is dropped, one by one, and then the pages
of the process; all threads but the main thread are removed from `tasks`. -/
def recycle (k : ThreadMachine) : Option ThreadMachine :=
  k.recycling.bind fun
    | (process, t :: rest) =>
        (k.dropUserRes t).map fun k => { k with recycling := some (process, rest) }
    | (process, []) =>
        (k.pcbs process).bind fun pcb =>
          (k.memorySet (.user process)).bind fun set =>
            (set.recycleDataPages k.machine.phys).map fun (phys, set) =>
              { k.putPcb process (some { pcb with tasks := pcb.tasks.take 1 }) with
                machine := k.machine.put phys (.user process) (some ⟨set, true⟩)
                recycling := none }

/-- `sys_waittid` of a thread, without its result. -/
def sysWaittid (k : ThreadMachine) (t tid : Nat) : Option ThreadMachine :=
  (k.unwrapRes t).bind fun (tcb, res) =>
    (k.pcbs tcb.process).bind fun pcb =>
      if res.tid = tid then some k
      else
        pcb.tasks[tid]?.bind fun
          | none => some k
          | some waited =>
              (k.tcbs waited).map fun waitedTcb =>
                if waitedTcb.exitCode.isSome then
                  k.putPcb tcb.process (some { pcb with tasks := pcb.tasks.set tid none })
                else k

/-- The drop of a `TaskControlBlock` that its process no longer holds. -/
def dropTcb (k : ThreadMachine) (t : Nat) : Option ThreadMachine :=
  (k.tcbs t).bind fun tcb =>
    if (k.pcbs tcb.process).any fun pcb => some t ∈ pcb.tasks then none
    else
      (k.dropKstack tcb.kstack).bind fun k =>
        let k := k.putTcb t none
        if tcb.res then k.dropUserRes t else some k

/-- The drop of the PCB of a zombie. -/
def dropPcb (k : ThreadMachine) (process : Nat) : Option ThreadMachine :=
  (k.machine.spaces (.user process)).bind fun space =>
    if space.zombie then
      (space.set.drop k.machine.phys).map fun phys =>
        { k.putPcb process none with machine := k.machine.put phys (.user process) none }
    else none

end ThreadMachine

/-! ## Runs -/

/-- What happens to threads and processes. -/
inductive ThreadEvent where
  | new (elf : Elf)
  | fork (t : Nat)
  | exec (t : Nat) (elf : Elf)
  | threadCreate (t : Nat)
  | exit (t : Nat) (exitCode : Int)
  /-- the thread that exits goes on -/
  | recycle
  | waittid (t tid : Nat)
  | dropTcb (t : Nat)
  | dropPcb (process : Nat)
  /-- a program writes to its memory, or the kernel to that of a process or to its stacks -/
  | store (id : SpaceId) (vpn offset : Nat) (byte : UInt8)

/-- Every segment ends at least one page below `ustack_base`, which lies below `2 ^ 37`. -/
def Elf.StackAbove (elf : Elf) : Prop :=
  (∀ ph ∈ elf.segments, ph.endVpn * 4096 + 4096 ≤ elf.ustackBase) ∧ elf.ustackBase < 2 ^ 37

instance (elf : Elf) : Decidable elf.StackAbove := inferInstanceAs (Decidable (_ ∧ _))

namespace ThreadMachine

/-- One step. A process that is about to become a zombie goes on before anything else happens. -/
def step (layout : KernelLayout) (k : ThreadMachine) (event : ThreadEvent) :
    Except Panic ThreadMachine :=
  if k.recycling.isSome then
    match event with
    | .recycle => orPanic k.recycle
    | _ => .error .other
  else
    match event with
    | .new elf => k.newProcess layout elf
    | .fork t => k.fork layout t
    | .exec t elf => k.exec layout t elf
    | .threadCreate t => k.sysThreadCreate t
    | .exit t exitCode => orPanic (k.exitCurrent t exitCode)
    | .recycle => .error .other
    | .waittid t tid => orPanic (k.sysWaittid t tid)
    | .dropTcb t => orPanic (k.dropTcb t)
    | .dropPcb process => orPanic (k.dropPcb process)
    | .store id vpn offset byte =>
        (orPanic (k.machine.step layout (.store id vpn offset byte))).map fun machine =>
          { k with machine := machine }

/-- The ids that the event takes are below `2 ^ 20`, and a program leaves room for its stacks. -/
def Fits (k : ThreadMachine) : ThreadEvent → Prop
  | .new elf => k.kstackAllocator.alloc.1 < 2 ^ 20 ∧ elf.StackAbove
  | .fork _ => k.kstackAllocator.alloc.1 < 2 ^ 20
  | .exec _ elf => elf.StackAbove
  | .threadCreate t => k.kstackAllocator.alloc.1 < 2 ^ 20 ∧
      ∀ pcb ∈ (k.tcbs t).bind fun tcb => k.pcbs tcb.process, pcb.taskResAllocator.alloc.1 < 2 ^ 20
  | _ => True

instance (k : ThreadMachine) : (event : ThreadEvent) → Decidable (k.Fits event)
  | .new _ => inferInstanceAs (Decidable (_ ∧ _))
  | .fork _ => inferInstanceAs (Decidable (_ < _))
  | .exec _ elf => inferInstanceAs (Decidable elf.StackAbove)
  | .threadCreate _ => inferInstanceAs (Decidable (_ ∧ _))
  | .exit _ _ | .recycle | .waittid _ _ | .dropTcb _ | .dropPcb _ | .store _ _ _ _ =>
      inferInstanceAs (Decidable True)

/-- A run in which every event fits. -/
def run (layout : KernelLayout) (k : ThreadMachine) : List ThreadEvent → Except Panic ThreadMachine
  | [] => .ok k
  | event :: events =>
      if k.Fits event then (k.step layout event).bind fun k => k.run layout events
      else .error .other

end ThreadMachine

end CoreFromDust.Os.Mm
