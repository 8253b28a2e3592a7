import Mathlib.Data.List.Basic
import Mathlib.Logic.Function.Basic

/-!
# The state of the kernel

The data of `os/src/task`, `os/src/sync` and `os/src/timer.rs` that scheduling, synchronization
and process management work on. An `Arc<TaskControlBlock>` or `Arc<ProcessControlBlock>` is an
address; the memory from `nextTask` and `nextProc` on is not allocated. Mutexes, semaphores and
condition variables live in the lists of their process, which never lose an entry. Address
spaces, kernel stacks and open files are not part of this state.
-/

namespace CoreFromDust.Os

/-- The address of a `TaskControlBlock`. -/
abbrev TaskId := Nat

/-- The address of a `ProcessControlBlock`. -/
abbrev ProcId := Nat

/-- `RecycleAllocator`; the id that was pushed last comes first in `recycled`. -/
structure RecycleAllocator where
  current : Nat
  recycled : List Nat
  deriving DecidableEq, Repr

namespace RecycleAllocator

/-- `RecycleAllocator::new`. -/
def new : RecycleAllocator := ⟨0, []⟩

/-- `RecycleAllocator::alloc`. -/
def alloc (a : RecycleAllocator) : Nat × RecycleAllocator :=
  match a.recycled with
  | id :: rest => (id, { a with recycled := rest })
  | [] => (a.current, { a with current := a.current + 1 })

/-- `RecycleAllocator::dealloc`, which asserts that the id is in use. -/
def dealloc (a : RecycleAllocator) (id : Nat) : Option RecycleAllocator :=
  if id < a.current ∧ id ∉ a.recycled then some { a with recycled := id :: a.recycled } else none

end RecycleAllocator

/-- `TaskStatus`. -/
inductive TaskStatus where
  | ready
  | running
  | blocked
  deriving DecidableEq, Repr

/-- What the kernel code of a thread goes on with after a switch to it. -/
inductive Resume where
  /-- `trap_return`, at which a new thread starts -/
  | trapReturn
  /-- the end of `trap_handler`, to which the system call or interrupt returns -/
  | trapEnd
  /-- `Mutex::lock` on a mutex of the process -/
  | lock (mutexId : Nat)
  /-- the loop of `Pipe::read`, `Pipe::write` or `Stdin::read` -/
  | file
  deriving DecidableEq, Repr

/-- The kernel stack of a thread that is switched out. `processes` are the
`Arc<ProcessControlBlock>` values that its frames own. -/
structure Frame where
  resume : Resume
  processes : List ProcId
  deriving DecidableEq, Repr

/-- `TaskControlBlock`. Of `res` the `tid` is kept. -/
structure Task where
  process : ProcId
  res : Option Nat
  taskStatus : TaskStatus
  exitCode : Option Int32
  frame : Frame
  deriving DecidableEq, Repr

/-- `MutexBlocking` and `MutexSpin`. -/
inductive Mutex where
  | blocking (locked : Bool) (waitQueue : List TaskId)
  | spin (locked : Bool)
  deriving DecidableEq, Repr

/-- `Semaphore`. -/
structure Semaphore where
  count : Int64
  waitQueue : List TaskId
  deriving DecidableEq, Repr

/-- `Condvar`. -/
structure Condvar where
  waitQueue : List TaskId
  deriving DecidableEq, Repr

/-- `ProcessControlBlock`. It is `dropped` when its last `Arc` is. -/
structure Process where
  pid : Nat
  isZombie : Bool
  parent : Option ProcId
  children : List ProcId
  exitCode : Int32
  mutexList : List (Option Mutex)
  semaphoreList : List (Option Semaphore)
  condvarList : List (Option Condvar)
  signals : UInt32
  tasks : List (Option TaskId)
  taskResAllocator : RecycleAllocator
  dropped : Bool
  deriving DecidableEq, Repr

/-- `TimerCondVar`. -/
structure TimerCondVar where
  expireMs : UInt64
  task : TaskId
  deriving DecidableEq, Repr

/-- What a history of the kernel remembers. -/
inductive Note where
  /-- a thread exited with a code -/
  | exited (process : ProcId) (tid : Nat) (exitCode : Int32)
  /-- `sys_waittid` returned the exit code of a thread -/
  | waited (process : ProcId) (tid : Nat)
  /-- a process forked -/
  | forked (parent child : ProcId)
  /-- `sys_waitpid` returned the pid of a child and wrote its exit code -/
  | reaped (parent child : ProcId) (pid : Nat) (exitCode : Int32)
  deriving DecidableEq, Repr

/-- The kernel. `timers` is the `BinaryHeap` without its order; `history`, the latest note
first, is not data of the source and nothing depends on it. -/
structure Kernel where
  tasks : TaskId → Task
  nextTask : TaskId
  procs : ProcId → Process
  nextProc : ProcId
  /-- `PROCESSOR.current` -/
  current : Option TaskId
  /-- `TASK_MANAGER.ready_queue` -/
  readyQueue : List TaskId
  /-- `TIMERS` -/
  timers : List TimerCondVar
  /-- `PID2PCB` -/
  pid2pcb : List (Nat × ProcId)
  /-- `PID_ALLOCATOR` -/
  pidAllocator : RecycleAllocator
  /-- `INITPROC` -/
  initproc : ProcId
  history : List Note

namespace Kernel

/-- Change a `TaskControlBlock`. -/
def setTask (k : Kernel) (t : TaskId) (f : Task → Task) : Kernel :=
  { k with tasks := Function.update k.tasks t (f (k.tasks t)) }

/-- Change a `ProcessControlBlock`. -/
def setProc (k : Kernel) (p : ProcId) (f : Process → Process) : Kernel :=
  { k with procs := Function.update k.procs p (f (k.procs p)) }

section Update

variable (k : Kernel) (t u : TaskId) (p q : ProcId) (f : Task → Task) (g : Process → Process)

theorem setTask_tasks : (k.setTask t f).tasks u = if u = t then f (k.tasks u) else k.tasks u := by
  unfold setTask
  by_cases same : u = t
  · subst same
    simp
  · simp [same]

theorem setProc_procs : (k.setProc p g).procs q = if q = p then g (k.procs q) else k.procs q := by
  unfold setProc
  by_cases same : q = p
  · subst same
    simp
  · simp [same]

@[simp] theorem setTask_self : (k.setTask t f).tasks t = f (k.tasks t) := by simp [setTask_tasks]
@[simp] theorem setTask_procs : (k.setTask t f).procs = k.procs := rfl
@[simp] theorem setTask_nextTask : (k.setTask t f).nextTask = k.nextTask := rfl
@[simp] theorem setTask_nextProc : (k.setTask t f).nextProc = k.nextProc := rfl
@[simp] theorem setTask_current : (k.setTask t f).current = k.current := rfl
@[simp] theorem setTask_readyQueue : (k.setTask t f).readyQueue = k.readyQueue := rfl
@[simp] theorem setTask_timers : (k.setTask t f).timers = k.timers := rfl
@[simp] theorem setProc_self : (k.setProc p g).procs p = g (k.procs p) := by simp [setProc_procs]
@[simp] theorem setProc_tasks : (k.setProc p g).tasks = k.tasks := rfl
@[simp] theorem setProc_nextTask : (k.setProc p g).nextTask = k.nextTask := rfl
@[simp] theorem setProc_nextProc : (k.setProc p g).nextProc = k.nextProc := rfl
@[simp] theorem setProc_current : (k.setProc p g).current = k.current := rfl
@[simp] theorem setProc_readyQueue : (k.setProc p g).readyQueue = k.readyQueue := rfl
@[simp] theorem setProc_timers : (k.setProc p g).timers = k.timers := rfl

end Update

/-- `Weak::upgrade`. -/
def upgrade (k : Kernel) (p : ProcId) : Option ProcId :=
  if (k.procs p).dropped then none else some p

/-- `current_process`. -/
def currentProcess (k : Kernel) : Option ProcId :=
  k.current.bind fun task => k.upgrade (k.tasks task).process

end Kernel

/-- A thread that has just been created. -/
def Task.new (process : ProcId) (tid : Nat) : Task where
  process := process
  res := some tid
  taskStatus := .ready
  exitCode := none
  frame := ⟨.trapReturn, []⟩

/-- A process with its first thread. -/
def Process.new (pid : Nat) (parent : Option ProcId) (signals : UInt32) (main : TaskId) :
    Process where
  pid := pid
  isZombie := false
  parent := parent
  children := []
  exitCode := 0
  mutexList := []
  semaphoreList := []
  condvarList := []
  signals := signals
  tasks := [some main]
  taskResAllocator := RecycleAllocator.new.alloc.2
  dropped := false

/-- Memory that holds no process. -/
def Process.unused : Process where
  pid := 0
  isZombie := false
  parent := none
  children := []
  exitCode := 0
  mutexList := []
  semaphoreList := []
  condvarList := []
  signals := 0
  tasks := []
  taskResAllocator := RecycleAllocator.new
  dropped := false

/-- The kernel when `run_tasks` is called: `INITPROC` has been created. -/
def Kernel.start : Kernel where
  tasks := fun _ => Task.new 0 RecycleAllocator.new.alloc.1
  nextTask := 1
  procs := fun p => if p = 0 then Process.new RecycleAllocator.new.alloc.1 none 0 0 else .unused
  nextProc := 1
  current := none
  readyQueue := [0]
  timers := []
  pid2pcb := [(RecycleAllocator.new.alloc.1, 0)]
  pidAllocator := RecycleAllocator.new.alloc.2
  initproc := 0
  history := []

end CoreFromDust.Os
