import CoreFromDust.Os.State

/-!
# Scheduling

Embedding of `os/src/task/mod.rs`, `manager.rs`, `processor.rs` and `os/src/timer.rs`. A switch
away from a thread takes what its kernel stack then holds; `none` is a panic or the shutdown of
the machine.
-/

namespace CoreFromDust.Os

namespace Kernel

/-- `add_task`. -/
def addTask (k : Kernel) (task : TaskId) : Kernel := { k with readyQueue := k.readyQueue ++ [task] }

section AddTask

variable (k : Kernel) (t : TaskId)

@[simp] theorem addTask_tasks : (k.addTask t).tasks = k.tasks := rfl
@[simp] theorem addTask_procs : (k.addTask t).procs = k.procs := rfl
@[simp] theorem addTask_nextTask : (k.addTask t).nextTask = k.nextTask := rfl
@[simp] theorem addTask_nextProc : (k.addTask t).nextProc = k.nextProc := rfl
@[simp] theorem addTask_current : (k.addTask t).current = k.current := rfl
@[simp] theorem addTask_readyQueue : (k.addTask t).readyQueue = k.readyQueue ++ [t] := rfl
@[simp] theorem addTask_timers : (k.addTask t).timers = k.timers := rfl

end AddTask

/-- `wakeup_task`. -/
def wakeupTask (k : Kernel) (task : TaskId) : Kernel :=
  (k.setTask task fun tcb => { tcb with taskStatus := .ready }).addTask task

/-- `remove_task`. -/
def removeTask (k : Kernel) (task : TaskId) : Kernel :=
  { k with readyQueue := k.readyQueue.erase task }

/-- `remove_timer`. -/
def removeTimer (k : Kernel) (task : TaskId) : Kernel :=
  { k with timers := k.timers.filter fun condvar => condvar.task ≠ task }

/-- `remove_inactive_task`. -/
def removeInactiveTask (k : Kernel) (task : TaskId) : Kernel := (k.removeTask task).removeTimer task

/-- `add_timer`. -/
def addTimer (k : Kernel) (expireMs : UInt64) (task : TaskId) : Kernel :=
  { k with timers := ⟨expireMs, task⟩ :: k.timers }

/-- `suspend_current_and_run_next`. -/
def suspendCurrentAndRunNext (k : Kernel) (frame : Frame) : Option Kernel :=
  k.current.map fun task =>
    (({ k with current := none } : Kernel).setTask task fun tcb =>
      { tcb with taskStatus := .ready, frame := frame }).addTask task

/-- `block_current_and_run_next`. -/
def blockCurrentAndRunNext (k : Kernel) (frame : Frame) : Option Kernel :=
  k.current.map fun task =>
    ({ k with current := none } : Kernel).setTask task fun tcb =>
      { tcb with taskStatus := .blocked, frame := frame }

/-- `remove_from_pid2process`, which panics when there is no such entry. -/
def removeFromPid2process (k : Kernel) (pid : Nat) : Option Kernel :=
  if pid ∈ k.pid2pcb.map Prod.fst then
    some { k with pid2pcb := k.pid2pcb.filter fun entry => entry.1 ≠ pid }
  else none

/-- `insert_into_pid2process`. -/
def insertIntoPid2process (k : Kernel) (pid : Nat) (process : ProcId) : Kernel :=
  { k with pid2pcb := (k.pid2pcb.filter fun entry => entry.1 ≠ pid) ++ [(pid, process)] }

/-- `pid2process`. -/
def pid2process (k : Kernel) (pid : Nat) : Option ProcId :=
  (k.pid2pcb.find? fun entry => entry.1 = pid).map Prod.snd

/-- `ProcessControlBlockInner::dealloc_tid`. -/
def deallocTid (k : Kernel) (process : ProcId) (tid : Nat) : Option Kernel :=
  ((k.procs process).taskResAllocator.dealloc tid).map fun allocator =>
    k.setProc process fun pcb => { pcb with taskResAllocator := allocator }

end Kernel

/-- `IDLE_PID`. -/
def idlePid : Nat := 0

namespace Kernel

/-- The first part of `exit_current_and_run_next`: the exit code is recorded and the
`TaskUserRes` is dropped, which releases the thread id. -/
def recordExit (k : Kernel) (task : TaskId) (process : ProcId) (tid : Nat) (exitCode : Int32) :
    Option Kernel :=
  (({ k with current := none, history := .exited process tid exitCode :: k.history } :
    Kernel).setTask task fun tcb => { tcb with exitCode := some exitCode, res := none }).deallocTid
      process tid

/-- The loop that moves all child processes under the init process. -/
def adoptChildren (k : Kernel) (children : List ProcId) : Kernel :=
  children.foldl (fun k child =>
    (k.setProc child fun pcb => { pcb with parent := some k.initproc }).setProc k.initproc
      fun pcb => { pcb with children := pcb.children ++ [child] }) k

/-- Drop the `TaskUserRes` values of a list of tasks. -/
def recycleRes (process : ProcId) : List TaskId → Kernel → Option Kernel
  | [], k => some k
  | task :: rest, k =>
      match (k.tasks task).res with
      | none => recycleRes process rest k
      | some tid =>
          ((k.setTask task fun tcb => { tcb with res := none }).deallocTid process tid).bind
            (recycleRes process rest)

/-- The part of `exit_current_and_run_next` for the main thread of a process. The exit of the
process `IDLE_PID` shuts the machine down. -/
def exitProcess (k : Kernel) (process : ProcId) (exitCode : Int32) : Option Kernel :=
  if (k.procs process).pid = idlePid then none
  else
    (k.removeFromPid2process (k.procs process).pid).bind fun k =>
      let zombie := k.setProc process fun pcb => { pcb with isZombie := true, exitCode := exitCode }
      let adopted := zombie.adoptChildren (k.procs process).children
      let tasks := (k.procs process).tasks.filterMap id
      (recycleRes process tasks (tasks.foldl removeInactiveTask adopted)).map fun k =>
        k.setProc process fun pcb => { pcb with children := [], tasks := pcb.tasks.take 1 }

/-- `exit_current_and_run_next`. -/
def exitCurrentAndRunNext (k : Kernel) (exitCode : Int32) : Option Kernel :=
  k.current.bind fun task =>
    (k.upgrade (k.tasks task).process).bind fun process =>
      (k.tasks task).res.bind fun tid =>
        (k.recordExit task process tid exitCode).bind fun k =>
          if tid = 0 then k.exitProcess process exitCode else some k

end Kernel

/-! ## Timers -/

/-- The order of `TimerCondVar`: the negated expiration time as an `isize`. -/
def TimerCondVar.key (c : TimerCondVar) : Int64 := -c.expireMs.toInt64

/-- `BinaryHeap::peek` may return this entry: none is greater. -/
def isPeek (timers : List TimerCondVar) (c : TimerCondVar) : Bool :=
  timers.contains c && timers.all fun d => d.key ≤ c.key

namespace Kernel

/-- `check_timer` at the time `now`, where the heap yields the entries of `due` in turn before
it yields one that has not expired or is empty. -/
def checkTimer (now : UInt64) : List TimerCondVar → Kernel → Option Kernel
  | [], k =>
      if k.timers.any fun c => isPeek k.timers c && c.expireMs ≤ now then none else some k
  | c :: due, k =>
      if isPeek k.timers c && c.expireMs ≤ now then
        let woken := k.wakeupTask c.task
        checkTimer now due { woken with timers := woken.timers.erase c }
      else none

end Kernel

end CoreFromDust.Os
