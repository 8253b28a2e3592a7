import CoreFromDust.Os.Sync

/-!
# System calls and traps

Embedding of `os/src/syscall/process.rs`, `thread.rs` and `sync.rs`, of `fork` and `exec` in
`os/src/task/process.rs`, of `trap_handler` and of the loop of `run_tasks`. The kernel runs with
interrupts off on one processor: each step is one kernel path, from a trap or from the idle
loop to the next return to user mode or switch to the idle loop.
-/

namespace CoreFromDust.Os

/-! ## Signals -/

/-- `SignalFlags::check_error` without the messages. -/
def checkError (signals : UInt32) : Option Int32 :=
  if signals &&& 0x4 ≠ 0 then some (-2)
  else if signals &&& 0x10 ≠ 0 then some (-4)
  else if signals &&& 0x40 ≠ 0 then some (-6)
  else if signals &&& 0x100 ≠ 0 then some (-8)
  else if signals &&& 0x200 ≠ 0 then some (-9)
  else if signals &&& 0x800 ≠ 0 then some (-11)
  else none

/-- `SignalFlags::SIGSEGV`. -/
def sigSegv : UInt32 := 0x800

/-- `SignalFlags::SIGILL`. -/
def sigIll : UInt32 := 0x10

namespace Kernel

/-- Add signals to a process. -/
def addSignal (k : Kernel) (process : ProcId) (flags : UInt32) : Kernel :=
  k.setProc process fun pcb => { pcb with signals := pcb.signals ||| flags }

/-! ## Synchronization -/

/-- `sys_sleep`, called at the time `now`. -/
def sysSleep (k : Kernel) (now ms : UInt64) : Option Path :=
  k.current.bind fun task =>
    ((k.addTimer (now + ms) task).blockCurrentAndRunNext ⟨.trapEnd, []⟩).map .away

/-- `sys_mutex_create`. -/
def sysMutexCreate (k : Kernel) (blocking : Bool) : Option Path :=
  k.currentProcess.map fun process =>
    let slot := allocSlot (k.procs process).mutexList
      (if blocking then .blocking false [] else .spin false)
    .done (k.setProc process fun pcb => { pcb with mutexList := slot.1 }) slot.2

/-- `sys_mutex_lock`, which drops its `process` before it locks. -/
def sysMutexLock (k : Kernel) (mutexId : Nat) : Option Path :=
  k.currentProcess.bind fun process => k.mutexLock process mutexId []

/-- `sys_mutex_unlock`. -/
def sysMutexUnlock (k : Kernel) (mutexId : Nat) : Option Path :=
  k.currentProcess.bind fun process =>
    (k.mutexUnlock process mutexId).map fun k => .done k 0

/-- `sys_semaphore_create`. -/
def sysSemaphoreCreate (k : Kernel) (resCount : UInt64) : Option Path :=
  k.currentProcess.map fun process =>
    let slot := allocSlot (k.procs process).semaphoreList ⟨resCount.toInt64, []⟩
    .done (k.setProc process fun pcb => { pcb with semaphoreList := slot.1 }) slot.2

/-- `sys_semaphore_up`. -/
def sysSemaphoreUp (k : Kernel) (semId : Nat) : Option Path :=
  k.currentProcess.bind fun process => (k.semaphoreUp process semId).map fun k => .done k 0

/-- `sys_semaphore_down`, which still owns its `process` while it waits. -/
def sysSemaphoreDown (k : Kernel) (semId : Nat) : Option Path :=
  k.currentProcess.bind fun process => k.semaphoreDown process semId [process]

/-- `sys_condvar_create`. -/
def sysCondvarCreate (k : Kernel) : Option Path :=
  k.currentProcess.map fun process =>
    let slot := allocSlot (k.procs process).condvarList ⟨[]⟩
    .done (k.setProc process fun pcb => { pcb with condvarList := slot.1 }) slot.2

/-- `sys_condvar_signal`. -/
def sysCondvarSignal (k : Kernel) (condvarId : Nat) : Option Path :=
  k.currentProcess.bind fun process =>
    (k.condvarSignal process condvarId).map fun k => .done k 0

/-- `sys_condvar_wait`, which still owns its `process` while it waits. -/
def sysCondvarWait (k : Kernel) (condvarId mutexId : Nat) : Option Path :=
  k.currentProcess.bind fun process => k.condvarWait process condvarId mutexId [process]

/-! ## Threads -/

/-- `sys_thread_create`. -/
def sysThreadCreate (k : Kernel) : Option Path :=
  k.current.bind fun task =>
    k.currentProcess.bind fun process =>
      (k.tasks task).res.map fun _ =>
        let (tid, allocator) := (k.procs process).taskResAllocator.alloc
        let new := k.nextTask
        .done ((({ k with nextTask := k.nextTask + 1 } : Kernel).setTask new fun _ =>
          Task.new process tid).addTask new |>.setProc process fun pcb =>
            { pcb with
              taskResAllocator := allocator
              tasks := (pcb.tasks ++ List.replicate (tid + 1 - pcb.tasks.length) none).set tid
                (some new) }) tid

/-- `sys_waittid`. -/
def sysWaittid (k : Kernel) (tid : Nat) : Option Path :=
  k.current.bind fun task =>
    (k.upgrade (k.tasks task).process).bind fun process =>
      (k.tasks task).res.bind fun own =>
        if own = tid then some (.done k (-1))
        else
          (k.procs process).tasks[tid]?.map fun slot =>
            match slot with
            | none => .done k (-1)
            | some waitedTask =>
                match (k.tasks waitedTask).exitCode with
                | none => .done k (-2)
                | some exitCode =>
                    .done (({ k with history := .waited process tid :: k.history } :
                      Kernel).setProc process fun pcb =>
                      { pcb with tasks := pcb.tasks.set tid none }) exitCode.toInt

/-! ## Processes -/

/-- `sys_fork`, with `ProcessControlBlock::fork`. -/
def sysFork (k : Kernel) : Option Path :=
  k.currentProcess.bind fun process =>
    if (k.procs process).tasks.length = 1 then
      ((k.procs process).tasks[0]?.bind fun slot => slot).bind fun main =>
        (k.tasks main).res.map fun _ =>
          let (pid, pidAllocator) := k.pidAllocator.alloc
          let child := k.nextProc
          let new := k.nextTask
          .done (({ k with
              nextProc := k.nextProc + 1
              nextTask := k.nextTask + 1
              pidAllocator := pidAllocator
              history := .forked process child :: k.history } : Kernel).setProc child (fun _ =>
                Process.new pid (some process) (k.procs process).signals new) |>.setProc process
              (fun pcb => { pcb with children := pcb.children ++ [child] }) |>.setTask new
              (fun _ => Task.new child RecycleAllocator.new.alloc.1)
                |>.insertIntoPid2process pid child
              |>.addTask new) pid
    else none

/-- `sys_exec` of a path that is found or not; `ProcessControlBlock::exec` asserts that there is
one thread. -/
def sysExec (k : Kernel) (found : Bool) : Option Path :=
  k.currentProcess.bind fun process =>
    if found then
      if (k.procs process).tasks.length = 1 then some (.done k 0) else none
    else some (.done k (-1))

/-- `Arc::strong_count` of a process, without the locals of the running thread: the children
vectors, `PID2PCB`, `INITPROC` and the frames of the kernel stacks. -/
def strongCount (k : Kernel) (process : ProcId) : Nat :=
  ((List.range k.nextProc).flatMap fun p => (k.procs p).children).count process +
    (k.pid2pcb.map Prod.snd).count process + (if process = k.initproc then 1 else 0) +
    ((List.range k.nextTask).flatMap fun t => (k.tasks t).frame.processes).count process

/-- Drop a process that has no `Arc` left. -/
def dropProcess (k : Kernel) (process : ProcId) : Option Kernel :=
  (k.pidAllocator.dealloc (k.procs process).pid).map fun pidAllocator =>
    ({ k with pidAllocator := pidAllocator } : Kernel).setProc process fun pcb =>
      { pcb with
        children := [], mutexList := [], semaphoreList := [], condvarList := [], tasks := []
        dropped := true }

/-- A child that `sys_waitpid` asks for. -/
def childMatches (k : Kernel) (pid : Int) (child : ProcId) : Bool :=
  pid = -1 || pid = (k.procs child).pid

/-- The child that `sys_waitpid` removes from the children of the process, with the state after
that. -/
def takeZombie (k : Kernel) (process : ProcId) (pid : Int) : Option (ProcId × Kernel) :=
  ((k.procs process).children.findIdx? fun child =>
      (k.procs child).isZombie && k.childMatches pid child).bind fun idx =>
    (k.procs process).children[idx]?.map fun child =>
      (child, k.setProc process fun pcb => { pcb with children := pcb.children.eraseIdx idx })

/-- `sys_waitpid`; the assertion counts the removed `Arc` as well. The exit code of the child,
which goes to `exit_code_ptr`, is in the history. -/
def sysWaitpid (k : Kernel) (pid : Int) : Option Path :=
  k.currentProcess.bind fun process =>
    if (k.procs process).children.any (k.childMatches pid) then
      match k.takeZombie process pid with
      | none => some (.done k (-2))
      | some (child, k) =>
          if k.strongCount child + 1 = 1 then
            (k.dropProcess child).map fun k' =>
              .done
                { k' with
                  history := .reaped process child (k.procs child).pid (k.procs child).exitCode ::
                    k'.history }
                (k.procs child).pid
          else none
    else some (.done k (-1))

/-- `sys_kill`; every bit pattern is a set of signals. -/
def sysKill (k : Kernel) (pid : Nat) (signal : UInt32) : Option Path :=
  match k.pid2process pid with
  | some process => some (.done (k.addSignal process signal) 0)
  | none => some (.done k (-1))

/-! ## Files -/

/-- `sys_read` and `sys_write`, which still own their `process` while the file makes them wait.
Whether the file is ready is not part of this model. -/
def sysFile (k : Kernel) (ready : Bool) : Option Path :=
  k.currentProcess.bind fun process =>
    if ready then some (.done k 0)
    else (k.suspendCurrentAndRunNext ⟨.file, [process]⟩).map .away

end Kernel

/-- The system calls. `quiet` stands for those that change nothing of this state. -/
inductive Syscall where
  | exit (exitCode : Int32)
  | yield
  | sleep (now ms : UInt64)
  | kill (pid : Nat) (signal : UInt32)
  | fork
  | exec (found : Bool)
  | waitpid (pid : Int)
  | threadCreate
  | waittid (tid : Nat)
  | mutexCreate (blocking : Bool)
  | mutexLock (mutexId : Nat)
  | mutexUnlock (mutexId : Nat)
  | semaphoreCreate (resCount : UInt64)
  | semaphoreUp (semId : Nat)
  | semaphoreDown (semId : Nat)
  | condvarCreate
  | condvarSignal (condvarId : Nat)
  | condvarWait (condvarId mutexId : Nat)
  | file (ready : Bool)
  | quiet
  deriving DecidableEq, Repr

namespace Kernel

/-- `syscall`. -/
def syscall (k : Kernel) : Syscall → Option Path
  | .exit exitCode => (k.exitCurrentAndRunNext exitCode).map .away
  | .yield => (k.suspendCurrentAndRunNext ⟨.trapEnd, []⟩).map .away
  | .sleep now ms => k.sysSleep now ms
  | .kill pid signal => k.sysKill pid signal
  | .fork => k.sysFork
  | .exec found => k.sysExec found
  | .waitpid pid => k.sysWaitpid pid
  | .threadCreate => k.sysThreadCreate
  | .waittid tid => k.sysWaittid tid
  | .mutexCreate blocking => k.sysMutexCreate blocking
  | .mutexLock mutexId => k.sysMutexLock mutexId
  | .mutexUnlock mutexId => k.sysMutexUnlock mutexId
  | .semaphoreCreate resCount => k.sysSemaphoreCreate resCount
  | .semaphoreUp semId => k.sysSemaphoreUp semId
  | .semaphoreDown semId => k.sysSemaphoreDown semId
  | .condvarCreate => k.sysCondvarCreate
  | .condvarSignal condvarId => k.sysCondvarSignal condvarId
  | .condvarWait condvarId mutexId => k.sysCondvarWait condvarId mutexId
  | .file ready => k.sysFile ready
  | .quiet => some (.done k 0)

/-- The end of `trap_handler`: a pending error signal makes the thread exit. -/
def trapEnd (k : Kernel) : Option Kernel :=
  k.currentProcess.bind fun process =>
    match checkError (k.procs process).signals with
    | some errno => k.exitCurrentAndRunNext errno
    | none => some k

/-- What follows kernel code in `trap_handler`. -/
def afterPath : Path → Option Kernel
  | .done k _ => k.trapEnd
  | .away k => some k

/-- What a thread does after a switch to it. -/
def resume (k : Kernel) (process : ProcId) (frame : Frame) (ready : Bool) : Option Kernel :=
  match frame.resume with
  | .trapReturn => some k
  | .trapEnd => k.trapEnd
  | .lock mutexId => (k.mutexLock process mutexId frame.processes).bind afterPath
  | .file =>
      if ready then k.trapEnd else k.suspendCurrentAndRunNext frame

/-- One iteration of the loop of `run_tasks`. -/
def runTasks (k : Kernel) (ready : Bool) : Option Kernel :=
  match k.readyQueue with
  | [] => some k
  | task :: readyQueue =>
      (({ k with readyQueue := readyQueue, current := some task } : Kernel).setTask task fun tcb =>
        { tcb with taskStatus := .running, frame := ⟨.trapReturn, []⟩ }).resume
          (k.tasks task).process (k.tasks task).frame ready

end Kernel

/-- What makes the kernel take a step. -/
inductive Event where
  /-- the idle loop runs; if it switches to a thread that waits for a file, `ready` tells
  whether the file is ready -/
  | idle (ready : Bool)
  | syscall (call : Syscall)
  /-- a timer interrupt at the time `now`; `due` are the timers in the order in which they
  expire -/
  | timer (now : UInt64) (due : List TimerCondVar)
  /-- a page fault or access fault -/
  | fault
  | illegalInstruction
  deriving DecidableEq, Repr

namespace Kernel

/-- One kernel path: an iteration of the idle loop, or a trap of the current thread. -/
def step (k : Kernel) (event : Event) : Option Kernel :=
  match k.current, event with
  | none, .idle ready => k.runTasks ready
  | some _, .syscall call => (k.syscall call).bind afterPath
  | some _, .timer now due =>
      (checkTimer now due k).bind fun k => k.suspendCurrentAndRunNext ⟨.trapEnd, []⟩
  | some _, .fault => k.currentProcess.bind fun process => (k.addSignal process sigSegv).trapEnd
  | some _, .illegalInstruction =>
      k.currentProcess.bind fun process => (k.addSignal process sigIll).trapEnd
  | _, _ => none

/-- The kernel after a list of events. -/
def steps (k : Kernel) : List Event → Option Kernel
  | [] => some k
  | event :: events => (k.step event).bind fun k => k.steps events

end Kernel

/-- The states of runs from the start in which every step meets a condition. -/
inductive RunWith (allowed : Kernel → Event → Prop) : Kernel → Prop
  | start : RunWith allowed Kernel.start
  | step {k event k'} : RunWith allowed k → allowed k event → k.step event = some k' →
      RunWith allowed k'

/-- The states of all runs. -/
def ReachableState : Kernel → Prop := RunWith fun _ _ => True

end CoreFromDust.Os
