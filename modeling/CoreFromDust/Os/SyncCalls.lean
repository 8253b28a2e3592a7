import CoreFromDust.Os.Syscall

/-!
# Calls on mutexes, semaphores and condition variables

Which calls on one mutex, semaphore or condition variable of a process a kernel path makes, what
they make of it, and which threads they wake. Each path makes one call on one object at most.
-/

namespace CoreFromDust.Os

/-- A call of `Mutex::lock` or `Mutex::unlock` by a thread. -/
inductive MutexCall where
  | lock (task : TaskId)
  | unlock (task : TaskId)
  deriving DecidableEq, Repr

/-- A call of `Semaphore::up` or `Semaphore::down` by a thread. -/
inductive SemaphoreCall where
  | up (task : TaskId)
  | down (task : TaskId)
  deriving DecidableEq, Repr

/-- A call of `Condvar::signal`, or of `Condvar::wait` by a thread. -/
inductive CondvarCall where
  | signal
  | wait (task : TaskId)
  deriving DecidableEq, Repr

/-- The mutex after a call. -/
def Mutex.after : MutexCall → Mutex → Mutex
  | .lock task, .blocking true waitQueue => .blocking true (waitQueue ++ [task])
  | .lock _, .blocking false waitQueue => .blocking true waitQueue
  | .lock _, .spin _ => .spin true
  | .unlock _, .blocking _ (_ :: waitQueue) => .blocking true waitQueue
  | .unlock _, .blocking _ [] => .blocking false []
  | .unlock _, .spin _ => .spin false

/-- The semaphore after a call. -/
def Semaphore.after : SemaphoreCall → Semaphore → Semaphore
  | .up _, sem =>
      ⟨sem.count + 1, if sem.count + 1 ≤ 0 then sem.waitQueue.tail else sem.waitQueue⟩
  | .down task, sem =>
      ⟨sem.count - 1, if sem.count - 1 < 0 then sem.waitQueue ++ [task] else sem.waitQueue⟩

/-- The condition variable after a call. -/
def Condvar.after : CondvarCall → Condvar → Condvar
  | .signal, condvar => ⟨condvar.waitQueue.tail⟩
  | .wait task, condvar => ⟨condvar.waitQueue ++ [task]⟩

namespace Kernel

/-- The mutex with an index in the `mutex_list` of a process. -/
def mutexAt (k : Kernel) (process : ProcId) (id : Nat) : Option Mutex :=
  (k.procs process).mutexList[id]?.bind fun slot => slot

/-- The semaphore with an index in the `semaphore_list` of a process. -/
def semaphoreAt (k : Kernel) (process : ProcId) (id : Nat) : Option Semaphore :=
  (k.procs process).semaphoreList[id]?.bind fun slot => slot

/-- The condition variable with an index in the `condvar_list` of a process. -/
def condvarAt (k : Kernel) (process : ProcId) (id : Nat) : Option Condvar :=
  (k.procs process).condvarList[id]?.bind fun slot => slot

/-- The call that a path makes on a mutex. A thread that is resumed in `Mutex::lock`, or in
`Condvar::wait`, calls `lock`; `Condvar::wait` calls `unlock` first. -/
def mutexCall (k : Kernel) (event : Event) (process : ProcId) (id : Nat) : Option MutexCall :=
  match k.current, event with
  | none, .idle _ =>
      k.readyQueue.head?.bind fun task =>
        if (k.tasks task).process = process ∧ (k.tasks task).frame.resume = .lock id then
          some (.lock task)
        else none
  | some task, .syscall (.mutexLock mutexId) =>
      if (k.tasks task).process = process ∧ mutexId = id then some (.lock task) else none
  | some task, .syscall (.mutexUnlock mutexId) =>
      if (k.tasks task).process = process ∧ mutexId = id then some (.unlock task) else none
  | some task, .syscall (.condvarWait _ mutexId) =>
      if (k.tasks task).process = process ∧ mutexId = id then some (.unlock task) else none
  | _, _ => none

/-- The call that a path makes on a semaphore. -/
def semaphoreCall (k : Kernel) (event : Event) (process : ProcId) (id : Nat) :
    Option SemaphoreCall :=
  match k.current, event with
  | some task, .syscall (.semaphoreUp semId) =>
      if (k.tasks task).process = process ∧ semId = id then some (.up task) else none
  | some task, .syscall (.semaphoreDown semId) =>
      if (k.tasks task).process = process ∧ semId = id then some (.down task) else none
  | _, _ => none

/-- The call that a path makes on a condition variable. -/
def condvarCall (k : Kernel) (event : Event) (process : ProcId) (id : Nat) : Option CondvarCall :=
  match k.current, event with
  | some task, .syscall (.condvarSignal condvarId) =>
      if (k.tasks task).process = process ∧ condvarId = id then some .signal else none
  | some task, .syscall (.condvarWait condvarId _) =>
      if (k.tasks task).process = process ∧ condvarId = id then some (.wait task) else none
  | _, _ => none

/-! ## Wake-ups -/

/-- The thread that `Mutex::unlock` wakes. -/
def unlockWakes (k : Kernel) (process : ProcId) (mutexId : Nat) : List TaskId :=
  match k.mutexAt process mutexId with
  | some (.blocking true waitQueue) => waitQueue.take 1
  | _ => []

/-- The thread that `Semaphore::up` wakes. -/
def upWakes (k : Kernel) (process : ProcId) (semId : Nat) : List TaskId :=
  match k.semaphoreAt process semId with
  | some sem => if sem.count + 1 ≤ 0 then sem.waitQueue.take 1 else []
  | none => []

/-- The thread that `Condvar::signal` wakes. -/
def signalWakes (k : Kernel) (process : ProcId) (condvarId : Nat) : List TaskId :=
  match (k.procs process).condvarList[condvarId]? with
  | some (some condvar) => condvar.waitQueue.take 1
  | _ => []

/-- The threads that `check_timer` wakes. -/
def timerWakes (now : UInt64) : List TimerCondVar → List TimerCondVar → List TaskId
  | _, [] => []
  | timers, c :: due =>
      if isPeek timers c && c.expireMs ≤ now then
        c.task :: timerWakes now (timers.erase c) due
      else []

/-- The threads on which `wakeup_task` is called in a step. -/
def wakeups (k : Kernel) (event : Event) : List TaskId :=
  match k.current, event with
  | some task, .syscall (.mutexUnlock mutexId) => k.unlockWakes (k.tasks task).process mutexId
  | some task, .syscall (.condvarWait _ mutexId) => k.unlockWakes (k.tasks task).process mutexId
  | some task, .syscall (.semaphoreUp semId) => k.upWakes (k.tasks task).process semId
  | some task, .syscall (.condvarSignal condvarId) => k.signalWakes (k.tasks task).process condvarId
  | some _, .timer now due => timerWakes now k.timers due
  | _, _ => []

end Kernel

end CoreFromDust.Os
