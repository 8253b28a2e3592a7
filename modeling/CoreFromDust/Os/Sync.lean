import CoreFromDust.Os.Task
import Mathlib.Algebra.Group.Nat.Defs

/-!
# Synchronization

Embedding of `os/src/sync/mutex.rs`, `semaphore.rs` and `condvar.rs`, and of the part of
`os/src/syscall/sync.rs` that finds the objects. A call either returns to its caller or control
leaves the thread; `processes` are the `Arc<ProcessControlBlock>` values that the frames of its
callers own.
-/

namespace CoreFromDust.Os

/-- How a piece of kernel code ends: it returns a value, or control has left the thread for the
idle loop. -/
inductive Path where
  | done (k : Kernel) (value : Int)
  | away (k : Kernel)

/-- The state in which a path ends. -/
def Path.kernel : Path → Kernel
  | .done k _ => k
  | .away k => k

/-- The value that a path returns. -/
def Path.value : Path → Option Int
  | .done _ value => some value
  | .away _ => none

/-- Put an object into the first free slot of a list, or at its end, and return the slot. -/
def allocSlot {α : Type} (list : List (Option α)) (object : α) : List (Option α) × Nat :=
  match list.findIdx? Option.isNone with
  | some id => (list.set id (some object), id)
  | none => (list ++ [some object], list.length)

/-- `VecDeque::push_back` of an `Arc`, which panics when the queue would take more than
`isize::MAX` bytes. Only the count of a semaphore depends on this bound. -/
def pushBack (queue : List TaskId) (task : TaskId) : Option (List TaskId) :=
  if 8 * (queue.length + 1) < 2 ^ 63 then some (queue ++ [task]) else none

namespace Kernel

/-- Change an entry of the `mutex_list` of a process. -/
def setMutex (k : Kernel) (process : ProcId) (id : Nat) (mutex : Mutex) : Kernel :=
  k.setProc process fun pcb => { pcb with mutexList := pcb.mutexList.set id (some mutex) }

/-- Change an entry of the `semaphore_list` of a process. -/
def setSemaphore (k : Kernel) (process : ProcId) (id : Nat) (sem : Semaphore) : Kernel :=
  k.setProc process fun pcb => { pcb with semaphoreList := pcb.semaphoreList.set id (some sem) }

/-- Change an entry of the `condvar_list` of a process. -/
def setCondvar (k : Kernel) (process : ProcId) (id : Nat) (condvar : Condvar) : Kernel :=
  k.setProc process fun pcb => { pcb with condvarList := pcb.condvarList.set id (some condvar) }

/-- `Mutex::lock` for a mutex of the process. A spinning thread calls it again after each
switch. -/
def mutexLock (k : Kernel) (process : ProcId) (id : Nat) (processes : List ProcId) : Option Path :=
  ((k.procs process).mutexList[id]?.bind fun slot => slot).bind fun mutex =>
    match mutex with
    | .blocking true waitQueue =>
        k.current.bind fun task =>
          ((k.setMutex process id (.blocking true (waitQueue ++ [task]))).blockCurrentAndRunNext
            ⟨.trapEnd, processes⟩).map .away
    | .blocking false waitQueue => some (.done (k.setMutex process id (.blocking true waitQueue)) 0)
    | .spin true => (k.suspendCurrentAndRunNext ⟨.lock id, processes⟩).map .away
    | .spin false => some (.done (k.setMutex process id (.spin true)) 0)

/-- `Mutex::unlock`, which asserts that the mutex is locked. -/
def mutexUnlock (k : Kernel) (process : ProcId) (id : Nat) : Option Kernel :=
  ((k.procs process).mutexList[id]?.bind fun slot => slot).bind fun mutex =>
    match mutex with
    | .blocking true (wakingTask :: waitQueue) =>
        some ((k.setMutex process id (.blocking true waitQueue)).wakeupTask wakingTask)
    | .blocking true [] => some (k.setMutex process id (.blocking false []))
    | .blocking false _ => none
    | .spin true => some (k.setMutex process id (.spin false))
    | .spin false => none

/-- `Semaphore::up`. -/
def semaphoreUp (k : Kernel) (process : ProcId) (id : Nat) : Option Kernel :=
  ((k.procs process).semaphoreList[id]?.bind fun slot => slot).map fun sem =>
    if sem.count + 1 ≤ 0 then
      match sem.waitQueue with
      | task :: waitQueue =>
          (k.setSemaphore process id ⟨sem.count + 1, waitQueue⟩).wakeupTask task
      | [] => k.setSemaphore process id ⟨sem.count + 1, []⟩
    else k.setSemaphore process id ⟨sem.count + 1, sem.waitQueue⟩

/-- `Semaphore::down`. -/
def semaphoreDown (k : Kernel) (process : ProcId) (id : Nat) (processes : List ProcId) :
    Option Path :=
  ((k.procs process).semaphoreList[id]?.bind fun slot => slot).bind fun sem =>
    if sem.count - 1 < 0 then
      k.current.bind fun task =>
        (pushBack sem.waitQueue task).bind fun waitQueue =>
          ((k.setSemaphore process id ⟨sem.count - 1, waitQueue⟩).blockCurrentAndRunNext
            ⟨.trapEnd, processes⟩).map .away
    else some (.done (k.setSemaphore process id ⟨sem.count - 1, sem.waitQueue⟩) 0)

/-- `Condvar::signal`. -/
def condvarSignal (k : Kernel) (process : ProcId) (id : Nat) : Option Kernel :=
  ((k.procs process).condvarList[id]?.bind fun slot => slot).map fun condvar =>
    match condvar.waitQueue with
    | task :: waitQueue => (k.setCondvar process id ⟨waitQueue⟩).wakeupTask task
    | [] => k

/-- `Condvar::wait`; after the switch back it locks the mutex. -/
def condvarWait (k : Kernel) (process : ProcId) (condvarId mutexId : Nat)
    (processes : List ProcId) : Option Path :=
  ((k.procs process).condvarList[condvarId]?.bind fun slot => slot).bind fun condvar =>
    (k.mutexUnlock process mutexId).bind fun k =>
      k.current.bind fun task =>
        ((k.setCondvar process condvarId ⟨condvar.waitQueue ++ [task]⟩).blockCurrentAndRunNext
          ⟨.lock mutexId, processes⟩).map .away

end Kernel

end CoreFromDust.Os
