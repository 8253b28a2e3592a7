import CoreFromDust.Os.MutexOwners

/-!
# Bad handles

The calls on mutexes, semaphores, condition variables and threads index the lists of the process
with what the user passes. `Checked` is what the kernel does not check: where it fails, the kernel
panics instead of returning -1. The part of `sys_mutex_lock` or `sys_condvar_wait` that follows a
switch back to the thread is `Mutex::lock` on an object that it holds, which asserts nothing.
-/

namespace CoreFromDust.Os

/-- The system calls that take the index of an object or thread of the process. -/
inductive HandleCall where
  | mutexLock (mutexId : Nat)
  | mutexUnlock (mutexId : Nat)
  | semaphoreUp (semId : Nat)
  | semaphoreDown (semId : Nat)
  | condvarSignal (condvarId : Nat)
  | condvarWait (condvarId mutexId : Nat)
  | waittid (tid : Nat)
  deriving DecidableEq, Repr

namespace HandleCall

/-- The system call. -/
def toSyscall : HandleCall → Syscall
  | mutexLock mutexId => .mutexLock mutexId
  | mutexUnlock mutexId => .mutexUnlock mutexId
  | semaphoreUp semId => .semaphoreUp semId
  | semaphoreDown semId => .semaphoreDown semId
  | condvarSignal condvarId => .condvarSignal condvarId
  | condvarWait condvarId mutexId => .condvarWait condvarId mutexId
  | waittid tid => .waittid tid

/-- The arguments name objects and threads of the process, and a mutex that is to be unlocked is
locked. -/
def Good (k : Kernel) (process : ProcId) : HandleCall → Prop
  | mutexLock mutexId => (k.mutexAt process mutexId).isSome
  | mutexUnlock mutexId => (k.mutexAt process mutexId).map Mutex.locked = some true
  | semaphoreUp semId => (k.semaphoreAt process semId).isSome
  | semaphoreDown semId => (k.semaphoreAt process semId).isSome
  | condvarSignal condvarId => (k.condvarAt process condvarId).isSome
  | condvarWait condvarId mutexId => (k.condvarAt process condvarId).isSome ∧
      (k.mutexAt process mutexId).map Mutex.locked = some true
  | waittid tid => ∃ thread, (k.procs process).tasks[tid]? = some (some thread)

/-- The call returns or switches to another thread, and on bad arguments it returns -1 from an
unchanged kernel. -/
def Handled (k : Kernel) (process : ProcId) (call : HandleCall) : Prop :=
  (k.syscall call.toSyscall).isSome ∧
    (¬ call.Good k process → k.syscall call.toSyscall = some (.done k (-1)))

/-- The arguments with which the kernel does not panic. A semaphore that makes the thread wait needs
a queue that can grow. -/
def Checked (k : Kernel) (process : ProcId) (own : Nat) : HandleCall → Prop
  | semaphoreDown semId => ∃ sem, k.semaphoreAt process semId = some sem ∧
      (sem.count - 1 < 0 → 8 * (sem.waitQueue.length + 1) < 2 ^ 63)
  | waittid tid => tid = own ∨ tid < (k.procs process).tasks.length
  | call => call.Good k process

end HandleCall

/-- A thread of the process is running, with this thread id. -/
structure Caller (k : Kernel) (task : TaskId) (process : ProcId) (own : Nat) : Prop where
  current : k.current = some task
  process : k.currentProcess = some process
  tid : (k.tasks task).res = some own

section Objects

variable {k : Kernel} {process : ProcId}

theorem mutexLock_isSome {task : TaskId} (current : k.current = some task) (id : Nat)
    (processes : List ProcId) :
    (k.mutexLock process id processes).isSome ↔ (k.mutexAt process id).isSome := by
  have current' : ∀ m, (k.setMutex process id m).current = some task := fun _ => current
  rw [Kernel.mutexLock, ← Kernel.mutexAt]
  cases k.mutexAt process id with
  | none => simp
  | some m =>
      rcases m with ⟨_ | _, waitQueue⟩ | ⟨_ | _⟩ <;>
        simp [Kernel.blockCurrentAndRunNext, Kernel.suspendCurrentAndRunNext, current, current']

/-- `Mutex::unlock` asserts that the mutex is locked. -/
theorem mutexUnlock_isSome (id : Nat) :
    (k.mutexUnlock process id).isSome ↔ (k.mutexAt process id).map Mutex.locked = some true := by
  rw [Kernel.mutexUnlock, ← Kernel.mutexAt]
  cases k.mutexAt process id with
  | none => simp
  | some m =>
      rcases m with ⟨_ | _, _ | ⟨wakingTask, waitQueue⟩⟩ | ⟨_ | _⟩ <;> simp [Mutex.locked]

theorem mutexUnlock_current {k' : Kernel} {id : Nat} (ran : k.mutexUnlock process id = some k') :
    k'.current = k.current := by
  rw [Kernel.mutexUnlock, ← Kernel.mutexAt] at ran
  cases found : k.mutexAt process id with
  | none => simp [found] at ran
  | some m =>
      rw [found, Option.bind_some] at ran
      rcases m with ⟨_ | _, _ | ⟨wakingTask, waitQueue⟩⟩ | ⟨_ | _⟩ <;>
        simp only [Option.some.injEq, reduceCtorEq] at ran <;> subst ran <;> rfl

theorem semaphoreUp_isSome (id : Nat) :
    (k.semaphoreUp process id).isSome ↔ (k.semaphoreAt process id).isSome := by
  rw [Kernel.semaphoreUp, ← Kernel.semaphoreAt, Option.isSome_map]

theorem semaphoreDown_isSome {task : TaskId} (current : k.current = some task) (id : Nat)
    (processes : List ProcId) :
    (k.semaphoreDown process id processes).isSome ↔ ∃ sem, k.semaphoreAt process id = some sem ∧
      (sem.count - 1 < 0 → 8 * (sem.waitQueue.length + 1) < 2 ^ 63) := by
  have current' : ∀ sem, (k.setSemaphore process id sem).current = some task := fun _ => current
  rw [Kernel.semaphoreDown, ← Kernel.semaphoreAt]
  cases k.semaphoreAt process id with
  | none => simp
  | some sem =>
      simp only [Option.bind_some, Option.some.injEq, exists_eq_left', current]
      by_cases waits : sem.count - 1 < 0
      · rw [if_pos waits, pushBack]
        by_cases room : 8 * (sem.waitQueue.length + 1) < 2 ^ 63
        · rw [if_pos room]
          simpa [Kernel.blockCurrentAndRunNext, current'] using fun _ => room
        · rw [if_neg room]
          simpa [waits] using room
      · simp [waits]

theorem condvarSignal_isSome (id : Nat) :
    (k.condvarSignal process id).isSome ↔ (k.condvarAt process id).isSome := by
  rw [Kernel.condvarSignal, ← Kernel.condvarAt, Option.isSome_map]

theorem condvarWait_isSome {task : TaskId} (current : k.current = some task) (id mutexId : Nat)
    (processes : List ProcId) :
    (k.condvarWait process id mutexId processes).isSome ↔ (k.condvarAt process id).isSome ∧
      (k.mutexAt process mutexId).map Mutex.locked = some true := by
  rw [Kernel.condvarWait, ← Kernel.condvarAt, ← mutexUnlock_isSome]
  cases k.condvarAt process id with
  | none => simp
  | some condvar =>
      rw [Option.bind_some]
      cases unlocked : k.mutexUnlock process mutexId with
      | none => simp
      | some k' =>
          have current' : k'.current = some task := (mutexUnlock_current unlocked).trans current
          have current'' : ∀ c, (k'.setCondvar process id c).current = some task :=
            fun _ => current'
          simp [Kernel.blockCurrentAndRunNext, current', current'']

end Objects

namespace Caller

variable {k : Kernel} {task : TaskId} {process : ProcId} {own : Nat}

theorem upgrade (caller : Caller k task process own) :
    k.upgrade (k.tasks task).process = some process := by
  have eq := caller.process
  rwa [Kernel.currentProcess, caller.current, Option.bind_some] at eq

/-- `sys_waittid` of an index past the end of `tasks` panics. -/
theorem waittid_isSome (caller : Caller k task process own) (tid : Nat) :
    (k.sysWaittid tid).isSome ↔ tid = own ∨ tid < (k.procs process).tasks.length := by
  simp only [Kernel.sysWaittid, caller.current, caller.upgrade, caller.tid, Option.bind_some]
  by_cases same : own = tid
  · simp [same]
  · rw [if_neg same, Option.isSome_map]
    simp [Ne.symm same]

/-- Whether a call panics. -/
theorem isSome_iff (caller : Caller k task process own) (call : HandleCall) :
    (k.syscall call.toSyscall).isSome ↔ call.Checked k process own := by
  cases call with
  | mutexLock mutexId =>
      simp only [HandleCall.toSyscall, Kernel.syscall, Kernel.sysMutexLock, caller.process,
        Option.bind_some, mutexLock_isSome caller.current]
      rfl
  | mutexUnlock mutexId =>
      simp only [HandleCall.toSyscall, Kernel.syscall, Kernel.sysMutexUnlock, caller.process,
        Option.bind_some, Option.isSome_map, mutexUnlock_isSome]
      rfl
  | semaphoreUp semId =>
      simp only [HandleCall.toSyscall, Kernel.syscall, Kernel.sysSemaphoreUp, caller.process,
        Option.bind_some, Option.isSome_map, semaphoreUp_isSome]
      rfl
  | semaphoreDown semId =>
      simp only [HandleCall.toSyscall, Kernel.syscall, Kernel.sysSemaphoreDown, caller.process,
        Option.bind_some, semaphoreDown_isSome caller.current]
      rfl
  | condvarSignal condvarId =>
      simp only [HandleCall.toSyscall, Kernel.syscall, Kernel.sysCondvarSignal, caller.process,
        Option.bind_some, Option.isSome_map, condvarSignal_isSome]
      rfl
  | condvarWait condvarId mutexId =>
      simp only [HandleCall.toSyscall, Kernel.syscall, Kernel.sysCondvarWait, caller.process,
        Option.bind_some, condvarWait_isSome caller.current]
      rfl
  | waittid tid => exact caller.waittid_isSome tid

/-- Of the bad arguments with which the kernel does not panic there is one kind: an empty slot of
`tasks`. -/
theorem bad_handled (caller : Caller k task process own) {call : HandleCall}
    (checked : call.Checked k process own) (bad : ¬ call.Good k process) :
    k.syscall call.toSyscall = some (.done k (-1)) := by
  cases call with
  | mutexLock mutexId => exact absurd checked bad
  | mutexUnlock mutexId => exact absurd checked bad
  | semaphoreUp semId => exact absurd checked bad
  | semaphoreDown semId =>
      obtain ⟨sem, found, -⟩ := checked
      exact absurd (by rw [HandleCall.Good, found]; rfl) bad
  | condvarSignal condvarId => exact absurd checked bad
  | condvarWait condvarId mutexId => exact absurd checked bad
  | waittid tid =>
      simp only [HandleCall.toSyscall, Kernel.syscall, Kernel.sysWaittid, caller.current,
        caller.upgrade, caller.tid, Option.bind_some]
      by_cases same : own = tid
      · rw [if_pos same]
      · have inside : tid < (k.procs process).tasks.length := checked.resolve_left (Ne.symm same)
        have which : (k.procs process).tasks[tid]? = some (k.procs process).tasks[tid] :=
          List.getElem?_eq_getElem inside
        rw [if_neg same, which, Option.map_some]
        cases slot : (k.procs process).tasks[tid] with
        | none => rfl
        | some thread => exact absurd ⟨thread, by rw [which, slot]⟩ bad

/-- In every state with a running thread and for all arguments, a call is handled if and only if its
arguments are among those that the kernel has no need to check. -/
theorem handled_iff (caller : Caller k task process own) (call : HandleCall) :
    call.Handled k process ↔ call.Checked k process own :=
  ⟨fun handled => (caller.isSome_iff call).mp handled.1,
    fun checked => ⟨(caller.isSome_iff call).mpr checked, caller.bad_handled checked⟩⟩

end Caller

/-- The kernel when its first thread holds the first mutex. -/
def Kernel.afterLock : Kernel := (Kernel.start.steps [.idle true, .syscall .condvarCreate,
  .syscall (.mutexCreate true), .syscall (.mutexLock 0)]).getD Kernel.start

theorem caller_afterLock : Caller Kernel.afterLock 0 0 0 := ⟨by decide, by decide, by decide⟩

/-- A wait that gives up the mutex which the thread holds, and one with a mutex that does not
exist. -/
theorem handled_iff_condvarWait : (HandleCall.condvarWait 0 0).Handled Kernel.afterLock 0 ∧
    ¬ (HandleCall.condvarWait 0 1).Handled Kernel.afterLock 0 := by
  rw [caller_afterLock.handled_iff, caller_afterLock.handled_iff]
  exact ⟨⟨by decide, by decide⟩, fun checked => absurd checked.2 (by decide)⟩

/-- The kernel when its first thread runs. -/
def Kernel.afterIdle : Kernel := (Kernel.start.step (.idle true)).getD Kernel.start

theorem caller_afterIdle : Caller Kernel.afterIdle 0 0 0 := ⟨by decide, by decide, by decide⟩

/-- `sys_mutex_lock(0)` of a process without a mutex panics the kernel. -/
theorem mutexLock_panics : ¬ ∀ k task process own, Caller k task process own →
    ∀ call : HandleCall, call.Handled k process := by
  intro all
  have handled := all _ _ _ _ caller_afterIdle (.mutexLock 0)
  have panics : Kernel.afterIdle.syscall (.mutexLock 0) = none := by rfl
  rw [HandleCall.Handled, HandleCall.toSyscall, panics] at handled
  exact absurd handled.1 (by simp)

end CoreFromDust.Os
