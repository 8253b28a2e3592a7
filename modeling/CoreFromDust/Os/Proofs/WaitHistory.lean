import CoreFromDust.Os.Proofs.Scheduled

/-!
# Threads that have been waited for

The history has a note for each exit code of a thread that `sys_waittid` returned. No other kernel
code adds such a note.
-/

namespace CoreFromDust.Os

variable {k k' k₁ : Kernel} {a : TaskId} {p : ProcId} {path : Path} {processes : List ProcId}

/-- `sys_waittid` returned the exit code of a thread of the process. -/
def Note.isWait (p : ProcId) : Note → Bool
  | .waited q _ => q = p
  | _ => false

/-- How many threads of the process have been waited for. -/
def Kernel.waited (k : Kernel) (p : ProcId) : Nat := k.history.countP (Note.isWait p)

/-- No thread is waited for between the two states. -/
def SameWaits (k k' : Kernel) : Prop := ∀ p, k'.waited p = k.waited p

namespace SameWaits

theorem refl (k : Kernel) : SameWaits k k := fun _ => rfl

theorem trans (first : SameWaits k k₁) (second : SameWaits k₁ k') : SameWaits k k' :=
  fun p => (second p).trans (first p)

theorem of_history (same : k'.history = k.history) : SameWaits k k' := by
  intro p
  rw [Kernel.waited, Kernel.waited, same]

theorem of_note {note : Note} (noted : k'.history = note :: k.history)
    (other : ∀ p, note.isWait p = false) : SameWaits k k' := by
  intro p
  rw [Kernel.waited, Kernel.waited, noted, List.countP_cons_of_neg]
  simp [other p]

theorem exit {exitCode : Int32} (current : k.current = some a)
    (h : k.exitCurrentAndRunNext exitCode = some k') : SameWaits k k' := by
  obtain ⟨tid, allocator, -, -, ⟨-, rfl⟩ | ⟨-, done⟩⟩ := Kernel.exitCurrentAndRunNext_eq current h
  · exact of_note rfl fun _ => rfl
  · exact of_note done.history fun _ => rfl

theorem trapEnd (current : k.current = some a) (h : k.trapEnd = some k') : SameWaits k k' := by
  unfold Kernel.trapEnd at h
  obtain ⟨process, -, h⟩ := Option.bind_eq_some_iff.mp h
  split at h
  · exact exit current h
  · rw [Option.some.injEq] at h
    exact h ▸ refl k

theorem afterPath (current : ∀ last value, path = .done last value → last.current = some a)
    (h : Kernel.afterPath path = some k') : SameWaits path.kernel k' := by
  cases path with
  | done last value => exact trapEnd (current last value rfl) h
  | away last =>
      simp only [Kernel.afterPath, Option.some.injEq] at h
      exact h ▸ refl last

end SameWaits

namespace Kernel

/-! ## Synchronization -/

theorem mutexLock_history {id : Nat} (current : k.current = some a)
    (h : k.mutexLock p id processes = some path) : path.kernel.history = k.history := by
  unfold mutexLock at h
  obtain ⟨mutex, -, h⟩ := Option.bind_eq_some_iff.mp h
  cases mutex with
  | blocking locked waitQueue =>
      cases locked with
      | true =>
          obtain ⟨task, isCurrent, h⟩ := Option.bind_eq_some_iff.mp h
          cases current.symm.trans isCurrent
          have still : (k.setMutex p id (.blocking true (waitQueue ++ [a]))).current = some a :=
            current
          rw [blockCurrentAndRunNext_eq still, Option.map_some, Option.some.injEq] at h
          exact h ▸ rfl
      | false =>
          rw [Option.some.injEq] at h
          exact h ▸ rfl
  | spin locked =>
      cases locked with
      | true =>
          rw [suspendCurrentAndRunNext_eq current, Option.map_some, Option.some.injEq] at h
          exact h ▸ rfl
      | false =>
          rw [Option.some.injEq] at h
          exact h ▸ rfl

theorem mutexUnlock_history {id : Nat} (h : k.mutexUnlock p id = some k') :
    k'.history = k.history ∧ k'.current = k.current := by
  unfold mutexUnlock at h
  obtain ⟨mutex, -, h⟩ := Option.bind_eq_some_iff.mp h
  split at h
  all_goals first
    | simp only [reduceCtorEq] at h
    | rw [Option.some.injEq] at h
      exact h ▸ ⟨rfl, rfl⟩

theorem semaphoreUp_history {id : Nat} (h : k.semaphoreUp p id = some k') :
    k'.history = k.history := by
  unfold semaphoreUp at h
  obtain ⟨sem, -, rfl⟩ := Option.map_eq_some_iff.mp h
  split
  · cases sem.waitQueue <;> rfl
  · rfl

theorem semaphoreDown_history {id : Nat} (current : k.current = some a)
    (h : k.semaphoreDown p id processes = some path) : path.kernel.history = k.history := by
  unfold semaphoreDown at h
  obtain ⟨sem, -, h⟩ := Option.bind_eq_some_iff.mp h
  split at h
  · obtain ⟨task, isCurrent, h⟩ := Option.bind_eq_some_iff.mp h
    obtain ⟨waitQueue, -, h⟩ := Option.bind_eq_some_iff.mp h
    have still : (k.setSemaphore p id ⟨sem.count - 1, waitQueue⟩).current = some a := current
    rw [blockCurrentAndRunNext_eq still, Option.map_some, Option.some.injEq] at h
    exact h ▸ rfl
  · rw [Option.some.injEq] at h
    exact h ▸ rfl

theorem condvarSignal_history {id : Nat} (h : k.condvarSignal p id = some k') :
    k'.history = k.history := by
  unfold condvarSignal at h
  obtain ⟨condvar, -, rfl⟩ := Option.map_eq_some_iff.mp h
  cases condvar.waitQueue <;> rfl

theorem condvarWait_history {condvarId mutexId : Nat} (current : k.current = some a)
    (h : k.condvarWait p condvarId mutexId processes = some path) :
    path.kernel.history = k.history := by
  unfold condvarWait at h
  obtain ⟨condvar, -, h⟩ := Option.bind_eq_some_iff.mp h
  obtain ⟨unlocked, unlock, h⟩ := Option.bind_eq_some_iff.mp h
  obtain ⟨history, sameCurrent⟩ := mutexUnlock_history unlock
  obtain ⟨task, isCurrent, h⟩ := Option.bind_eq_some_iff.mp h
  have still : (unlocked.setCondvar p condvarId ⟨condvar.waitQueue ++ [task]⟩).current = some a :=
    sameCurrent.trans current
  rw [blockCurrentAndRunNext_eq still, Option.map_some, Option.some.injEq] at h
  exact h ▸ history

/-! ## System calls -/

theorem syscall_waits {call : Syscall} (current : k.current = some a)
    (h : k.syscall call = some path) (other : ∀ tid, call ≠ .waittid tid) :
    SameWaits k path.kernel := by
  -- the calls that change an object of a process and return
  have returns : ∀ {f : ProcId → Option Kernel},
      (∀ process last, f process = some last → last.history = k.history) →
      (k.currentProcess.bind fun process => (f process).map fun last => Path.done last 0) =
        some path → SameWaits k path.kernel := by
    intro f same h
    obtain ⟨process, -, h⟩ := Option.bind_eq_some_iff.mp h
    obtain ⟨last, eq, rfl⟩ := Option.map_eq_some_iff.mp h
    exact .of_history (same process last eq)
  cases call with
  | exit exitCode =>
      obtain ⟨last, exited, rfl⟩ := Option.map_eq_some_iff.mp h
      exact .exit current exited
  | yield =>
      simp only [syscall, suspendCurrentAndRunNext_eq current, Option.map_some,
        Option.some.injEq] at h
      exact h ▸ .of_history rfl
  | sleep now ms =>
      obtain ⟨task, isCurrent, h⟩ := Option.bind_eq_some_iff.mp h
      cases current.symm.trans isCurrent
      have timed : (k.addTimer (now + ms) a).current = some a := current
      rw [blockCurrentAndRunNext_eq timed, Option.map_some, Option.some.injEq] at h
      exact h ▸ .of_history rfl
  | kill pid signal =>
      simp only [syscall, sysKill] at h
      split at h
      all_goals
        rw [Option.some.injEq] at h
        exact h ▸ .of_history rfl
  | fork =>
      obtain ⟨pid, last, done, rfl⟩ := sysFork_eq current h
      exact .of_note done.history fun _ => rfl
  | exec found =>
      obtain ⟨process, -, h⟩ := Option.bind_eq_some_iff.mp h
      split at h
      · split at h
        · rw [Option.some.injEq] at h
          exact h ▸ .refl k
        · simp at h
      · rw [Option.some.injEq] at h
        exact h ▸ .refl k
  | waitpid pid =>
      rcases sysWaitpid_eq current h with ⟨value, rfl⟩ | ⟨i, child, allocator, -, -, -, rfl⟩
      · exact .refl k
      · exact .of_note rfl fun _ => rfl
  | threadCreate =>
      obtain ⟨tid, allocator, -, -, rfl⟩ := sysThreadCreate_eq current h
      exact .of_history rfl
  | waittid tid => exact absurd rfl (other tid)
  | mutexCreate blocking =>
      obtain ⟨process, -, rfl⟩ := Option.map_eq_some_iff.mp h
      exact .of_history rfl
  | mutexLock mutexId =>
      obtain ⟨process, -, h⟩ := Option.bind_eq_some_iff.mp h
      exact .of_history (mutexLock_history current h)
  | mutexUnlock mutexId => exact returns (fun _ _ eq => (mutexUnlock_history eq).1) h
  | semaphoreCreate resCount =>
      obtain ⟨process, -, rfl⟩ := Option.map_eq_some_iff.mp h
      exact .of_history rfl
  | semaphoreUp semId =>
      exact returns (f := fun process => k.semaphoreUp process semId)
        (fun _ _ eq => semaphoreUp_history eq) h
  | semaphoreDown semId =>
      obtain ⟨process, -, h⟩ := Option.bind_eq_some_iff.mp h
      exact .of_history (semaphoreDown_history current h)
  | condvarCreate =>
      obtain ⟨process, -, rfl⟩ := Option.map_eq_some_iff.mp h
      exact .of_history rfl
  | condvarSignal condvarId =>
      exact returns (f := fun process => k.condvarSignal process condvarId)
        (fun _ _ eq => condvarSignal_history eq) h
  | condvarWait condvarId mutexId =>
      obtain ⟨process, -, h⟩ := Option.bind_eq_some_iff.mp h
      exact .of_history (condvarWait_history current h)
  | file ready =>
      obtain ⟨process, -, h⟩ := Option.bind_eq_some_iff.mp h
      split at h
      · rw [Option.some.injEq] at h
        exact h ▸ .refl k
      · rw [suspendCurrentAndRunNext_eq current, Option.map_some, Option.some.injEq] at h
        exact h ▸ .of_history rfl
  | quiet =>
      simp only [syscall, Option.some.injEq] at h
      exact h ▸ .refl k

/-! ## Steps -/

theorem checkTimer_history {now : UInt64} {due : List TimerCondVar}
    (h : checkTimer now due k = some k') : k'.history = k.history ∧ k'.current = k.current := by
  induction due generalizing k with
  | nil =>
      simp only [checkTimer] at h
      split at h
      · simp at h
      · rw [Option.some.injEq] at h
        exact h ▸ ⟨rfl, rfl⟩
  | cons c rest ih =>
      simp only [checkTimer] at h
      split at h
      · have kept := ih h
        exact kept
      · simp at h

theorem resume_waits {frame : Frame} {ready : Bool} (current : k.current = some a)
    (own : ∀ q ∈ frame.processes, q = (k.tasks a).process)
    (h : k.resume (k.tasks a).process frame ready = some k') : SameWaits k k' := by
  unfold resume at h
  cases resume : frame.resume with
  | trapReturn =>
      simp only [resume, Option.some.injEq] at h
      exact h ▸ .refl k
  | trapEnd =>
      simp only [resume] at h
      exact .trapEnd current h
  | lock mutexId =>
      simp only [resume] at h
      obtain ⟨path, locked, h⟩ := Option.bind_eq_some_iff.mp h
      have same : SameWaits k path.kernel := .of_history (mutexLock_history current locked)
      refine same.trans (@SameWaits.afterPath k' a path ?_ h)
      have by_a : path.By a True k := mutexLock_by current own locked
      exact by_a.done_current
  | file =>
      simp only [resume] at h
      split at h
      · exact .trapEnd current h
      · rw [suspendCurrentAndRunNext_eq current, Option.some.injEq] at h
        exact h ▸ .of_history rfl

/-- A thread is waited for in a step of `sys_waittid` only. -/
theorem step_waits {event : Event} (frames : FramesOwn k) (h : k.step event = some k')
    (other : ∀ tid, event ≠ .syscall (.waittid tid)) : SameWaits k k' := by
  unfold step at h
  split at h
  · next ready idle =>
    unfold runTasks at h
    split at h
    · rw [Option.some.injEq] at h
      exact h ▸ .refl k
    · next task readyQueue queue =>
      have resumed : (({ k with readyQueue := readyQueue, current := some task } :
          Kernel).setTask task fun tcb =>
            { tcb with taskStatus := .running, frame := ⟨.trapReturn, []⟩ }).current = some task :=
        rfl
      have same := @resume_waits _ k' task (k.tasks task).frame ready resumed
        (by simpa using frames task) (by simpa using h)
      exact same
  · next task call isCurrent =>
    obtain ⟨path, called, h⟩ := Option.bind_eq_some_iff.mp h
    have same := syscall_waits isCurrent called fun tid eq => other tid (by rw [eq])
    refine same.trans (@SameWaits.afterPath k' task path ?_ h)
    have by_task : path.By task True k := syscall_by isCurrent (fun _ => trivial) called
    exact by_task.done_current
  · next task now due isCurrent =>
    obtain ⟨woken, checked, h⟩ := Option.bind_eq_some_iff.mp h
    obtain ⟨history, sameCurrent⟩ := checkTimer_history checked
    rw [suspendCurrentAndRunNext_eq (sameCurrent.trans isCurrent), Option.some.injEq] at h
    exact h ▸ .of_history history
  · next task isCurrent =>
    obtain ⟨process, -, h⟩ := Option.bind_eq_some_iff.mp h
    have signaled : SameWaits k (k.addSignal process sigSegv) := .of_history rfl
    exact signaled.trans (.trapEnd isCurrent h)
  · next task isCurrent =>
    obtain ⟨process, -, h⟩ := Option.bind_eq_some_iff.mp h
    have signaled : SameWaits k (k.addSignal process sigIll) := .of_history rfl
    exact signaled.trans (.trapEnd isCurrent h)
  · simp at h

end Kernel

end CoreFromDust.Os
