import CoreFromDust.Os.Proofs.Paths

/-!
# What all kernel code leaves alone

Apart from the exit of a thread, no kernel code takes a thread from the ready queue or clears a
signal. `Sparing` says so of a piece of code, and `Ends` tells how the path of a thread ends.
-/

namespace CoreFromDust.Os

variable {k k' k₁ : Kernel} {a : TaskId} {p : ProcId} {id : Nat} {path : Path}
  {processes : List ProcId}

/-- Threads are added at the back of the ready queue at most, and signals are only added. -/
structure Sparing (k k' : Kernel) : Prop where
  nextProc : k.nextProc ≤ k'.nextProc
  ready : k.readyQueue <+: k'.readyQueue
  signals : ∀ p, p < k.nextProc → ∀ mask, (k.procs p).signals &&& mask ≠ 0 →
    (k'.procs p).signals &&& mask ≠ 0

namespace Sparing

theorem refl (k : Kernel) : Sparing k k :=
  ⟨Nat.le_refl _, List.prefix_refl _, fun _ _ _ h => h⟩

theorem trans (first : Sparing k k₁) (second : Sparing k₁ k') : Sparing k k' :=
  ⟨Nat.le_trans first.nextProc second.nextProc, first.ready.trans second.ready,
    fun p below mask h => second.signals p (Nat.lt_of_lt_of_le below first.nextProc) mask
      (first.signals p below mask h)⟩

/-- The processes stay. -/
theorem of_procs (procs : k'.procs = k.procs) (nextProc : k'.nextProc = k.nextProc)
    (ready : k.readyQueue <+: k'.readyQueue) : Sparing k k' :=
  ⟨Nat.le_of_eq nextProc.symm, ready, fun p _ mask h => by rwa [procs]⟩

theorem setProc {f : Process → Process} (signals : ∀ mask, (k.procs p).signals &&& mask ≠ 0 →
    (f (k.procs p)).signals &&& mask ≠ 0) : Sparing k (k.setProc p f) := by
  refine ⟨Nat.le_refl _, List.prefix_refl _, ?_⟩
  intro q _ mask h
  rw [Kernel.setProc_procs]
  split
  · next same =>
    subst same
    exact signals mask h
  · exact h

theorem setMutex (mutex : Mutex) : Sparing k (k.setMutex p id mutex) := setProc fun _ h => h

theorem setSemaphore (sem : Semaphore) : Sparing k (k.setSemaphore p id sem) :=
  setProc fun _ h => h

theorem setCondvar (condvar : Condvar) : Sparing k (k.setCondvar p id condvar) :=
  setProc fun _ h => h

theorem wakeupTask (k : Kernel) (task : TaskId) : Sparing k (k.wakeupTask task) :=
  of_procs rfl rfl (List.prefix_append _ _)

theorem leave (k : Kernel) (a : TaskId) (status : TaskStatus) (frame : Frame) :
    Sparing k (k.leave a status frame) :=
  of_procs rfl rfl (List.prefix_refl _)

theorem suspend (k : Kernel) (a : TaskId) (frame : Frame) :
    Sparing k ((k.leave a .ready frame).addTask a) :=
  of_procs rfl rfl (List.prefix_append _ _)

/-- A pending signal stays when others are added. -/
theorem addSignal (k : Kernel) (p : ProcId) (flags : UInt32) : Sparing k (k.addSignal p flags) := by
  refine setProc ?_
  intro mask pending cleared
  have split : ((k.procs p).signals ||| flags) &&& mask =
      ((k.procs p).signals &&& mask) ||| (flags &&& mask) :=
    UInt32.toBitVec_inj.mp BitVec.and_or_distrib_right
  dsimp only at cleared
  rw [split, UInt32.or_eq_zero_iff] at cleared
  exact pending cleared.1

theorem forked {pid : Nat} (done : Forked p pid k k') : Sparing k k' := by
  refine ⟨?_, ?_, ?_⟩
  · rw [done.nextProc]
    exact Nat.le_succ _
  · rw [done.readyQueue]
    exact List.prefix_append _ _
  · intro q below mask h
    rwa [done.process q (Nat.ne_of_lt below)]

theorem reaped (k : Kernel) (a : TaskId) (i : Nat) (child : ProcId)
    (allocator : RecycleAllocator) : Sparing k (k.reaped a i child allocator) := by
  have taken : Sparing k (k.setProc (k.tasks a).process fun pcb =>
      { pcb with children := pcb.children.eraseIdx i }) := setProc fun _ h => h
  refine taken.trans ⟨Nat.le_refl _, List.prefix_refl _, ?_⟩
  intro q _ mask h
  rw [Kernel.reaped, Kernel.setProc_procs]
  split <;> exact h

theorem spawned (k : Kernel) (a : TaskId) (tid : Nat) (allocator : RecycleAllocator) :
    Sparing k (k.spawned a tid allocator) := by
  have created : Sparing k ((({ k with nextTask := k.nextTask + 1 } : Kernel).setTask k.nextTask
      fun _ => Task.new (k.tasks a).process tid).addTask k.nextTask) :=
    of_procs rfl rfl (List.prefix_append _ _)
  exact created.trans (setProc fun _ h => h)

end Sparing

/-! ## Where a path leaves the thread -/

/-- The thread has left the processor, and the kernel code that it goes on with does not start
its user code. -/
structure Parked (a : TaskId) (k k' : Kernel) : Prop where
  spares : Sparing k k'
  current : k'.current = none
  resume : (k'.tasks a).frame.resume ≠ .trapReturn

/-- The code spares the others, whether it returns or not. -/
def Path.Spares (a : TaskId) (k : Kernel) : Path → Prop
  | .done k' _ => Sparing k k'
  | .away k' => Parked a k k'

theorem Sparing.parked {status : TaskStatus} {frame : Frame} (spares : Sparing k k₁)
    (resume : frame.resume ≠ .trapReturn) : Parked a k (k₁.leave a status frame) :=
  ⟨spares.trans (.leave k₁ a status frame), rfl, by rwa [Kernel.leave, Kernel.setTask_self]⟩

theorem Sparing.suspended {frame : Frame} (spares : Sparing k k₁)
    (resume : frame.resume ≠ .trapReturn) : Parked a k ((k₁.leave a .ready frame).addTask a) :=
  ⟨spares.trans (.suspend k₁ a frame), rfl, by
    rwa [Kernel.addTask_tasks, Kernel.leave, Kernel.setTask_self]⟩

theorem Parked.after (spares : Sparing k k₁) (parked : Parked a k₁ k') : Parked a k k' :=
  ⟨spares.trans parked.spares, parked.current, parked.resume⟩

namespace Kernel

/-! ## Synchronization -/

theorem mutexLock_spares (current : k.current = some a)
    (h : k.mutexLock p id processes = some path) : path.Spares a k := by
  unfold mutexLock at h
  obtain ⟨mutex, -, h⟩ := Option.bind_eq_some_iff.mp h
  cases mutex with
  | blocking locked waitQueue =>
      cases locked with
      | true =>
          obtain ⟨task, isCurrent, h⟩ := Option.bind_eq_some_iff.mp h
          cases current.symm.trans isCurrent
          have still : (k.setMutex p id (.blocking true (waitQueue ++ [a]))).current = some a :=
            current
          rw [blockCurrentAndRunNext_eq still, Option.map_some, Option.some.injEq] at h
          exact h ▸ (Sparing.setMutex _).parked (by simp)
      | false =>
          rw [Option.some.injEq] at h
          exact h ▸ Sparing.setMutex _
  | spin locked =>
      cases locked with
      | true =>
          rw [suspendCurrentAndRunNext_eq current, Option.map_some, Option.some.injEq] at h
          exact h ▸ (Sparing.refl k).suspended (by simp)
      | false =>
          rw [Option.some.injEq] at h
          exact h ▸ Sparing.setMutex _

theorem mutexUnlock_spares (h : k.mutexUnlock p id = some k') :
    Sparing k k' ∧ k'.current = k.current := by
  unfold mutexUnlock at h
  obtain ⟨mutex, -, h⟩ := Option.bind_eq_some_iff.mp h
  split at h
  · rw [Option.some.injEq] at h
    exact h ▸ ⟨(Sparing.setMutex _).trans (.wakeupTask _ _), rfl⟩
  · rw [Option.some.injEq] at h
    exact h ▸ ⟨.setMutex _, rfl⟩
  · simp at h
  · rw [Option.some.injEq] at h
    exact h ▸ ⟨.setMutex _, rfl⟩
  · simp at h

theorem semaphoreUp_spares (h : k.semaphoreUp p id = some k') : Sparing k k' := by
  unfold semaphoreUp at h
  obtain ⟨sem, -, rfl⟩ := Option.map_eq_some_iff.mp h
  split
  · cases sem.waitQueue with
    | nil => exact .setSemaphore _
    | cons task waitQueue => exact (Sparing.setSemaphore _).trans (.wakeupTask _ _)
  · exact .setSemaphore _

theorem semaphoreDown_spares (current : k.current = some a)
    (h : k.semaphoreDown p id processes = some path) : path.Spares a k := by
  unfold semaphoreDown at h
  obtain ⟨sem, -, h⟩ := Option.bind_eq_some_iff.mp h
  split at h
  · obtain ⟨task, isCurrent, h⟩ := Option.bind_eq_some_iff.mp h
    cases current.symm.trans isCurrent
    obtain ⟨waitQueue, -, h⟩ := Option.bind_eq_some_iff.mp h
    have still : (k.setSemaphore p id ⟨sem.count - 1, waitQueue⟩).current = some a := current
    rw [blockCurrentAndRunNext_eq still, Option.map_some, Option.some.injEq] at h
    exact h ▸ (Sparing.setSemaphore _).parked (by simp)
  · rw [Option.some.injEq] at h
    exact h ▸ Sparing.setSemaphore _

theorem condvarSignal_spares (h : k.condvarSignal p id = some k') : Sparing k k' := by
  unfold condvarSignal at h
  obtain ⟨condvar, -, rfl⟩ := Option.map_eq_some_iff.mp h
  cases condvar.waitQueue with
  | nil => exact .refl k
  | cons task waitQueue => exact (Sparing.setCondvar _).trans (.wakeupTask _ _)

theorem condvarWait_spares {condvarId mutexId : Nat} (current : k.current = some a)
    (h : k.condvarWait p condvarId mutexId processes = some path) : path.Spares a k := by
  unfold condvarWait at h
  obtain ⟨condvar, -, h⟩ := Option.bind_eq_some_iff.mp h
  obtain ⟨unlocked, unlock, h⟩ := Option.bind_eq_some_iff.mp h
  obtain ⟨spares, sameCurrent⟩ := mutexUnlock_spares unlock
  obtain ⟨task, isCurrent, h⟩ := Option.bind_eq_some_iff.mp h
  have still := sameCurrent.trans current
  cases still.symm.trans isCurrent
  have queued : (unlocked.setCondvar p condvarId ⟨condvar.waitQueue ++ [a]⟩).current = some a :=
    still
  rw [blockCurrentAndRunNext_eq queued, Option.map_some, Option.some.injEq] at h
  exact h ▸ (spares.trans (.setCondvar _)).parked (by simp)

/-! ## System calls -/

/-- Every system call but `sys_exit` spares the others. -/
theorem syscall_spares {call : Syscall} (current : k.current = some a)
    (h : k.syscall call = some path) (notExit : ∀ exitCode, call ≠ .exit exitCode) :
    path.Spares a k := by
  -- the calls that change an object of a process and return
  have returns : ∀ {f : ProcId → Option Kernel},
      (∀ process last, f process = some last → Sparing k last) →
      (k.currentProcess.bind fun process => (f process).map fun last => Path.done last 0) =
        some path → path.Spares a k := by
    intro f spares h
    obtain ⟨process, -, h⟩ := Option.bind_eq_some_iff.mp h
    obtain ⟨last, eq, rfl⟩ := Option.map_eq_some_iff.mp h
    exact spares process last eq
  cases call with
  | exit exitCode => exact absurd rfl (notExit exitCode)
  | yield =>
      simp only [syscall, suspendCurrentAndRunNext_eq current, Option.map_some,
        Option.some.injEq] at h
      exact h ▸ (Sparing.refl k).suspended (by simp)
  | sleep now ms =>
      obtain ⟨task, isCurrent, h⟩ := Option.bind_eq_some_iff.mp h
      cases current.symm.trans isCurrent
      have timed : (k.addTimer (now + ms) a).current = some a := current
      have added : Sparing k (k.addTimer (now + ms) a) := .of_procs rfl rfl (List.prefix_refl _)
      rw [blockCurrentAndRunNext_eq timed, Option.map_some, Option.some.injEq] at h
      exact h ▸ added.parked (by simp)
  | kill pid signal =>
      simp only [syscall, sysKill] at h
      split at h
      · rw [Option.some.injEq] at h
        exact h ▸ Sparing.addSignal k _ signal
      · rw [Option.some.injEq] at h
        exact h ▸ Sparing.refl k
  | fork =>
      obtain ⟨pid, last, done, rfl⟩ := sysFork_eq current h
      exact .forked done
  | exec found =>
      obtain ⟨process, -, h⟩ := Option.bind_eq_some_iff.mp h
      split at h
      · split at h
        · rw [Option.some.injEq] at h
          exact h ▸ Sparing.refl k
        · simp at h
      · rw [Option.some.injEq] at h
        exact h ▸ Sparing.refl k
  | waitpid pid =>
      rcases sysWaitpid_eq current h with ⟨value, rfl⟩ | ⟨i, child, allocator, -, -, -, rfl⟩
      · exact Sparing.refl k
      · exact Sparing.reaped k a i child allocator
  | threadCreate =>
      obtain ⟨tid, allocator, -, -, rfl⟩ := sysThreadCreate_eq current h
      exact Sparing.spawned k a tid allocator
  | waittid tid =>
      rcases sysWaittid_eq current h with ⟨value, rfl⟩ | ⟨u, exitCode, -, -, rfl⟩
      · exact Sparing.refl k
      · have noted : Sparing k
            { k with history := .waited (k.tasks a).process tid :: k.history } :=
          .of_procs rfl rfl (List.prefix_refl _)
        exact noted.trans (.setProc fun _ h => h)
  | mutexCreate blocking =>
      obtain ⟨process, -, rfl⟩ := Option.map_eq_some_iff.mp h
      exact Sparing.setProc fun _ h => h
  | mutexLock mutexId =>
      obtain ⟨process, -, h⟩ := Option.bind_eq_some_iff.mp h
      exact mutexLock_spares current h
  | mutexUnlock mutexId => exact returns (fun _ _ eq => (mutexUnlock_spares eq).1) h
  | semaphoreCreate resCount =>
      obtain ⟨process, -, rfl⟩ := Option.map_eq_some_iff.mp h
      exact Sparing.setProc fun _ h => h
  | semaphoreUp semId =>
      exact returns (f := fun process => k.semaphoreUp process semId)
        (fun _ _ eq => semaphoreUp_spares eq) h
  | semaphoreDown semId =>
      obtain ⟨process, -, h⟩ := Option.bind_eq_some_iff.mp h
      exact semaphoreDown_spares current h
  | condvarCreate =>
      obtain ⟨process, -, rfl⟩ := Option.map_eq_some_iff.mp h
      exact Sparing.setProc fun _ h => h
  | condvarSignal condvarId =>
      exact returns (f := fun process => k.condvarSignal process condvarId)
        (fun _ _ eq => condvarSignal_spares eq) h
  | condvarWait condvarId mutexId =>
      obtain ⟨process, -, h⟩ := Option.bind_eq_some_iff.mp h
      exact condvarWait_spares current h
  | file ready =>
      obtain ⟨process, -, h⟩ := Option.bind_eq_some_iff.mp h
      split at h
      · rw [Option.some.injEq] at h
        exact h ▸ Sparing.refl k
      · rw [suspendCurrentAndRunNext_eq current, Option.map_some, Option.some.injEq] at h
        exact h ▸ (Sparing.refl k).suspended (by simp)
  | quiet =>
      simp only [syscall, Option.some.injEq] at h
      exact h ▸ Sparing.refl k

/-! ## Paths -/

/-- How a path of the current thread ends: at the end of `trap_handler`, which looks at the
signals, away from the processor, or in the exit that the thread asked for. -/
inductive Ends (a : TaskId) (k k' : Kernel) : Prop
  | trapEnd {last} (spares : Sparing k last) (moves : Moves a True k last)
      (current : last.current = some a) (ends : last.trapEnd = some k') : Ends a k k'
  | away (parked : Parked a k k') : Ends a k k'
  | exit {exitCode} (current : k.current = some a)
      (exits : k.exitCurrentAndRunNext exitCode = some k') : Ends a k k'

theorem Ends.of_path (by_a : path.By a True k) (spares : path.Spares a k)
    (h : afterPath path = some k') : Ends a k k' := by
  cases path with
  | done last value => exact .trapEnd spares by_a.1 by_a.2 h
  | away last =>
      simp only [afterPath, Option.some.injEq] at h
      exact .away (h ▸ spares)

theorem checkTimer_spares {now : UInt64} {due : List TimerCondVar}
    (h : checkTimer now due k = some k') : Sparing k k' := by
  induction due generalizing k with
  | nil =>
      simp only [checkTimer] at h
      split at h
      · simp at h
      · rw [Option.some.injEq] at h
        exact h ▸ .refl k
  | cons c rest ih =>
      simp only [checkTimer] at h
      split at h
      · have woken : Sparing k { k.wakeupTask c.task with timers := k.timers.erase c } :=
          .of_procs rfl rfl (List.prefix_append _ _)
        exact woken.trans (ih h)
      · simp at h

/-- A trap of the current thread. -/
theorem trap_ends {event : Event} (current : k.current = some a) (h : k.step event = some k') :
    Ends a k k' := by
  unfold step at h
  split at h
  · next idle =>
    rw [current] at idle
    simp at idle
  · next task call isCurrent =>
    cases current.symm.trans isCurrent
    obtain ⟨path, called, h⟩ := Option.bind_eq_some_iff.mp h
    by_cases isExit : ∃ exitCode, call = .exit exitCode
    · obtain ⟨exitCode, rfl⟩ := isExit
      obtain ⟨last, exited, rfl⟩ := Option.map_eq_some_iff.mp called
      simp only [afterPath, Option.some.injEq] at h
      exact .exit current (h ▸ exited)
    · exact .of_path (syscall_by current (fun _ => trivial) called)
        (syscall_spares current called fun exitCode eq => isExit ⟨exitCode, eq⟩) h
  · next task now due isCurrent =>
    cases current.symm.trans isCurrent
    obtain ⟨woken, checked, h⟩ := Option.bind_eq_some_iff.mp h
    obtain ⟨-, still⟩ : Moves a True k woken ∧ _ := checkTimer_moves current checked
    rw [suspendCurrentAndRunNext_eq still, Option.some.injEq] at h
    exact .away (h ▸ (checkTimer_spares checked).suspended (by simp))
  · next task isCurrent =>
    cases current.symm.trans isCurrent
    obtain ⟨process, -, h⟩ := Option.bind_eq_some_iff.mp h
    exact .trapEnd (.addSignal k process sigSegv) (addSignal_move sigSegv).moves current h
  · next task isCurrent =>
    cases current.symm.trans isCurrent
    obtain ⟨process, -, h⟩ := Option.bind_eq_some_iff.mp h
    exact .trapEnd (.addSignal k process sigIll) (addSignal_move sigIll).moves current h
  · simp at h

/-- The kernel when the idle loop switches to the thread. -/
def dispatched (k : Kernel) (a : TaskId) (readyQueue : List TaskId) : Kernel :=
  ({ k with readyQueue := readyQueue, current := some a } : Kernel).setTask a fun tcb =>
    { tcb with taskStatus := .running, frame := ⟨.trapReturn, []⟩ }

/-- An iteration of the idle loop. -/
theorem idle_ends {event : Event} (frames : FramesOwn k) (idle : k.current = none)
    (h : k.step event = some k') : (k.readyQueue = [] ∧ k' = k) ∨
      ∃ a readyQueue, k.readyQueue = a :: readyQueue ∧
        (((k.tasks a).frame.resume = .trapReturn ∧ k' = k.dispatched a readyQueue) ∨
          ((k.tasks a).frame.resume ≠ .trapReturn ∧ Ends a (k.dispatched a readyQueue) k')) := by
  unfold step at h
  split at h
  · next ready _ =>
    unfold runTasks at h
    split at h
    · next queue =>
      rw [Option.some.injEq] at h
      exact .inl ⟨queue, h.symm⟩
    · next a readyQueue queue =>
      refine .inr ⟨a, readyQueue, queue, ?_⟩
      change (k.dispatched a readyQueue).resume _ _ _ = some k' at h
      have current : (k.dispatched a readyQueue).current = some a := rfl
      have process : ((k.dispatched a readyQueue).tasks a).process = (k.tasks a).process := by
        rw [dispatched, setTask_self]
      have own := process ▸ frames a
      unfold resume at h
      cases resume : (k.tasks a).frame.resume with
      | trapReturn =>
          simp only [resume, Option.some.injEq] at h
          exact .inl ⟨rfl, h.symm⟩
      | trapEnd =>
          simp only [resume] at h
          exact .inr ⟨by simp, .trapEnd (.refl _) .refl current h⟩
      | lock mutexId =>
          simp only [resume] at h
          obtain ⟨path, locked, h⟩ := Option.bind_eq_some_iff.mp h
          refine .inr ⟨by simp, .of_path ?_ (mutexLock_spares current locked) h⟩
          exact mutexLock_by current own (process ▸ locked)
      | file =>
          simp only [resume] at h
          refine .inr ⟨by simp, ?_⟩
          split at h
          · exact .trapEnd (.refl _) .refl current h
          · rw [suspendCurrentAndRunNext_eq current, Option.some.injEq] at h
            exact .away (h ▸ (Sparing.refl _).suspended (by simp [resume]))
  -- the other events are traps of a current thread
  · next isCurrent => simp [idle] at isCurrent
  · next isCurrent => simp [idle] at isCurrent
  · next isCurrent => simp [idle] at isCurrent
  · next isCurrent => simp [idle] at isCurrent
  · simp at h

/-! ## Exits -/

theorem exitProcess_signals {exitCode : Int32} (h : k.exitProcess p exitCode = some k')
    (q : ProcId) : (k'.procs q).signals = (k.procs q).signals := by
  unfold exitProcess at h
  split at h
  · simp at h
  · obtain ⟨listed, removed, h⟩ := Option.bind_eq_some_iff.mp h
    obtain ⟨recycled, recycle, rfl⟩ := Option.map_eq_some_iff.mp h
    have kept : listed.procs = k.procs := by
      unfold removeFromPid2process at removed
      split at removed
      · rw [Option.some.injEq] at removed
        exact removed ▸ rfl
      · simp at removed
    obtain ⟨allocator, rfl, -⟩ := recycleRes_eq recycle
    obtain ⟨procs, adopted, each⟩ := adoptChildren_eq (listed.procs p).children
      (listed.setProc p fun pcb => { pcb with isZombie := true, exitCode := exitCode })
    have zombie : (procs q).signals = (k.procs q).signals := by
      rw [each q, setProc_procs, kept]
      split <;> rfl
    rw [removeInactiveTasks_eq, adopted]
    simp only [setProc_procs]
    split <;> exact zombie

/-- An exit leaves the signals alone. -/
theorem exit_signals {exitCode : Int32} (h : k.exitCurrentAndRunNext exitCode = some k')
    (q : ProcId) : (k'.procs q).signals = (k.procs q).signals := by
  unfold exitCurrentAndRunNext at h
  obtain ⟨task, -, h⟩ := Option.bind_eq_some_iff.mp h
  obtain ⟨process, -, h⟩ := Option.bind_eq_some_iff.mp h
  obtain ⟨tid, -, h⟩ := Option.bind_eq_some_iff.mp h
  obtain ⟨recorded, record, h⟩ := Option.bind_eq_some_iff.mp h
  have same : (recorded.procs q).signals = (k.procs q).signals := by
    obtain ⟨allocator, -, rfl⟩ := Option.map_eq_some_iff.mp record
    rw [setProc_procs]
    split <;> rfl
  split at h
  · rw [exitProcess_signals h, same]
  · rw [Option.some.injEq] at h
    exact h ▸ same

end Kernel

end CoreFromDust.Os
