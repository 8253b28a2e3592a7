import CoreFromDust.Os.ExitCodes
import CoreFromDust.Os.Proofs.WaitHistory

/-!
# The number of threads of a process

`thread_count` is the length of `tasks`. `sys_waittid` empties a slot and leaves the length as it
is, and `sys_thread_create` puts a thread with a recycled id into a slot that is already counted. So
the length is the number of threads until one of these happens, and differs from it at once when it
does; then `fork` and `exec` may panic in a process with one thread.
-/

namespace CoreFromDust.Os

variable {k k' : Kernel} {a : TaskId} {p : ProcId} {tid : Nat} {exitCode : Int32}
  {reused : ProcId → Nat}

namespace Kernel

/-- `ProcessControlBlockInner::thread_count`. -/
def threadCount (k : Kernel) (p : ProcId) : Nat := (k.procs p).tasks.length

/-- How many threads of the process have been created. -/
def created (k : Kernel) (p : ProcId) : Nat :=
  (List.range k.nextTask).countP fun t => (k.tasks t).process = p

/-- The threads that have been created and not been waited for. When the process exits, the threads
other than the main thread end with it. -/
def existingThreads (k : Kernel) (p : ProcId) : Nat :=
  if (k.procs p).isZombie then 1 else k.created p - k.waited p

end Kernel

/-- The step does not create a thread with a recycled id, and does not wait for a thread that has
exited. -/
def KeepsCount (k : Kernel) (event : Event) : Prop :=
  (event = .syscall .threadCreate → ∀ p, k.currentProcess = some p →
    (k.procs p).taskResAllocator.recycled = []) ∧
  ∀ tid, event = .syscall (.waittid tid) → ∀ p u, k.currentProcess = some p →
    (k.procs p).tasks[tid]? = some (some u) → (k.tasks u).exitCode = none

/-! ## Threads that have been created -/

theorem created_congr (nextTask : k'.nextTask = k.nextTask)
    (process : ∀ t, (k'.tasks t).process = (k.tasks t).process) (p : ProcId) :
    k'.created p = k.created p := by
  simp only [Kernel.created, nextTask, process]

/-- One more thread. -/
theorem created_succ (nextTask : k'.nextTask = k.nextTask + 1)
    (process : ∀ t, t < k.nextTask → (k'.tasks t).process = (k.tasks t).process) (p : ProcId) :
    k'.created p = k.created p + if (k'.tasks k.nextTask).process = p then 1 else 0 := by
  have old : (List.range k.nextTask).countP (fun t => (k'.tasks t).process = p) = k.created p := by
    refine List.countP_congr fun t mem => ?_
    rw [process t (List.mem_range.mp mem)]
  rw [Kernel.created, nextTask, List.range_succ, List.countP_append, old, List.countP_singleton]
  simp only [decide_eq_true_eq]

/-- A process that is not there has no threads. -/
theorem created_unused (inv : Inv k) (p : ProcId) (unused : k.nextProc ≤ p) : k.created p = 0 := by
  refine List.countP_eq_zero.mpr fun t mem => ?_
  have below := inv.process t (List.mem_range.mp mem)
  simp only [decide_eq_true_eq]
  exact Nat.ne_of_lt (Nat.lt_of_lt_of_le below unused)

/-! ## The length of `tasks` -/

/-- The threads of a process have the ids below the length of `tasks`; `reused` tells how many of
them have the id of an earlier one. A zombie has its main thread. -/
structure Counted (reused : ProcId → Nat) (k : Kernel) : Prop where
  alive : ∀ p, p < k.nextProc → (k.procs p).isZombie = false →
    0 < k.threadCount p ∧ k.threadCount p = (k.procs p).taskResAllocator.current ∧
      k.created p = k.threadCount p + reused p
  zombie : ∀ p, p < k.nextProc → (k.procs p).isZombie = true → (k.procs p).dropped = false →
    k.threadCount p = 1
  unused : ∀ p, k.nextProc ≤ p → reused p = 0

namespace Counted

/-- A step that creates no thread and no process. -/
theorem keep (counted : Counted reused k) (nextProc : k'.nextProc = k.nextProc)
    (created : ∀ p, k'.created p = k.created p)
    (same : ∀ p, p < k.nextProc → (k'.procs p).isZombie = (k.procs p).isZombie ∧
      ((k.procs p).isZombie = true ∧ (k'.procs p).dropped = true ∨
        (k'.procs p).dropped = (k.procs p).dropped ∧ k'.threadCount p = k.threadCount p ∧
          (k'.procs p).taskResAllocator.current = (k.procs p).taskResAllocator.current)) :
    Counted reused k' := by
  refine ⟨?_, ?_, ?_⟩
  · intro p below alive
    rw [nextProc] at below
    obtain ⟨isZombie, ⟨zombie, -⟩ | ⟨-, length, current⟩⟩ := same p below
    · rw [isZombie, zombie] at alive
      simp at alive
    · rw [isZombie] at alive
      rw [created, length, current]
      exact counted.alive p below alive
  · intro p below zombie here
    rw [nextProc] at below
    obtain ⟨isZombie, ⟨-, gone⟩ | ⟨dropped, length, -⟩⟩ := same p below
    · rw [gone] at here
      simp at here
    · rw [isZombie] at zombie
      rw [dropped] at here
      rw [length]
      exact counted.zombie p below zombie here
  · intro p least
    rw [nextProc] at least
    exact counted.unused p least

/-- A step that moves threads between places at most. -/
theorem sameThreads (counted : Counted reused k) (same : SameThreads k k')
    (dropped : ∀ p, (k'.procs p).dropped = (k.procs p).dropped) : Counted reused k' := by
  refine counted.keep same.nextProc (created_congr same.nextTask same.process) ?_
  intro p _
  refine ⟨same.isZombie p, .inr ⟨dropped p, ?_, ?_⟩⟩
  · rw [Kernel.threadCount, Kernel.threadCount, same.tasks]
  · rw [same.allocator]

/-- A new thread has a new id or a recycled one. -/
theorem spawn (counted : Counted reused k) (inv : Inv k) (current : k.current = some a)
    {allocator : RecycleAllocator}
    (alloc : (k.procs (k.tasks a).process).taskResAllocator.alloc = (tid, allocator)) :
    Counted (fun q => reused q + if q = (k.tasks a).process ∧
      (k.procs (k.tasks a).process).taskResAllocator.recycled ≠ [] then 1 else 0)
      (k.spawned a tid allocator) := by
  obtain ⟨below, isAlive⟩ := inv.current_process current
  obtain ⟨positive, length, total⟩ := counted.alive _ below isAlive
  have created : ∀ q, (k.spawned a tid allocator).created q =
      k.created q + if (k.tasks a).process = q then 1 else 0 := by
    intro q
    have eq : (k.spawned a tid allocator).created q = k.created q +
        if ((k.spawned a tid allocator).tasks k.nextTask).process = q then 1 else 0 := by
      refine created_succ rfl (fun t old => ?_) q
      simp only [Kernel.spawned, Kernel.setProc_tasks, Kernel.addTask_tasks, Kernel.setTask_tasks,
        if_neg (Nat.ne_of_lt old)]
    rw [eq]
    simp only [Kernel.spawned, Kernel.setProc_tasks, Kernel.addTask_tasks, Kernel.setTask_self,
      Task.new]
  refine ⟨?_, ?_, ?_⟩
  · intro q old alive
    rw [created]
    simp only [Kernel.threadCount, Kernel.spawned, Kernel.setProc_procs, Kernel.addTask_procs,
      Kernel.setTask_procs] at alive positive length total ⊢
    split at alive
    · next same =>
      subst same
      simp only [if_true, List.length_set, List.length_append, List.length_replicate, true_and]
      -- a recycled id has a slot, a new one is the length
      unfold RecycleAllocator.alloc at alloc
      split at alloc
      · next id rest top =>
        rw [Prod.mk.injEq] at alloc
        obtain ⟨rfl, rfl⟩ := alloc
        have small := (inv.allocator (k.tasks a).process).bound id (by rw [top]; simp)
        simp only [top, ne_eq, reduceCtorEq, not_false_eq_true, if_true]
        omega
      · next top =>
        rw [Prod.mk.injEq] at alloc
        obtain ⟨rfl, rfl⟩ := alloc
        simp only [top, ne_eq, not_true_eq_false, if_false]
        omega
    · next other =>
      rw [if_neg other, if_neg fun eq => other eq.symm, if_neg fun both => other both.1]
      exact counted.alive q old alive
  · intro q old zombie here
    simp only [Kernel.threadCount, Kernel.spawned, Kernel.setProc_procs, Kernel.addTask_procs,
      Kernel.setTask_procs] at zombie here ⊢
    split at zombie
    · next same =>
      subst same
      rw [isAlive] at zombie
      simp at zombie
    · next other =>
      rw [if_neg other] at here ⊢
      exact counted.zombie q old zombie here
  · intro q least
    rw [if_neg fun both => Nat.ne_of_gt (Nat.lt_of_lt_of_le below least) both.1]
    exact counted.unused q least

theorem collect (counted : Counted reused k) : Counted reused
    (({ k with history := .waited p tid :: k.history } : Kernel).setProc p
      fun pcb => { pcb with tasks := pcb.tasks.set tid none }) := by
  refine counted.keep rfl (fun _ => rfl) ?_
  intro q _
  simp only [Kernel.threadCount, Kernel.setProc_procs]
  split
  · exact ⟨rfl, .inr ⟨rfl, List.length_set, rfl⟩⟩
  · exact ⟨rfl, .inr ⟨rfl, rfl, rfl⟩⟩

theorem fork (counted : Counted reused k) (inv : Inv k) {pid : Nat} (below : p < k.nextProc)
    (done : Forked p pid k k') : Counted reused k' := by
  have isNew := done.newProcess (Nat.ne_of_lt below)
  have created : ∀ q, k'.created q = k.created q + if k.nextProc = q then 1 else 0 := by
    intro q
    rw [created_succ done.nextTask (fun t old => by rw [done.task t (Nat.ne_of_lt old)]),
      done.newTask]
    rfl
  have least : ∀ {q}, q < k'.nextProc → q = k.nextProc ∨ q < k.nextProc := by
    intro q inside
    rw [done.nextProc] at inside
    exact (Nat.lt_or_eq_of_le (Nat.le_of_lt_succ inside)).symm
  refine ⟨?_, ?_, ?_⟩
  · intro q inside alive
    rw [created]
    rcases least inside with rfl | old
    · rw [Kernel.threadCount, isNew, created_unused inv _ (Nat.le_refl _),
        counted.unused _ (Nat.le_refl _), if_pos rfl]
      exact ⟨Nat.one_pos, rfl, rfl⟩
    · rw [Kernel.threadCount, done.process q (Nat.ne_of_lt old), if_neg (Nat.ne_of_gt old)]
      rw [done.process q (Nat.ne_of_lt old)] at alive
      exact counted.alive q old alive
  · intro q inside zombie here
    rcases least inside with rfl | old
    · rw [Kernel.threadCount, isNew]
      rfl
    · rw [done.process q (Nat.ne_of_lt old)] at zombie here
      rw [Kernel.threadCount, done.process q (Nat.ne_of_lt old)]
      exact counted.zombie q old zombie here
  · intro q outside
    rw [done.nextProc] at outside
    exact counted.unused q (Nat.le_of_succ_le outside)

theorem reap (counted : Counted reused k) {i : Nat} {child : ProcId} {allocator : RecycleAllocator}
    (zombie : (k.procs child).isZombie = true) : Counted reused (k.reaped a i child allocator) := by
  refine counted.keep rfl (fun _ => rfl) ?_
  intro q _
  simp only [Kernel.threadCount, Kernel.reaped, Kernel.setProc_procs]
  split
  · next same =>
    subst same
    refine ⟨?_, .inl ⟨zombie, rfl⟩⟩
    split <;> rfl
  · split <;> exact ⟨rfl, .inr ⟨rfl, rfl, rfl⟩⟩

theorem exit (counted : Counted reused k) {allocator : RecycleAllocator}
    (dealloc : (k.procs (k.tasks a).process).taskResAllocator.dealloc tid = some allocator) :
    Counted reused (k.exited a tid exitCode allocator) := by
  have sameCurrent := RecycleAllocator.dealloc_current dealloc
  refine counted.keep rfl (created_congr rfl fun t => ?_) ?_
  · rw [Kernel.exited_tasks]
    split <;> rfl
  · intro q _
    simp only [Kernel.threadCount, Kernel.exited, Kernel.setProc_procs, Kernel.setTask_procs]
    split
    · next same => exact ⟨rfl, .inr ⟨rfl, rfl, by rw [same]; exact sameCurrent⟩⟩
    · exact ⟨rfl, .inr ⟨rfl, rfl, rfl⟩⟩

theorem terminate (counted : Counted reused k) (below : p < k.nextProc)
    (isAlive : (k.procs p).isZombie = false) (done : Terminated p exitCode k k') :
    Counted reused k' := by
  have created : ∀ q, k'.created q = k.created q :=
    created_congr done.nextTask fun t => by rw [done.task]
  refine ⟨?_, ?_, ?_⟩
  · intro q inside alive
    rw [done.nextProc] at inside
    rw [done.isZombie] at alive
    split at alive
    · simp at alive
    · next other =>
      rw [created, Kernel.threadCount, done.tasks, if_neg other, done.other q other]
      exact counted.alive q inside alive
  · intro q inside zombie here
    rw [done.nextProc] at inside
    rw [(done.ids q).2] at here
    rw [done.isZombie] at zombie
    rw [Kernel.threadCount, done.tasks]
    split at zombie
    · next same =>
      subst same
      obtain ⟨positive, -⟩ := counted.alive q below isAlive
      rw [if_pos rfl, List.length_take]
      exact Nat.min_eq_left positive
    · next other =>
      rw [if_neg other]
      exact counted.zombie q inside zombie here
  · intro q least
    rw [done.nextProc] at least
    exact counted.unused q least

end Counted

/-- Every move but the creation of a thread keeps the numbers of threads. -/
theorem Move.counted (inv : Inv k) (counted : Counted reused k) (move : Move a False k k') :
    Counted reused k' := by
  refine move.threads_cases ?_ ?_ ?_ ?_ ?_ ?_
  · intro k₁ same _ dropped
    exact counted.sameThreads same dropped
  · intro tid
    exact counted.collect
  · intro k₁ pid current done
    exact counted.fork inv (inv.current_process current).1 done
  · intro i child allocator zombie
    exact counted.reap zombie
  · intro tid exitCode allocator _ _ dealloc
    exact counted.exit dealloc
  · intro k₁ tid exitCode allocator current _ dealloc done
    obtain ⟨below, isAlive⟩ := inv.current_process current
    refine (counted.exit dealloc).terminate below ?_ done
    simp only [Kernel.exited, Kernel.setProc_self, Kernel.setTask_procs]
    exact isAlive

theorem Moves.counted (inv : Inv k) (counted : Counted reused k) (moves : Moves a False k k') :
    Counted reused k' := by
  induction moves with
  | refl => exact counted
  | tail moves move ih => exact move.counted (Moves.inv inv moves) ih

/-- The next state after a step, as far as the number of threads is concerned. -/
theorem Counted.step {event : Event} (counted : Counted reused k) (inv : Inv k)
    (frames : k.FramesOwn) (h : k.step event = some k') :
    Counted (fun q => reused q + if event = .syscall .threadCreate ∧ k.currentProcess = some q ∧
      (k.procs q).taskResAllocator.recycled ≠ [] then 1 else 0) k' := by
  by_cases creates : event = .syscall .threadCreate
  · obtain ⟨a, tid, allocator, current, upgraded, alloc, moves⟩ :=
      Kernel.step_threadCreate (creates ▸ h)
    have spawned := moves.counted (inv.spawn current alloc) (counted.spawn inv current alloc)
    have same : ∀ q, (q = (k.tasks a).process ∧
        (k.procs (k.tasks a).process).taskResAllocator.recycled ≠ []) ↔
        event = .syscall .threadCreate ∧ k.currentProcess = some q ∧
          (k.procs q).taskResAllocator.recycled ≠ [] := by
      intro q
      rw [upgraded, Option.some.injEq]
      constructor
      · rintro ⟨rfl, recycled⟩
        exact ⟨creates, rfl, recycled⟩
      · rintro ⟨-, rfl, recycled⟩
        exact ⟨rfl, recycled⟩
    simpa only [same] using spawned
  · have none : ∀ q, ¬ (event = .syscall .threadCreate ∧ k.currentProcess = some q ∧
        (k.procs q).taskResAllocator.recycled ≠ []) := fun q all => creates all.1
    simp only [none, if_false, Nat.add_zero]
    rcases Kernel.step_moves frames h with rfl | ⟨a, -, moves⟩
    · exact counted
    · rw [eq_false creates] at moves
      exact moves.counted inv counted

theorem counted_start : Counted (fun _ => 0) Kernel.start := by
  have only : ∀ p, p < Kernel.start.nextProc → p = 0 := fun p below => Nat.lt_one_iff.mp below
  refine ⟨?_, ?_, fun _ _ => rfl⟩
  · intro p below _
    obtain rfl := only p below
    exact ⟨by decide, rfl, rfl⟩
  · intro p below zombie
    obtain rfl := only p below
    simp [Kernel.start, Process.new] at zombie

/-! ## Threads that are waited for -/

/-- `sys_waittid` of another thread that has exited takes its exit code. -/
theorem Kernel.sysWaittid_exited {u : TaskId} (inv : Inv k) (current : k.current = some a)
    (isProcess : k.currentProcess = some (k.tasks a).process)
    (slot : (k.procs (k.tasks a).process).tasks[tid]? = some (some u))
    (exited : (k.tasks u).exitCode = some exitCode) :
    k.sysWaittid tid = some (.done
      (({ k with history := .waited (k.tasks a).process tid :: k.history } : Kernel).setProc
        (k.tasks a).process fun pcb => { pcb with tasks := pcb.tasks.set tid none })
      exitCode.toInt) := by
  obtain ⟨below, isLive, -⟩ := inv.current current
  obtain ⟨own, res, ownSlot, -⟩ := inv.slot a below isLive
  have upgraded : k.upgrade (k.tasks a).process = some (k.tasks a).process := by
    rw [currentProcess, current] at isProcess
    exact isProcess
  have differ : own ≠ tid := by
    rintro rfl
    rw [ownSlot, Option.some.injEq, Option.some.injEq] at slot
    rw [← slot, isLive.1] at exited
    simp at exited
  refine Option.bind_eq_some_iff.mpr ⟨a, current, Option.bind_eq_some_iff.mpr
    ⟨(k.tasks a).process, upgraded, Option.bind_eq_some_iff.mpr ⟨own, res, ?_⟩⟩⟩
  rw [if_neg differ, slot, Option.map_some]
  simp only [exited]

/-- A step waits for the thread whose slot `sys_waittid` names, if it has exited. -/
theorem Kernel.step_waittid (inv : Inv k) (h : k.step (.syscall (.waittid tid)) = some k') :
    ∃ p, k.currentProcess = some p ∧
      ((∀ u, (k.procs p).tasks[tid]? = some (some u) → (k.tasks u).exitCode = none) →
        SameWaits k k') ∧
      (∀ u, (k.procs p).tasks[tid]? = some (some u) → (k.tasks u).exitCode ≠ none →
        k'.waited p = k.waited p + 1) := by
  cases current : k.current with
  | none => simp [Kernel.step, current] at h
  | some a =>
      simp only [Kernel.step, current] at h
      obtain ⟨path, called, h⟩ := Option.bind_eq_some_iff.mp h
      have isProcess : k.currentProcess = some (k.tasks a).process := by
        obtain ⟨task, isCurrent, upgraded⟩ := Option.bind_eq_some_iff.mp called
        cases current.symm.trans isCurrent
        obtain ⟨process, upgraded, -⟩ := Option.bind_eq_some_iff.mp upgraded
        have isCurrentProcess : k.currentProcess = some process := by
          rw [Kernel.currentProcess, current]
          exact upgraded
        rw [isCurrentProcess, currentProcess_eq current isCurrentProcess]
      refine ⟨(k.tasks a).process, isProcess, ?_, ?_⟩
      · intro running
        rcases Kernel.sysWaittid_eq current called with ⟨value, rfl⟩ | ⟨u, code, slot, exited, -⟩
        · exact .trapEnd current h
        · rw [running u slot] at exited
          simp at exited
      · intro u slot exited
        obtain ⟨code, isCode⟩ := Option.ne_none_iff_exists'.mp exited
        have taken : k.syscall (.waittid tid) = _ :=
          Kernel.sysWaittid_exited inv current isProcess slot isCode
        rw [taken, Option.some.injEq] at called
        subst called
        have same := SameWaits.trapEnd (by exact current) h
        rw [same, Kernel.waited]
        exact List.countP_cons_of_pos (by simp [Note.isWait])

/-! ## The number of threads -/

theorem RunWith.counted (run : RunWith KeepsCount k) :
    Counted (fun _ => 0) k ∧ ∀ p, k.waited p = 0 := by
  induction run with
  | start => exact ⟨counted_start, fun _ => rfl⟩
  | @step k event k' run keeps h ih =>
      obtain ⟨inv, frames⟩ := run.inv
      obtain ⟨counted, waited⟩ := ih
      refine ⟨?_, ?_⟩
      · have next := counted.step inv frames h
        have fresh : ∀ q, ¬ (event = .syscall .threadCreate ∧ k.currentProcess = some q ∧
            (k.procs q).taskResAllocator.recycled ≠ []) := by
          rintro q ⟨creates, isProcess, recycled⟩
          exact recycled (keeps.1 creates q isProcess)
        simpa only [fresh, if_false] using next
      · have same : SameWaits k k' := by
          by_cases waits : ∃ tid, event = .syscall (.waittid tid)
          · obtain ⟨tid, rfl⟩ := waits
            obtain ⟨p, isProcess, running, -⟩ := Kernel.step_waittid inv h
            exact running fun u slot => keeps.2 tid rfl p u isProcess slot
          · exact Kernel.step_waits frames h fun tid eq => waits ⟨tid, eq⟩
        intro p
        rw [same p, waited p]

theorem Move.nextProc_le {spawns : Prop} (move : Move a spawns k k') :
    k.nextProc ≤ k'.nextProc := by
  cases move with
  | fork current done => exact done.nextProc ▸ Nat.le_succ _
  | terminate current res isMain dealloc done => exact Nat.le_of_eq done.nextProc.symm
  | _ => exact Nat.le_refl _

theorem Kernel.step_nextProc_le {event : Event} (frames : k.FramesOwn)
    (h : k.step event = some k') :
    k.nextProc ≤ k'.nextProc := by
  rcases Kernel.step_moves frames h with rfl | ⟨a, -, moves⟩
  · exact Nat.le_refl _
  · clear h
    induction moves with
    | refl => exact Nat.le_refl _
    | tail moves move ih => exact Nat.le_trans ih move.nextProc_le

/-- The number of existing threads, by the invariant. -/
theorem Counted.existingThreads (counted : Counted reused k) (below : p < k.nextProc)
    (isAlive : (k.procs p).isZombie = false) :
    k.existingThreads p = k.threadCount p + reused p - k.waited p := by
  rw [Kernel.existingThreads, if_neg (by simp [isAlive]), (counted.alive p below isAlive).2.2]

/-- When the call counts a thread twice or waits for one, the number of threads is wrong after
it. -/
theorem Counted.differs {event : Event} (counted : Counted (fun _ => 0) k) (waited : k.waited p = 0)
    (inv : Inv k) (frames : k.FramesOwn) (isProcess : k.currentProcess = some p)
    (h : k.step event = some k') (isAlive : (k'.procs p).isZombie = false)
    (breaks : ¬ KeepsCount k event) : k'.threadCount p ≠ k'.existingThreads p := by
  have below := Nat.lt_of_lt_of_le (inv.currentProcess isProcess) (Kernel.step_nextProc_le frames h)
  have next := counted.step inv frames h
  obtain ⟨positive, -⟩ := next.alive p below isAlive
  rw [next.existingThreads below isAlive]
  by_cases creates : event = .syscall .threadCreate
  · have recycled : (k.procs p).taskResAllocator.recycled ≠ [] := by
      intro none
      refine breaks ⟨fun _ q isCurrent => ?_, fun tid eq => ?_⟩
      · rw [isProcess, Option.some.injEq] at isCurrent
        exact isCurrent ▸ none
      · simp [creates] at eq
    have same := Kernel.step_waits frames h (by simp [creates])
    rw [same p, waited, if_pos ⟨creates, isProcess, recycled⟩]
    omega
  · have waits : ∃ tid u, event = .syscall (.waittid tid) ∧
        (k.procs p).tasks[tid]? = some (some u) ∧ (k.tasks u).exitCode ≠ none := by
      by_contra never
      refine breaks ⟨fun eq => absurd eq creates, fun tid eq q u isCurrent slot => ?_⟩
      rw [isProcess, Option.some.injEq] at isCurrent
      subst isCurrent
      by_contra exited
      exact never ⟨tid, u, eq, slot, exited⟩
    obtain ⟨tid, u, rfl, slot, exited⟩ := waits
    obtain ⟨q, isCurrent, -, taken⟩ := Kernel.step_waittid inv h
    rw [isProcess, Option.some.injEq] at isCurrent
    subst isCurrent
    rw [taken u slot exited, waited, if_neg fun all => creates all.1]
    omega

/-- In every run in which no thread gets a recycled id and no exit code is taken, `thread_count` is
the number of the threads that exist, and `fork` and `exec` panic only if there is another thread.
Otherwise the number is wrong after the step, unless the process has exited. -/
theorem threadCount_eq_existingThreads (run : RunWith KeepsCount k) :
    (∀ p, p < k.nextProc → (k.procs p).dropped = false → k.threadCount p = k.existingThreads p) ∧
      (∀ p, k.currentProcess = some p → k.sysFork = none ∨ k.sysExec true = none →
        1 < k.existingThreads p) ∧
      ∀ event k' p, k.step event = some k' → k.currentProcess = some p →
        (k'.procs p).isZombie = false → ¬ KeepsCount k event →
        k'.threadCount p ≠ k'.existingThreads p := by
  obtain ⟨counted, waited⟩ := run.counted
  obtain ⟨inv, frames⟩ := run.inv
  have count : ∀ p, p < k.nextProc → (k.procs p).dropped = false →
      k.threadCount p = k.existingThreads p := by
    intro p below here
    cases isZombie : (k.procs p).isZombie with
    | true => rw [counted.zombie p below isZombie here, Kernel.existingThreads, if_pos isZombie]
    | false => rw [counted.existingThreads below isZombie, waited]; rfl
  refine ⟨count, ?_, ?_⟩
  · intro p isProcess panics
    obtain ⟨a, current, upgraded⟩ := Option.bind_eq_some_iff.mp isProcess
    obtain rfl := Kernel.currentProcess_eq current isProcess
    obtain ⟨below, isLive, -⟩ := inv.current current
    obtain ⟨tid, res, slot, -⟩ := inv.slot a below isLive
    have here : (k.procs (k.tasks a).process).dropped = false := by
      rw [Kernel.upgrade] at upgraded
      split at upgraded
      · simp at upgraded
      · next isHere => exact Bool.eq_false_iff.mpr isHere
    rw [← count _ (inv.process a below) here]
    obtain ⟨inside, -⟩ := List.getElem?_eq_some_iff.mp slot
    -- with one thread the slot is the first, and neither call panics
    by_contra few
    have one : (k.procs (k.tasks a).process).tasks.length = 1 := by
      rw [Kernel.threadCount] at few
      omega
    obtain rfl : tid = 0 := by omega
    rcases panics with forks | execs
    · rw [Kernel.sysFork, isProcess, Option.bind_some, if_pos one, slot] at forks
      simp [res] at forks
    · simp [Kernel.sysExec, isProcess, one] at execs
  · intro event k' p h isProcess isAlive breaks
    exact counted.differs (waited p) inv frames isProcess h isAlive breaks

/-- A check for `KeepsCount`. -/
def Kernel.keepsCount (k : Kernel) (event : Event) : Bool :=
  k.currentProcess.all fun p => match event with
    | .syscall .threadCreate => (k.procs p).taskResAllocator.recycled.isEmpty
    | .syscall (.waittid tid) => ((k.procs p).tasks[tid]?.bind fun slot => slot).all fun u =>
        (k.tasks u).exitCode.isNone
    | _ => true

theorem keepsCount_sound (k : Kernel) (event : Event) (passes : k.keepsCount event = true) :
    KeepsCount k event := by
  refine ⟨?_, ?_⟩
  · rintro rfl p isProcess
    simpa [Kernel.keepsCount, isProcess] using passes
  · rintro tid rfl p u isProcess slot
    simpa [Kernel.keepsCount, isProcess, slot] using passes

/-- A process with two threads. -/
theorem threadCount_two : ∃ k, Kernel.start.stepsIf Kernel.keepsCount [.idle true,
    .syscall .threadCreate] = some k ∧ k.threadCount 0 = 2 ∧ k.existingThreads 0 = 2 ∧
    k.sysFork = none := by
  have facts : (Kernel.start.stepsIf Kernel.keepsCount [.idle true,
      .syscall .threadCreate]).map (fun k => decide (k.nextProc = 1 ∧
        (k.procs 0).dropped = false ∧ k.threadCount 0 = 2 ∧
        k.sysFork.isNone = true)) = some true := by
    decide
  obtain ⟨k, h, eq⟩ := Option.map_eq_some_iff.mp facts
  obtain ⟨one, here, two, forks⟩ := of_decide_eq_true eq
  have run : RunWith KeepsCount k := RunWith.stepsIf keepsCount_sound RunWith.start h
  obtain ⟨count, -⟩ := threadCount_eq_existingThreads run
  refine ⟨k, h, two, ?_, Option.isNone_iff_eq_none.mp forks⟩
  rw [← count 0 (by rw [one]; exact Nat.one_pos) here, two]

/-- The main thread has waited for its only other thread, and still cannot fork. -/
theorem threadCount_waited : ∃ k, Kernel.start.steps [.idle true, .syscall .threadCreate,
    .syscall .yield, .idle true, .syscall (.exit 7), .idle true, .syscall (.waittid 1)] = some k ∧
    ReachableState k ∧ k.currentProcess = some 0 ∧ k.threadCount 0 = 2 ∧
    k.existingThreads 0 = 1 ∧ k.sysFork = none ∧ k.sysExec true = none := by
  have facts : (Kernel.start.steps [.idle true, .syscall .threadCreate, .syscall .yield,
      .idle true, .syscall (.exit 7), .idle true, .syscall (.waittid 1)]).map (fun k =>
        decide (k.currentProcess = some 0 ∧ k.threadCount 0 = 2 ∧ k.existingThreads 0 = 1 ∧
          k.sysFork.isNone = true ∧ (k.sysExec true).isNone = true)) = some true := by
    decide
  obtain ⟨k, h, eq⟩ := Option.map_eq_some_iff.mp facts
  obtain ⟨isProcess, two, one, forks, execs⟩ := of_decide_eq_true eq
  have reachable : ReachableState k := ReachableState.steps RunWith.start h
  exact ⟨k, h, reachable, isProcess, two, one, Option.isNone_iff_eq_none.mp forks,
    Option.isNone_iff_eq_none.mp execs⟩

end CoreFromDust.Os
