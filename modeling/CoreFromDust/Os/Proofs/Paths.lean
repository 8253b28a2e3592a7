import CoreFromDust.Os.Proofs.Moves

/-!
# Kernel paths as moves

Every function of the kernel is taken apart into moves of the current thread; `step_moves` does
so for a whole step.
-/

namespace CoreFromDust.Os

/-- The code of the thread `a` ends as `path` says, and what it does is moves. -/
def Path.By (a : TaskId) (spawns : Prop) (k : Kernel) : Path → Prop
  | .done k' _ => Moves a spawns k k' ∧ k'.current = some a
  | .away k' => Moves a spawns k k'

/-- The thread still runs after a path that returned. -/
theorem Path.By.done_current {a : TaskId} {spawns : Prop} {k : Kernel} {path : Path}
    (by_a : path.By a spawns k) (last : Kernel) (value : Int) (isDone : path = .done last value) :
    last.current = some a := by
  rw [isDone] at by_a
  exact by_a.2

/-- An entry of a list that is there. -/
theorem entry_eq {α : Type} {list : List (Option α)} {id : Nat} {object : α}
    (h : (list[id]?.bind fun slot => slot) = some object) : list[id]? = some (some object) := by
  obtain ⟨slot, found, rfl⟩ := Option.bind_eq_some_iff.mp h
  exact found

theorem pushBack_eq {queue queue' : List TaskId} {task : TaskId}
    (h : pushBack queue task = some queue') : queue' = queue ++ [task] := by
  unfold pushBack at h
  split at h
  · rwa [Option.some.injEq, eq_comm] at h
  · simp at h

namespace Kernel

variable {k k' : Kernel} {a : TaskId} {spawns : Prop} {path : Path} {processes : List ProcId}
  {p : ProcId}

theorem suspendCurrentAndRunNext_eq (current : k.current = some a) (frame : Frame) :
    k.suspendCurrentAndRunNext frame = some ((k.leave a .ready frame).addTask a) := by
  rw [suspendCurrentAndRunNext, current]
  rfl

theorem blockCurrentAndRunNext_eq (current : k.current = some a) (frame : Frame) :
    k.blockCurrentAndRunNext frame = some (k.leave a .blocked frame) := by
  rw [blockCurrentAndRunNext, current]
  rfl

theorem currentProcess_eq (current : k.current = some a) (h : k.currentProcess = some p) :
    p = (k.tasks a).process := by
  rw [currentProcess, current, Option.bind_some, upgrade] at h
  split at h
  · simp at h
  · rwa [Option.some.injEq, eq_comm] at h

/-- A call of the current thread looks its process up first. -/
theorem currentProcess_bind {α : Type} {f : ProcId → Option α} {result : α}
    (current : k.current = some a) (h : k.currentProcess.bind f = some result) :
    f (k.tasks a).process = some result := by
  obtain ⟨process, upgraded, h⟩ := Option.bind_eq_some_iff.mp h
  rwa [currentProcess_eq current upgraded] at h

/-- The thread goes into a wait queue of its process and gives the processor up. -/
theorem block_by {f : Process → Process} {frame : Frame} (current : k.current = some a)
    (own : ∀ q ∈ frame.processes, q = (k.tasks a).process)
    (keeps : Process.Keeps (k.procs (k.tasks a).process) (f (k.procs (k.tasks a).process)))
    (waiters : ∀ u, (f (k.procs (k.tasks a).process)).waiters.count u =
      (k.procs (k.tasks a).process).waiters.count u + [a].count u)
    (h : ((k.setProc (k.tasks a).process f).blockCurrentAndRunNext frame).map Path.away =
      some path) : path.By a spawns k := by
  have blocked : (k.setProc (k.tasks a).process f).current = some a := current
  rw [blockCurrentAndRunNext_eq blocked, Option.map_some, Option.some.injEq] at h
  subst h
  exact (Move.block current own keeps waiters).moves

/-! ### Synchronization -/

theorem mutexLock_by {id : Nat} (current : k.current = some a)
    (own : ∀ q ∈ processes, q = (k.tasks a).process)
    (h : k.mutexLock (k.tasks a).process id processes = some path) : path.By a spawns k := by
  unfold mutexLock at h
  obtain ⟨mutex, found, h⟩ := Option.bind_eq_some_iff.mp h
  have entry := Process.count_setMutex (entry_eq found)
  cases mutex with
  | blocking locked waitQueue =>
      cases locked with
      | true =>
          simp only [current, Option.bind_some] at h
          refine block_by current own ⟨rfl, rfl, rfl, rfl, rfl, rfl, rfl, rfl⟩ ?_ h
          intro u
          have changed := entry (.blocking true (waitQueue ++ [a])) u
          simp only [Mutex.waitQueue, List.count_append] at changed ⊢
          omega
      | false =>
          simp only [Option.some.injEq] at h
          subst h
          refine ⟨(Move.quiet ⟨rfl, rfl, rfl, rfl, rfl, rfl, rfl, rfl⟩ ?_).moves, current⟩
          intro u
          exact Nat.add_right_cancel (entry (.blocking true waitQueue) u)
  | spin locked =>
      cases locked with
      | true =>
          simp only [suspendCurrentAndRunNext_eq current, Option.map_some, Option.some.injEq] at h
          subst h
          exact (Move.suspend current own).moves
      | false =>
          simp only [Option.some.injEq] at h
          subst h
          refine ⟨(Move.quiet ⟨rfl, rfl, rfl, rfl, rfl, rfl, rfl, rfl⟩ ?_).moves, current⟩
          intro u
          exact Nat.add_right_cancel (entry (.spin true) u)

theorem mutexUnlock_moves {id : Nat} (current : k.current = some a)
    (h : k.mutexUnlock (k.tasks a).process id = some k') :
    Moves a spawns k k' ∧ k'.current = some a ∧ (k'.tasks a).process = (k.tasks a).process ∧
      (k'.procs (k.tasks a).process).condvarList =
        (k.procs (k.tasks a).process).condvarList := by
  unfold mutexUnlock at h
  obtain ⟨mutex, found, h⟩ := Option.bind_eq_some_iff.mp h
  have entry := Process.count_setMutex (entry_eq found)
  have unwoken : ∀ new : Mutex, new.waitQueue = mutex.waitQueue →
      Moves a spawns k (k.setMutex (k.tasks a).process id new) := by
    intro new same
    refine (Move.quiet ⟨rfl, rfl, rfl, rfl, rfl, rfl, rfl, rfl⟩ ?_).moves
    intro u
    have changed := entry new u
    rw [same] at changed
    exact Nat.add_right_cancel changed
  cases mutex with
  | blocking locked waitQueue =>
      cases locked with
      | true =>
          cases waitQueue with
          | nil =>
              simp only [Option.some.injEq] at h
              subst h
              exact ⟨unwoken _ rfl, current, rfl, by simp [setMutex]⟩
          | cons wakingTask waitQueue =>
              simp only [Option.some.injEq] at h
              subst h
              refine ⟨(Move.wake current ⟨rfl, rfl, rfl, rfl, rfl, rfl, rfl, rfl⟩ ?_).moves,
                current, ?_, ?_⟩
              · intro u
                have changed := entry (.blocking true waitQueue) u
                simp only [Mutex.waitQueue, List.count_cons] at changed ⊢
                simp only [List.count_nil]
                omega
              · simp only [wakeupTask, addTask_tasks, setTask_tasks]
                split <;> rfl
              · simp [wakeupTask, setMutex]
      | false => simp at h
  | spin locked =>
      cases locked with
      | true =>
          simp only [Option.some.injEq] at h
          subst h
          exact ⟨unwoken _ rfl, current, rfl, by simp [setMutex]⟩
      | false => simp at h

theorem semaphoreUp_moves {id : Nat} (current : k.current = some a)
    (h : k.semaphoreUp (k.tasks a).process id = some k') :
    Moves a spawns k k' ∧ k'.current = some a := by
  unfold semaphoreUp at h
  obtain ⟨sem, found, rfl⟩ := Option.map_eq_some_iff.mp h
  have entry := Process.count_setSemaphore (entry_eq found)
  have unwoken :
      Moves a spawns k (k.setSemaphore (k.tasks a).process id ⟨sem.count + 1, sem.waitQueue⟩) := by
    refine (Move.quiet ⟨rfl, rfl, rfl, rfl, rfl, rfl, rfl, rfl⟩ ?_).moves
    intro u
    exact Nat.add_right_cancel (entry ⟨sem.count + 1, sem.waitQueue⟩ u)
  split
  · cases queue : sem.waitQueue with
    | nil =>
        rw [queue] at unwoken
        exact ⟨unwoken, current⟩
    | cons task waitQueue =>
        refine ⟨(Move.wake current ⟨rfl, rfl, rfl, rfl, rfl, rfl, rfl, rfl⟩ ?_).moves, current⟩
        intro u
        have changed := entry ⟨sem.count + 1, waitQueue⟩ u
        simp only [queue, List.count_cons] at changed ⊢
        simp only [List.count_nil]
        omega
  · exact ⟨unwoken, current⟩

theorem semaphoreDown_by {id : Nat} (current : k.current = some a)
    (own : ∀ q ∈ processes, q = (k.tasks a).process)
    (h : k.semaphoreDown (k.tasks a).process id processes = some path) : path.By a spawns k := by
  unfold semaphoreDown at h
  obtain ⟨sem, found, h⟩ := Option.bind_eq_some_iff.mp h
  have entry := Process.count_setSemaphore (entry_eq found)
  split at h
  · simp only [current, Option.bind_some] at h
    obtain ⟨waitQueue, pushed, h⟩ := Option.bind_eq_some_iff.mp h
    obtain rfl := pushBack_eq pushed
    refine block_by current own ⟨rfl, rfl, rfl, rfl, rfl, rfl, rfl, rfl⟩ ?_ h
    intro u
    have changed := entry ⟨sem.count - 1, sem.waitQueue ++ [a]⟩ u
    simp only [List.count_append] at changed ⊢
    omega
  · rw [Option.some.injEq] at h
    subst h
    refine ⟨(Move.quiet ⟨rfl, rfl, rfl, rfl, rfl, rfl, rfl, rfl⟩ ?_).moves, current⟩
    intro u
    exact Nat.add_right_cancel (entry ⟨sem.count - 1, sem.waitQueue⟩ u)

theorem condvarSignal_moves {id : Nat} (current : k.current = some a)
    (h : k.condvarSignal (k.tasks a).process id = some k') :
    Moves a spawns k k' ∧ k'.current = some a := by
  unfold condvarSignal at h
  obtain ⟨condvar, found, rfl⟩ := Option.map_eq_some_iff.mp h
  have entry := Process.count_setCondvar (entry_eq found)
  cases queue : condvar.waitQueue with
  | nil => exact ⟨Relation.ReflTransGen.refl, current⟩
  | cons task waitQueue =>
      refine ⟨(Move.wake current ⟨rfl, rfl, rfl, rfl, rfl, rfl, rfl, rfl⟩ ?_).moves, current⟩
      intro u
      have changed := entry ⟨waitQueue⟩ u
      simp only [queue, List.count_cons] at changed ⊢
      simp only [List.count_nil]
      omega

theorem condvarWait_by {condvarId mutexId : Nat} (current : k.current = some a)
    (own : ∀ q ∈ processes, q = (k.tasks a).process)
    (h : k.condvarWait (k.tasks a).process condvarId mutexId processes = some path) :
    path.By a spawns k := by
  unfold condvarWait at h
  obtain ⟨condvar, found, h⟩ := Option.bind_eq_some_iff.mp h
  obtain ⟨unlocked, unlock, h⟩ := Option.bind_eq_some_iff.mp h
  obtain ⟨moves, still, process, condvars⟩ : Moves a spawns k unlocked ∧ _ :=
    mutexUnlock_moves current unlock
  have entry := entry_eq found
  rw [← process] at own h condvars
  rw [← process, ← condvars] at entry
  simp only [still, Option.bind_some] at h
  have blocked : path.By a spawns unlocked := by
    refine block_by still own ⟨rfl, rfl, rfl, rfl, rfl, rfl, rfl, rfl⟩ ?_ h
    intro u
    have changed := Process.count_setCondvar entry ⟨condvar.waitQueue ++ [a]⟩ u
    simp only [List.count_append] at changed ⊢
    omega
  cases path with
  | done last value => exact ⟨moves.trans blocked.1, blocked.2⟩
  | away last => exact Relation.ReflTransGen.trans moves blocked

theorem addSignal_move (flags : UInt32) : Move a spawns k (k.addSignal p flags) :=
  Move.quiet ⟨rfl, rfl, rfl, rfl, rfl, rfl, rfl, rfl⟩ fun _ => rfl

/-! ### Threads and processes -/

theorem sysThreadCreate_eq (current : k.current = some a) (h : k.sysThreadCreate = some path) :
    ∃ tid allocator, k.currentProcess = some (k.tasks a).process ∧
      (k.procs (k.tasks a).process).taskResAllocator.alloc = (tid, allocator) ∧
      path = .done (k.spawned a tid allocator) tid := by
  unfold sysThreadCreate at h
  obtain ⟨task, isCurrent, h⟩ := Option.bind_eq_some_iff.mp h
  cases current.symm.trans isCurrent
  obtain ⟨process, upgraded, h⟩ := Option.bind_eq_some_iff.mp h
  obtain ⟨own, -, rfl⟩ := Option.map_eq_some_iff.mp h
  have eq := currentProcess_eq current upgraded
  subst eq
  exact ⟨_, _, upgraded, rfl, rfl⟩

theorem sysThreadCreate_by (may : spawns) (current : k.current = some a)
    (h : k.sysThreadCreate = some path) : path.By a spawns k := by
  obtain ⟨tid, allocator, -, alloc, rfl⟩ := sysThreadCreate_eq current h
  exact ⟨(Move.spawn may current alloc).moves, current⟩

theorem sysWaittid_eq {tid : Nat} (current : k.current = some a)
    (h : k.sysWaittid tid = some path) : (∃ value, path = .done k value) ∨
      ∃ u exitCode, (k.procs (k.tasks a).process).tasks[tid]? = some (some u) ∧
        (k.tasks u).exitCode = some exitCode ∧
        path = .done (({ k with history := .waited (k.tasks a).process tid :: k.history } :
          Kernel).setProc (k.tasks a).process fun pcb =>
            { pcb with tasks := pcb.tasks.set tid none }) exitCode.toInt := by
  unfold sysWaittid at h
  obtain ⟨task, isCurrent, h⟩ := Option.bind_eq_some_iff.mp h
  cases current.symm.trans isCurrent
  obtain ⟨process, upgraded, h⟩ := Option.bind_eq_some_iff.mp h
  have eq : process = (k.tasks a).process :=
    currentProcess_eq current (by rw [currentProcess, current]; exact upgraded)
  subst eq
  obtain ⟨own, -, h⟩ := Option.bind_eq_some_iff.mp h
  split at h
  · rw [Option.some.injEq] at h
    exact .inl ⟨_, h.symm⟩
  · obtain ⟨slot, found, rfl⟩ := Option.map_eq_some_iff.mp h
    cases slot with
    | none => exact .inl ⟨_, rfl⟩
    | some waitedTask =>
        dsimp only
        cases exited : (k.tasks waitedTask).exitCode with
        | none => exact .inl ⟨_, rfl⟩
        | some exitCode => exact .inr ⟨waitedTask, exitCode, found, exited, rfl⟩

theorem sysWaittid_by {tid : Nat} (current : k.current = some a)
    (h : k.sysWaittid tid = some path) : path.By a spawns k := by
  rcases sysWaittid_eq current h with ⟨value, rfl⟩ | ⟨u, exitCode, found, exited, rfl⟩
  · exact ⟨Relation.ReflTransGen.refl, current⟩
  · exact ⟨(Move.collect current found exited).moves, current⟩

theorem sysFork_eq (current : k.current = some a) (h : k.sysFork = some path) :
    ∃ pid last, Forked (k.tasks a).process pid k last ∧ path = .done last pid := by
  unfold sysFork at h
  have h := currentProcess_bind current h
  split at h
  · obtain ⟨main, -, h⟩ := Option.bind_eq_some_iff.mp h
    obtain ⟨tid, -, rfl⟩ := Option.map_eq_some_iff.mp h
    refine ⟨k.pidAllocator.alloc.1, _, ?_, rfl⟩
    refine ⟨rfl, rfl, rfl, rfl, rfl, rfl, rfl, rfl, rfl, ?_, ?_, ?_, ?_⟩
    · intro t isOld
      simp [insertIntoPid2process, setTask_tasks, isOld]
    · simp [insertIntoPid2process]
    · intro q isOld
      simp only [addTask_procs, insertIntoPid2process, setTask_procs, setProc_procs, if_neg isOld]
      split <;> rfl
    · intro isOld
      simp only [addTask_procs, insertIntoPid2process, setTask_procs, setProc_procs,
        if_neg isOld.symm, if_true]
      rfl
  · simp at h

theorem sysFork_by (current : k.current = some a) (h : k.sysFork = some path) :
    path.By a spawns k := by
  obtain ⟨pid, last, done, rfl⟩ := sysFork_eq current h
  exact ⟨(Move.fork current done).moves, done.current.trans current⟩

theorem sysExec_by {found : Bool} (current : k.current = some a)
    (h : k.sysExec found = some path) : path.By a spawns k := by
  unfold sysExec at h
  obtain ⟨process, -, h⟩ := Option.bind_eq_some_iff.mp h
  have same : path.By a spawns k := by
    split at h
    · split at h
      · rw [Option.some.injEq] at h
        subst h
        exact ⟨Relation.ReflTransGen.refl, current⟩
      · simp at h
    · rw [Option.some.injEq] at h
      subst h
      exact ⟨Relation.ReflTransGen.refl, current⟩
  exact same

/-- The child that `sys_waitpid` takes is a zombie child. -/
theorem takeZombie_eq {pid : Int} {child : ProcId} (h : k.takeZombie p pid = some (child, k')) :
    ∃ i, (k.procs p).children[i]? = some child ∧ (k.procs child).isZombie = true ∧
      k' = k.setProc p fun pcb => { pcb with children := pcb.children.eraseIdx i } := by
  unfold takeZombie at h
  obtain ⟨i, index, h⟩ := Option.bind_eq_some_iff.mp h
  obtain ⟨found, at_i, eq⟩ := Option.map_eq_some_iff.mp h
  rw [Prod.mk.injEq] at eq
  obtain ⟨rfl, rfl⟩ := eq
  obtain ⟨below, holds, -⟩ := List.findIdx?_eq_some_iff_getElem.mp index
  rw [List.getElem?_eq_getElem below, Option.some.injEq] at at_i
  rw [at_i, Bool.and_eq_true] at holds
  refine ⟨i, ?_, holds.1, rfl⟩
  rw [List.getElem?_eq_getElem below, at_i]

theorem sysWaitpid_eq {pid : Int} (current : k.current = some a)
    (h : k.sysWaitpid pid = some path) : (∃ value, path = .done k value) ∨
      ∃ (i : Nat) (child : ProcId) (allocator : RecycleAllocator),
        (k.procs (k.tasks a).process).children[i]? = some child ∧
        (k.procs child).isZombie = true ∧
        k.pidAllocator.dealloc (k.procs child).pid = some allocator ∧
        path = .done (k.reaped a i child allocator) (k.procs child).pid := by
  unfold sysWaitpid at h
  have h := currentProcess_bind current h
  split at h
  · cases taken : k.takeZombie (k.tasks a).process pid with
    | none =>
        simp only [taken, Option.some.injEq] at h
        exact .inl ⟨_, h.symm⟩
    | some result =>
        obtain ⟨child, removed⟩ := result
        obtain ⟨i, found, zombie, rfl⟩ := takeZombie_eq taken
        simp only [taken] at h
        split at h
        · obtain ⟨last, dropped, rfl⟩ := Option.map_eq_some_iff.mp h
          obtain ⟨allocator, dealloc, rfl⟩ := Option.map_eq_some_iff.mp dropped
          have same : ((k.setProc (k.tasks a).process fun pcb =>
              { pcb with children := pcb.children.eraseIdx i }).procs child).pid =
                (k.procs child).pid ∧ ((k.setProc (k.tasks a).process fun pcb =>
              { pcb with children := pcb.children.eraseIdx i }).procs child).exitCode =
                (k.procs child).exitCode := by
            rw [setProc_procs]
            split <;> exact ⟨rfl, rfl⟩
          rw [same.1] at dealloc
          rw [same.1, same.2]
          exact .inr ⟨i, child, allocator, found, zombie, dealloc, rfl⟩
        · simp at h
  · rw [Option.some.injEq] at h
    exact .inl ⟨_, h.symm⟩

theorem sysWaitpid_by {pid : Int} (current : k.current = some a)
    (h : k.sysWaitpid pid = some path) : path.By a spawns k := by
  rcases sysWaitpid_eq current h with ⟨value, rfl⟩ |
    ⟨i, child, allocator, found, zombie, dealloc, rfl⟩
  · exact ⟨Relation.ReflTransGen.refl, current⟩
  · exact ⟨(Move.reap current found zombie dealloc).moves, current⟩

theorem sysFile_by {ready : Bool} (current : k.current = some a)
    (h : k.sysFile ready = some path) : path.By a spawns k := by
  unfold sysFile at h
  have h := currentProcess_bind current h
  split at h
  · rw [Option.some.injEq] at h
    subst h
    exact ⟨Relation.ReflTransGen.refl, current⟩
  · rw [suspendCurrentAndRunNext_eq current, Option.map_some, Option.some.injEq] at h
    subst h
    exact (Move.suspend current (by simp)).moves

/-! ### Exit -/

/-- The children go to `INITPROC`, and nothing else changes. -/
theorem adoptChildren_eq (children : List ProcId) (k : Kernel) : ∃ procs,
    k.adoptChildren children = { k with procs := procs } ∧ ∀ q, procs q =
      { k.procs q with
        parent := if q ∈ children then some k.initproc else (k.procs q).parent
        children := if q = k.initproc then (k.procs q).children ++ children
          else (k.procs q).children } := by
  induction children generalizing k with
  | nil =>
      refine ⟨k.procs, rfl, fun q => ?_⟩
      simp only [List.not_mem_nil, if_false, List.append_nil, ite_self]
  | cons child rest ih =>
      obtain ⟨procs, eq, each⟩ := ih ((k.setProc child fun pcb =>
        { pcb with parent := some k.initproc }).setProc k.initproc
          fun pcb => { pcb with children := pcb.children ++ [child] })
      refine ⟨procs, eq, ?_⟩
      intro q
      rw [each q, setProc_procs, setProc_procs]
      simp only [setProc, List.mem_cons]
      by_cases isChild : q = child
      · subst isChild
        by_cases isInit : q = k.initproc <;> simp [isInit]
      · by_cases isInit : q = k.initproc
        · simp only [if_pos isInit, if_false, isChild, false_or, List.append_assoc,
            List.singleton_append]
        · simp only [if_neg isInit, if_false, isChild, false_or]

/-- The threads leave the ready queue and the timers. -/
theorem removeInactiveTasks_eq (tasks : List TaskId) (k : Kernel) :
    tasks.foldl removeInactiveTask k = { k with
      readyQueue := tasks.foldl List.erase k.readyQueue
      timers := k.timers.filter fun c => c.task ∉ tasks } := by
  induction tasks generalizing k with
  | nil => simp
  | cons task rest ih =>
      rw [List.foldl_cons, ih]
      simp only [removeInactiveTask, removeTimer, removeTask, List.foldl_cons, List.filter_filter]
      congr 1
      apply List.filter_congr
      intro c _
      by_cases same : c.task = task <;> simp [same]

/-- The threads lose their resources, and their ids go back to the allocator. -/
theorem recycleRes_eq {tasks : List TaskId} (h : recycleRes p tasks k = some k') :
    ∃ allocator, k' = ({ k with tasks := fun t =>
        { k.tasks t with res := if t ∈ tasks then none else (k.tasks t).res } } : Kernel).setProc p
          (fun pcb => { pcb with taskResAllocator := allocator }) ∧
      ∀ valid : RecycleAllocator → Prop,
        (∀ x y id, valid x → x.dealloc id = some y → valid y) →
        valid (k.procs p).taskResAllocator → valid allocator := by
  induction tasks generalizing k with
  | nil =>
      simp only [recycleRes, Option.some.injEq] at h
      subst h
      exact ⟨(k.procs p).taskResAllocator, by simp [setProc], fun _ _ start => start⟩
  | cons task rest ih =>
      rw [recycleRes] at h
      cases res : (k.tasks task).res with
      | none =>
          simp only [res] at h
          obtain ⟨allocator, rfl, valid⟩ := ih h
          refine ⟨allocator, ?_, valid⟩
          congr 2
          funext t
          by_cases same : t = task
          · subst same
            simp [res]
          · simp [same]
      | some tid =>
          simp only [res] at h
          obtain ⟨freed, dealloc, h⟩ := Option.bind_eq_some_iff.mp h
          obtain ⟨middle, released, rfl⟩ := Option.map_eq_some_iff.mp dealloc
          obtain ⟨allocator, rfl, valid⟩ := ih h
          refine ⟨allocator, ?_, ?_⟩
          · simp only [setProc, setTask, Function.update_idem, Function.update_self]
            congr 2
            funext t
            by_cases same : t = task
            · subst same
              simp
            · simp [same]
          · intro good kept start
            refine valid good kept ?_
            rw [setProc_self]
            exact kept _ _ _ start released

theorem exitProcess_terminated {exitCode : Int32} (h : k.exitProcess p exitCode = some k') :
    Terminated p exitCode k k' := by
  unfold exitProcess at h
  split at h
  · simp at h
  · next notIdle =>
    obtain ⟨unlisted, removed, h⟩ := Option.bind_eq_some_iff.mp h
    unfold removeFromPid2process at removed
    split at removed
    · rw [Option.some.injEq] at removed
      subst removed
      obtain ⟨recycled, recycle, rfl⟩ := Option.map_eq_some_iff.mp h
      obtain ⟨procs, adopted, each⟩ := adoptChildren_eq (k.procs p).children
        (({ k with pid2pcb := k.pid2pcb.filter fun entry => entry.1 ≠ (k.procs p).pid } :
          Kernel).setProc p fun pcb => { pcb with isZombie := true, exitCode := exitCode })
      rw [adopted, removeInactiveTasks_eq] at recycle
      obtain ⟨allocator, rfl, valid⟩ := recycleRes_eq recycle
      have process : ∀ q, procs q = { k.procs q with
          isZombie := if q = p then true else (k.procs q).isZombie
          exitCode := if q = p then exitCode else (k.procs q).exitCode
          parent := if q ∈ (k.procs p).children then some k.initproc else (k.procs q).parent
          children := if q = k.initproc then (k.procs q).children ++ (k.procs p).children
            else (k.procs q).children } := by
        intro q
        rw [each q, setProc_procs]
        by_cases same : q = p
        · simp only [same, if_true]
          rfl
        · simp only [same, if_false]
          rfl
      refine ⟨notIdle, rfl, rfl, rfl, rfl, rfl, rfl, rfl, rfl, rfl, fun t => rfl, ?_, ?_, ?_, ?_,
        ?_, ?_, ?_, ?_, ?_⟩
      · intro q
        simp only [setProc_procs, process]
        split <;> exact ⟨rfl, rfl⟩
      · intro q
        simp only [setProc_procs, process]
        split <;> rfl
      · intro q
        simp only [setProc_procs, process]
        split <;> rfl
      · intro q
        simp only [setProc_procs, process]
        split <;> rfl
      · intro q
        simp only [setProc_procs, process]
        split <;> rfl
      · intro q
        simp only [setProc_procs, process]
        split <;> rfl
      · intro q
        simp only [setProc_procs, process]
        split <;> exact ⟨rfl, rfl, rfl⟩
      · intro q other
        simp only [setProc_procs, process, if_neg other]
      · intro good kept start
        simp only [setProc_self]
        refine valid good kept ?_
        simp only [process]
        exact start
    · simp at removed

theorem exitCurrentAndRunNext_eq {exitCode : Int32} (current : k.current = some a)
    (h : k.exitCurrentAndRunNext exitCode = some k') :
    ∃ tid allocator, (k.tasks a).res = some tid ∧
      (k.procs (k.tasks a).process).taskResAllocator.dealloc tid = some allocator ∧
      ((tid ≠ 0 ∧ k' = k.exited a tid exitCode allocator) ∨
        (tid = 0 ∧
          Terminated (k.tasks a).process exitCode (k.exited a tid exitCode allocator) k')) := by
  unfold exitCurrentAndRunNext at h
  obtain ⟨task, isCurrent, h⟩ := Option.bind_eq_some_iff.mp h
  cases current.symm.trans isCurrent
  obtain ⟨process, upgraded, h⟩ := Option.bind_eq_some_iff.mp h
  have eq : process = (k.tasks a).process :=
    currentProcess_eq current (by rw [currentProcess, current]; exact upgraded)
  subst eq
  obtain ⟨tid, res, h⟩ := Option.bind_eq_some_iff.mp h
  obtain ⟨exited, recorded, h⟩ := Option.bind_eq_some_iff.mp h
  obtain ⟨allocator, dealloc, rfl⟩ := Option.map_eq_some_iff.mp recorded
  refine ⟨tid, allocator, res, dealloc, ?_⟩
  split at h
  · next isMain => exact .inr ⟨isMain, exitProcess_terminated h⟩
  · next notMain =>
    rw [Option.some.injEq] at h
    exact .inl ⟨notMain, h.symm⟩

theorem exitCurrentAndRunNext_moves {exitCode : Int32} (current : k.current = some a)
    (h : k.exitCurrentAndRunNext exitCode = some k') : Moves a spawns k k' := by
  obtain ⟨tid, allocator, res, dealloc, ⟨notMain, rfl⟩ | ⟨isMain, done⟩⟩ :=
    exitCurrentAndRunNext_eq current h
  · exact (Move.exit current res notMain dealloc).moves
  · exact (Move.terminate current res isMain dealloc done).moves

theorem trapEnd_moves (current : k.current = some a) (h : k.trapEnd = some k') :
    Moves a spawns k k' := by
  unfold trapEnd at h
  obtain ⟨process, upgraded, h⟩ := Option.bind_eq_some_iff.mp h
  split at h
  · exact exitCurrentAndRunNext_moves current h
  · rw [Option.some.injEq] at h
    subst h
    exact Relation.ReflTransGen.refl

theorem afterPath_moves (by_a : path.By a spawns k) (h : afterPath path = some k') :
    Moves a spawns k k' := by
  cases path with
  | done last value => exact Relation.ReflTransGen.trans by_a.1 (trapEnd_moves by_a.2 h)
  | away last =>
      simp only [afterPath, Option.some.injEq] at h
      subst h
      exact by_a

/-! ### Steps -/

theorem syscall_by {call : Syscall} (current : k.current = some a)
    (may : call = .threadCreate → spawns) (h : k.syscall call = some path) :
    path.By a spawns k := by
  -- those that return after they changed the state
  have returns : ∀ {f : ProcId → Option Kernel},
      (∀ last, f (k.tasks a).process = some last → Moves a spawns k last ∧ last.current = some a) →
      (k.currentProcess.bind fun process => (f process).map fun last => Path.done last 0) =
        some path → path.By a spawns k := by
    intro f moves h
    obtain ⟨last, eq, rfl⟩ := Option.map_eq_some_iff.mp (currentProcess_bind current h)
    exact moves last eq
  -- and those that create an object
  have creates : ∀ {f : ProcId → Process → Process} {value : ProcId → Nat},
      (∀ p, Process.Keeps (k.procs p) (f p (k.procs p))) →
      (∀ p u, (f p (k.procs p)).waiters.count u = (k.procs p).waiters.count u) →
      (k.currentProcess.map fun process =>
        Path.done (k.setProc process (f process)) (value process)) =
        some path → path.By a spawns k := by
    intro f value keeps waiters h
    obtain ⟨process, -, rfl⟩ := Option.map_eq_some_iff.mp h
    exact ⟨(Move.quiet (keeps process) (waiters process)).moves, current⟩
  cases call with
  | exit exitCode =>
      obtain ⟨last, exited, rfl⟩ := Option.map_eq_some_iff.mp h
      exact exitCurrentAndRunNext_moves current exited
  | yield =>
      simp only [syscall, suspendCurrentAndRunNext_eq current, Option.map_some,
        Option.some.injEq] at h
      subst h
      exact (Move.suspend current (by simp)).moves
  | sleep now ms =>
      obtain ⟨task, isCurrent, h⟩ := Option.bind_eq_some_iff.mp h
      cases current.symm.trans isCurrent
      have timed : (k.addTimer (now + ms) a).current = some a := current
      rw [blockCurrentAndRunNext_eq timed, Option.map_some, Option.some.injEq] at h
      subst h
      exact (Move.sleep current).moves
  | kill pid signal =>
      simp only [syscall, sysKill] at h
      split at h
      · rw [Option.some.injEq] at h
        subst h
        exact ⟨(addSignal_move signal).moves, current⟩
      · rw [Option.some.injEq] at h
        subst h
        exact ⟨Relation.ReflTransGen.refl, current⟩
  | fork => exact sysFork_by current h
  | exec found => exact sysExec_by current h
  | waitpid pid => exact sysWaitpid_by current h
  | threadCreate => exact sysThreadCreate_by (may rfl) current h
  | waittid tid => exact sysWaittid_by current h
  | mutexCreate blocking =>
      refine creates (fun _ => ⟨rfl, rfl, rfl, rfl, rfl, rfl, rfl, rfl⟩) ?_ h
      intro p u
      have empty : (if blocking then Mutex.blocking false [] else .spin false).waitQueue = [] := by
        cases blocking <;> rfl
      have counts := count_flatMap_allocSlot Mutex.waitQueue (k.procs p).mutexList empty u
      simp only [Process.waiters, List.count_append, counts]
  | mutexLock mutexId => exact mutexLock_by current (by simp) (currentProcess_bind current h)
  | mutexUnlock mutexId =>
      refine returns (fun last eq => ?_) h
      obtain ⟨moves, still, -⟩ := mutexUnlock_moves current eq
      exact ⟨moves, still⟩
  | semaphoreCreate resCount =>
      refine creates (fun _ => ⟨rfl, rfl, rfl, rfl, rfl, rfl, rfl, rfl⟩) ?_ h
      intro p u
      have counts := count_flatMap_allocSlot Semaphore.waitQueue (k.procs p).semaphoreList
        (rfl : Semaphore.waitQueue ⟨resCount.toInt64, []⟩ = []) u
      simp only [Process.waiters, List.count_append, counts]
  | semaphoreUp semId =>
      exact returns (f := fun process => k.semaphoreUp process semId)
        (fun last eq => semaphoreUp_moves current eq) h
  | semaphoreDown semId => exact semaphoreDown_by current (by simp) (currentProcess_bind current h)
  | condvarCreate =>
      refine creates (fun _ => ⟨rfl, rfl, rfl, rfl, rfl, rfl, rfl, rfl⟩) ?_ h
      intro p u
      have counts := count_flatMap_allocSlot Condvar.waitQueue (k.procs p).condvarList
        (rfl : Condvar.waitQueue ⟨[]⟩ = []) u
      simp only [Process.waiters, List.count_append, counts]
  | condvarSignal condvarId =>
      exact returns (f := fun process => k.condvarSignal process condvarId)
        (fun last eq => condvarSignal_moves current eq) h
  | condvarWait condvarId mutexId =>
      exact condvarWait_by current (by simp) (currentProcess_bind current h)
  | file ready => exact sysFile_by current h
  | quiet =>
      simp only [syscall, Option.some.injEq] at h
      subst h
      exact ⟨Relation.ReflTransGen.refl, current⟩

theorem checkTimer_moves {now : UInt64} {due : List TimerCondVar} (current : k.current = some a)
    (h : checkTimer now due k = some k') : Moves a spawns k k' ∧ k'.current = some a := by
  induction due generalizing k with
  | nil =>
      simp only [checkTimer] at h
      split at h
      · simp at h
      · rw [Option.some.injEq] at h
        subst h
        exact ⟨Relation.ReflTransGen.refl, current⟩
  | cons c rest ih =>
      simp only [checkTimer] at h
      split at h
      · next peek =>
        rw [Bool.and_eq_true, isPeek, Bool.and_eq_true, List.contains_iff_mem] at peek
        have move : Move a spawns k { k.wakeupTask c.task with timers := k.timers.erase c } :=
          Move.expire peek.1.1
        obtain ⟨moves, still⟩ := ih (by exact current) h
        exact ⟨move.moves.trans moves, still⟩
      · simp at h

theorem resume_moves {frame : Frame} {ready : Bool} (current : k.current = some a)
    (own : ∀ q ∈ frame.processes, q = (k.tasks a).process)
    (h : k.resume (k.tasks a).process frame ready = some k') : Moves a spawns k k' := by
  unfold resume at h
  split at h
  · rw [Option.some.injEq] at h
    subst h
    exact Relation.ReflTransGen.refl
  · exact trapEnd_moves current h
  · obtain ⟨path, locked, h⟩ := Option.bind_eq_some_iff.mp h
    exact afterPath_moves (mutexLock_by current own locked) h
  · split at h
    · exact trapEnd_moves current h
    · rw [suspendCurrentAndRunNext_eq current, Option.some.injEq] at h
      subst h
      exact (Move.suspend current own).moves

/-- The frames of a thread own its process at most. -/
def FramesOwn (k : Kernel) : Prop :=
  ∀ t, ∀ q ∈ (k.tasks t).frame.processes, q = (k.tasks t).process

/-- The thread whose kernel path the next step is. -/
def acting (k : Kernel) : Option TaskId := k.current.or k.readyQueue.head?

/-- A step is a sequence of moves of the thread that acts. -/
theorem step_moves {event : Event} (frames : FramesOwn k) (h : k.step event = some k') :
    k' = k ∨ ∃ a, k.acting = some a ∧ Moves a (event = .syscall .threadCreate) k k' := by
  unfold step at h
  split at h
  · next ready idle =>
    unfold runTasks at h
    split at h
    · rw [Option.some.injEq] at h
      exact .inl h.symm
    · next task readyQueue queue =>
      refine .inr ⟨task, by rw [acting, idle, queue]; rfl, ?_⟩
      have resumed : (({ k with readyQueue := readyQueue, current := some task } :
          Kernel).setTask task fun tcb =>
            { tcb with taskStatus := .running, frame := ⟨.trapReturn, []⟩ }).current =
              some task := rfl
      refine (Move.dispatch idle queue).moves.trans
        (@resume_moves _ _ _ _ (k.tasks task).frame ready resumed ?_ ?_)
      · simpa using frames task
      · simpa using h
  · next task call isCurrent =>
    obtain ⟨path, called, h⟩ := Option.bind_eq_some_iff.mp h
    exact .inr ⟨task, by rw [acting, isCurrent]; rfl,
      afterPath_moves (syscall_by isCurrent (fun eq => by rw [eq]) called) h⟩
  · next task now due isCurrent =>
    obtain ⟨woken, checked, h⟩ := Option.bind_eq_some_iff.mp h
    obtain ⟨moves, still⟩ : Moves task (Event.timer now due = .syscall .threadCreate) k woken ∧ _ :=
      checkTimer_moves isCurrent checked
    rw [suspendCurrentAndRunNext_eq still, Option.some.injEq] at h
    subst h
    refine .inr ⟨task, by rw [acting, isCurrent]; rfl, moves.tail (Move.suspend still (by simp))⟩
  · next task isCurrent =>
    obtain ⟨process, -, h⟩ := Option.bind_eq_some_iff.mp h
    exact .inr ⟨task, by rw [acting, isCurrent]; rfl,
      (addSignal_move sigSegv).moves.trans (trapEnd_moves isCurrent h)⟩
  · next task isCurrent =>
    obtain ⟨process, -, h⟩ := Option.bind_eq_some_iff.mp h
    exact .inr ⟨task, by rw [acting, isCurrent]; rfl,
      (addSignal_move sigIll).moves.trans (trapEnd_moves isCurrent h)⟩
  · simp at h

end Kernel

end CoreFromDust.Os
