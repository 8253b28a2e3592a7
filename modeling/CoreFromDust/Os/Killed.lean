import CoreFromDust.Os.ReadyQueue

/-!
# A killed process ends

`sys_kill` and the faults of a process only add a signal; its threads exit at the end of their
next trap. So a thread of a process with an error signal never comes back to its user code once it
is in the kernel, and one that waits in the ready queue exits when its turn comes.
-/

namespace CoreFromDust.Os

variable {k k' : Kernel} {a t : TaskId} {p : ProcId} {spawns : Prop} {event : Event}
  {events : List Event}

/-- An error signal of the process is pending. -/
def Kernel.Condemned (k : Kernel) (p : ProcId) : Prop :=
  (checkError (k.procs p).signals).isSome = true

/-- The thread is in the kernel: it has exited, or it goes on there after the next switch to it. -/
def Kernel.InKernel (k : Kernel) (t : TaskId) : Prop :=
  k.current ≠ some t ∧ ((k.tasks t).exitCode ≠ none ∨ (k.tasks t).frame.resume ≠ .trapReturn)

/-! ## Signals stay -/

theorem checkError_isNone {signals : UInt32} : checkError signals = none ↔
    signals &&& 0x4 = 0 ∧ signals &&& 0x10 = 0 ∧ signals &&& 0x40 = 0 ∧ signals &&& 0x100 = 0 ∧
      signals &&& 0x200 = 0 ∧ signals &&& 0x800 = 0 := by
  unfold checkError
  split_ifs <;> simp_all

/-- An error stays when no signal is cleared. -/
theorem checkError_mono {signals signals' : UInt32}
    (kept : ∀ mask, signals &&& mask ≠ 0 → signals' &&& mask ≠ 0)
    (error : (checkError signals).isSome = true) : (checkError signals').isSome = true := by
  have clear : ∀ mask, signals' &&& mask = 0 → signals &&& mask = 0 :=
    fun mask => not_imp_not.mp (kept mask)
  by_contra noError
  rw [Bool.not_eq_true, Option.isSome_eq_false_iff, Option.isNone_iff_eq_none,
    checkError_isNone] at noError
  obtain ⟨int, ill, abrt, fpe, kill, segv⟩ := noError
  have none := checkError_isNone.mpr ⟨clear _ int, clear _ ill, clear _ abrt, clear _ fpe,
    clear _ kill, clear _ segv⟩
  rw [none] at error
  simp at error

theorem Sparing.condemned (spares : Sparing k k') (below : p < k.nextProc)
    (condemned : k.Condemned p) : k'.Condemned p :=
  checkError_mono (spares.signals p below) condemned

namespace Kernel

theorem exit_condemned {exitCode : Int32} (h : k.exitCurrentAndRunNext exitCode = some k')
    (condemned : k.Condemned p) : k'.Condemned p := by
  rwa [Condemned, exit_signals h]

theorem Ends.condemned (ends : Ends a k k') (below : p < k.nextProc) (condemned : k.Condemned p) :
    k'.Condemned p := by
  cases ends with
  | trapEnd spares moves current ends =>
      have still := spares.condemned below condemned
      unfold Kernel.trapEnd at ends
      obtain ⟨process, -, ends⟩ := Option.bind_eq_some_iff.mp ends
      split at ends
      · exact exit_condemned ends still
      · rw [Option.some.injEq] at ends
        exact ends ▸ still
  | away parked => exact parked.spares.condemned below condemned
  | exit current exits => exact exit_condemned exits condemned

theorem dispatched_condemned {readyQueue : List TaskId} :
    (k.dispatched a readyQueue).Condemned p ↔ k.Condemned p := Iff.rfl

theorem step_condemned (frames : FramesOwn k) (h : k.step event = some k') (below : p < k.nextProc)
    (condemned : k.Condemned p) : k'.Condemned p := by
  cases current : k.current with
  | some a => exact (trap_ends current h).condemned below condemned
  | none =>
      rcases idle_ends frames current h with ⟨-, rfl⟩ | ⟨a, readyQueue, -, ⟨-, rfl⟩ | ⟨-, ends⟩⟩
      · exact condemned
      · exact dispatched_condemned.mpr condemned
      · exact ends.condemned below (dispatched_condemned.mpr condemned)

/-! ## The end of a path -/

theorem exit_done {exitCode : Int32} (current : k.current = some a)
    (h : k.exitCurrentAndRunNext exitCode = some k') :
    k'.current = none ∧ (k'.tasks a).exitCode = some exitCode := by
  obtain ⟨tid, allocator, -, -, ⟨-, rfl⟩ | ⟨-, done⟩⟩ := exitCurrentAndRunNext_eq current h
  · refine ⟨rfl, ?_⟩
    rw [exited_tasks, if_pos rfl]
  · refine ⟨done.current, ?_⟩
    rw [done.task, exited_tasks, if_pos rfl]

/-- The end of `trap_handler` for a thread of a process with an error signal. -/
theorem trapEnd_condemned (current : k.current = some a)
    (condemned : k.Condemned (k.tasks a).process) (h : k.trapEnd = some k') :
    ∃ exitCode, k.exitCurrentAndRunNext exitCode = some k' := by
  unfold trapEnd at h
  have h := currentProcess_bind current h
  split at h
  · exact ⟨_, h⟩
  · next noError =>
    rw [Condemned, noError] at condemned
    simp at condemned

/-- A thread of a process with an error signal does not return to its user code. -/
theorem Ends.inKernel (inv : Inv k) (ends : Ends a k k') (current : k.current = some a)
    (condemned : k.Condemned (k.tasks a).process) : k'.InKernel a := by
  obtain ⟨below, isLive, -⟩ := inv.current current
  -- a thread that has exited is not in the processor
  have left : ∀ {last : Kernel} {exitCode : Int32}, last.current = some a →
      last.exitCurrentAndRunNext exitCode = some k' → k'.InKernel a := by
    intro last exitCode isCurrent exits
    obtain ⟨none, exited⟩ := exit_done isCurrent exits
    exact ⟨by rw [none]; simp, .inl (by rw [exited]; simp)⟩
  cases ends with
  | trapEnd spares moves still ends =>
      have process := moves.others.process a below
      have there := spares.condemned (inv.process a below) condemned
      rw [← process] at there
      obtain ⟨exitCode, exits⟩ := trapEnd_condemned still there ends
      exact left still exits
  | away parked => exact ⟨by rw [parked.current]; simp, .inr parked.resume⟩
  | exit isCurrent exits => exact left isCurrent exits

end Kernel

/-! ## Threads that do not act -/

/-- A thread that does not act keeps its exit code, and its id until it loses it. -/
structure Bystander (t : TaskId) (k k' : Kernel) : Prop where
  exitCode : (k'.tasks t).exitCode = (k.tasks t).exitCode
  res : (k'.tasks t).res = none ∨ (k'.tasks t).res = (k.tasks t).res

namespace Bystander

theorem of_tasks (same : k'.tasks t = k.tasks t) : Bystander t k k' :=
  ⟨by rw [same], .inr (by rw [same])⟩

theorem trans {k₁ : Kernel} (first : Bystander t k k₁) (second : Bystander t k₁ k') :
    Bystander t k k' := by
  refine ⟨second.exitCode.trans first.exitCode, ?_⟩
  rcases second.res with lost | kept
  · exact .inl lost
  · rw [kept]
    exact first.res

/-- The status or the frame of some thread changes. -/
theorem of_update {u : TaskId} {new : Task} (tasks : k'.tasks = Function.update k.tasks u new)
    (exitCode : new.exitCode = (k.tasks u).exitCode) (res : new.res = (k.tasks u).res) :
    Bystander t k k' := by
  by_cases same : t = u
  · subst same
    exact ⟨by rw [tasks, Function.update_self, exitCode],
      .inr (by rw [tasks, Function.update_self, res])⟩
  · exact .of_tasks (by rw [tasks, Function.update_of_ne same])

end Bystander

theorem Move.bystander (move : Move a spawns k k') (below : t < k.nextTask) (other : t ≠ a) :
    Bystander t k k' := by
  have isOld : t ≠ k.nextTask := Nat.ne_of_lt below
  have exited : ∀ tid exitCode allocator, Bystander t k (k.exited a tid exitCode allocator) := by
    intro tid exitCode allocator
    exact .of_tasks (by rw [Kernel.exited_tasks, if_neg other])
  cases move with
  | quiet keeps waiters => exact .of_tasks rfl
  | wake current keeps waiters => exact .of_update rfl rfl rfl
  | expire mem => exact .of_update rfl rfl rfl
  | suspend current own => exact .of_update rfl rfl rfl
  | block current own keeps waiters => exact .of_update rfl rfl rfl
  | sleep current => exact .of_update rfl rfl rfl
  | dispatch current ready => exact .of_update rfl rfl rfl
  | spawn may current alloc =>
      apply Bystander.of_tasks
      rw [Kernel.spawned, Kernel.setProc_tasks, Kernel.addTask_tasks, Kernel.setTask_tasks,
        if_neg isOld]
  | collect current slot exited => exact .of_tasks rfl
  | fork current done => exact .of_tasks (done.task t isOld)
  | reap current found zombie dealloc => exact .of_tasks rfl
  | exit current res notMain dealloc => exact exited _ _ _
  | terminate current res isMain dealloc done =>
      refine (exited _ _ _).trans ⟨by rw [done.task], ?_⟩
      rw [done.task]
      dsimp only
      split
      · exact .inl rfl
      · exact .inr rfl

theorem Moves.bystander (moves : Moves a spawns k k') (below : t < k.nextTask) (other : t ≠ a) :
    Bystander t k k' := by
  induction moves with
  | refl => exact .of_tasks rfl
  | tail moves move ih =>
      exact ih.trans (move.bystander (Nat.lt_of_lt_of_le below (Moves.others moves).nextTask) other)

/-- A step leaves a thread that does not act alone. -/
theorem Kernel.step_bystander (frames : FramesOwn k) (h : k.step event = some k')
    (below : t < k.nextTask) (other : k.acting ≠ some t) :
    Bystander t k k' ∧ (k'.tasks t).frame = (k.tasks t).frame ∧
      (k'.current = some t → k.current = some t) := by
  rcases step_moves frames h with rfl | ⟨a, acts, moves⟩
  · exact ⟨.of_tasks rfl, rfl, id⟩
  · have differ : t ≠ a := by
      rintro rfl
      exact other acts
    refine ⟨moves.bystander below differ, moves.others.frame t differ below, ?_⟩
    intro here
    exact (moves.others.current t here).resolve_left differ

/-! ## A thread in the kernel stays there -/

/-- A thread that has exited does not act. -/
theorem Inv.acting_live (inv : Inv k) (acts : k.acting = some t) : k.Live t := by
  unfold Kernel.acting at acts
  cases current : k.current with
  | some a =>
      rw [current, Option.some_or] at acts
      exact (inv.current (current.trans acts)).2.1
  | none =>
      rw [current, Option.none_or] at acts
      exact (inv.ready (List.mem_of_head? acts)).2.1

theorem Kernel.step_inKernel (inv : Inv k) (frames : FramesOwn k) (h : k.step event = some k')
    (below : t < k.nextTask) (condemned : k.Condemned (k.tasks t).process)
    (inside : k.InKernel t) : k'.InKernel t := by
  by_cases acts : k.acting = some t
  · cases current : k.current with
    | some a =>
        rw [acting, current, Option.some_or] at acts
        exact absurd (current.trans acts) inside.1
    | none =>
        have goesOn : (k.tasks t).frame.resume ≠ .trapReturn :=
          inside.2.resolve_left (fun exited => exited (inv.acting_live acts).1)
        rw [acting, current, Option.none_or] at acts
        rcases idle_ends frames current h with ⟨queue, -⟩ |
          ⟨a, readyQueue, queue, rest⟩
        · rw [queue] at acts
          simp at acts
        · rw [queue, List.head?_cons, Option.some.injEq] at acts
          subst acts
          obtain ⟨starts, -⟩ | ⟨-, ends⟩ := rest
          · exact absurd starts goesOn
          · refine ends.inKernel (inv_dispatched inv current queue) rfl ?_
            rw [dispatched, setTask_self]
            exact condemned
  · obtain ⟨same, frame, current⟩ := step_bystander frames h below acts
    refine ⟨fun here => inside.1 (current here), ?_⟩
    rw [same.exitCode, frame]
    exact inside.2

/-- What holds of a thread of a process with an error signal holds later. -/
theorem ReachableState.inKernel (reachable : ReachableState k) (below : t < k.nextTask)
    (condemned : k.Condemned (k.tasks t).process) (inside : k.InKernel t)
    (h : k.steps events = some k') : k'.InKernel t := by
  induction events generalizing k with
  | nil =>
      simp only [Kernel.steps, Option.some.injEq] at h
      exact h ▸ inside
  | cons event rest ih =>
      obtain ⟨next, first, h⟩ := Option.bind_eq_some_iff.mp h
      obtain ⟨inv, frames⟩ := reachable.inv
      have once : k.steps [event] = some next := by rw [Kernel.steps, first]; rfl
      obtain ⟨below', process⟩ := reachable.process_stays below once
      refine ih (.step reachable trivial first) below' ?_
        (Kernel.step_inKernel inv frames first below condemned inside) h
      rw [process]
      exact Kernel.step_condemned frames first (inv.process t below) condemned

/-- A thread of a process with an error signal that is in the kernel never returns to its user code,
and one that is in its user code never does after its next trap. -/
theorem killed_thread_never_returns (reachable : ReachableState k) (below : t < k.nextTask)
    (killed : k.Condemned (k.tasks t).process) (run : k.steps events = some k') :
    (k.current ≠ some t → (k.tasks t).frame.resume ≠ .trapReturn → k'.current ≠ some t) ∧
    (k.current = some t → events ≠ [] → k'.current ≠ some t) := by
  constructor
  · intro away goesOn
    exact (reachable.inKernel below killed ⟨away, .inr goesOn⟩ run).1
  · intro current some
    cases events with
    | nil => exact absurd rfl some
    | cons event rest =>
        obtain ⟨next, first, run⟩ := Option.bind_eq_some_iff.mp run
        obtain ⟨inv, frames⟩ := reachable.inv
        have once : k.steps [event] = Option.some next := by rw [Kernel.steps, first]; rfl
        obtain ⟨below', process⟩ := reachable.process_stays below once
        have inside := (Kernel.trap_ends current first).inKernel inv current killed
        have still := Kernel.step_condemned frames first (inv.process t below) killed
        rw [← process] at still
        have reachable' : ReachableState next := .step reachable trivial first
        exact (reachable'.inKernel below' still inside run).1

/-- A thread of `INITPROC`'s child is preempted, and then the child gets the signal `SIGKILL`. -/
theorem killed_thread_never_returns_sigkill :
    ∃ k k', Kernel.start.steps
    [.idle true, .syscall .fork, .syscall .yield, .idle true, .syscall .yield, .idle true,
      .syscall (.kill 1 0x200)] = some k ∧
    k.steps [.syscall .yield, .idle true, .idle true, .syscall .quiet] = some k' ∧
    k'.current ≠ some 1 := by
  have facts : (Kernel.start.steps [.idle true, .syscall .fork, .syscall .yield, .idle true,
      .syscall .yield, .idle true, .syscall (.kill 1 0x200)]).map (fun k =>
        (decide (1 < k.nextTask ∧ (checkError (k.procs (k.tasks 1).process).signals).isSome = true ∧
          k.current ≠ some 1 ∧ (k.tasks 1).frame.resume ≠ .trapReturn),
        (k.steps [.syscall .yield, .idle true, .idle true, .syscall .quiet]).isSome)) =
          some (true, true) := by
    decide
  obtain ⟨k, h, eq⟩ := Option.map_eq_some_iff.mp facts
  rw [Prod.mk.injEq] at eq
  obtain ⟨below, killed, away, goesOn⟩ := of_decide_eq_true eq.1
  obtain ⟨k', later⟩ := Option.isSome_iff_exists.mp eq.2
  exact ⟨k, k', h, later, (killed_thread_never_returns (ReachableState.steps RunWith.start h) below
    killed later).1 away goesOn⟩

/-! ## A thread in the ready queue exits -/

/-- The switch to a thread that goes on at the end of `trap_handler`. -/
theorem Kernel.step_trapEnd (fetched : k.fetched event = some t) (h : k.step event = some k')
    (resume : (k.tasks t).frame.resume = .trapEnd) :
    ∃ readyQueue, k.readyQueue = t :: readyQueue ∧
      (k.dispatched t readyQueue).trapEnd = some k' := by
  unfold Kernel.fetched at fetched
  split at fetched
  · next ready idle =>
    obtain ⟨readyQueue, queue⟩ : ∃ readyQueue, k.readyQueue = t :: readyQueue := by
      cases queue : k.readyQueue with
      | nil => simp [queue] at fetched
      | cons a readyQueue =>
          rw [queue, List.head?_cons, Option.some.injEq] at fetched
          exact ⟨readyQueue, by rw [fetched]⟩
    refine ⟨readyQueue, queue, ?_⟩
    simp only [step, idle, runTasks, queue, Kernel.resume, resume] at h
    exact h
  · simp at fetched

/-- Its turn is the last one. -/
theorem Kernel.step_killed (fetched : k.fetched event = some t)
    (h : k.step event = some k') (killed : k.Condemned (k.tasks t).process)
    (resume : (k.tasks t).frame.resume = .trapEnd) : (k'.tasks t).exitCode ≠ none ∧
      ((k.tasks t).res = some 0 → (k'.procs (k.tasks t).process).isZombie = true) := by
  obtain ⟨readyQueue, queue, ends⟩ := step_trapEnd fetched h resume
  have same : ((k.dispatched t readyQueue).tasks t).process = (k.tasks t).process ∧
      ((k.dispatched t readyQueue).tasks t).res = (k.tasks t).res := by
    rw [dispatched, setTask_self]
    exact ⟨rfl, rfl⟩
  have current : (k.dispatched t readyQueue).current = some t := rfl
  obtain ⟨exitCode, exits⟩ := trapEnd_condemned current (by rw [same.1]; exact killed) ends
  refine ⟨by rw [(exit_done current exits).2]; simp, ?_⟩
  intro main
  obtain ⟨tid, allocator, res, -, ⟨notMain, -⟩ | ⟨-, done⟩⟩ :=
    exitCurrentAndRunNext_eq current exits
  · rw [same.2, main, Option.some.injEq] at res
    exact absurd res.symm notMain
  · rw [done.isZombie, if_pos same.1.symm]

/-- An exit code stays. -/
theorem ReachableState.exited_stays (reachable : ReachableState k) (below : t < k.nextTask)
    (exited : (k.tasks t).exitCode ≠ none) (h : k.steps events = some k') :
    (k'.tasks t).exitCode ≠ none := by
  induction events generalizing k with
  | nil =>
      simp only [Kernel.steps, Option.some.injEq] at h
      exact h ▸ exited
  | cons event rest ih =>
      obtain ⟨next, first, h⟩ := Option.bind_eq_some_iff.mp h
      obtain ⟨inv, frames⟩ := reachable.inv
      have once : k.steps [event] = some next := by rw [Kernel.steps, first]; rfl
      have idle : k.acting ≠ some t := fun acts => exited (inv.acting_live acts).1
      obtain ⟨same, -⟩ := Kernel.step_bystander frames first below idle
      refine ih (.step reachable trivial first) (reachable.process_stays below once).1 ?_ h
      rwa [same.exitCode]

/-- A thread that is fetched exits, and its process ends when it is the main thread. -/
theorem ReachableState.fetched_exits (reachable : ReachableState k) (here : t ∈ k.readyQueue)
    (killed : k.Condemned (k.tasks t).process) (resume : (k.tasks t).frame.resume = .trapEnd)
    (h : k.steps events = some k') (fetched : t ∈ k.dispatches events)
    (alive : (k'.procs (k.tasks t).process).isZombie = false) :
    (k'.tasks t).exitCode ≠ none ∧ (k.tasks t).res ≠ some 0 := by
  induction events generalizing k with
  | nil => simp [Kernel.dispatches] at fetched
  | cons event rest ih =>
      obtain ⟨next, first, h⟩ := Option.bind_eq_some_iff.mp h
      obtain ⟨inv, frames⟩ := reachable.inv
      have reachable' : ReachableState next := .step reachable trivial first
      have once : k.steps [event] = some next := by rw [Kernel.steps, first]; rfl
      obtain ⟨below, -, place⟩ := inv.ready here
      obtain ⟨below', process⟩ := reachable.process_stays below once
      rw [Kernel.dispatches, first] at fetched
      by_cases now : k.fetched event = some t
      · obtain ⟨exited, ends⟩ := Kernel.step_killed now first killed resume
        refine ⟨reachable'.exited_stays below' exited h, ?_⟩
        intro main
        rw [reachable'.zombie_stays (ends main) h] at alive
        simp at alive
      · have waits : t ∈ next.dispatches rest := by
          refine (List.mem_append.mp fetched).resolve_left fun mem => ?_
          exact now (Option.mem_toList.mp mem)
        have idle : k.acting ≠ some t := by
          intro acts
          unfold Kernel.acting at acts
          cases current : k.current with
          | some a =>
              rw [current, Option.some_or] at acts
              have running := Kernel.place_running.mpr (current.trans acts)
              rw [place] at running
              simp at running
          | none =>
              rw [current, Option.none_or] at acts
              exact now ((Kernel.fetched_idle current first).2.trans acts)
        obtain ⟨same, frame, -⟩ := Kernel.step_bystander frames first below idle
        have runs : k'.runnable t = true := by
          rw [Kernel.runnable, (reachable'.process_stays below' h).2, process, alive]
          rfl
        have still : t ∈ next.readyQueue := by
          have served := Kernel.step_serves inv frames first fun t below runs =>
            reachable'.runnable_before below h runs
          exact (List.mem_append.mp (served.mem here runs)).resolve_left
            fun mem => now (Option.mem_toList.mp mem)
        have later := ih reachable' still
          (by rw [process]; exact Kernel.step_condemned frames first (inv.process t below) killed)
          (by rw [frame]; exact resume) h waits (by rw [process]; exact alive)
        refine ⟨later.1, ?_⟩
        -- a thread that waits for the processor has its id
        obtain ⟨inv', -⟩ := reachable'.inv
        obtain ⟨-, isLive, -⟩ := inv'.ready still
        obtain ⟨tid, hasId, -⟩ := inv'.slot t below' isLive
        rcases same.res with lost | kept
        · rw [lost] at hasId
          simp at hasId
        · rw [← kept]
          exact later.2

/-- A thread of a process with an error signal that has given the processor up and is at the place
`i` of the ready queue exits within `i + 1` iterations of the idle loop, unless its process ends
before. If it is the main thread, the process ends. -/
theorem killed_thread_exits (reachable : ReachableState k) {i : Nat}
    (here : k.readyQueue[i]? = some t) (killed : k.Condemned (k.tasks t).process)
    (resume : (k.tasks t).frame.resume = .trapEnd) (run : k.steps events = some k')
    (enough : i < events.countP Event.isIdle) :
    ((k'.tasks t).exitCode ≠ none ∨ (k'.procs (k.tasks t).process).isZombie = true) ∧
    ((k.tasks t).res = some 0 → (k'.procs (k.tasks t).process).isZombie = true) := by
  cases alive : (k'.procs (k.tasks t).process).isZombie with
  | true => exact ⟨.inr rfl, fun _ => rfl⟩
  | false =>
      have mem := List.mem_of_getElem? here
      have runs : k'.runnable t = true := by
        have below := (reachable.inv.1.ready mem).1
        rw [Kernel.runnable, (reachable.process_stays below run).2, alive]
        rfl
      have fetched : t ∈ k.dispatches events := by
        by_contra waits
        rw [← reachable.length_dispatches mem run runs waits] at enough
        exact waits ((reachable.serves run).mem_served here runs enough)
      obtain ⟨exited, notMain⟩ := reachable.fetched_exits mem killed resume run fetched alive
      exact ⟨.inl exited, fun main => absurd main notMain⟩

/-- The child waits in the ready queue behind its parent, which kills it and goes on. -/
theorem killed_thread_exits_child : ∃ k k', Kernel.start.steps [.idle true, .syscall .fork,
    .syscall .yield, .idle true, .syscall .yield, .idle true, .syscall (.kill 1 0x200)] = some k ∧
    k.steps [.syscall .yield, .idle true] = some k' ∧
    (k'.procs (k.tasks 1).process).isZombie = true := by
  have facts : (Kernel.start.steps [.idle true, .syscall .fork, .syscall .yield, .idle true,
      .syscall .yield, .idle true, .syscall (.kill 1 0x200)]).map (fun k =>
        (decide (k.readyQueue[0]? = some 1 ∧
          (checkError (k.procs (k.tasks 1).process).signals).isSome = true ∧
          (k.tasks 1).frame.resume = .trapEnd ∧ (k.tasks 1).res = some 0),
        (k.steps [.syscall .yield, .idle true]).isSome)) = some (true, true) := by
    decide
  obtain ⟨k, h, eq⟩ := Option.map_eq_some_iff.mp facts
  rw [Prod.mk.injEq] at eq
  obtain ⟨first, killed, resume, main⟩ := of_decide_eq_true eq.1
  obtain ⟨k', later⟩ := Option.isSome_iff_exists.mp eq.2
  exact ⟨k, k', h, later, (killed_thread_exits (ReachableState.steps RunWith.start h) first killed
    resume later (by decide)).2 main⟩

end CoreFromDust.Os
