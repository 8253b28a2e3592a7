import CoreFromDust.Lib.Fifo
import CoreFromDust.Os.DeadThreads
import CoreFromDust.Os.Proofs.CondvarEffects
import CoreFromDust.Os.Proofs.Sparing

/-!
# First come, first served

`fetch_task` takes the first thread of the ready queue, and whatever becomes ready goes to its end.
A thread leaves the queue in another way only when its process ends. So a ready thread gets the
processor after those that were in front of it, in as many iterations of the loop of `run_tasks`.
-/

namespace CoreFromDust.Os

open Lib

variable {k k' : Kernel} {a t : TaskId} {p : ProcId} {event : Event} {events : List Event}
  {keep : TaskId → Bool}

/-- The process of the thread is not a zombie. -/
def Kernel.runnable (k : Kernel) (t : TaskId) : Bool := !(k.procs (k.tasks t).process).isZombie

/-- The threads that `fetch_task` returns in a run. -/
def Kernel.dispatches (k : Kernel) : List Event → List TaskId
  | [] => []
  | event :: events => (k.fetched event).toList ++
      match k.step event with
      | none => []
      | some next => next.dispatches events

/-- An iteration of the loop of `run_tasks`. -/
def Event.isIdle : Event → Bool
  | .idle _ => true
  | _ => false

/-! ## What stays in a run -/

/-- A zombie stays one. -/
theorem ReachableState.zombie_stays (reachable : ReachableState k)
    (zombie : (k.procs p).isZombie = true) (h : k.steps events = some k') :
    (k'.procs p).isZombie = true := by
  have noted := (reachable.family.2.exited p _).mpr ⟨zombie, rfl⟩
  exact (((reachable.steps h).family.2.exited p _).mp (reachable.note_stays noted h)).1

/-- Threads stay in their process. -/
theorem ReachableState.process_stays (reachable : ReachableState k) (below : t < k.nextTask)
    (h : k.steps events = some k') :
    t < k'.nextTask ∧ (k'.tasks t).process = (k.tasks t).process := by
  induction events generalizing k with
  | nil =>
      simp only [Kernel.steps, Option.some.injEq] at h
      exact h ▸ ⟨below, rfl⟩
  | cons event rest ih =>
      obtain ⟨next, first, h⟩ := Option.bind_eq_some_iff.mp h
      obtain ⟨below', process⟩ : t < next.nextTask ∧
          (next.tasks t).process = (k.tasks t).process := by
        rcases Kernel.step_others reachable.inv.2 first with rfl | ⟨a, -, others⟩
        · exact ⟨below, rfl⟩
        · exact ⟨Nat.lt_of_lt_of_le below others.nextTask, others.process t below⟩
      rw [← process]
      exact ih (.step reachable trivial first) below' h

/-- What is runnable at the end was so all the time. -/
theorem ReachableState.runnable_before (reachable : ReachableState k) (below : t < k.nextTask)
    (h : k.steps events = some k') (runs : k'.runnable t = true) : k.runnable t = true := by
  unfold Kernel.runnable at runs ⊢
  rw [(reachable.process_stays below h).2] at runs
  cases zombie : (k.procs (k.tasks t).process).isZombie with
  | false => rfl
  | true => rwa [reachable.zombie_stays zombie h] at runs

/-! ## One step -/

namespace Kernel

/-- An exit removes threads of the process only, which is a zombie then. -/
theorem exit_serves (inv : Inv k) {exitCode : Int32} (current : k.current = some a)
    (h : k.exitCurrentAndRunNext exitCode = some k')
    (cares : ∀ t, t < k'.nextTask → keep t = true → k'.runnable t = true) :
    Serves keep k.readyQueue [] k'.readyQueue := by
  obtain ⟨tid, allocator, -, -, ⟨-, rfl⟩ | ⟨-, done⟩⟩ := exitCurrentAndRunNext_eq current h
  · exact .refl keep _
  · rw [done.readyQueue, ← List.diff_eq_foldl]
    refine Serves.diff ?_
    intro t mem
    have own : t < k.nextTask ∧ (k.tasks t).process = (k.tasks a).process := by
      obtain ⟨slot, here, rfl⟩ := List.mem_filterMap.mp mem
      obtain ⟨i, here⟩ := List.mem_iff_getElem?.mp here
      simp only [exited, setProc_self] at here
      exact inv.slots _ i t here
    have process : (k'.tasks t).process = (k.tasks a).process := by
      rw [done.task, exited_tasks, ← own.2]
      split <;> rfl
    by_contra cared
    have runs := cares t (done.nextTask ▸ own.1) (by simpa using cared)
    rw [runnable, process, done.isZombie, if_pos rfl] at runs
    simp at runs

theorem Ends.serves (inv : Inv k) (ends : Ends a k k')
    (cares : ∀ t, t < k'.nextTask → keep t = true → k'.runnable t = true) :
    Serves keep k.readyQueue [] k'.readyQueue := by
  cases ends with
  | @trapEnd last spares moves current ends =>
      unfold Kernel.trapEnd at ends
      obtain ⟨process, -, ends⟩ := Option.bind_eq_some_iff.mp ends
      refine (Serves.of_longer spares.ready).trans ?_
      split at ends
      · exact exit_serves (moves.inv inv) current ends cares
      · rw [Option.some.injEq] at ends
        exact ends ▸ .refl keep _
  | away parked => exact .of_longer parked.spares.ready
  | exit current exits => exact exit_serves inv current exits cares

theorem fetched_idle (idle : k.current = none) (h : k.step event = some k') :
    event.isIdle = true ∧ k.fetched event = k.readyQueue.head? := by
  cases event with
  | idle ready => exact ⟨rfl, by simp only [fetched, idle]⟩
  | _ => simp [step, idle] at h

theorem fetched_trap (current : k.current = some a) (h : k.step event = some k') :
    event.isIdle = false ∧ k.fetched event = none := by
  refine ⟨?_, by simp only [fetched, current]⟩
  cases event with
  | idle ready => simp [step, current] at h
  | _ => rfl

theorem inv_dispatched {readyQueue : List TaskId} (inv : Inv k) (idle : k.current = none)
    (queue : k.readyQueue = a :: readyQueue) : Inv (k.dispatched a readyQueue) :=
  inv.dispatch idle queue

/-- A step serves the thread that it fetches. -/
theorem step_serves (inv : Inv k) (frames : FramesOwn k) (h : k.step event = some k')
    (cares : ∀ t, t < k'.nextTask → keep t = true → k'.runnable t = true) :
    Serves keep k.readyQueue (k.fetched event).toList k'.readyQueue := by
  cases current : k.current with
  | some a =>
      rw [(fetched_trap current h).2]
      exact (trap_ends current h).serves inv cares
  | none =>
      rw [(fetched_idle current h).2]
      rcases idle_ends frames current h with ⟨queue, rfl⟩ |
        ⟨a, readyQueue, queue, ⟨-, rfl⟩ | ⟨-, ends⟩⟩
      · rw [queue]
        exact .refl keep _
      · rw [queue]
        exact .pop keep a readyQueue
      · rw [queue]
        have served : Serves keep (a :: readyQueue) [a] (k.dispatched a readyQueue).readyQueue :=
          .pop keep a readyQueue
        exact served.trans (ends.serves (inv_dispatched inv current queue) cares)

end Kernel

/-! ## Runs -/

/-- A run serves the threads that it fetches. -/
theorem ReachableState.serves (reachable : ReachableState k) (h : k.steps events = some k') :
    Serves k'.runnable k.readyQueue (k.dispatches events) k'.readyQueue := by
  induction events generalizing k with
  | nil =>
      simp only [Kernel.steps, Option.some.injEq] at h
      exact h ▸ .refl _ _
  | cons event rest ih =>
      obtain ⟨next, first, h⟩ := Option.bind_eq_some_iff.mp h
      have reachable' : ReachableState next := .step reachable trivial first
      rw [Kernel.dispatches, first]
      exact (Kernel.step_serves reachable.inv.1 reachable.inv.2 first fun t below runs =>
        reachable'.runnable_before below h runs).trans (ih reachable' h)

/-- As long as a thread waits in the ready queue, each iteration of the idle loop fetches one. -/
theorem ReachableState.length_dispatches (reachable : ReachableState k) (here : t ∈ k.readyQueue)
    (h : k.steps events = some k') (runs : k'.runnable t = true)
    (waits : t ∉ k.dispatches events) :
    (k.dispatches events).length = events.countP Event.isIdle := by
  induction events generalizing k with
  | nil => rfl
  | cons event rest ih =>
      obtain ⟨next, first, h⟩ := Option.bind_eq_some_iff.mp h
      have reachable' : ReachableState next := .step reachable trivial first
      rw [Kernel.dispatches, first] at waits ⊢
      rw [List.mem_append, not_or] at waits
      obtain ⟨notFetched, waits⟩ := waits
      have still : t ∈ next.readyQueue := by
        have served := Kernel.step_serves reachable.inv.1 reachable.inv.2 first fun t below runs =>
          reachable'.runnable_before below h runs
        exact (List.mem_append.mp (served.mem here runs)).resolve_left notFetched
      rw [List.length_append, List.countP_cons, ih reachable' still h waits, Nat.add_comm]
      congr 1
      cases current : k.current with
      | some a =>
          obtain ⟨trap, fetched⟩ := Kernel.fetched_trap current first
          rw [trap, fetched]
          rfl
      | none =>
          obtain ⟨idle, fetched⟩ := Kernel.fetched_idle current first
          cases queue : k.readyQueue with
          | nil => simp [queue] at here
          | cons a readyQueue =>
              rw [idle, fetched, queue]
              rfl

/-- A thread at the place `i` of the ready queue whose process does not end is fetched within
`i + 1` iterations of the idle loop, and before it only threads that were in front of it are, in
their order and each at most once. -/
theorem ready_thread_dispatched (reachable : ReachableState k) {i : Nat}
    (here : k.readyQueue[i]? = some t) (run : k.steps events = some k')
    (alive : (k'.procs (k.tasks t).process).isZombie = false) :
    (∃ before after, k.dispatches events ++ k'.readyQueue = before ++ t :: after ∧
      before.Sublist (k.readyQueue.take i)) ∧
    (i < events.countP Event.isIdle → t ∈ k.dispatches events) := by
  have mem := List.mem_of_getElem? here
  have runs : k'.runnable t = true := by
    have below := (reachable.inv.1.ready mem).1
    rw [Kernel.runnable, (reachable.process_stays below run).2, alive]
    rfl
  have serves := reachable.serves run
  refine ⟨serves.not_overtaken here runs, ?_⟩
  intro enough
  by_contra waits
  rw [← reachable.length_dispatches mem run runs waits] at enough
  exact waits (serves.mem_served here runs enough)

/-- `INITPROC` and two children: the second child is fetched after the first one. -/
theorem ready_thread_dispatched_secondChild : ∃ k k', Kernel.start.steps [.idle true,
    .syscall .fork, .syscall .fork, .syscall .yield] = some k ∧ k.readyQueue = [1, 2, 0] ∧
    k.steps [.idle true, .syscall .yield, .idle true] = some k' ∧
    2 ∈ k.dispatches [.idle true, .syscall .yield, .idle true] := by
  have facts : (Kernel.start.steps [.idle true, .syscall .fork, .syscall .fork,
      .syscall .yield]).map (fun k => (k.readyQueue,
        (k.steps [.idle true, .syscall .yield, .idle true]).map fun k' =>
          (k'.procs (k.tasks 2).process).isZombie)) = some ([1, 2, 0], some false) := by
    decide
  obtain ⟨k, h, eq⟩ := Option.map_eq_some_iff.mp facts
  rw [Prod.mk.injEq] at eq
  obtain ⟨k', later, alive⟩ := Option.map_eq_some_iff.mp eq.2
  have second : k.readyQueue[1]? = some 2 := by rw [eq.1]; rfl
  exact ⟨k, k', h, eq.1, later,
    (ready_thread_dispatched (ReachableState.steps RunWith.start h)
      second later alive).2 (by decide)⟩

end CoreFromDust.Os
