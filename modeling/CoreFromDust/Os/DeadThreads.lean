import CoreFromDust.Os.OnePlace
import CoreFromDust.Os.Proofs.Reports
import CoreFromDust.Os.Proofs.SyncEffects

/-!
# The threads of a dead process

When the main thread of a process has exited, the user frames of the process are freed. Its other
threads may still be in wait queues of its mutexes, semaphores and condition variables, but no
thread of the process is fetched from the ready queue or woken again.
-/

namespace CoreFromDust.Os

variable {k k' : Kernel} {a t : TaskId} {p : ProcId} {spawns : Prop}

/-- The thread that `fetch_task` returns in a step. -/
def Kernel.fetched (k : Kernel) (event : Event) : Option TaskId :=
  match k.current, event with
  | none, .idle _ => k.readyQueue.head?
  | _, _ => none

/-- The history only grows. -/
theorem Move.history (move : Move a spawns k k') : ∃ notes, k'.history = notes ++ k.history := by
  rcases move.family_cases with ⟨-, same | ⟨note, -, eq⟩⟩ | ⟨-, pid, done⟩ |
    ⟨-, i, child, allocator, -, -, -, rfl⟩ | ⟨-, exitCode, allocator, done⟩
  · exact ⟨[], same⟩
  · exact ⟨[note], eq⟩
  · exact ⟨[_], done.history⟩
  · exact ⟨[_], rfl⟩
  · exact ⟨[_], done.history⟩

theorem Moves.history (moves : Moves a spawns k k') : ∃ notes, k'.history = notes ++ k.history := by
  induction moves with
  | refl => exact ⟨[], rfl⟩
  | tail _ move ih =>
      obtain ⟨notes, eq⟩ := ih
      obtain ⟨later, eq'⟩ := move.history
      exact ⟨later ++ notes, by rw [eq', eq, List.append_assoc]⟩

/-- What the history says stays so. -/
theorem ReachableState.note_stays (reachable : ReachableState k) {events : List Event} {note : Note}
    (mem : note ∈ k.history) (h : k.steps events = some k') : note ∈ k'.history := by
  induction events generalizing k with
  | nil =>
      simp only [Kernel.steps, Option.some.injEq] at h
      exact h ▸ mem
  | cons event rest ih =>
      obtain ⟨next, first, h⟩ := Option.bind_eq_some_iff.mp h
      refine ih (.step reachable trivial first) ?_ h
      rcases Kernel.step_moves reachable.inv.2 first with rfl | ⟨a, -, moves⟩
      · exact mem
      · obtain ⟨notes, eq⟩ := moves.history
        rw [eq]
        exact List.mem_append_right _ mem

/-! ## Who is woken -/

section Waiters

variable {w : TaskId} {id : Nat}

theorem Kernel.unlockWakes_waiter (mem : w ∈ k.unlockWakes p id) : w ∈ (k.procs p).waiters := by
  unfold unlockWakes at mem
  split at mem
  · next waitQueue here => exact mutexAt_waiter here (List.mem_of_mem_take mem)
  · simp at mem

theorem Kernel.upWakes_waiter (mem : w ∈ k.upWakes p id) : w ∈ (k.procs p).waiters := by
  unfold upWakes at mem
  split at mem
  · next sem here =>
    split at mem
    · exact semaphoreAt_waiter here (List.mem_of_mem_take mem)
    · simp at mem
  · simp at mem

theorem Kernel.signalWakes_waiter (mem : w ∈ k.signalWakes p id) : w ∈ (k.procs p).waiters := by
  unfold signalWakes at mem
  split at mem
  · next condvar here =>
    refine List.mem_append_right _ ?_
    exact mem_flatMap_slot Condvar.waitQueue here (List.mem_of_mem_take mem)
  · simp at mem

theorem Kernel.timerWakes_sleeping {now : UInt64} {timers due : List TimerCondVar}
    (mem : w ∈ timerWakes now timers due) : w ∈ timers.map TimerCondVar.task := by
  induction due generalizing timers with
  | nil => simp [timerWakes] at mem
  | cons c rest ih =>
      rw [timerWakes] at mem
      split at mem
      · next peek =>
        rw [Bool.and_eq_true, isPeek, Bool.and_eq_true, List.contains_iff_mem] at peek
        rcases List.mem_cons.mp mem with rfl | mem
        · exact List.mem_map_of_mem peek.1.1
        · obtain ⟨d, inTimers, rfl⟩ := List.mem_map.mp (ih mem)
          exact List.mem_map_of_mem (List.mem_of_mem_erase inTimers)
      · simp at mem

end Waiters

/-- A thread that is woken belongs to a process that is not a zombie. -/
theorem Inv.wakeups_alive (inv : Inv k) {event : Event} (mem : t ∈ k.wakeups event) :
    (k.procs (k.tasks t).process).isZombie = false := by
  -- a thread that waits for an object of the current process is one of that process
  have waiting : ∀ {task}, k.current = some task →
      t ∈ (k.procs (k.tasks task).process).waiters →
      (k.procs (k.tasks t).process).isZombie = false := by
    intro task current mem
    rw [(inv.waiters _ t mem).2]
    exact (inv.current current).2.1.2
  unfold Kernel.wakeups at mem
  split at mem
  · next current => exact waiting current (Kernel.unlockWakes_waiter mem)
  · next current => exact waiting current (Kernel.unlockWakes_waiter mem)
  · next current => exact waiting current (Kernel.upWakes_waiter mem)
  · next current => exact waiting current (Kernel.signalWakes_waiter mem)
  · exact (inv.sleeping (Kernel.timerWakes_sleeping mem)).2.1.2
  · simp at mem

/-- After the main thread of a process has exited, no thread of the process is fetched or woken,
and none is in the processor, the ready queue or the timers. `wakeups` are all the wake-ups: any
other thread that becomes ready is the one that gave up the processor, or new. -/
theorem dead_process_never_runs (reachable : ReachableState k) {exitCode : Int32}
    (ended : .exited p 0 exitCode ∈ k.history) {events : List Event}
    (later : k.steps events = some k') :
    (∀ event t, k'.fetched event = some t → (k'.tasks t).process ≠ p) ∧
    (∀ event t, t ∈ k'.wakeups event → (k'.tasks t).process ≠ p) ∧
    (∀ t, (k'.tasks t).process = p → t < k'.nextTask →
      k'.current ≠ some t ∧ t ∉ k'.readyQueue ∧ t ∉ k'.timers.map TimerCondVar.task) ∧
    (∀ event last t, k'.step event = some last → t ∈ last.readyQueue → t ∉ k'.readyQueue →
      k'.acting = some t ∨ k'.nextTask ≤ t ∨ t ∈ k'.wakeups event) := by
  have reachable' := reachable.steps later
  obtain ⟨inv, frames⟩ := reachable'.inv
  have zombie : (k'.procs p).isZombie = true :=
    ((reachable'.family.2.exited p exitCode).mp (reachable.note_stays ended later)).1
  have differs : ∀ {t}, (k'.procs (k'.tasks t).process).isZombie = false →
      (k'.tasks t).process ≠ p := by
    rintro t alive rfl
    rw [zombie] at alive
    simp at alive
  refine ⟨?_, ?_, ?_, ?_⟩
  · intro event t fetched
    unfold Kernel.fetched at fetched
    split at fetched
    · exact differs (inv.ready (List.mem_of_head? fetched)).2.1.2
    · simp at fetched
  · intro event t mem
    exact differs (inv.wakeups_alive mem)
  · rintro t rfl below
    have gone := inv.gone t below (fun isLive => differs isLive.2 rfl)
    exact ⟨gone.1, gone.2.1, gone.2.2.1⟩
  · intro event last t step mem notReady
    obtain ⟨a, acts | rfl, effect⟩ := Kernel.step_effect frames step
    · rcases effect.ready t mem with mem | rfl | isNew | isWoken
      · exact absurd mem notReady
      · exact .inl acts
      · exact .inr (.inl isNew)
      · exact .inr (.inr isWoken)
    · exact absurd mem notReady

/-- A child creates a thread, which waits for a semaphore, and exits; then `INITPROC` goes on. -/
theorem dead_process_never_runs_semaphore : ∃ k k', Kernel.start.steps [.idle true,
    .syscall .fork, .syscall .yield, .idle true, .syscall (.semaphoreCreate 0),
    .syscall .threadCreate, .syscall .yield, .idle true, .syscall .yield, .idle true,
    .syscall (.semaphoreDown 0), .idle true, .syscall (.exit 0)] = some k ∧
    k.steps [.idle true, .syscall .yield] = some k' ∧ (k'.tasks 2).process = 1 ∧
    2 ∉ k'.readyQueue ∧ ∀ event, 2 ∉ k'.wakeups event := by
  have facts : (Kernel.start.steps [.idle true, .syscall .fork, .syscall .yield, .idle true,
      .syscall (.semaphoreCreate 0), .syscall .threadCreate, .syscall .yield, .idle true,
      .syscall .yield, .idle true, .syscall (.semaphoreDown 0), .idle true,
      .syscall (.exit 0)]).map (fun k => (decide (Note.exited 1 0 0 ∈ k.history),
        (k.steps [.idle true, .syscall .yield]).map fun k' =>
          decide ((k'.tasks 2).process = 1 ∧ 2 < k'.nextTask))) = some (true, some true) := by
    decide
  obtain ⟨k, h, eq⟩ := Option.map_eq_some_iff.mp facts
  rw [Prod.mk.injEq] at eq
  obtain ⟨k', later, facts'⟩ := Option.map_eq_some_iff.mp eq.2
  obtain ⟨own, below⟩ := of_decide_eq_true facts'
  obtain ⟨-, wakes, gone, -⟩ := dead_process_never_runs (ReachableState.steps RunWith.start h)
    (of_decide_eq_true eq.1) later
  exact ⟨k, k', h, later, own, (gone 2 own below).2.1, fun event mem => wakes event 2 mem own⟩

end CoreFromDust.Os
