import CoreFromDust.Os.Proofs.Scheduled

/-!
# Every thread is in one place

The containers of the kernel that hold threads are the processor, the ready queue, the wait
queues of all processes and the timers. Between two kernel paths each thread that can still run
is in them exactly once, and its status says where.
-/

namespace CoreFromDust.Os

variable {k k' : Kernel} {t : TaskId}

namespace Kernel

/-- The threads in the wait queues of all mutexes, semaphores and condition variables. -/
def waitQueues (k : Kernel) : List TaskId :=
  (List.range k.nextProc).flatMap fun p => (k.procs p).waiters

/-- The threads in all containers. -/
def scheduled (k : Kernel) : List TaskId :=
  k.current.toList ++ k.readyQueue ++ k.waitQueues ++ k.timers.map TimerCondVar.task

end Kernel

/-- Only one part of a concatenation contains `x`. -/
theorem count_flatMap_range {f : Nat → List Nat} {n p x : Nat} (only : ∀ q, q ≠ p → x ∉ f q)
    (below : p < n) : ((List.range n).flatMap f).count x = (f p).count x := by
  have absent : ∀ m, m ≤ p → ((List.range m).flatMap f).count x = 0 := by
    intro m le
    refine List.count_eq_zero_of_not_mem ?_
    rw [List.mem_flatMap]
    rintro ⟨q, mem, here⟩
    have small := List.mem_range.mp mem
    exact only q (by omega) here
  induction n with
  | zero => omega
  | succ n ih =>
      rw [List.range_succ, List.flatMap_append, List.count_append, List.flatMap_singleton]
      by_cases last : p = n
      · rw [absent n (by omega), last, Nat.zero_add]
      · rw [ih (by omega), List.count_eq_zero_of_not_mem (only n (Ne.symm last)), Nat.add_zero]

/-- A thread waits only in queues of its own process. -/
theorem Inv.count_waitQueues (inv : Inv k) (below : t < k.nextTask) :
    k.waitQueues.count t = (k.place t).waiting := by
  refine count_flatMap_range ?_ (inv.process t below)
  intro q other mem
  exact other (inv.waiters q t mem).2.symm

/-- A kernel that has run some events is in a state of a run. -/
theorem ReachableState.steps {events : List Event} (reachable : ReachableState k)
    (h : k.steps events = some k') : ReachableState k' := by
  induction events generalizing k with
  | nil =>
      simp only [Kernel.steps, Option.some.injEq] at h
      exact h ▸ reachable
  | cons event rest ih =>
      obtain ⟨next, first, h⟩ := Option.bind_eq_some_iff.mp h
      exact ih (.step reachable trivial first) h

/-- In every reachable state a thread that has not exited, of a process that is not a zombie, is
in exactly one container, and has the status that belongs to it. -/
theorem reachable_thread_once (reachable : ReachableState k) (below : t < k.nextTask)
    (notExited : (k.tasks t).exitCode = none)
    (alive : (k.procs (k.tasks t).process).isZombie = false) :
    k.scheduled.count t = 1 ∧
      (k.current = some t → (k.tasks t).taskStatus = .running) ∧
      (t ∈ k.readyQueue → (k.tasks t).taskStatus = .ready) ∧
      (t ∈ k.waitQueues → (k.tasks t).taskStatus = .blocked) ∧
      (t ∈ k.timers.map TimerCondVar.task → (k.tasks t).taskStatus = .blocked) := by
  obtain ⟨inv, -⟩ := reachable.inv
  have fits := inv.live t below ⟨notExited, alive⟩
  have total : k.scheduled.count t = (k.place t).running + (k.place t).ready +
      (k.place t).waiting + (k.place t).sleeping := by
    rw [Kernel.scheduled, List.count_append, List.count_append, List.count_append,
      inv.count_waitQueues below]
    rfl
  have waits : t ∈ k.waitQueues ↔ 0 < (k.place t).waiting := by
    rw [← List.count_pos_iff, inv.count_waitQueues below]
  rw [total, waits, ← Kernel.place_running, ← Kernel.place_ready, ← Kernel.place_sleeping]
  cases status : (k.tasks t).taskStatus with
  | running =>
      rw [status] at fits
      rw [show k.place t = _ from fits]
      simp
  | ready =>
      rw [status] at fits
      rw [show k.place t = _ from fits]
      simp
  | blocked =>
      rw [status] at fits
      rcases fits with place | place <;> rw [place] <;> simp

/-- A process with two threads, of which the first waits for a semaphore and the second runs. -/
theorem reachable_thread_once_waiting : ∃ k, Kernel.start.steps [.idle true,
    .syscall .threadCreate, .syscall (.semaphoreCreate 0),
    .syscall (.semaphoreDown 0), .idle true] =
      some k ∧ k.scheduled.count 0 = 1 ∧ k.scheduled.count 1 = 1 := by
  have runs : (Kernel.start.steps [.idle true, .syscall .threadCreate,
      .syscall (.semaphoreCreate 0), .syscall (.semaphoreDown 0), .idle true]).map (fun k =>
        decide (1 < k.nextTask ∧ (k.tasks 0).exitCode = none ∧ (k.tasks 1).exitCode = none ∧
          (k.procs (k.tasks 0).process).isZombie = false ∧
          (k.procs (k.tasks 1).process).isZombie = false)) = some true := by decide
  obtain ⟨k, h, facts⟩ := Option.map_eq_some_iff.mp runs
  obtain ⟨two, first, second, alive, alive'⟩ := of_decide_eq_true facts
  have reachable : ReachableState k := ReachableState.steps RunWith.start h
  exact ⟨k, h, (reachable_thread_once reachable (Nat.zero_lt_of_lt two) first alive).1,
    (reachable_thread_once reachable two second alive').1⟩

end CoreFromDust.Os
