import CoreFromDust.Lib.LoggedRun
import CoreFromDust.Os.OnePlace
import CoreFromDust.Os.Proofs.SyncEffects
import Mathlib.Algebra.Group.Int.Defs
import Mathlib.Data.List.Nodup

/-!
# The count of a semaphore

A semaphore of a process is followed through whole runs of the kernel, with a log of what happens
to it. Its count is the number of resources less the number of threads that wait, and blocked
threads get a resource in the order in which they called `down`.
-/

namespace CoreFromDust.Os

open CoreFromDust.Lib (LoggedRun)

/-- What can happen to a semaphore. -/
inductive SemaphoreNote where
  /-- a thread called `up` -/
  | up
  /-- `down` returned to the thread without a switch in it -/
  | passed (task : TaskId)
  /-- `down` put the thread into the wait queue -/
  | queued (task : TaskId)
  /-- `up` took the thread from the wait queue -/
  | woken (task : TaskId)
  deriving DecidableEq, Repr

variable {k k' : Kernel} {p : ProcId} {id : Nat} {t : TaskId} {sem : Semaphore}
  {resCount : UInt64} {log : List SemaphoreNote}

/-- What a call does, for the log. -/
def Semaphore.notes : SemaphoreCall → Semaphore → List SemaphoreNote
  | .up _, sem =>
      .up :: if sem.count + 1 ≤ 0 then (sem.waitQueue.take 1).map .woken else []
  | .down task, sem => if sem.count - 1 < 0 then [.queued task] else [.passed task]

/-- What a step does to the semaphore. -/
def Kernel.semaphoreNotes (p : ProcId) (id : Nat) (k : Kernel) (event : Event) :
    List SemaphoreNote :=
  match k.semaphoreAt p id, k.semaphoreCall event p id with
  | some sem, some call => sem.notes call
  | _, _ => []

/-- The number of calls of `up`. -/
def ups (log : List SemaphoreNote) : Nat := log.count .up

/-- The threads whose `down` blocked, in the order in which they called it. -/
def blockedIn (log : List SemaphoreNote) : List TaskId :=
  log.filterMap fun note => match note with
    | .queued task => some task
    | _ => none

/-- The threads that were taken from the wait queue, in order. -/
def wokenIn (log : List SemaphoreNote) : List TaskId :=
  log.filterMap fun note => match note with
    | .woken task => some task
    | _ => none

/-- The threads whose `down` did not block. -/
def passedIn (log : List SemaphoreNote) : List TaskId :=
  log.filterMap fun note => match note with
    | .passed task => some task
    | _ => none

/-- The number of calls of `down`. -/
def downs (log : List SemaphoreNote) : Nat := (passedIn log).length + (blockedIn log).length

/-- The number of calls of `down` that got a resource: they returned at once, or were woken. -/
def grants (log : List SemaphoreNote) : Nat := (passedIn log).length + (wokenIn log).length

/-- The process has just created the semaphore. -/
def SemaphoreCreated (p : ProcId) (id : Nat) (resCount : UInt64) (k : Kernel) : Prop :=
  ∃ before last, ReachableState before ∧ before.currentProcess = some p ∧
    before.sysSemaphoreCreate resCount = some (.done last id) ∧
    before.step (.syscall (.semaphoreCreate resCount)) = some k

/-- Runs of the kernel from the creation of the semaphore on. -/
def SemaphoreRun (p : ProcId) (id : Nat) (resCount : UInt64) : Kernel → List SemaphoreNote → Prop :=
  LoggedRun Kernel.step (Kernel.semaphoreNotes p id) (fun _ _ _ => True)
    (SemaphoreCreated p id resCount)

/-! ## One call -/

/-- A semaphore agrees with its log. The queue is as long as a `VecDeque` can be at most. -/
structure Semaphore.Fits (sem : Semaphore) (resCount : UInt64) (log : List SemaphoreNote) :
    Prop where
  count : sem.count.toInt = resCount.toNat + ups log - downs log
  waiting : (sem.waitQueue.length : Int) = max 0 (-sem.count.toInt)
  capacity : 8 * sem.waitQueue.length < 2 ^ 63
  nodup : sem.waitQueue.Nodup
  order : blockedIn log = wokenIn log ++ sem.waitQueue

/-- Arithmetic on the count does not overflow. -/
theorem toInt_succ {n : Int64} (below : n.toInt + 1 < 2 ^ 63) : (n + 1).toInt = n.toInt + 1 := by
  have least := n.le_toInt
  have one : (1 : Int64).toInt = 1 := rfl
  rw [Int64.toInt_add, one, Int.bmod_eq_of_le_mul_two] <;> omega

theorem toInt_pred {n : Int64} (above : -2 ^ 63 ≤ n.toInt - 1) : (n - 1).toInt = n.toInt - 1 := by
  have most := n.toInt_lt
  have one : (1 : Int64).toInt = 1 := rfl
  rw [Int64.toInt_sub, one, Int.bmod_eq_of_le_mul_two] <;> omega

theorem ups_append (log more : List SemaphoreNote) : ups (log ++ more) = ups log + ups more :=
  List.count_append

theorem downs_append (log more : List SemaphoreNote) :
    downs (log ++ more) = downs log + downs more := by
  simp only [downs, passedIn, blockedIn, List.filterMap_append, List.length_append]
  omega

namespace Semaphore.Fits

/-- Nobody waits for a semaphore that is not negative. -/
theorem empty (fits : sem.Fits resCount log) (above : 0 ≤ sem.count.toInt) :
    sem.waitQueue = [] := by
  have waiting := fits.waiting
  exact List.length_eq_zero_iff.mp (by omega)

/-- A thread calls `up`. -/
theorem up (fits : sem.Fits resCount log) (small : resCount.toNat + ups log + 1 < 2 ^ 63) :
    (sem.after (.up t)).Fits resCount (log ++ sem.notes (.up t)) := by
  have count := fits.count
  have waiting := fits.waiting
  have succ : (sem.count + 1).toInt = sem.count.toInt + 1 := toInt_succ (by omega)
  have order := fits.order
  have negative : sem.count + 1 ≤ 0 ↔ sem.count.toInt + 1 ≤ 0 := by
    rw [Int64.le_iff_toInt_le, succ]
    exact Iff.rfl
  by_cases waits : sem.count + 1 ≤ 0
  · -- somebody waits and gets the resource
    have below := negative.mp waits
    cases queue : sem.waitQueue with
    | nil =>
        rw [queue] at waiting
        simp at waiting
        omega
    | cons w rest =>
        have length : sem.waitQueue.length = rest.length + 1 := by rw [queue]; rfl
        have after : sem.after (.up t) = ⟨sem.count + 1, rest⟩ := by
          simp only [Semaphore.after, if_pos waits, queue, List.tail_cons]
        have notes : sem.notes (.up t) = [.up, .woken w] := by
          simp only [Semaphore.notes, if_pos waits, queue]
          rfl
        have counts : ups (log ++ [.up, .woken w]) = ups log + 1 ∧
            downs (log ++ [.up, .woken w]) = downs log :=
          ⟨ups_append log _, downs_append log _⟩
        rw [after, notes]
        refine ⟨?_, ?_, ?_, ?_, ?_⟩
        · simp only [succ, counts.1, counts.2]
          omega
        · simp only [succ]
          omega
        · have capacity := fits.capacity
          simp only
          omega
        · have nodup := fits.nodup
          rw [queue] at nodup
          exact (List.nodup_cons.mp nodup).2
        · simp only [blockedIn, wokenIn, queue] at order
          simp [blockedIn, wokenIn, order]
  · have above : 0 ≤ sem.count.toInt := by
      rw [negative] at waits
      omega
    have empty := fits.empty above
    have after : sem.after (.up t) = ⟨sem.count + 1, []⟩ := by
      simp only [Semaphore.after, if_neg waits, empty]
    have notes : sem.notes (.up t) = [.up] := by
      simp only [Semaphore.notes, if_neg waits]
    have counts : ups (log ++ [.up]) = ups log + 1 ∧ downs (log ++ [.up]) = downs log :=
      ⟨ups_append log _, downs_append log _⟩
    rw [after, notes]
    refine ⟨?_, ?_, by simp, List.nodup_nil, ?_⟩
    · simp only [succ, counts.1, counts.2]
      omega
    · simp only [succ, List.length_nil]
      omega
    · simp only [blockedIn, wokenIn, empty] at order
      simp [blockedIn, wokenIn, order]

/-- A thread that is not in the wait queue calls `down`. -/
theorem down (fits : sem.Fits resCount log) (notWaiting : t ∉ sem.waitQueue)
    (room : sem.count - 1 < 0 → 8 * (sem.waitQueue.length + 1) < 2 ^ 63) :
    (sem.after (.down t)).Fits resCount (log ++ sem.notes (.down t)) := by
  have count := fits.count
  have waiting := fits.waiting
  have capacity := fits.capacity
  have order := fits.order
  have pred : (sem.count - 1).toInt = sem.count.toInt - 1 := toInt_pred (by omega)
  have negative : sem.count - 1 < 0 ↔ sem.count.toInt - 1 < 0 := by
    rw [Int64.lt_iff_toInt_lt, pred]
    exact Iff.rfl
  by_cases waits : sem.count - 1 < 0
  · have below := negative.mp waits
    have after : sem.after (.down t) = ⟨sem.count - 1, sem.waitQueue ++ [t]⟩ := by
      simp only [Semaphore.after, if_pos waits]
    have notes : sem.notes (.down t) = [.queued t] := by
      simp only [Semaphore.notes, if_pos waits]
    have counts : ups (log ++ [.queued t]) = ups log ∧
        downs (log ++ [.queued t]) = downs log + 1 :=
      ⟨ups_append log _, downs_append log _⟩
    rw [after, notes]
    refine ⟨?_, ?_, ?_, ?_, ?_⟩
    · simp only [pred, counts.1, counts.2]
      omega
    · simp only [pred, List.length_append, List.length_singleton]
      omega
    · simpa using room waits
    · rw [List.nodup_append_comm]
      exact List.nodup_cons.mpr ⟨notWaiting, fits.nodup⟩
    · simp only [blockedIn, wokenIn] at order
      simp [blockedIn, wokenIn, order]
  · have above : 1 ≤ sem.count.toInt := by
      rw [negative] at waits
      omega
    have empty := fits.empty (Int.le_of_lt above)
    have after : sem.after (.down t) = ⟨sem.count - 1, []⟩ := by
      simp only [Semaphore.after, if_neg waits, empty]
    have notes : sem.notes (.down t) = [.passed t] := by
      simp only [Semaphore.notes, if_neg waits]
    have counts : ups (log ++ [.passed t]) = ups log ∧
        downs (log ++ [.passed t]) = downs log + 1 :=
      ⟨ups_append log _, downs_append log _⟩
    rw [after, notes]
    refine ⟨?_, ?_, by simp, List.nodup_nil, ?_⟩
    · simp only [pred, counts.1, counts.2]
      omega
    · simp only [pred, List.length_nil]
      omega
    · simp only [blockedIn, wokenIn, empty] at order
      simp [blockedIn, wokenIn, order]

end Semaphore.Fits

/-! ## Runs -/

/-- The call `down` is made by the current thread, in `sys_semaphore_down`. -/
theorem Kernel.semaphoreCall_down {event : Event}
    (call : k.semaphoreCall event p id = some (.down t)) :
    k.current = some t ∧ (k.tasks t).process = p ∧ event = .syscall (.semaphoreDown id) := by
  unfold semaphoreCall at call
  split at call
  · split at call <;> simp at call
  · next task semId current =>
    split at call
    · next own =>
      obtain ⟨rfl, rfl⟩ := own
      simp only [Option.some.injEq, SemaphoreCall.down.injEq] at call
      subst call
      exact ⟨current, rfl, rfl⟩
    · simp at call
  · simp at call

/-- A `down` that blocks finds room in the queue. -/
theorem Kernel.step_down_room {event : Event} (call : k.semaphoreCall event p id = some (.down t))
    (here : k.semaphoreAt p id = some sem) (step : k.step event = some k')
    (waits : sem.count - 1 < 0) : 8 * (sem.waitQueue.length + 1) < 2 ^ 63 := by
  obtain ⟨current, rfl, rfl⟩ := semaphoreCall_down call
  rw [Kernel.step.eq_def, current] at step
  obtain ⟨path, called, -⟩ := Option.bind_eq_some_iff.mp step
  obtain ⟨process, upgraded, called⟩ := Option.bind_eq_some_iff.mp called
  obtain rfl := currentProcess_eq current upgraded
  have found :
      ((k.procs (k.tasks t).process).semaphoreList[id]?.bind fun slot => slot) = some sem :=
    here
  rw [semaphoreDown, found, Option.bind_some, if_pos waits, current, Option.bind_some] at called
  obtain ⟨waitQueue, pushed, -⟩ := Option.bind_eq_some_iff.mp called
  unfold pushBack at pushed
  split at pushed
  · assumption
  · simp at pushed

/-- A new semaphore. -/
theorem Semaphore.fits_new (small : resCount.toNat < 2 ^ 63) :
    Semaphore.Fits ⟨resCount.toInt64, []⟩ resCount [] := by
  have count : resCount.toInt64.toInt = resCount.toNat := by
    refine BitVec.toInt_eq_toNat_of_lt ?_
    rw [UInt64.toBitVec_toInt64, UInt64.toNat_toBitVec]
    omega
  refine ⟨?_, ?_, by simp, List.nodup_nil, rfl⟩
  · rw [count]
    rfl
  · rw [count, List.length_nil]
    omega

theorem SemaphoreCreated.fits (created : SemaphoreCreated p id resCount k) :
    ReachableState k ∧ p < k.nextProc ∧ ((k.procs p).dropped = false →
      resCount.toNat + ups [] < 2 ^ 63 →
      ∃ sem, k.semaphoreAt p id = some sem ∧ sem.Fits resCount []) := by
  obtain ⟨before, last, reachable, current, create, step⟩ := created
  obtain ⟨task, isCurrent, -⟩ := Option.bind_eq_some_iff.mp current
  have below := reachable.inv.1.currentProcess current
  have plain := Kernel.step_returned isCurrent step create
  rw [Kernel.sysSemaphoreCreate, current, Option.map_some, Option.some.injEq, Path.done.injEq,
    Int.natCast_inj] at create
  obtain ⟨rfl, rfl⟩ := create
  refine ⟨.step reachable trivial step, Nat.lt_of_lt_of_le below plain.nextProc, ?_⟩
  intro present small
  refine ⟨_, plain.semaphores p _ _ below present ?_, Semaphore.fits_new small⟩
  rw [Kernel.semaphoreAt, Kernel.setProc_self, getElem?_allocSlot_self]
  rfl

/-- The semaphore agrees with its log in every run with few enough calls of `up`. -/
theorem SemaphoreRun.fits (run : SemaphoreRun p id resCount k log) :
    ReachableState k ∧ p < k.nextProc ∧ ((k.procs p).dropped = false →
      resCount.toNat + ups log < 2 ^ 63 →
      ∃ sem, k.semaphoreAt p id = some sem ∧ sem.Fits resCount log) := by
  refine LoggedRun.invariant (fun k log => ReachableState k ∧ p < k.nextProc ∧
    ((k.procs p).dropped = false → resCount.toNat + ups log < 2 ^ 63 →
      ∃ sem, k.semaphoreAt p id = some sem ∧ sem.Fits resCount log)) run
    (fun _ created => created.fits) ?_
  intro k k' log event ⟨reachable, below, before⟩ _ step
  obtain ⟨inv, frames⟩ := reachable.inv
  obtain ⟨a, -, effect⟩ := Kernel.step_effect frames step
  refine ⟨.step reachable trivial step, Nat.lt_of_lt_of_le below effect.nextProc, ?_⟩
  intro present small
  have more := ups_append log (k.semaphoreNotes p id event)
  obtain ⟨sem, here, fits⟩ := before (effect.dropped p below present) (by omega)
  refine ⟨_, effect.semaphores p id sem below present here, ?_⟩
  cases call : k.semaphoreCall event p id with
  | none =>
      have notes : k.semaphoreNotes p id event = [] := by rw [Kernel.semaphoreNotes, here, call]
      rw [notes, List.append_nil]
      exact fits
  | some call' =>
      have notes : k.semaphoreNotes p id event = sem.notes call' := by
        rw [Kernel.semaphoreNotes, here, call]
      rw [notes] at more small ⊢
      cases call' with
      | up t =>
          have one : 1 ≤ ups (sem.notes (.up t)) := by simp [ups, Semaphore.notes]
          exact fits.up (by omega)
      | down t =>
          refine fits.down ?_ (Kernel.step_down_room call here step)
          intro mem
          obtain ⟨current, own, -⟩ := Kernel.semaphoreCall_down call
          have waits := Kernel.semaphoreAt_waiter here mem
          rw [← own] at waits
          exact inv.not_waiting (.inl current) waits

/-- Semaphore accounting: in every run of the kernel, as long as the resources and the calls of
`up` are fewer than `2 ^ 63` together, the count is the number of resources and of calls of `up`
less the calls of `down`; if it is negative, so many threads wait, each once, and else none; as
many calls of `down` got a resource as could; and blocked ones get theirs in order. -/
theorem semaphore_accounting (run : SemaphoreRun p id resCount k log)
    (present : (k.procs p).dropped = false) (small : resCount.toNat + ups log < 2 ^ 63) :
    ∃ sem, k.semaphoreAt p id = some sem ∧
      sem.count.toInt = resCount.toNat + ups log - downs log ∧
      (sem.count < 0 → (sem.waitQueue.length : Int) = -sem.count.toInt ∧ sem.waitQueue.Nodup) ∧
      (0 ≤ sem.count → sem.waitQueue = []) ∧
      grants log = min (downs log) (resCount.toNat + ups log) ∧
      grants log ≤ resCount.toNat + ups log ∧
      blockedIn log = wokenIn log ++ sem.waitQueue := by
  obtain ⟨sem, here, fits⟩ := run.fits.2.2 present small
  have count := fits.count
  have waiting := fits.waiting
  have zero : (0 : Int64).toInt = 0 := rfl
  -- the blocked calls that did not get a resource are those in the queue
  have granted : grants log + sem.waitQueue.length = downs log := by
    have lengths := congrArg List.length fits.order
    rw [List.length_append] at lengths
    rw [grants, downs]
    omega
  refine ⟨sem, here, count, ?_, ?_, ?_, ?_, fits.order⟩
  · intro negative
    rw [Int64.lt_iff_toInt_lt, zero] at negative
    exact ⟨by omega, fits.nodup⟩
  · intro positive
    rw [Int64.le_iff_toInt_le, zero] at positive
    exact fits.empty positive
  · omega
  · omega

/-- Two threads wait for a semaphore without resources; `up` wakes the first. -/
theorem semaphore_accounting_two : ∃ before created k sem, Kernel.start.steps [.idle true,
    .syscall .threadCreate, .syscall .threadCreate] = some before ∧
    before.step (.syscall (.semaphoreCreate 0)) = some created ∧
    Lib.loggedSteps Kernel.step (Kernel.semaphoreNotes 0 0) (fun _ _ _ => true) created []
      [.syscall .yield, .idle true, .syscall (.semaphoreDown 0), .idle true,
        .syscall (.semaphoreDown 0), .idle true, .syscall (.semaphoreUp 0)] =
      some (k, [.queued 1, .queued 2, .up, .woken 1]) ∧
    k.semaphoreAt 0 0 = some sem ∧ sem.count.toInt = -1 ∧ sem.waitQueue = [2] := by
  have facts : (Kernel.start.steps [.idle true, .syscall .threadCreate,
      .syscall .threadCreate]).map (fun before => (decide (before.currentProcess = some 0 ∧
        (before.sysSemaphoreCreate 0).bind Path.value = some 0),
        (before.step (.syscall (.semaphoreCreate 0))).map fun created =>
          (Lib.loggedSteps Kernel.step (Kernel.semaphoreNotes 0 0) (fun _ _ _ => true) created []
            [.syscall .yield, .idle true, .syscall (.semaphoreDown 0), .idle true,
              .syscall (.semaphoreDown 0), .idle true, .syscall (.semaphoreUp 0)]).map
            fun result => (result.2, (result.1.procs 0).dropped))) =
      some (true, some (some ([.queued 1, .queued 2, .up, .woken 1], false))) := by
    decide
  obtain ⟨before, start, eq⟩ := Option.map_eq_some_iff.mp facts
  simp only [Prod.mk.injEq] at eq
  obtain ⟨facts, eq⟩ := eq
  obtain ⟨current, create⟩ := of_decide_eq_true facts
  obtain ⟨path, create, value⟩ := Option.bind_eq_some_iff.mp create
  obtain ⟨created, step, eq⟩ := Option.map_eq_some_iff.mp eq
  obtain ⟨⟨k, log⟩, logged, eq⟩ := Option.map_eq_some_iff.mp eq
  simp only [Prod.mk.injEq] at eq
  obtain ⟨rfl, present⟩ := eq
  have isCreated : SemaphoreCreated 0 0 0 created := by
    cases path with
    | away last => simp [Path.value] at value
    | done last result =>
        simp only [Path.value, Option.some.injEq] at value
        subst value
        exact ⟨before, last, ReachableState.steps RunWith.start start, current, create, step⟩
  have run : SemaphoreRun 0 0 0 k [.queued 1, .queued 2, .up, .woken 1] :=
    LoggedRun.loggedSteps (fun _ _ _ _ => trivial) (.start isCreated) logged
  obtain ⟨sem, here, count, -, -, -, -, order⟩ := semaphore_accounting run present (by decide)
  have rest : [1, 2] = 1 :: sem.waitQueue := order
  exact ⟨before, created, k, sem, start, step, logged, here, count, (List.cons.inj rest).2.symm⟩

end CoreFromDust.Os
