import CoreFromDust.Lib.LoggedRun
import CoreFromDust.Os.OnePlace
import CoreFromDust.Os.Proofs.SyncEffects
import Mathlib.Data.List.Nodup

/-!
# Who owns a mutex

A mutex of a process is followed through whole runs of the kernel, with a log of what happens to
it. In the runs in which a thread calls `unlock` or `Condvar::wait` only while it owns the mutex,
the mutex has one owner at most and is handed over in the order in which threads came to wait.
-/

namespace CoreFromDust.Os

open CoreFromDust.Lib (LoggedRun)

/-- What can happen to a mutex. -/
inductive MutexNote where
  /-- `lock` returned to the thread without a switch in it -/
  | acquired (task : TaskId)
  /-- `lock` put the thread into the wait queue -/
  | queued (task : TaskId)
  /-- `unlock` took the thread from the wait queue -/
  | handed (task : TaskId)
  /-- the thread called `unlock` -/
  | released (task : TaskId)
  deriving DecidableEq, Repr

variable {k k' : Kernel} {p : ProcId} {id : Nat} {t u : TaskId} {m : Mutex}
  {log : List MutexNote}

/-- What a call does, for the log. -/
def Mutex.notes : MutexCall → Mutex → List MutexNote
  | .lock task, .blocking true _ => [.queued task]
  | .lock task, .blocking false _ => [.acquired task]
  | .lock _, .spin true => []
  | .lock task, .spin false => [.acquired task]
  | .unlock task, .blocking _ (wakingTask :: _) => [.released task, .handed wakingTask]
  | .unlock task, .blocking _ [] => [.released task]
  | .unlock task, .spin _ => [.released task]

/-- The flag of a mutex. -/
def Mutex.locked : Mutex → Bool
  | .blocking locked _ => locked
  | .spin locked => locked

/-- What a step does to the mutex. -/
def Kernel.mutexNotes (p : ProcId) (id : Nat) (k : Kernel) (event : Event) : List MutexNote :=
  match k.mutexAt p id, k.mutexCall event p id with
  | some m, some call => m.notes call
  | _, _ => []

/-- Whether a thread owns the mutex after a note. -/
def MutexNote.owns (task : TaskId) (before : Bool) : MutexNote → Bool
  | .acquired u => if u = task then true else before
  | .handed u => if u = task then true else before
  | .released u => if u = task then false else before
  | .queued _ => before

/-- The thread owns the mutex: its `lock` returned, or it was taken from the wait queue, and it has
not called `unlock` since. -/
def Owns (log : List MutexNote) (task : TaskId) : Prop :=
  log.foldl (MutexNote.owns task) false = true

/-- The threads that had to wait, in the order in which they called `lock`. -/
def queuedIn (log : List MutexNote) : List TaskId :=
  log.filterMap fun note => match note with
    | .queued task => some task
    | _ => none

/-- The threads that were taken from the wait queue, in order. -/
def handedIn (log : List MutexNote) : List TaskId :=
  log.filterMap fun note => match note with
    | .handed task => some task
    | _ => none

/-- The process has just created the mutex. -/
def MutexCreated (p : ProcId) (id : Nat) (k : Kernel) : Prop :=
  ∃ before blocking last, ReachableState before ∧ before.currentProcess = some p ∧
    before.sysMutexCreate blocking = some (.done last id) ∧
    before.step (.syscall (.mutexCreate blocking)) = some k

/-- A thread calls `unlock` only while it owns the mutex. -/
def OwnerUnlocks (p : ProcId) (id : Nat) (log : List MutexNote) (k : Kernel)
    (event : Event) : Prop :=
  ∀ task, k.mutexCall event p id = some (.unlock task) → Owns log task

/-- Runs of the kernel from the creation of the mutex on. -/
def MutexRun (p : ProcId) (id : Nat) : Kernel → List MutexNote → Prop :=
  LoggedRun Kernel.step (Kernel.mutexNotes p id) (OwnerUnlocks p id) (MutexCreated p id)

/-! ## One call -/

/-- A mutex agrees with its log. -/
structure Mutex.Fits (m : Mutex) (log : List MutexNote) : Prop where
  owner : ∀ t u, Owns log t → Owns log u → t = u
  locked : m.locked = true ↔ ∃ t, Owns log t
  free : m.locked = false → m.waitQueue = []
  nodup : m.waitQueue.Nodup
  order : queuedIn log = handedIn log ++ m.waitQueue

section Notes

variable (log : List MutexNote)

@[simp] theorem owns_acquired : Owns (log ++ [.acquired u]) t ↔ u = t ∨ Owns log t := by
  simp only [Owns, List.foldl_append, List.foldl_cons, List.foldl_nil, MutexNote.owns]
  split <;> simp_all

@[simp] theorem owns_handed : Owns (log ++ [.handed u]) t ↔ u = t ∨ Owns log t := by
  simp only [Owns, List.foldl_append, List.foldl_cons, List.foldl_nil, MutexNote.owns]
  split <;> simp_all

@[simp] theorem owns_released : Owns (log ++ [.released u]) t ↔ u ≠ t ∧ Owns log t := by
  simp only [Owns, List.foldl_append, List.foldl_cons, List.foldl_nil, MutexNote.owns]
  split <;> simp_all

@[simp] theorem owns_queued : Owns (log ++ [.queued u]) t ↔ Owns log t := by
  simp only [Owns, List.foldl_append, List.foldl_cons, List.foldl_nil, MutexNote.owns]

end Notes

namespace Mutex.Fits

/-- A thread that is not in the wait queue calls `lock`. -/
theorem lock (fits : m.Fits log) (notWaiting : t ∉ m.waitQueue) :
    (m.after (.lock t)).Fits (log ++ m.notes (.lock t)) := by
  -- a mutex that is free gets its owner
  have acquires : m.locked = false → ∀ m' : Mutex, m'.locked = true → m'.waitQueue = m.waitQueue →
      m'.Fits (log ++ [.acquired t]) := by
    intro free m' isLocked sameQueue
    have unowned : ∀ u, ¬ Owns log u := by
      intro u owns
      rw [fits.locked.mpr ⟨u, owns⟩] at free
      simp at free
    refine ⟨?_, ?_, ?_, ?_, ?_⟩
    · intro u v ownsU ownsV
      rw [owns_acquired] at ownsU ownsV
      exact (ownsU.resolve_right (unowned u)).symm.trans (ownsV.resolve_right (unowned v))
    · exact ⟨fun _ => ⟨t, (owns_acquired log).mpr (.inl rfl)⟩, fun _ => isLocked⟩
    · rw [isLocked]
      simp
    · rw [sameQueue]
      exact fits.nodup
    · rw [sameQueue]
      simpa [queuedIn, handedIn] using fits.order
  cases m with
  | blocking locked waitQueue =>
      cases locked with
      | true =>
          refine ⟨?_, ?_, ?_, ?_, ?_⟩
          · intro u v ownsU ownsV
            exact fits.owner u v ((owns_queued log).mp ownsU) ((owns_queued log).mp ownsV)
          · simp only [notes, owns_queued]
            exact fits.locked
          · simp [after, Mutex.locked]
          · simp only [after, Mutex.waitQueue] at notWaiting ⊢
            rw [List.nodup_append_comm]
            exact List.nodup_cons.mpr ⟨notWaiting, fits.nodup⟩
          · have order := fits.order
            simp only [queuedIn, handedIn, Mutex.waitQueue] at order
            simp [queuedIn, handedIn, notes, after, Mutex.waitQueue, order]
      | false => exact acquires rfl _ rfl rfl
  | spin locked =>
      cases locked with
      | true =>
          simp only [after, notes, List.append_nil]
          exact fits
      | false => exact acquires rfl _ rfl rfl

/-- The owner calls `unlock`. -/
theorem unlock (fits : m.Fits log) (owns : Owns log t) :
    (m.after (.unlock t)).Fits (log ++ m.notes (.unlock t)) := by
  have isLocked := fits.locked.mpr ⟨t, owns⟩
  have unowned : ∀ u, ¬ Owns (log ++ [.released t]) u := by
    intro u ownsU
    obtain ⟨other, ownsU⟩ := (owns_released log).mp ownsU
    exact other (fits.owner t u owns ownsU)
  -- nobody waits, so the mutex becomes free
  have releases : m.waitQueue = [] → ∀ m' : Mutex, m'.locked = false → m'.waitQueue = [] →
      m'.Fits (log ++ [.released t]) := by
    intro empty m' isFree empty'
    refine ⟨fun u v ownsU => absurd ownsU (unowned u), ?_, fun _ => empty', ?_, ?_⟩
    · rw [isFree]
      refine ⟨fun h => by simp at h, ?_⟩
      rintro ⟨u, ownsU⟩
      exact absurd ownsU (unowned u)
    · rw [empty']
      exact List.nodup_nil
    · have order := fits.order
      rw [empty] at order
      rw [empty']
      simpa [queuedIn, handedIn] using order
  cases m with
  | blocking locked waitQueue =>
      cases waitQueue with
      | nil => exact releases rfl _ rfl rfl
      | cons wakingTask waitQueue =>
          have notes : log ++ [MutexNote.released t, .handed wakingTask] =
              (log ++ [.released t]) ++ [.handed wakingTask] := by simp
          simp only [Mutex.notes, after, notes]
          refine ⟨?_, ?_, ?_, (List.nodup_cons.mp fits.nodup).2, ?_⟩
          · intro u v ownsU ownsV
            rw [owns_handed] at ownsU ownsV
            exact (ownsU.resolve_right (unowned u)).symm.trans (ownsV.resolve_right (unowned v))
          · exact ⟨fun _ => ⟨wakingTask, (owns_handed _).mpr (.inl rfl)⟩, fun _ => rfl⟩
          · simp [Mutex.locked]
          · have order := fits.order
            simp only [queuedIn, handedIn, Mutex.waitQueue] at order
            simp [queuedIn, handedIn, Mutex.waitQueue, order]
  | spin locked => exact releases rfl _ rfl rfl

end Mutex.Fits

/-! ## Runs -/

/-- A thread that calls `lock` is in no wait queue. -/
theorem Inv.lock_not_waiting (inv : Inv k) {event : Event}
    (call : k.mutexCall event p id = some (.lock t)) : t ∉ (k.procs p).waiters := by
  unfold Kernel.mutexCall at call
  split at call
  · obtain ⟨task, first, call⟩ := Option.bind_eq_some_iff.mp call
    split at call
    · next own =>
      simp only [Option.some.injEq, MutexCall.lock.injEq] at call
      subst call
      rw [← own.1]
      exact inv.not_waiting (.inr (List.mem_of_head? first))
    · simp at call
  · next task _ current =>
    split at call
    · next own =>
      simp only [Option.some.injEq, MutexCall.lock.injEq] at call
      subst call
      rw [← own.1]
      exact inv.not_waiting (.inl current)
    · simp at call
  · split at call <;> simp at call
  · split at call <;> simp at call
  · simp at call

/-- A new mutex is free. -/
theorem Mutex.fits_new (blocking : Bool) :
    (if blocking then Mutex.blocking false [] else .spin false).Fits [] := by
  have unowned : ∀ t, ¬ Owns [] t := fun t => by simp [Owns]
  refine ⟨fun t u owns => absurd owns (unowned t), ?_, ?_, ?_, ?_⟩
  · refine ⟨?_, fun ⟨t, owns⟩ => absurd owns (unowned t)⟩
    cases blocking <;> simp [Mutex.locked]
  · cases blocking <;> simp [Mutex.waitQueue]
  · cases blocking <;> simp [Mutex.waitQueue]
  · cases blocking <;> rfl

theorem MutexCreated.fits (created : MutexCreated p id k) :
    ReachableState k ∧ p < k.nextProc ∧
      ((k.procs p).dropped = false → ∃ m, k.mutexAt p id = some m ∧ m.Fits []) := by
  obtain ⟨before, blocking, last, reachable, current, create, step⟩ := created
  obtain ⟨task, isCurrent, -⟩ := Option.bind_eq_some_iff.mp current
  have below := reachable.inv.1.currentProcess current
  have plain := Kernel.step_returned isCurrent step create
  rw [Kernel.sysMutexCreate, current, Option.map_some, Option.some.injEq, Path.done.injEq,
    Int.natCast_inj] at create
  obtain ⟨rfl, rfl⟩ := create
  refine ⟨.step reachable trivial step, Nat.lt_of_lt_of_le below plain.nextProc, fun present => ?_⟩
  refine ⟨_, plain.mutexes p _ _ below present ?_, Mutex.fits_new blocking⟩
  rw [Kernel.mutexAt, Kernel.setProc_self, getElem?_allocSlot_self]
  rfl

/-- The mutex agrees with its log in every run. -/
theorem MutexRun.fits (run : MutexRun p id k log) : ReachableState k ∧ p < k.nextProc ∧
    ((k.procs p).dropped = false → ∃ m, k.mutexAt p id = some m ∧ m.Fits log) := by
  refine LoggedRun.invariant (fun k log => ReachableState k ∧ p < k.nextProc ∧
    ((k.procs p).dropped = false → ∃ m, k.mutexAt p id = some m ∧ m.Fits log)) run
    (fun _ created => created.fits) ?_
  intro k k' log event ⟨reachable, below, fits⟩ ownerUnlocks step
  obtain ⟨inv, frames⟩ := reachable.inv
  obtain ⟨a, -, effect⟩ := Kernel.step_effect frames step
  refine ⟨.step reachable trivial step, Nat.lt_of_lt_of_le below effect.nextProc, fun present => ?_⟩
  obtain ⟨m, here, fits⟩ := fits (effect.dropped p below present)
  refine ⟨_, effect.mutexes p id m below present here, ?_⟩
  rw [Kernel.mutexNotes, here]
  cases call : k.mutexCall event p id with
  | none => simpa using fits
  | some call' =>
      cases call' with
      | lock t =>
          refine fits.lock ?_
          intro mem
          exact inv.lock_not_waiting call (Kernel.mutexAt_waiter here mem)
      | unlock t => exact fits.unlock (ownerUnlocks t call)

/-- Mutual exclusion: in every run of the kernel in which only the owner of the mutex unlocks it,
at every moment one thread at most owns it; it is locked exactly when it has an owner; if it is
free, nobody waits; nobody waits twice; threads get it in the order in which they came to wait; and
the assertion in `unlock` holds. -/
theorem mutex_one_owner (run : MutexRun p id k log) (present : (k.procs p).dropped = false) :
    ∃ m, k.mutexAt p id = some m ∧
      (∀ t u, Owns log t → Owns log u → t = u) ∧
      (m.locked = true ↔ ∃ t, Owns log t) ∧
      (m.locked = false → m.waitQueue = []) ∧
      m.waitQueue.Nodup ∧
      queuedIn log = handedIn log ++ m.waitQueue ∧
      ∀ event t, k.mutexCall event p id = some (.unlock t) → OwnerUnlocks p id log k event →
        ∃ k', k.mutexUnlock p id = some k' := by
  obtain ⟨m, here, fits⟩ := run.fits.2.2 present
  refine ⟨m, here, fits.owner, fits.locked, fits.free, fits.nodup, fits.order, ?_⟩
  intro event t call ownerUnlocks
  have isLocked := fits.locked.mpr ⟨t, ownerUnlocks t call⟩
  have found : ((k.procs p).mutexList[id]?.bind fun slot => slot) = some m := here
  unfold Kernel.mutexUnlock
  rw [found, Option.bind_some]
  cases m with
  | blocking locked waitQueue =>
      obtain rfl : locked = true := isLocked
      cases waitQueue with
      | nil => exact ⟨_, rfl⟩
      | cons wakingTask waitQueue => exact ⟨_, rfl⟩
  | spin locked =>
      obtain rfl : locked = true := isLocked
      exact ⟨_, rfl⟩

/-- `OwnerUnlocks` as a check. -/
def ownerUnlocks (p : ProcId) (id : Nat) (log : List MutexNote) (k : Kernel)
    (event : Event) : Bool :=
  match k.mutexCall event p id with
  | some (.unlock task) => log.foldl (MutexNote.owns task) false
  | _ => true

theorem ownerUnlocks_sound (log : List MutexNote) (k : Kernel) (event : Event)
    (passes : ownerUnlocks p id log k event = true) : OwnerUnlocks p id log k event := by
  intro task call
  rw [ownerUnlocks, call] at passes
  exact passes

/-- A thread waits for a mutex while another one owns it, and gets it from that one, which then
waits for a condition variable and the mutex in turn. -/
theorem mutex_one_owner_handed : ∃ before created k m, Kernel.start.steps [.idle true,
    .syscall .threadCreate, .syscall .condvarCreate] = some before ∧
    before.step (.syscall (.mutexCreate true)) = some created ∧
    Lib.loggedSteps Kernel.step (Kernel.mutexNotes 0 0) (ownerUnlocks 0 0) created []
      [.syscall (.mutexLock 0), .syscall .yield, .idle true, .syscall (.mutexLock 0), .idle true,
        .syscall (.condvarWait 0 0), .idle true, .syscall (.condvarSignal 0), .syscall .yield,
        .idle true] =
      some (k, [.acquired 0, .queued 1, .released 0, .handed 1, .queued 0]) ∧
    k.mutexAt 0 0 = some m ∧ m.locked = true ∧ m.waitQueue = [0] := by
  have facts : (Kernel.start.steps [.idle true, .syscall .threadCreate,
      .syscall .condvarCreate]).map (fun before => (decide (before.currentProcess = some 0 ∧
        (before.sysMutexCreate true).bind Path.value = some 0),
        (before.step (.syscall (.mutexCreate true))).map fun created =>
          (Lib.loggedSteps Kernel.step (Kernel.mutexNotes 0 0) (ownerUnlocks 0 0) created []
            [.syscall (.mutexLock 0), .syscall .yield, .idle true, .syscall (.mutexLock 0),
              .idle true, .syscall (.condvarWait 0 0), .idle true, .syscall (.condvarSignal 0),
              .syscall .yield, .idle true]).map
            fun result => (result.2, (result.1.procs 0).dropped))) =
      some (true, some (some ([.acquired 0, .queued 1, .released 0, .handed 1, .queued 0],
        false))) := by
    decide
  obtain ⟨before, start, eq⟩ := Option.map_eq_some_iff.mp facts
  simp only [Prod.mk.injEq] at eq
  obtain ⟨facts, eq⟩ := eq
  obtain ⟨current, create⟩ := of_decide_eq_true facts
  obtain ⟨path, create, value⟩ := Option.bind_eq_some_iff.mp create
  obtain ⟨created, step, eq⟩ := Option.map_eq_some_iff.mp eq
  obtain ⟨⟨k, log⟩, logged, eq⟩ := Option.map_eq_some_iff.mp eq
  simp only [Prod.mk.injEq] at eq
  obtain ⟨rfl, present⟩ := eq
  have isCreated : MutexCreated 0 0 created := by
    cases path with
    | away last => simp [Path.value] at value
    | done last result =>
        simp only [Path.value, Option.some.injEq] at value
        subst value
        exact ⟨before, true, last, ReachableState.steps RunWith.start start, current, create, step⟩
  have run : MutexRun 0 0 k [.acquired 0, .queued 1, .released 0, .handed 1, .queued 0] :=
    LoggedRun.loggedSteps ownerUnlocks_sound (.start isCreated) logged
  obtain ⟨m, here, -, locked, -, -, order, -⟩ := mutex_one_owner run present
  refine ⟨before, created, k, m, start, step, logged, here, locked.mpr ⟨1, rfl⟩, ?_⟩
  have rest : [1, 0] = 1 :: m.waitQueue := order
  exact (List.cons.inj rest).2.symm

end CoreFromDust.Os
