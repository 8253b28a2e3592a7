import CoreFromDust.Os.MutexOwners
import CoreFromDust.Os.Proofs.CondvarEffects
import CoreFromDust.Os.Proofs.Reports

/-!
# No lost wake-up

A condition variable and the mutex that its waiters use are followed through all runs of the
kernel, with a log of what happens to them. Every return of `wait` is matched with the signal that
popped the waiter, and waiters are popped in the order in which they came.
-/

namespace CoreFromDust.Os

open CoreFromDust.Lib (LoggedRun)

/-- What can happen to a condition variable and its mutex. -/
inductive CondvarNote where
  | mutex (note : MutexNote)
  /-- `wait` released the mutex and put the thread into the wait queue -/
  | waiting (task : TaskId)
  /-- `signal` took the thread from the wait queue -/
  | signaled (task : TaskId)
  /-- the call in which the thread had given up the processor returns -/
  | resumed (task : TaskId)
  deriving DecidableEq, Repr

variable {k k' : Kernel} {p : ProcId} {c m : Nat} {t u : TaskId} {log : List CondvarNote}

/-- What a call on a condition variable does, for the log. -/
def Condvar.notes : CondvarCall → Condvar → List CondvarNote
  | .signal, condvar => (condvar.waitQueue.take 1).map .signaled
  | .wait task, _ => [.waiting task]

/-- What a step does to the condition variable. -/
def Kernel.condvarCallNotes (p : ProcId) (c : Nat) (k : Kernel) (event : Event) :
    List CondvarNote :=
  match k.condvarAt p c, k.condvarCall event p c with
  | some condvar, some call => condvar.notes call
  | _, _ => []

/-- The thread of the process to which the idle loop switches, if the call that it is in returns:
it has nothing left to do there, or the mutex that it goes on to lock is free. -/
def Kernel.returning (p : ProcId) (k : Kernel) (event : Event) : Option TaskId :=
  match k.current, event with
  | none, .idle _ =>
      k.readyQueue.head?.bind fun task =>
        if (k.tasks task).process = p then
          match (k.tasks task).frame.resume with
          | .trapEnd => some task
          | .lock id =>
              if (k.mutexAt p id).map Mutex.locked = some false then some task else none
          | _ => none
        else none
  | _, _ => none

/-- What a step does to the condition variable `c`, to the mutex `m` and to the calls of their
process. -/
def Kernel.condvarNotes (p : ProcId) (c m : Nat) (k : Kernel) (event : Event) : List CondvarNote :=
  (k.mutexNotes p m event).map .mutex ++ k.condvarCallNotes p c event ++
    (k.returning p event).toList.map .resumed

/-- The notes on the mutex. -/
def mutexLog (log : List CondvarNote) : List MutexNote :=
  log.filterMap fun note => match note with
    | .mutex note => some note
    | _ => none

/-- The threads that came to wait, in order. -/
def waitedIn (log : List CondvarNote) : List TaskId :=
  log.filterMap fun note => match note with
    | .waiting task => some task
    | _ => none

/-- The threads that were popped, in order. -/
def signaledIn (log : List CondvarNote) : List TaskId :=
  log.filterMap fun note => match note with
    | .signaled task => some task
    | _ => none

/-- How a note changes the number of signals that popped a thread since its `wait` began. -/
def CondvarNote.waits (task : TaskId) (before : Option Nat) : CondvarNote → Option Nat
  | .waiting u => if u = task then some 0 else before
  | .signaled u => if u = task then before.map (· + 1) else before
  | .resumed u => if u = task then none else before
  | .mutex _ => before

/-- The number of signals that popped a thread since its `wait` began, if it is in `wait`. -/
def waits (log : List CondvarNote) (task : TaskId) : Option Nat :=
  log.foldl (CondvarNote.waits task) none

/-- Threads release the mutex only while they own it. -/
def OwnersRelease (log : List MutexNote) : Prop :=
  ∀ (i : Nat) t, log[i]? = some (.released t) → Owns (log.take i) t

/-- A thread that waits for the condition variable does so with the mutex. -/
def OneMutex (p : ProcId) (c m : Nat) (k : Kernel) (event : Event) : Prop :=
  ∀ task id, k.current = some task → (k.tasks task).process = p →
    event = .syscall (.condvarWait c id) → id = m

/-- Runs of the kernel in which the condition variable is used with one mutex. -/
def CondvarRun (p : ProcId) (c m : Nat) : Kernel → List CondvarNote → Prop :=
  LoggedRun Kernel.step (Kernel.condvarNotes p c m) (fun _ => OneMutex p c m) (· = Kernel.start)

/-! ## Returns -/

/-- The notes between two places of a log. -/
def between (log : List CondvarNote) (w r : Nat) : List CondvarNote := (log.take r).drop (w + 1)

/-- The call of `wait` by `t` that is noted at `w` returns at `r`. -/
structure ReturnAt (log : List CondvarNote) (t : TaskId) (w r : Nat) : Prop where
  began : log[w]? = some (.waiting t)
  returned : log[r]? = some (.resumed t)
  after : w < r
  onlyWait : .waiting t ∉ between log w r
  firstReturn : .resumed t ∉ between log w r

/-- The signal that is noted at `s` popped the waiter `t` in a call that returned. -/
structure Uses (log : List CondvarNote) (t : TaskId) (w r s : Nat) : Prop where
  returns : ReturnAt log t w r
  after : w < s
  before : s < r
  pops : log[s]? = some (.signaled t)

/-- A call of `wait` that returns now was popped once, and the thread owns the mutex; nobody else
does if only owners release it. -/
def Granted (log : List CondvarNote) (t : TaskId) : Prop :=
  ∀ n, waits log t = some n → n = 1 ∧ Owns (mutexLog log) t ∧
    (OwnersRelease (mutexLog log) → ∀ u, Owns (mutexLog log) u → u = t)

/-- Every return so far was granted. -/
def AllGranted (log : List CondvarNote) : Prop :=
  ∀ (r : Nat) t, log[r]? = some (.resumed t) → Granted (log.take r) t

section Logs

variable (log) (note : MutexNote) (notes : List MutexNote)

theorem mutexLog_append (more : List CondvarNote) :
    mutexLog (log ++ more) = mutexLog log ++ mutexLog more := List.filterMap_append

theorem waitedIn_append (more : List CondvarNote) :
    waitedIn (log ++ more) = waitedIn log ++ waitedIn more := List.filterMap_append

theorem signaledIn_append (more : List CondvarNote) :
    signaledIn (log ++ more) = signaledIn log ++ signaledIn more := List.filterMap_append

@[simp] theorem mutexLog_map : mutexLog (notes.map .mutex) = notes := by
  induction notes with
  | nil => rfl
  | cons note rest ih => exact congrArg (note :: ·) ih

@[simp] theorem waits_map : waits (log ++ notes.map .mutex) t = waits log t := by
  induction notes generalizing log with
  | nil => rw [List.map_nil, List.append_nil]
  | cons note rest ih =>
      have first := ih (log ++ [.mutex note])
      simpa [waits, CondvarNote.waits] using first

@[simp] theorem waits_waiting :
    waits (log ++ [.waiting u]) t = if u = t then some 0 else waits log t := by
  simp [waits, CondvarNote.waits]

@[simp] theorem waits_signaled :
    waits (log ++ [.signaled u]) t = if u = t then (waits log t).map (· + 1) else waits log t := by
  simp [waits, CondvarNote.waits]

@[simp] theorem waits_resumed :
    waits (log ++ [.resumed u]) t = if u = t then none else waits log t := by
  simp [waits, CondvarNote.waits]

end Logs

theorem OwnersRelease.of_append {log more : List MutexNote}
    (release : OwnersRelease (log ++ more)) :
    OwnersRelease log := by
  intro i t here
  have below := (List.getElem?_eq_some_iff.mp here).1
  have owns := release i t (by rw [List.getElem?_append_left below, here])
  rwa [List.take_append_of_le_length (Nat.le_of_lt below)] at owns

/-- The thread that unlocks the mutex owns it. -/
theorem OwnersRelease.unlock {log : List MutexNote} {mutex : Mutex}
    (release : OwnersRelease (log ++ mutex.notes (.unlock t))) : Owns log t := by
  have first : ∃ rest, mutex.notes (.unlock t) = .released t :: rest := by
    cases mutex with
    | blocking locked waitQueue => cases waitQueue <;> exact ⟨_, rfl⟩
    | spin locked => exact ⟨_, rfl⟩
  obtain ⟨rest, eq⟩ := first
  rw [eq] at release
  have owns := release log.length t (by simp)
  rwa [List.take_left] at owns

/-! ## The mutex -/

section MutexCalls

variable {log : List MutexNote} {mutex : Mutex} {call : MutexCall}

/-- A thread that waits for the mutex still does so after a call, or it was handed the mutex. -/
theorem Mutex.waiter_after (mem : t ∈ mutex.waitQueue) :
    t ∈ (mutex.after call).waitQueue ∨ Owns (log ++ mutex.notes call) t := by
  cases mutex with
  | spin locked => simp [Mutex.waitQueue] at mem
  | blocking locked waitQueue =>
      cases call with
      | lock u =>
          cases locked with
          | true => exact .inl (List.mem_append_left _ mem)
          | false => exact .inl mem
      | unlock u =>
          cases waitQueue with
          | nil => simp [Mutex.waitQueue] at mem
          | cons w rest =>
              rcases List.mem_cons.mp mem with rfl | mem
              · refine .inr ?_
                rw [Mutex.notes, List.append_cons]
                exact (owns_handed _).mpr (.inl rfl)
              · exact .inl mem

/-- An owner that does not unlock the mutex stays one. -/
theorem Mutex.owns_after (owns : Owns log t) (keeps : call ≠ .unlock t) :
    Owns (log ++ mutex.notes call) t := by
  cases call with
  | lock u =>
      cases mutex with
      | blocking locked waitQueue =>
          cases locked with
          | true => exact (owns_queued log).mpr owns
          | false => exact (owns_acquired log).mpr (.inr owns)
      | spin locked =>
          cases locked with
          | true => simpa [Mutex.notes] using owns
          | false => exact (owns_acquired log).mpr (.inr owns)
  | unlock u =>
      have released : Owns (log ++ [.released u]) t :=
        (owns_released log).mpr ⟨fun same => keeps (by rw [same]), owns⟩
      cases mutex with
      | spin locked => exact released
      | blocking locked waitQueue =>
          cases waitQueue with
          | nil => exact released
          | cons w rest =>
              rw [Mutex.notes, List.append_cons]
              exact (owns_handed _).mpr (.inr released)

/-- A thread that locks a free mutex owns it. -/
theorem Mutex.owns_lock (free : mutex.locked = false) : Owns (log ++ mutex.notes (.lock t)) t := by
  cases mutex with
  | blocking locked waitQueue =>
      rw [Mutex.locked] at free
      subst free
      exact (owns_acquired log).mpr (.inl rfl)
  | spin locked =>
      rw [Mutex.locked] at free
      subst free
      exact (owns_acquired log).mpr (.inl rfl)

end MutexCalls

/-! ## States and logs -/

/-- The threads that wait for the condition variable. -/
def Kernel.condvarQueue (p : ProcId) (c : Nat) (k : Kernel) : List TaskId :=
  (k.condvarAt p c).elim [] Condvar.waitQueue

/-- The threads that wait for the mutex. -/
def Kernel.mutexQueue (p : ProcId) (m : Nat) (k : Kernel) : List TaskId :=
  (k.mutexAt p m).elim [] Mutex.waitQueue

/-- A thread in `wait` that was popped `n` times goes on to lock the mutex, or it waits for the
mutex or was handed it. -/
structure Inside (p : ProcId) (m : Nat) (k : Kernel) (mutexLog : List MutexNote) (t : TaskId)
    (n : Nat) : Prop where
  created : t < k.nextTask
  process : (k.tasks t).process = p
  notCurrent : k.current ≠ some t
  once : n ≤ 1
  frame : (k.tasks t).frame.resume = .lock m ∨ (n = 1 ∧ (k.tasks t).frame.resume = .trapEnd ∧
    (t ∈ k.mutexQueue p m ∨ Owns mutexLog t))

/-- A process that is not dropped agrees with the log. -/
structure Tracks (p : ProcId) (c m : Nat) (k : Kernel) (log : List CondvarNote) : Prop where
  order : waitedIn log = signaledIn log ++ k.condvarQueue p c
  nodup : (k.condvarQueue p c).Nodup
  queued : ∀ t, t ∈ k.condvarQueue p c ↔ waits log t = some 0
  inside : ∀ t n, waits log t = some n → Inside p m k (mutexLog log) t n
  noMutex : k.mutexAt p m = none → mutexLog log = []
  fits : ∀ mutex, k.mutexAt p m = some mutex → OwnersRelease (mutexLog log) →
    mutex.Fits (mutexLog log)

/-- A state agrees with the log. -/
structure CondvarInv (p : ProcId) (c m : Nat) (k : Kernel) (log : List CondvarNote) : Prop where
  reachable : ReachableState k
  granted : AllGranted log
  unborn : k.nextProc ≤ p → log = []
  tracks : p < k.nextProc → (k.procs p).dropped = false → Tracks p c m k log

/-! ## One step -/

section Step

variable {event : Event}

/-- A call on a mutex is made by the thread that acts, which is one of the process. -/
theorem Kernel.mutexCall_acting {call : MutexCall} (h : k.mutexCall event p m = some call) :
    ∃ a, k.acting = some a ∧ (k.tasks a).process = p ∧
      (call = .lock a ∨ (call = .unlock a ∧ k.current = some a)) := by
  unfold mutexCall at h
  split at h
  · next idle =>
    obtain ⟨task, first, h⟩ := Option.bind_eq_some_iff.mp h
    split at h
    · next own =>
      rw [Option.some.injEq] at h
      exact ⟨task, by rw [acting, idle, first]; rfl, own.1, .inl h.symm⟩
    · simp at h
  · next task _ current =>
    split at h
    · next own =>
      rw [Option.some.injEq] at h
      exact ⟨task, by rw [acting, current]; rfl, own.1, .inl h.symm⟩
    · simp at h
  · next task _ current =>
    split at h
    · next own =>
      rw [Option.some.injEq] at h
      exact ⟨task, by rw [acting, current]; rfl, own.1, .inr ⟨h.symm, current⟩⟩
    · simp at h
  · next task _ _ current =>
    split at h
    · next own =>
      rw [Option.some.injEq] at h
      exact ⟨task, by rw [acting, current]; rfl, own.1, .inr ⟨h.symm, current⟩⟩
    · simp at h
  · simp at h

/-- A call on a condition variable is made by the current thread, which is one of the process. -/
theorem Kernel.condvarCall_current {call : CondvarCall} (h : k.condvarCall event p c = some call) :
    ∃ a, k.current = some a ∧ (k.tasks a).process = p ∧
      (call = .signal ∨ (call = .wait a ∧ ∃ id, event = .syscall (.condvarWait c id))) := by
  unfold condvarCall at h
  split at h
  · next task _ current =>
    split at h
    · next own =>
      rw [Option.some.injEq] at h
      exact ⟨task, current, own.1, .inl h.symm⟩
    · simp at h
  · next task _ id current =>
    split at h
    · next own =>
      rw [Option.some.injEq] at h
      obtain ⟨own, rfl⟩ := own
      exact ⟨task, current, own, .inr ⟨h.symm, id, rfl⟩⟩
    · simp at h
  · simp at h

/-- The thread whose call returns is fetched from the ready queue. -/
theorem Kernel.returning_cases (h : k.returning p event = some t) :
    k.current = none ∧ k.readyQueue.head? = some t ∧ (k.tasks t).process = p ∧
      ((k.tasks t).frame.resume = .trapEnd ∨ ∃ id mutex, (k.tasks t).frame.resume = .lock id ∧
        k.mutexAt p id = some mutex ∧ mutex.locked = false ∧
        k.mutexCall event p id = some (.lock t)) := by
  unfold returning at h
  split at h
  · next ready idle =>
    obtain ⟨task, first, h⟩ := Option.bind_eq_some_iff.mp h
    split at h
    · next own =>
      split at h
      · next resume =>
        rw [Option.some.injEq] at h
        subst h
        exact ⟨idle, first, own, .inl resume⟩
      · next id resume =>
        split at h
        · next free =>
          rw [Option.some.injEq] at h
          subst h
          obtain ⟨mutex, here, unlocked⟩ := Option.map_eq_some_iff.mp free
          refine ⟨idle, first, own, .inr ⟨id, mutex, resume, here, unlocked, ?_⟩⟩
          simp only [mutexCall, idle, first, Option.bind_some, own, resume, and_self, if_true]
        · simp at h
      · simp at h
    · simp at h
  · simp at h

/-- The thread that acts can run, and its process is there. -/
theorem ReachableState.acting (reachable : ReachableState k) {a : TaskId} (h : k.acting = some a) :
    a < k.nextTask ∧ (k.tasks a).process < k.nextProc ∧
      (k.procs (k.tasks a).process).dropped = false ∧
      a ∉ (k.procs (k.tasks a).process).waiters := by
  obtain ⟨inv, -⟩ := reachable.inv
  have acts : k.current = some a ∨ a ∈ k.readyQueue := by
    rw [Kernel.acting, Option.or_eq_some_iff] at h
    rcases h with current | ⟨-, first⟩
    · exact .inl current
    · exact .inr (List.mem_of_head? first)
  have runs : a < k.nextTask ∧ k.Live a := by
    rcases acts with current | ready
    · exact ⟨(inv.current current).1, (inv.current current).2.1⟩
    · exact ⟨(inv.ready ready).1, (inv.ready ready).2.1⟩
  refine ⟨runs.1, inv.process a runs.1, ?_, inv.not_waiting acts⟩
  exact reachable.family.1.not_dropped runs.2.2

/-- Who makes a note acts, and is a thread of the process. -/
theorem Kernel.condvarNotes_acting (noted : k.condvarNotes p c m event ≠ []) :
    ∃ a, k.acting = some a ∧ (k.tasks a).process = p := by
  by_contra none
  have noActing : ∀ a, k.acting = some a → (k.tasks a).process ≠ p :=
    fun a acts own => none ⟨a, acts, own⟩
  have noCurrent : ∀ a, k.current = some a → (k.tasks a).process ≠ p :=
    fun a current => noActing a (by rw [acting, current]; rfl)
  refine noted ?_
  have noMutex : k.mutexNotes p m event = [] := by
    unfold mutexNotes
    split
    · next call =>
      obtain ⟨a, acts, own, -⟩ := mutexCall_acting call
      exact absurd own (noActing a acts)
    · rfl
  have noCondvar : k.condvarCallNotes p c event = [] := by
    unfold condvarCallNotes
    split
    · next call =>
      obtain ⟨a, current, own, -⟩ := condvarCall_current call
      exact absurd own (noCurrent a current)
    · rfl
  have noReturn : k.returning p event = Option.none := by
    rw [Option.eq_none_iff_forall_ne_some]
    intro a returns
    obtain ⟨idle, first, own, -⟩ := returning_cases returns
    exact noActing a (by rw [acting, idle, first]; rfl) own
  rw [condvarNotes, noMutex, noCondvar, noReturn]
  rfl

/-- What a step does to the queue of the condition variable. -/
theorem Kernel.condvarCallNotes_cases (effect : CondvarEffect (k.condvarCall event) k k')
    (below : p < k.nextProc) (present : (k'.procs p).dropped = false) :
    (k.condvarCallNotes p c event = [] ∧ k'.condvarQueue p c = k.condvarQueue p c) ∨
    (∃ w rest a, k.condvarQueue p c = w :: rest ∧ k.condvarCallNotes p c event = [.signaled w] ∧
      k'.condvarQueue p c = rest ∧ k.current = some a) ∨
    ∃ a id, k.current = some a ∧ (k.tasks a).process = p ∧
      event = .syscall (.condvarWait c id) ∧ k.condvarCallNotes p c event = [.waiting a] ∧
      k'.condvarQueue p c = k.condvarQueue p c ++ [a] := by
  unfold condvarCallNotes condvarQueue
  cases here : k.condvarAt p c with
  | none =>
      refine .inl ⟨rfl, ?_⟩
      cases there : k'.condvarAt p c with
      | none => rfl
      | some condvar => rw [effect.newCondvar p c condvar below present here there]; rfl
  | some condvar =>
      have after := effect.condvars p c condvar below present here
      cases call : k.condvarCall event p c with
      | none =>
          rw [call, Option.elim_none] at after
          exact .inl ⟨rfl, by rw [after]⟩
      | some call' =>
          rw [call, Option.elim_some] at after
          rw [after]
          obtain ⟨a, current, own, rfl | ⟨rfl, id, wait⟩⟩ := condvarCall_current call
          · obtain ⟨queue⟩ := condvar
            cases queue with
            | nil => exact .inl ⟨rfl, rfl⟩
            | cons w rest => exact .inr (.inl ⟨w, rest, a, rfl, rfl, rfl, current⟩)
          · exact .inr (.inr ⟨a, id, current, own, wait, rfl, rfl⟩)

/-- The notes on the condition variable say nothing of the mutex and of returns. -/
theorem Kernel.condvarCallNotes_mem {note : CondvarNote}
    (mem : note ∈ k.condvarCallNotes p c event) :
    (∃ t, note = .signaled t) ∨ ∃ t, note = .waiting t := by
  unfold condvarCallNotes at mem
  split at mem
  · next condvar call _ _ =>
    cases call with
    | signal =>
        obtain ⟨t, -, rfl⟩ := List.mem_map.mp mem
        exact .inl ⟨t, rfl⟩
    | wait t => exact .inr ⟨t, List.mem_singleton.mp mem⟩
  · simp at mem

@[simp] theorem Kernel.mutexLog_condvarNotes :
    mutexLog (k.condvarNotes p c m event) = k.mutexNotes p m event := by
  have noCondvar : mutexLog (k.condvarCallNotes p c event) = [] := by
    refine List.filterMap_eq_nil_iff.mpr fun note mem => ?_
    rcases condvarCallNotes_mem mem with ⟨t, rfl⟩ | ⟨t, rfl⟩ <;> rfl
  have noReturn : mutexLog ((k.returning p event).toList.map .resumed) = [] := by
    cases k.returning p event <;> rfl
  rw [condvarNotes, mutexLog_append, mutexLog_append, mutexLog_map, noCondvar, noReturn,
    List.append_nil, List.append_nil]

variable {a : TaskId} {mutexLog' : List MutexNote}

/-- A thread that waits for the mutex still does so, or it was handed the mutex. -/
theorem Kernel.Effect.mutexQueue (effect : k.Effect event a k k') (below : p < k.nextProc)
    (present : (k'.procs p).dropped = false) (mem : t ∈ k.mutexQueue p m) :
    t ∈ k'.mutexQueue p m ∨ Owns (mutexLog' ++ k.mutexNotes p m event) t := by
  unfold Kernel.mutexQueue Kernel.mutexNotes at *
  cases here : k.mutexAt p m with
  | none =>
      rw [here] at mem
      simp at mem
  | some mutex =>
      rw [here, Option.elim_some] at mem
      rw [effect.mutexes p m mutex below present here]
      cases call : k.mutexCall event p m with
      | none => exact .inl mem
      | some call' => exact Mutex.waiter_after mem

/-- An owner that is not the current thread stays one. -/
theorem Kernel.owns_step (owns : Owns mutexLog' t) (notCurrent : k.current ≠ some t) :
    Owns (mutexLog' ++ k.mutexNotes p m event) t := by
  unfold mutexNotes
  split
  · next mutex call here called =>
    refine Mutex.owns_after owns ?_
    rintro rfl
    obtain ⟨a, -, -, isLock | ⟨isUnlock, current⟩⟩ := mutexCall_acting called
    · simp at isLock
    · rw [MutexCall.unlock.injEq] at isUnlock
      exact notCurrent (isUnlock ▸ current)
  · rw [List.append_nil]
    exact owns

/-- A thread in `wait` that does not act stays in it as it is. -/
theorem Inside.other {n : Nat} (inside : Inside p m k mutexLog' t n) (idle : k.acting ≠ some t)
    (others : k' = k ∨ ∃ a, k.acting = some a ∧ Others a k k')
    (effect : k.Effect event a k k') (below : p < k.nextProc)
    (present : (k'.procs p).dropped = false) :
    Inside p m k' (mutexLog' ++ k.mutexNotes p m event) t n := by
  have frame : ∀ resume, resume = (k.tasks t).frame.resume → resume = .lock m ∨
      (n = 1 ∧ resume = .trapEnd ∧
        (t ∈ k'.mutexQueue p m ∨ Owns (mutexLog' ++ k.mutexNotes p m event) t)) := by
    rintro resume rfl
    rcases inside.frame with lock | ⟨one, trapEnd, waits | owns⟩
    · exact .inl lock
    · exact .inr ⟨one, trapEnd, effect.mutexQueue below present waits⟩
    · exact .inr ⟨one, trapEnd, .inr (Kernel.owns_step owns inside.notCurrent)⟩
  rcases others with rfl | ⟨b, acts, others⟩
  · exact ⟨inside.created, inside.process, inside.notCurrent, inside.once, frame _ rfl⟩
  · have differ : t ≠ b := by
      rintro rfl
      exact idle acts
    refine ⟨Nat.lt_of_lt_of_le inside.created others.nextTask, ?_, ?_, inside.once, frame _ ?_⟩
    · rw [others.process t inside.created, inside.process]
    · intro current
      exact (others.current t current).elim differ inside.notCurrent
    · rw [others.frame t differ inside.created]

/-- What a step does to the queue of the condition variable and to the threads in `wait`: a call
returns, nothing happens, a waiter is popped, or a thread begins to wait. -/
theorem Kernel.condvarNotes_cases (effect : CondvarEffect (k.condvarCall event) k k')
    (below : p < k.nextProc) (present : (k'.procs p).dropped = false) (log : List CondvarNote) :
    (∃ u, k.returning p event = some u ∧ k'.condvarQueue p c = k.condvarQueue p c ∧
      waitedIn (k.condvarNotes p c m event) = [] ∧ signaledIn (k.condvarNotes p c m event) = [] ∧
      ∀ t, waits (log ++ k.condvarNotes p c m event) t = if u = t then none else waits log t) ∨
    (k.returning p event = none ∧ k'.condvarQueue p c = k.condvarQueue p c ∧
      waitedIn (k.condvarNotes p c m event) = [] ∧ signaledIn (k.condvarNotes p c m event) = [] ∧
      ∀ t, waits (log ++ k.condvarNotes p c m event) t = waits log t) ∨
    (∃ w rest a, k.current = some a ∧ k.condvarQueue p c = w :: rest ∧ k'.condvarQueue p c = rest ∧
      waitedIn (k.condvarNotes p c m event) = [] ∧ signaledIn (k.condvarNotes p c m event) = [w] ∧
      ∀ t, waits (log ++ k.condvarNotes p c m event) t =
        if w = t then (waits log t).map (· + 1) else waits log t) ∨
    ∃ a id, k.current = some a ∧ (k.tasks a).process = p ∧
      event = .syscall (.condvarWait c id) ∧ k'.condvarQueue p c = k.condvarQueue p c ++ [a] ∧
      waitedIn (k.condvarNotes p c m event) = [a] ∧ signaledIn (k.condvarNotes p c m event) = [] ∧
      ∀ t, waits (log ++ k.condvarNotes p c m event) t = if a = t then some 0 else waits log t := by
  have noReturn : k.current ≠ none → k.returning p event = none := by
    intro busy
    rw [Option.eq_none_iff_forall_ne_some]
    intro u returns
    exact busy (returning_cases returns).1
  rw [condvarNotes]
  rcases condvarCallNotes_cases effect below present with ⟨notes, queue⟩ |
    ⟨w, rest, a, queue, notes, queue', current⟩ | ⟨a, id, current, own, wait, notes, queue'⟩
  · rw [notes]
    cases returns : k.returning p event with
    | none =>
        refine .inr (.inl ⟨rfl, queue, ?_, ?_, fun t => ?_⟩)
        · simp [waitedIn]
        · simp [signaledIn]
        · simp
    | some u =>
        refine .inl ⟨u, rfl, queue, ?_, ?_, fun t => ?_⟩
        · simp [waitedIn]
        · simp [signaledIn]
        · rw [List.append_nil, Option.toList_some, List.map_singleton, ← List.append_assoc,
            waits_resumed, waits_map]
  · rw [notes, noReturn (by simp [current])]
    refine .inr (.inr (.inl ⟨w, rest, a, current, queue, queue', ?_, ?_, fun t => ?_⟩))
    · simp [waitedIn]
    · simp [signaledIn]
    · rw [Option.toList_none, List.map_nil, List.append_nil, ← List.append_assoc, waits_signaled,
        waits_map]
  · rw [notes, noReturn (by simp [current])]
    refine .inr (.inr (.inr ⟨a, id, current, own, wait, queue', ?_, ?_, fun t => ?_⟩))
    · simp [waitedIn]
    · simp [signaledIn]
    · rw [Option.toList_none, List.map_nil, List.append_nil, ← List.append_assoc, waits_waiting,
        waits_map]

end Step

/-- A thread in the queue of the condition variable is in a wait queue of the process. -/
theorem Kernel.condvarQueue_waiter (mem : t ∈ k.condvarQueue p c) : t ∈ (k.procs p).waiters := by
  unfold condvarQueue at mem
  cases here : k.condvarAt p c with
  | none => simp [here] at mem
  | some condvar =>
      rw [here] at mem
      exact List.mem_append_right _ (mem_flatMap_slot Condvar.waitQueue (entry_eq here) mem)

theorem Kernel.mutexQueue_waiter (mem : t ∈ k.mutexQueue p m) : t ∈ (k.procs p).waiters := by
  unfold mutexQueue at mem
  cases here : k.mutexAt p m with
  | none => simp [here] at mem
  | some mutex =>
      rw [here] at mem
      exact mutexAt_waiter here mem

namespace Tracks

variable {event : Event} {a : TaskId}

/-- The mutex agrees with its log after a call by the owner. -/
theorem fits_after (tracks : Tracks p c m k log) (inv : Inv k) {mutex : Mutex}
    (here : k.mutexAt p m = some mutex)
    (release : OwnersRelease (mutexLog log ++ k.mutexNotes p m event)) :
    ((k.mutexCall event p m).elim mutex fun call => mutex.after call).Fits
      (mutexLog log ++ k.mutexNotes p m event) := by
  have fits := tracks.fits mutex here release.of_append
  unfold Kernel.mutexNotes at release ⊢
  rw [here] at release ⊢
  cases call : k.mutexCall event p m with
  | none => simpa using fits
  | some call' =>
      rw [call] at release
      cases call' with
      | lock t =>
          exact fits.lock fun mem => inv.lock_not_waiting call (Kernel.mutexAt_waiter here mem)
      | unlock t => exact fits.unlock release.unlock

/-- A call of `wait` that returns was popped once, and the thread owns the mutex. -/
theorem granted (tracks : Tracks p c m k log) (inv : Inv k)
    (returns : k.returning p event = some t) :
    Granted (log ++ (k.mutexNotes p m event).map .mutex) t := by
  intro n isInside
  rw [waits_map] at isInside
  have inside := tracks.inside t n isInside
  obtain ⟨idle, first, own, resumes⟩ := Kernel.returning_cases returns
  have notWaiting : t ∉ (k.procs p).waiters := by
    rw [← own]
    exact inv.not_waiting (.inr (List.mem_of_head? first))
  have popped : n ≠ 0 := by
    rintro rfl
    exact notWaiting (Kernel.condvarQueue_waiter ((tracks.queued t).mpr isInside))
  have owns : Owns (mutexLog log ++ k.mutexNotes p m event) t := by
    rcases inside.frame with lock | ⟨-, -, waits | owns⟩
    · -- the thread locks the mutex, which is free
      rcases resumes with trapEnd | ⟨id, mutex, lock', here, free, call⟩
      · rw [lock] at trapEnd
        simp at trapEnd
      · rw [lock, Resume.lock.injEq] at lock'
        subst lock'
        rw [Kernel.mutexNotes, here, call]
        exact Mutex.owns_lock free
    · exact absurd (Kernel.mutexQueue_waiter waits) notWaiting
    · exact Kernel.owns_step owns (by simp [idle])
  rw [mutexLog_append, mutexLog_map]
  refine ⟨by have := inside.once; omega, owns, fun release u owns' => ?_⟩
  cases here : k.mutexAt p m with
  | none =>
      rw [tracks.noMutex here, Kernel.mutexNotes, here] at owns
      simp [Owns] at owns
  | some mutex => exact (tracks.fits_after inv here release).owner u t owns' owns

/-- A thread in `wait` to which the idle loop switches, and whose call does not return, goes on to
wait for the mutex. -/
theorem inside_relock (tracks : Tracks p c m k log) (reachable : ReachableState k) {n : Nat}
    (isInside : waits log t = some n) (acts : k.acting = some t)
    (stays : k.returning p event = none) (effect : k.Effect event a k k')
    (others : k' = k ∨ ∃ a, k.acting = some a ∧ Others a k k') (h : k.step event = some k')
    (present : (k'.procs p).dropped = false) :
    Inside p m k' (mutexLog log ++ k.mutexNotes p m event) t n := by
  have inside := tracks.inside t n isInside
  obtain ⟨created, below, -, notWaiting⟩ := reachable.acting acts
  rw [inside.process] at below notWaiting
  have popped : n = 1 := by
    have once := inside.once
    have notZero : n ≠ 0 := by
      rintro rfl
      exact notWaiting (Kernel.condvarQueue_waiter ((tracks.queued t).mpr isInside))
    omega
  -- the idle loop runs, and fetches the thread
  rw [Kernel.acting, Option.or_eq_some_iff] at acts
  obtain ⟨idle, first⟩ := acts.resolve_left inside.notCurrent
  obtain ⟨rest, queue⟩ : ∃ rest, k.readyQueue = t :: rest := List.head?_eq_some_iff.mp first
  obtain ⟨ready, rfl⟩ : ∃ ready, event = .idle ready := by
    rw [Kernel.step.eq_def, idle] at h
    cases event with
    | idle ready => exact ⟨ready, rfl⟩
    | _ => simp at h
  -- it goes on to lock the mutex
  have lock : (k.tasks t).frame.resume = .lock m := by
    rcases inside.frame with lock | ⟨-, trapEnd, -⟩
    · exact lock
    · simp [Kernel.returning, idle, queue, inside.process, trapEnd] at stays
  obtain ⟨mutex, here, blocks, spins⟩ := Kernel.step_lock idle queue lock h
  rw [inside.process] at here
  have isLocked : mutex.locked = true := by
    simpa [Kernel.returning, idle, queue, inside.process, lock, here] using stays
  have same : t < k'.nextTask ∧ (k'.tasks t).process = p := by
    rcases others with rfl | ⟨b, -, others⟩
    · exact ⟨created, inside.process⟩
    · exact ⟨Nat.lt_of_lt_of_le created others.nextTask,
        by rw [others.process t created, inside.process]⟩
  have call : k.mutexCall (.idle ready) p m = some (.lock t) := by
    simp [Kernel.mutexCall, idle, queue, inside.process, lock]
  cases mutex with
  | blocking locked waitQueue =>
      rw [Mutex.locked] at isLocked
      subst isLocked
      obtain ⟨noCurrent, goesOn⟩ := blocks waitQueue rfl
      refine ⟨same.1, same.2, by simp [noCurrent], inside.once, .inr ⟨popped, goesOn, .inl ?_⟩⟩
      have after := effect.mutexes p m _ below present here
      rw [call] at after
      rw [Kernel.mutexQueue, after]
      exact List.mem_append_right _ (List.mem_singleton.mpr rfl)
  | spin locked =>
      rw [Mutex.locked] at isLocked
      subst isLocked
      obtain ⟨noCurrent, goesOn⟩ := spins rfl
      exact ⟨same.1, same.2, by simp [noCurrent], inside.once, .inl goesOn⟩

/-- A step keeps the threads in `wait` inside. -/
theorem inside_step (tracks : Tracks p c m k log) (reachable : ReachableState k)
    (oneMutex : OneMutex p c m k event) (h : k.step event = some k') (below : p < k.nextProc)
    (present : (k'.procs p).dropped = false) {n : Nat}
    (isInside : waits (log ++ k.condvarNotes p c m event) t = some n) :
    Inside p m k' (mutexLog log ++ k.mutexNotes p m event) t n := by
  obtain ⟨inv, frames⟩ := reachable.inv
  obtain ⟨a, -, effect⟩ := Kernel.step_effect frames h
  have others := Kernel.step_others frames h
  have stays : ∀ {n}, waits log t = some n → k.acting ≠ some t →
      Inside p m k' (mutexLog log ++ k.mutexNotes p m event) t n :=
    fun isInside idle => (tracks.inside t _ isInside).other idle others effect below present
  -- a thread in `wait` does not run
  have busy : ∀ {n b}, waits log t = some n → k.current = some b → k.acting ≠ some t := by
    intro n b isInside current acts
    rw [Kernel.acting, current, Option.some_or, Option.some.injEq] at acts
    exact (tracks.inside t n isInside).notCurrent (acts ▸ current)
  rcases Kernel.condvarNotes_cases (Kernel.step_condvars inv frames h) below present log with
    ⟨u, returns, -, -, -, now⟩ | ⟨noReturn, -, -, -, now⟩ |
    ⟨w, rest, b, current, queue, -, -, -, now⟩ | ⟨b, id, current, own, wait, -, -, -, now⟩
  · -- a call returns
    rw [now t] at isInside
    split at isInside
    · simp at isInside
    · next differ =>
      refine stays isInside fun acts => differ ?_
      obtain ⟨idle, first, -⟩ := Kernel.returning_cases returns
      rwa [Kernel.acting, idle, first, Option.none_or, Option.some.injEq] at acts
  · rw [now t] at isInside
    by_cases acts : k.acting = some t
    · exact tracks.inside_relock reachable isInside acts noReturn effect others h present
    · exact stays isInside acts
  · -- a waiter is popped
    rw [now t] at isInside
    split at isInside
    · next same =>
      subst same
      have first : waits log w = some 0 := by
        rw [← tracks.queued w, queue]
        exact List.mem_cons_self
      rw [first, Option.map_some, Nat.zero_add, Option.some.injEq] at isInside
      subst isInside
      have inside := stays first (busy first current)
      refine ⟨inside.created, inside.process, inside.notCurrent, Nat.le_refl 1, .inl ?_⟩
      rcases inside.frame with lock | ⟨zero, -⟩
      · exact lock
      · simp at zero
    · exact stays isInside (busy isInside current)
  · -- a thread begins to wait
    rw [now t] at isInside
    split at isInside
    · next same =>
      subst same
      rw [Option.some.injEq] at isInside
      subst isInside
      have created := (inv.current current).1
      obtain rfl := oneMutex b id current own wait
      rw [wait] at h
      obtain ⟨noCurrent, lock⟩ := Kernel.step_condvarWait current h
      rcases others with rfl | ⟨d, -, others⟩
      · rw [current] at noCurrent
        simp at noCurrent
      · exact ⟨Nat.lt_of_lt_of_le created others.nextTask, by rw [others.process b created, own],
          by simp [noCurrent], Nat.zero_le 1, .inl lock⟩
    · exact stays isInside (busy isInside current)

/-- A step keeps the process in agreement with the log. -/
theorem step (tracks : Tracks p c m k log) (reachable : ReachableState k)
    (oneMutex : OneMutex p c m k event) (h : k.step event = some k') (below : p < k.nextProc)
    (present : (k'.procs p).dropped = false) :
    Tracks p c m k' (log ++ k.condvarNotes p c m event) := by
  obtain ⟨inv, frames⟩ := reachable.inv
  obtain ⟨a, -, effect⟩ := Kernel.step_effect frames h
  have condvars := Kernel.step_condvars inv frames h
  have order := tracks.order
  have nodup := tracks.nodup
  have queued := tracks.queued
  have cases := Kernel.condvarNotes_cases (c := c) (m := m) condvars below present log
  refine ⟨?_, ?_, ?_, ?_, ?_, ?_⟩
  · rw [waitedIn_append, signaledIn_append, order]
    rcases cases with ⟨u, -, queue', waited, signaled, -⟩ | ⟨-, queue', waited, signaled, -⟩ |
      ⟨w, rest, b, -, queue, queue', waited, signaled, -⟩ | ⟨b, id, -, -, -, queue',
        waited, signaled, -⟩
    · simp [waited, signaled, queue']
    · simp [waited, signaled, queue']
    · simp [waited, signaled, queue, queue']
    · simp [waited, signaled, queue']
  · rcases cases with ⟨u, -, queue', -⟩ | ⟨-, queue', -⟩ | ⟨w, rest, b, -, queue, queue', -⟩ |
      ⟨b, id, current, own, -, queue', -⟩
    · rwa [queue']
    · rwa [queue']
    · rw [queue] at nodup
      rw [queue']
      exact (List.nodup_cons.mp nodup).2
    · rw [queue', List.nodup_append_comm]
      refine List.nodup_cons.mpr ⟨fun mem => ?_, nodup⟩
      have notWaiting := inv.not_waiting (.inl current)
      rw [own] at notWaiting
      exact notWaiting (Kernel.condvarQueue_waiter mem)
  · intro t
    rcases cases with ⟨u, returns, queue', -, -, now⟩ | ⟨-, queue', -, -, now⟩ |
      ⟨w, rest, b, -, queue, queue', -, -, now⟩ | ⟨b, id, -, -, -, queue', -, -, now⟩
    · rw [now t, queue', queued t]
      split
      · next same =>
        subst same
        obtain ⟨idle, first, own, -⟩ := Kernel.returning_cases returns
        have notWaiting := inv.not_waiting (.inr (List.mem_of_head? first))
        rw [own] at notWaiting
        refine ⟨fun waiting => ?_, fun absurd => by simp at absurd⟩
        exact absurd (Kernel.condvarQueue_waiter ((queued u).mpr waiting)) notWaiting
      · exact Iff.rfl
    · rw [now t, queue', queued t]
    · rw [queue] at nodup
      have others := queued t
      rw [queue, List.mem_cons] at others
      rw [now t, queue']
      split
      · next same =>
        subst same
        refine ⟨fun mem => absurd mem (List.nodup_cons.mp nodup).1, fun popped => ?_⟩
        rw [others.mp (.inl rfl)] at popped
        simp at popped
      · next differ =>
        rw [← others]
        exact ⟨.inr, fun mem => mem.resolve_left (Ne.symm differ)⟩
    · rw [now t, queue', List.mem_append, List.mem_singleton, queued t]
      split
      · next same => simp [same]
      · next differ => simp [Ne.symm differ]
  · intro t n isInside
    rw [mutexLog_append, Kernel.mutexLog_condvarNotes]
    exact tracks.inside_step reachable oneMutex h below present isInside
  · intro absent
    rw [mutexLog_append, Kernel.mutexLog_condvarNotes, Kernel.mutexNotes]
    cases here : k.mutexAt p m with
    | none => rw [tracks.noMutex here, List.nil_append]
    | some mutex =>
        rw [effect.mutexes p m mutex below present here] at absent
        simp at absent
  · intro mutex' here' release
    rw [mutexLog_append, Kernel.mutexLog_condvarNotes] at release ⊢
    cases here : k.mutexAt p m with
    | none =>
        obtain ⟨blocking, rfl⟩ := condvars.mutexes p m mutex' below present here here'
        rw [tracks.noMutex here, Kernel.mutexNotes, here]
        exact Mutex.fits_new blocking
    | some mutex =>
        rw [effect.mutexes p m mutex below present here, Option.some.injEq] at here'
        rw [← here']
        exact tracks.fits_after inv here release

/-- A process without the mutex and the condition variable. -/
theorem nothing (noMutex : k.mutexAt p m = none) (noCondvar : k.condvarAt p c = none) :
    Tracks p c m k [] := by
  have empty : k.condvarQueue p c = [] := by rw [Kernel.condvarQueue, noCondvar]; rfl
  refine ⟨?_, ?_, ?_, ?_, fun _ => rfl, ?_⟩
  · rw [empty]
    rfl
  · rw [empty]
    exact List.nodup_nil
  · intro t
    rw [empty]
    simp [waits]
  · intro t n isInside
    simp [waits] at isInside
  · intro mutex here
    rw [noMutex] at here
    simp at here

end Tracks

/-! ## Runs -/

/-- Notes of no return. -/
theorem AllGranted.append {more : List CondvarNote} (granted : AllGranted log)
    (noReturn : ∀ t, .resumed t ∉ more) : AllGranted (log ++ more) := by
  intro r t here
  by_cases below : r < log.length
  · rw [List.getElem?_append_left below] at here
    rw [List.take_append_of_le_length (Nat.le_of_lt below)]
    exact granted r t here
  · rw [List.getElem?_append_right (Nat.not_lt.mp below)] at here
    exact absurd (List.mem_of_getElem? here) (noReturn t)

/-- The note of a return. -/
theorem AllGranted.snoc (granted : AllGranted log) (now : Granted log t) :
    AllGranted (log ++ [.resumed t]) := by
  intro r u here
  by_cases below : r < log.length
  · rw [List.getElem?_append_left below] at here
    rw [List.take_append_of_le_length (Nat.le_of_lt below)]
    exact granted r u here
  · rw [List.getElem?_append_right (Nat.not_lt.mp below), List.getElem?_singleton] at here
    split at here
    · next zero =>
      rw [Option.some.injEq, CondvarNote.resumed.injEq] at here
      have last : r = log.length := by omega
      rw [last, List.take_left, ← here]
      exact now
    · simp at here

namespace CondvarInv

theorem start : CondvarInv p c m Kernel.start [] := by
  refine ⟨RunWith.start, fun r t here => by simp at here, fun _ => rfl, fun below _ => ?_⟩
  obtain rfl : p = 0 := Nat.lt_one_iff.mp below
  exact .nothing rfl rfl

theorem step {event : Event} (before : CondvarInv p c m k log) (oneMutex : OneMutex p c m k event)
    (h : k.step event = some k') : CondvarInv p c m k' (log ++ k.condvarNotes p c m event) := by
  have reachable := before.reachable
  obtain ⟨inv, frames⟩ := reachable.inv
  have condvars := Kernel.step_condvars inv frames h
  -- a process of which a thread acts is there
  have there : k.condvarNotes p c m event ≠ [] →
      p < k.nextProc ∧ (k.procs p).dropped = false := by
    intro noted
    obtain ⟨a, acts, rfl⟩ := Kernel.condvarNotes_acting noted
    exact ⟨(reachable.acting acts).2.1, (reachable.acting acts).2.2.1⟩
  have unborn : k.nextProc ≤ p → log ++ k.condvarNotes p c m event = [] := by
    intro least
    rw [before.unborn least, List.nil_append]
    by_contra noted
    exact absurd (there noted).1 (Nat.not_lt.mpr least)
  refine ⟨.step reachable trivial h, ?_, fun least => ?_, fun below' present => ?_⟩
  · by_cases noted : k.condvarNotes p c m event = []
    · rw [noted, List.append_nil]
      exact before.granted
    · obtain ⟨below, present⟩ := there noted
      have tracks := before.tracks below present
      have onMutex : AllGranted (log ++ (k.mutexNotes p m event).map .mutex) :=
        before.granted.append fun t mem => by simp at mem
      rw [Kernel.condvarNotes]
      cases returns : k.returning p event with
      | none =>
          rw [Option.toList_none, List.map_nil, List.append_nil, ← List.append_assoc]
          refine onMutex.append fun t mem => ?_
          rcases Kernel.condvarCallNotes_mem mem with ⟨u, eq⟩ | ⟨u, eq⟩ <;> simp at eq
      | some t =>
          have noCall : k.condvarCallNotes p c event = [] := by
            unfold Kernel.condvarCallNotes
            split
            · next call =>
              obtain ⟨a, current, -⟩ := Kernel.condvarCall_current call
              rw [(Kernel.returning_cases returns).1] at current
              simp at current
            · rfl
          rw [noCall, List.append_nil, Option.toList_some, List.map_singleton, ← List.append_assoc]
          exact onMutex.snoc (tracks.granted inv returns)
  · exact unborn (Nat.le_trans condvars.nextProc least)
  · by_cases below : p < k.nextProc
    · exact (before.tracks below (condvars.dropped p below present)).step reachable oneMutex h below
        present
    · have least := Nat.not_lt.mp below
      rw [unborn least]
      exact .nothing (condvars.born p m least below' present).1
        (condvars.born p c least below' present).2

end CondvarInv

/-- Every run keeps the invariant. -/
theorem CondvarRun.inv (run : CondvarRun p c m k log) : CondvarInv p c m k log := by
  refine LoggedRun.invariant (CondvarInv p c m) run ?_ ?_
  · rintro k rfl
    exact .start
  · intro k k' log event before oneMutex h
    exact before.step oneMutex h

/-! ## Signals and returns -/

theorem mem_between {w r i : Nat} {note : CondvarNote} (here : log[i]? = some note) (after : w < i)
    (before : i < r) : note ∈ between log w r := by
  refine List.mem_of_getElem? (i := i - (w + 1)) ?_
  rw [between, List.getElem?_drop, show w + 1 + (i - (w + 1)) = i by omega,
    List.getElem?_take_of_lt before]
  exact here

/-- A thread that stays in `wait` counts the signals that pop it. -/
theorem foldl_waits (notes : List CondvarNote) (noWait : .waiting t ∉ notes)
    (noReturn : .resumed t ∉ notes) (n : Nat) : notes.foldl (CondvarNote.waits t) (some n) =
      some (n + notes.count (.signaled t)) := by
  induction notes generalizing n with
  | nil => rfl
  | cons note rest ih =>
      rw [List.mem_cons, not_or] at noWait noReturn
      rw [List.foldl_cons, List.count_cons]
      cases note with
      | mutex note => simpa [CondvarNote.waits] using ih noWait.2 noReturn.2 n
      | waiting u =>
          have differ : u ≠ t := fun same => noWait.1 (by rw [same])
          simpa [CondvarNote.waits, differ] using ih noWait.2 noReturn.2 n
      | signaled u =>
          by_cases same : u = t
          · subst same
            simpa [CondvarNote.waits, Nat.add_assoc, Nat.add_comm] using
              ih noWait.2 noReturn.2 (n + 1)
          · simpa [CondvarNote.waits, same] using ih noWait.2 noReturn.2 n
      | resumed u =>
          have differ : u ≠ t := fun same => noReturn.1 (by rw [same])
          simpa [CondvarNote.waits, differ] using ih noWait.2 noReturn.2 n

/-- What is noted once is noted at one place. -/
theorem existsUnique_of_count {notes : List CondvarNote} {note : CondvarNote}
    (once : notes.count note = 1) : ∃! i : Nat, notes[i]? = some note := by
  induction notes with
  | nil => simp at once
  | cons first rest ih =>
      rw [List.count_cons] at once
      by_cases same : first = note
      · subst same
        simp only [BEq.rfl, if_true, Nat.add_eq_right] at once
        refine ⟨0, rfl, ?_⟩
        intro i here
        cases i with
        | zero => rfl
        | succ i =>
            rw [List.getElem?_cons_succ] at here
            exact absurd (List.mem_of_getElem? here) (List.count_eq_zero.mp once)
      · rw [if_neg (by simpa using same), Nat.add_zero] at once
        obtain ⟨i, here, only⟩ := ih once
        refine ⟨i + 1, here, ?_⟩
        intro j there
        cases j with
        | zero =>
            rw [List.getElem?_cons_zero, Option.some.injEq] at there
            exact absurd there same
        | succ j =>
            rw [List.getElem?_cons_succ] at there
            rw [only j there]

namespace ReturnAt

variable {w r : Nat}

theorem waits (returns : ReturnAt log t w r) :
    Os.waits (log.take r) t = some ((between log w r).count (.signaled t)) := by
  have began : (log.take r).take (w + 1) = log.take w ++ [.waiting t] := by
    rw [List.take_take, Nat.min_eq_left returns.after, List.take_add_one, returns.began]
    rfl
  rw [← List.take_append_drop (w + 1) (log.take r), began, ← between, Os.waits, List.foldl_append,
    ← Os.waits, waits_waiting, if_pos rfl, foldl_waits _ returns.onlyWait returns.firstReturn,
    Nat.zero_add]

/-- A waiter that was popped once was popped by one signal. -/
theorem uses (returns : ReturnAt log t w r) (once : (between log w r).count (.signaled t) = 1) :
    ∃! s, Uses log t w r s := by
  obtain ⟨i, here, only⟩ := existsUnique_of_count once
  have shift : ∀ i, i < r - (w + 1) → (between log w r)[i]? = log[w + 1 + i]? := by
    intro i below
    rw [between, List.getElem?_drop, List.getElem?_take_of_lt (by omega)]
  have below : i < r - (w + 1) := by
    have inside := (List.getElem?_eq_some_iff.mp here).1
    rw [between, List.length_drop, List.length_take] at inside
    omega
  refine ⟨w + 1 + i, ⟨returns, by omega, by omega, by rw [← shift i below, here]⟩, ?_⟩
  intro s used
  have after := used.after
  have before := used.before
  have place : s = w + 1 + (s - (w + 1)) := by omega
  have pops := used.pops
  rw [place, ← shift _ (by omega)] at pops
  rw [place, only _ pops]

end ReturnAt

/-- A signal is used by one return. -/
theorem Uses.unique {w r w' r' s : Nat} (first : Uses log t w r s) (second : Uses log u w' r' s) :
    t = u ∧ w = w' ∧ r = r' := by
  have pops := first.pops
  rw [second.pops, Option.some.injEq, CondvarNote.signaled.injEq] at pops
  subst pops
  have began : ∀ {w r w' r'}, Uses log u w r s → Uses log u w' r' s → ¬ w < w' := by
    intro w r w' r' first second lt
    exact first.returns.onlyWait (mem_between second.returns.began lt
      (Nat.lt_trans second.after first.before))
  have returned : ∀ {w r w' r'}, Uses log u w r s → Uses log u w' r' s → ¬ r < r' := by
    intro w r w' r' first second lt
    exact second.returns.firstReturn (mem_between first.returns.returned
      (Nat.lt_trans second.after first.before) lt)
  have notBefore := began first second
  have notAfter := began second first
  have notEarlier := returned first second
  have notLater := returned second first
  exact ⟨rfl, by omega, by omega⟩

/-- A waiter that was not popped is still there. -/
theorem AllGranted.waiting (granted : AllGranted log) {i : Nat} (here : log[i]? = some (.waiting t))
    (unpopped : ∀ s, i < s → log[s]? ≠ some (.signaled t)) : waits log t = some 0 := by
  have below := (List.getElem?_eq_some_iff.mp here).1
  have upTo : ∀ d, waits (log.take (i + 1 + d)) t = some 0 := by
    intro d
    induction d with
    | zero =>
        rw [Nat.add_zero, List.take_add_one, here, Option.toList_some, waits_waiting, if_pos rfl]
    | succ d ih =>
        rw [← Nat.add_assoc, List.take_add_one]
        cases next : log[i + 1 + d]? with
        | none => rwa [Option.toList_none, List.append_nil]
        | some note =>
            rw [Option.toList_some]
            cases note with
            | mutex note =>
                rw [← ih, ← waits_map (log.take (i + 1 + d)) [note]]
                rfl
            | waiting u =>
                rw [waits_waiting, ih, ite_self]
            | signaled u =>
                rw [waits_signaled, if_neg, ih]
                rintro rfl
                exact unpopped _ (by omega) next
            | resumed u =>
                rw [waits_resumed, if_neg, ih]
                rintro rfl
                exact absurd (granted _ u next 0 ih).1 (by simp)
  have whole := upTo (log.length - (i + 1))
  rwa [List.take_of_length_le (by omega)] at whole

/-- No lost wake-up: in every run of the kernel in which the waiters of a condition variable use one
mutex, each return of `wait` used exactly one signal, which popped that waiter since its `wait`
began; no two returns use the same signal; at its return the waiter owns the mutex, and nobody else
does as long as only owners release it. Whenever a thread of the process runs, which may call
`signal`, a waiter whose `wait` released the mutex is in the wait queue, or a signal popped it
since; waiters were popped in the order in which they came; and `signal` wakes the one that waits
longest, or changes nothing. -/
theorem condvar_no_lost_wakeup (run : CondvarRun p c m k log) :
    (∀ t w r, ReturnAt log t w r → (∃! s, Uses log t w r s) ∧ Owns (mutexLog (log.take r)) t ∧
      (OwnersRelease (mutexLog (log.take r)) → ∀ u, Owns (mutexLog (log.take r)) u → u = t)) ∧
    (∀ t w r t' w' r' s, Uses log t w r s → Uses log t' w' r' s → t = t' ∧ w = w' ∧ r = r') ∧
    ∀ a condvar, k.current = some a → (k.tasks a).process = p →
      k.condvarAt p c = some condvar →
      (∀ (i : Nat) t, log[i]? = some (.waiting t) → t ∈ condvar.waitQueue ∨
        ∃ s, i < s ∧ log[s]? = some (.signaled t)) ∧
      waitedIn log = signaledIn log ++ condvar.waitQueue ∧
      (∀ t rest, condvar.waitQueue = t :: rest →
        k.condvarSignal p c = some ((k.setCondvar p c ⟨rest⟩).wakeupTask t)) ∧
      (condvar.waitQueue = [] → k.condvarSignal p c = some k) := by
  have inv := run.inv
  refine ⟨?_, ?_, ?_⟩
  · intro t w r returns
    obtain ⟨once, owns, only⟩ := inv.granted r t returns.returned _ returns.waits
    exact ⟨returns.uses once, owns, only⟩
  · intro t w r t' w' r' s first second
    exact first.unique second
  · intro a condvar current own here
    have acts : k.acting = some a := by rw [Kernel.acting, current]; rfl
    obtain ⟨-, below, present, -⟩ := inv.reachable.acting acts
    rw [own] at below present
    have tracks := inv.tracks below present
    have queue : k.condvarQueue p c = condvar.waitQueue := by rw [Kernel.condvarQueue, here]; rfl
    have found : ((k.procs p).condvarList[c]?.bind fun slot => slot) = some condvar := here
    refine ⟨?_, ?_, ?_, ?_⟩
    · intro i t began
      by_cases popped : ∃ s, i < s ∧ log[s]? = some (.signaled t)
      · exact .inr popped
      · refine .inl ?_
        rw [← queue, tracks.queued t]
        exact inv.granted.waiting began fun s after pops => popped ⟨s, after, pops⟩
    · rw [← queue]
      exact tracks.order
    · intro t rest waits
      rw [Kernel.condvarSignal, found, Option.map_some, waits]
    · intro empty
      rw [Kernel.condvarSignal, found, Option.map_some, empty]

/-- `OneMutex` as a check. -/
def oneMutex (p : ProcId) (c m : Nat) (k : Kernel) (event : Event) : Bool :=
  match k.current, event with
  | some task, .syscall (.condvarWait condvarId id) =>
      decide ((k.tasks task).process = p → condvarId = c → id = m)
  | _, _ => true

theorem oneMutex_sound {event : Event} (passes : oneMutex p c m k event = true) :
    OneMutex p c m k event := by
  rintro task id current own rfl
  simp only [oneMutex, current] at passes
  exact of_decide_eq_true passes own trivial

/-- A thread waits, is popped while another thread owns the mutex, waits for the mutex and returns
when it is handed the mutex. -/
theorem condvar_no_lost_wakeup_handed : ∃ k log,
    Lib.loggedSteps Kernel.step (Kernel.condvarNotes 0 0 0) (fun _ => oneMutex 0 0 0)
    Kernel.start []
      [.idle true, .syscall .threadCreate, .syscall (.mutexCreate true), .syscall .condvarCreate,
        .syscall (.mutexLock 0), .syscall (.condvarWait 0 0), .idle true, .syscall (.mutexLock 0),
        .syscall (.condvarSignal 0), .syscall .yield, .idle true, .idle true,
        .syscall (.mutexUnlock 0), .syscall .yield, .idle true] = some (k, log) ∧
    ReturnAt log 0 2 9 ∧ (∃! s, Uses log 0 2 9 s) ∧ Owns (mutexLog (log.take 9)) 0 := by
  have facts : (Lib.loggedSteps Kernel.step (Kernel.condvarNotes 0 0 0) (fun _ => oneMutex 0 0 0)
      Kernel.start []
      [.idle true, .syscall .threadCreate, .syscall (.mutexCreate true), .syscall .condvarCreate,
        .syscall (.mutexLock 0), .syscall (.condvarWait 0 0), .idle true, .syscall (.mutexLock 0),
        .syscall (.condvarSignal 0), .syscall .yield, .idle true, .idle true,
        .syscall (.mutexUnlock 0), .syscall .yield, .idle true]).map Prod.snd =
      some [.mutex (.acquired 0), .mutex (.released 0), .waiting 0, .mutex (.acquired 1),
        .signaled 0, .mutex (.queued 0), .resumed 1, .mutex (.released 1), .mutex (.handed 0),
        .resumed 0] := by
    decide
  obtain ⟨⟨k, log⟩, logged, eq⟩ := Option.map_eq_some_iff.mp facts
  have run : CondvarRun 0 0 0 k log :=
    LoggedRun.loggedSteps (fun _ _ _ passes => oneMutex_sound passes) (.start rfl) logged
  have returns : ReturnAt log 0 2 9 := by
    rw [show log = _ from eq]
    exact ⟨rfl, rfl, by decide, by decide, by decide⟩
  obtain ⟨used, owns, -⟩ := (condvar_no_lost_wakeup run).1 0 2 9 returns
  exact ⟨k, log, logged, returns, used, owns⟩

end CoreFromDust.Os
