import CoreFromDust.Os.SyncCalls
import CoreFromDust.Os.Proofs.Paths

/-!
# What a step does to mutexes, semaphores and the ready queue

`SyncEffect` names the calls on mutexes and semaphores and the wake-ups of a piece of kernel
code; all else about them stays as it is. `step_effect` does so for a whole step.
-/

namespace CoreFromDust.Os

variable {k k' k₁ : Kernel} {a : TaskId} {p : ProcId} {id : Nat} {woken : List TaskId}
  {mutexCalls : ProcId → Nat → Option MutexCall}
  {semaphoreCalls : ProcId → Nat → Option SemaphoreCall}

/-- The thread `a` makes these calls on the mutexes and semaphores of processes that are not
dropped. A thread that is ready afterwards was so before, is `a`, is new or was woken. -/
structure SyncEffect (a : TaskId) (woken : List TaskId)
    (mutexCalls : ProcId → Nat → Option MutexCall)
    (semaphoreCalls : ProcId → Nat → Option SemaphoreCall) (k k' : Kernel) : Prop where
  nextTask : k.nextTask ≤ k'.nextTask
  nextProc : k.nextProc ≤ k'.nextProc
  ready : ∀ t ∈ k'.readyQueue, t ∈ k.readyQueue ∨ t = a ∨ k.nextTask ≤ t ∨ t ∈ woken
  dropped : ∀ p, p < k.nextProc → (k'.procs p).dropped = false → (k.procs p).dropped = false
  mutexes : ∀ p id m, p < k.nextProc → (k'.procs p).dropped = false → k.mutexAt p id = some m →
    k'.mutexAt p id = some ((mutexCalls p id).elim m fun call => m.after call)
  semaphores : ∀ p id s, p < k.nextProc → (k'.procs p).dropped = false →
    k.semaphoreAt p id = some s →
    k'.semaphoreAt p id = some ((semaphoreCalls p id).elim s fun call => s.after call)

/-- The thread `a` makes no calls. -/
def Plain (a : TaskId) : Kernel → Kernel → Prop :=
  SyncEffect a [] (fun _ _ => none) fun _ _ => none

/-- The call on the object with an index of a process. -/
def callAt {α : Type} (p : ProcId) (id : Nat) (call : α) (q : ProcId) (j : Nat) : Option α :=
  if p = q ∧ id = j then some call else none

theorem Plain.refl (k : Kernel) : Plain a k k :=
  ⟨Nat.le_refl _, Nat.le_refl _, fun _ mem => .inl mem, fun _ _ h => h, fun _ _ _ _ _ h => h,
    fun _ _ _ _ _ h => h⟩

namespace SyncEffect

/-- Code without calls before. -/
theorem of_plain (before : Plain a k k₁)
    (effect : SyncEffect a woken mutexCalls semaphoreCalls k₁ k') :
    SyncEffect a woken mutexCalls semaphoreCalls k k' := by
  refine ⟨Nat.le_trans before.nextTask effect.nextTask,
    Nat.le_trans before.nextProc effect.nextProc, ?_, ?_, ?_, ?_⟩
  · intro t mem
    rcases effect.ready t mem with mem | isActing | isNew | isWoken
    · rcases before.ready t mem with mem | isActing | isNew | isWoken
      · exact .inl mem
      · exact .inr (.inl isActing)
      · exact .inr (.inr (.inl isNew))
      · simp at isWoken
    · exact .inr (.inl isActing)
    · exact .inr (.inr (.inl (Nat.le_trans before.nextTask isNew)))
    · exact .inr (.inr (.inr isWoken))
  · intro p below present
    exact before.dropped p below
      (effect.dropped p (Nat.lt_of_lt_of_le below before.nextProc) present)
  · intro p id m below present here
    have below₁ := Nat.lt_of_lt_of_le below before.nextProc
    exact effect.mutexes p id m below₁ present
      (before.mutexes p id m below (effect.dropped p below₁ present) here)
  · intro p id s below present here
    have below₁ := Nat.lt_of_lt_of_le below before.nextProc
    exact effect.semaphores p id s below₁ present
      (before.semaphores p id s below (effect.dropped p below₁ present) here)

/-- Code without calls after. -/
theorem then_plain (effect : SyncEffect a woken mutexCalls semaphoreCalls k k₁)
    (after : Plain a k₁ k') :
    SyncEffect a woken mutexCalls semaphoreCalls k k' := by
  refine ⟨Nat.le_trans effect.nextTask after.nextTask,
    Nat.le_trans effect.nextProc after.nextProc, ?_, ?_, ?_, ?_⟩
  · intro t mem
    rcases after.ready t mem with mem | isActing | isNew | isWoken
    · exact effect.ready t mem
    · exact .inr (.inl isActing)
    · exact .inr (.inr (.inl (Nat.le_trans effect.nextTask isNew)))
    · simp at isWoken
  · intro p below present
    exact effect.dropped p below
      (after.dropped p (Nat.lt_of_lt_of_le below effect.nextProc) present)
  · intro p id m below present here
    have below₁ := Nat.lt_of_lt_of_le below effect.nextProc
    exact after.mutexes p id _ below₁ present
      (effect.mutexes p id m below (after.dropped p below₁ present) here)
  · intro p id s below present here
    have below₁ := Nat.lt_of_lt_of_le below effect.nextProc
    exact after.semaphores p id _ below₁ present
      (effect.semaphores p id s below (after.dropped p below₁ present) here)

end SyncEffect

/-! ## Code without calls -/

namespace Plain

/-- No process changes. -/
theorem of_procs (procs : k'.procs = k.procs) (nextTask : k'.nextTask = k.nextTask)
    (nextProc : k'.nextProc = k.nextProc)
    (ready : ∀ t ∈ k'.readyQueue, t ∈ k.readyQueue ∨ t = a) : Plain a k k' := by
  refine ⟨Nat.le_of_eq nextTask.symm, Nat.le_of_eq nextProc.symm, ?_, ?_, ?_, ?_⟩
  · intro t mem
    rcases ready t mem with mem | isActing
    · exact .inl mem
    · exact .inr (.inl isActing)
  · intro p _ present
    rwa [procs] at present
  · intro p id m _ _ here
    rw [Kernel.mutexAt, procs]
    exact here
  · intro p id s _ _ here
    rw [Kernel.semaphoreAt, procs]
    exact here

/-- The mutexes and semaphores of the process stay. -/
theorem setProc {f : Process → Process} (dropped : (f (k.procs p)).dropped = (k.procs p).dropped)
    (mutexes : ∀ (j : Nat) m, (k.procs p).mutexList[j]? = some (some m) →
      (f (k.procs p)).mutexList[j]? = some (some m))
    (semaphores : ∀ (j : Nat) s, (k.procs p).semaphoreList[j]? = some (some s) →
      (f (k.procs p)).semaphoreList[j]? = some (some s)) : Plain a k (k.setProc p f) := by
  refine ⟨Nat.le_refl _, Nat.le_refl _, fun _ mem => .inl mem, ?_, ?_, ?_⟩
  · intro q _ present
    rw [Kernel.setProc_procs] at present
    split at present
    · next same =>
      subst same
      rwa [dropped] at present
    · exact present
  · intro q j m _ _ here
    rw [Kernel.mutexAt, Kernel.setProc_procs]
    split
    · next same =>
      subst same
      rw [mutexes j m (entry_eq here)]
      rfl
    · exact here
  · intro q j s _ _ here
    rw [Kernel.semaphoreAt, Kernel.setProc_procs]
    split
    · next same =>
      subst same
      rw [semaphores j s (entry_eq here)]
      rfl
    · exact here

theorem leave {status : TaskStatus} {frame : Frame} : Plain a k (k.leave a status frame) :=
  of_procs rfl rfl rfl fun _ mem => .inl mem

theorem suspend {frame : Frame} : Plain a k ((k.leave a .ready frame).addTask a) := by
  refine of_procs rfl rfl rfl ?_
  intro t mem
  rcases List.mem_append.mp mem with mem | mem
  · exact .inl mem
  · exact .inr (List.mem_singleton.mp mem)

theorem exited {tid : Nat} {exitCode : Int32} {allocator : RecycleAllocator} :
    Plain a k (k.exited a tid exitCode allocator) := by
  have recorded : Plain a k (({ k with
      current := none
      history := .exited (k.tasks a).process tid exitCode :: k.history } : Kernel).setTask a
        fun tcb => { tcb with exitCode := some exitCode, res := none }) :=
    of_procs rfl rfl rfl fun _ mem => .inl mem
  exact recorded.then_plain (setProc rfl (fun _ _ h => h) fun _ _ h => h)

theorem terminated {exitCode : Int32} (done : Terminated p exitCode k k') : Plain a k k' := by
  refine ⟨Nat.le_of_eq done.nextTask.symm, Nat.le_of_eq done.nextProc.symm, ?_, ?_, ?_, ?_⟩
  · intro t mem
    rw [done.readyQueue, ← List.diff_eq_foldl] at mem
    exact .inl (List.diff_subset _ _ mem)
  · intro q _ present
    rwa [(done.ids q).2] at present
  · intro q j m _ _ here
    rw [Kernel.mutexAt, (done.objects q).1]
    exact here
  · intro q j s _ _ here
    rw [Kernel.semaphoreAt, (done.objects q).2.1]
    exact here

theorem exit {exitCode : Int32} (current : k.current = some a)
    (h : k.exitCurrentAndRunNext exitCode = some k') : Plain a k k' := by
  obtain ⟨tid, allocator, -, -, ⟨-, rfl⟩ | ⟨-, done⟩⟩ := Kernel.exitCurrentAndRunNext_eq current h
  · exact exited
  · exact exited.then_plain (terminated done)

theorem trapEnd (current : k.current = some a) (h : k.trapEnd = some k') : Plain a k k' := by
  unfold Kernel.trapEnd at h
  obtain ⟨process, -, h⟩ := Option.bind_eq_some_iff.mp h
  split at h
  · exact exit current h
  · rw [Option.some.injEq] at h
    exact h ▸ refl k

theorem forked {pid : Nat} (done : Forked p pid k k') : Plain a k k' := by
  have old : ∀ q, q < k.nextProc → k'.procs q = { k.procs q with
      children := if q = p then (k.procs q).children ++ [k.nextProc] else (k.procs q).children } :=
    fun q below => done.process q (Nat.ne_of_lt below)
  refine ⟨by rw [done.nextTask]; exact Nat.le_succ _, by rw [done.nextProc]; exact Nat.le_succ _,
    ?_, ?_, ?_, ?_⟩
  · intro t mem
    rw [done.readyQueue] at mem
    rcases List.mem_append.mp mem with mem | mem
    · exact .inl mem
    · exact .inr (.inr (.inl (Nat.le_of_eq (List.mem_singleton.mp mem).symm)))
  · intro q below present
    rwa [old q below] at present
  · intro q j m below _ here
    rw [Kernel.mutexAt, old q below]
    exact here
  · intro q j s below _ here
    rw [Kernel.semaphoreAt, old q below]
    exact here

theorem reaped {i : Nat} {child : ProcId} {allocator : RecycleAllocator} :
    Plain a k (k.reaped a i child allocator) := by
  have old : ∀ q, ((k.reaped a i child allocator).procs q).dropped = false →
      (k.procs q).dropped = false ∧
      ((k.reaped a i child allocator).procs q).mutexList = (k.procs q).mutexList ∧
      ((k.reaped a i child allocator).procs q).semaphoreList = (k.procs q).semaphoreList := by
    intro q present
    simp only [Kernel.reaped, Kernel.setProc_procs] at present ⊢
    split at present
    · simp at present
    · next other =>
      rw [if_neg other]
      split at present
      · next same =>
        rw [if_pos same]
        exact ⟨present, rfl, rfl⟩
      · next differ =>
        rw [if_neg differ]
        exact ⟨present, rfl, rfl⟩
  refine ⟨Nat.le_refl _, Nat.le_refl _, fun _ mem => .inl mem, fun q _ present => (old q present).1,
    ?_, ?_⟩
  · intro q j m _ present here
    rw [Kernel.mutexAt, (old q present).2.1]
    exact here
  · intro q j s _ present here
    rw [Kernel.semaphoreAt, (old q present).2.2]
    exact here

theorem spawned {tid : Nat} {allocator : RecycleAllocator} :
    Plain a k (k.spawned a tid allocator) := by
  have created : Plain a k ((({ k with nextTask := k.nextTask + 1 } : Kernel).setTask k.nextTask
      fun _ => Task.new (k.tasks a).process tid).addTask k.nextTask) := by
    refine ⟨Nat.le_succ _, Nat.le_refl _, ?_, fun _ _ h => h, fun _ _ _ _ _ h => h,
      fun _ _ _ _ _ h => h⟩
    intro t mem
    rcases List.mem_append.mp mem with mem | mem
    · exact .inl mem
    · exact .inr (.inr (.inl (Nat.le_of_eq (List.mem_singleton.mp mem).symm)))
  exact created.then_plain (setProc rfl (fun _ _ h => h) fun _ _ h => h)

end Plain

/-! ## Calls -/

namespace Kernel

/-- An entry of a list of objects after the change of one of them. -/
theorem entry_set {α : Type} {list : List (Option α)} {old : α}
    (here : list[id]? = some (some old)) (new : α) (j : Nat) :
    ((list.set id (some new))[j]?.bind fun slot => slot) =
      if id = j then some new else list[j]?.bind fun slot => slot := by
  have inside := (List.getElem?_eq_some_iff.mp here).1
  rw [List.getElem?_set]
  by_cases same : id = j
  · subst same
    simp [inside]
  · simp [same]

theorem mutexAt_setMutex {old : Mutex} (here : k.mutexAt p id = some old) (new : Mutex)
    (q : ProcId) (j : Nat) : (k.setMutex p id new).mutexAt q j =
      if p = q ∧ id = j then some new else k.mutexAt q j := by
  simp only [mutexAt, setMutex, setProc_procs]
  by_cases same : q = p
  · subst same
    simp only [if_pos, entry_set (entry_eq here), true_and]
  · rw [if_neg same, if_neg (fun both => same both.1.symm)]

theorem semaphoreAt_setSemaphore {old : Semaphore} (here : k.semaphoreAt p id = some old)
    (new : Semaphore) (q : ProcId) (j : Nat) : (k.setSemaphore p id new).semaphoreAt q j =
      if p = q ∧ id = j then some new else k.semaphoreAt q j := by
  simp only [semaphoreAt, setSemaphore, setProc_procs]
  by_cases same : q = p
  · subst same
    simp only [if_pos, entry_set (entry_eq here), true_and]
  · rw [if_neg same, if_neg (fun both => same both.1.symm)]

end Kernel

namespace SyncEffect

theorem setMutex {old : Mutex} (here : k.mutexAt p id = some old) (call : MutexCall) :
    SyncEffect a [] (callAt p id call) (fun _ _ => none) k
      (k.setMutex p id (old.after call)) := by
  refine ⟨Nat.le_refl _, Nat.le_refl _, fun _ mem => .inl mem, ?_, ?_, ?_⟩
  · intro q _ present
    simp only [Kernel.setMutex, Kernel.setProc_procs] at present
    split at present <;> exact present
  · intro q j m _ _ there
    rw [Kernel.mutexAt_setMutex here, callAt]
    split
    · next same =>
      obtain ⟨rfl, rfl⟩ := same
      rw [here, Option.some.injEq] at there
      rw [there]
      rfl
    · exact there
  · intro q j s _ _ there
    simp only [Kernel.semaphoreAt, Kernel.setMutex, Kernel.setProc_procs]
    split <;> exact there

/-- A call that leaves the mutex as it is. -/
theorem sameMutex {m : Mutex} (here : k.mutexAt p id = some m) {call : MutexCall}
    (same : m.after call = m) :
    SyncEffect a [] (callAt p id call) (fun _ _ => none) k k := by
  refine ⟨Nat.le_refl _, Nat.le_refl _, fun _ mem => .inl mem, fun _ _ h => h, ?_,
    fun _ _ _ _ _ h => h⟩
  intro q j m' _ _ there
  rw [callAt]
  split
  · next both =>
    obtain ⟨rfl, rfl⟩ := both
    rw [here, Option.some.injEq] at there
    rw [← there, here, Option.elim_some, same]
  · exact there

theorem setSemaphore {old : Semaphore} (here : k.semaphoreAt p id = some old)
    (call : SemaphoreCall) :
    SyncEffect a [] (fun _ _ => none) (callAt p id call) k
      (k.setSemaphore p id (old.after call)) := by
  refine ⟨Nat.le_refl _, Nat.le_refl _, fun _ mem => .inl mem, ?_, ?_, ?_⟩
  · intro q _ present
    simp only [Kernel.setSemaphore, Kernel.setProc_procs] at present
    split at present <;> exact present
  · intro q j m _ _ there
    simp only [Kernel.mutexAt, Kernel.setSemaphore, Kernel.setProc_procs]
    split <;> exact there
  · intro q j s _ _ there
    rw [Kernel.semaphoreAt_setSemaphore here, callAt]
    split
    · next same =>
      obtain ⟨rfl, rfl⟩ := same
      rw [here, Option.some.injEq] at there
      rw [there]
      rfl
    · exact there

theorem wakeupTask (effect : SyncEffect a [] mutexCalls semaphoreCalls k k') (w : TaskId) :
    SyncEffect a [w] mutexCalls semaphoreCalls k (k'.wakeupTask w) := by
  refine ⟨effect.nextTask, effect.nextProc, ?_, effect.dropped, effect.mutexes, effect.semaphores⟩
  intro t mem
  rcases List.mem_append.mp mem with mem | mem
  · rcases effect.ready t mem with mem | isActing | isNew | isWoken
    · exact .inl mem
    · exact .inr (.inl isActing)
    · exact .inr (.inr (.inl isNew))
    · simp at isWoken
  · exact .inr (.inr (.inr mem))

end SyncEffect

namespace Kernel

variable {path : Path} {processes : List ProcId}

theorem mutexLock_effect (current : k.current = some a)
    (h : k.mutexLock p id processes = some path) :
    SyncEffect a [] (callAt p id (.lock a)) (fun _ _ => none) k path.kernel := by
  unfold mutexLock at h
  obtain ⟨mutex, found, h⟩ := Option.bind_eq_some_iff.mp h
  have here : k.mutexAt p id = some mutex := found
  have locked : SyncEffect a [] (callAt p id (.lock a)) (fun _ _ => none) k
      (k.setMutex p id (mutex.after (.lock a))) := .setMutex here _
  cases mutex with
  | blocking isLocked waitQueue =>
      cases isLocked with
      | true =>
          have still :
              (k.setMutex p id (.blocking true (waitQueue ++ [a]))).current = some a := current
          simp only [current, Option.bind_some, blockCurrentAndRunNext_eq still, Option.map_some,
            Option.some.injEq] at h
          subst h
          exact locked.then_plain .leave
      | false =>
          simp only [Option.some.injEq] at h
          subst h
          exact locked
  | spin isLocked =>
      cases isLocked with
      | true =>
          simp only [suspendCurrentAndRunNext_eq current, Option.map_some, Option.some.injEq] at h
          subst h
          exact (SyncEffect.sameMutex here rfl).then_plain .suspend
      | false =>
          simp only [Option.some.injEq] at h
          subst h
          exact locked

theorem mutexUnlock_effect (h : k.mutexUnlock p id = some k') :
    SyncEffect a (k.unlockWakes p id) (callAt p id (.unlock a)) (fun _ _ => none) k k' := by
  unfold mutexUnlock at h
  obtain ⟨mutex, found, h⟩ := Option.bind_eq_some_iff.mp h
  have here : k.mutexAt p id = some mutex := found
  have unlocked : SyncEffect a [] (callAt p id (.unlock a)) (fun _ _ => none) k
      (k.setMutex p id (mutex.after (.unlock a))) := .setMutex here _
  rw [unlockWakes, here]
  cases mutex with
  | blocking isLocked waitQueue =>
      cases isLocked with
      | true =>
          cases waitQueue with
          | nil =>
              simp only [Option.some.injEq] at h
              subst h
              exact unlocked
          | cons wakingTask waitQueue =>
              simp only [Option.some.injEq] at h
              subst h
              exact unlocked.wakeupTask wakingTask
      | false => simp at h
  | spin isLocked =>
      cases isLocked with
      | true =>
          simp only [Option.some.injEq] at h
          subst h
          exact unlocked
      | false => simp at h

theorem semaphoreUp_effect (h : k.semaphoreUp p id = some k') :
    SyncEffect a (k.upWakes p id) (fun _ _ => none) (callAt p id (.up a)) k k' := by
  unfold semaphoreUp at h
  obtain ⟨sem, found, rfl⟩ := Option.map_eq_some_iff.mp h
  have here : k.semaphoreAt p id = some sem := found
  have upped : SyncEffect a [] (fun _ _ => none) (callAt p id (.up a)) k
      (k.setSemaphore p id (sem.after (.up a))) := .setSemaphore here _
  simp only [upWakes, here]
  simp only [Semaphore.after] at upped
  by_cases waits : sem.count + 1 ≤ 0
  · rw [if_pos waits] at upped
    rw [if_pos waits, if_pos waits]
    cases queue : sem.waitQueue with
    | nil =>
        rw [queue] at upped
        exact upped
    | cons task waitQueue =>
        rw [queue] at upped
        exact upped.wakeupTask task
  · rw [if_neg waits] at upped
    rw [if_neg waits, if_neg waits]
    exact upped

theorem semaphoreDown_effect (current : k.current = some a)
    (h : k.semaphoreDown p id processes = some path) :
    SyncEffect a [] (fun _ _ => none) (callAt p id (.down a)) k path.kernel := by
  unfold semaphoreDown at h
  obtain ⟨sem, found, h⟩ := Option.bind_eq_some_iff.mp h
  have here : k.semaphoreAt p id = some sem := found
  have downed : SyncEffect a [] (fun _ _ => none) (callAt p id (.down a)) k
      (k.setSemaphore p id (sem.after (.down a))) := .setSemaphore here _
  simp only [Semaphore.after] at downed
  split at h
  · next waits =>
    rw [if_pos waits] at downed
    simp only [current, Option.bind_some] at h
    obtain ⟨waitQueue, pushed, h⟩ := Option.bind_eq_some_iff.mp h
    obtain rfl := pushBack_eq pushed
    have still : (k.setSemaphore p id ⟨sem.count - 1, sem.waitQueue ++ [a]⟩).current = some a :=
      current
    rw [blockCurrentAndRunNext_eq still, Option.map_some, Option.some.injEq] at h
    subst h
    exact downed.then_plain .leave
  · next free =>
    rw [if_neg free] at downed
    rw [Option.some.injEq] at h
    subst h
    exact downed

theorem setCondvar_plain (condvar : Condvar) : Plain a k (k.setCondvar p id condvar) :=
  .setProc rfl (fun _ _ h => h) fun _ _ h => h

theorem condvarSignal_effect (h : k.condvarSignal p id = some k') :
    SyncEffect a (k.signalWakes p id) (fun _ _ => none) (fun _ _ => none) k k' := by
  unfold condvarSignal at h
  obtain ⟨condvar, found, rfl⟩ := Option.map_eq_some_iff.mp h
  rw [signalWakes, entry_eq found]
  cases queue : condvar.waitQueue with
  | nil =>
      simp only [queue]
      exact Plain.refl k
  | cons task waitQueue =>
      simp only [queue]
      exact (setCondvar_plain ⟨waitQueue⟩).wakeupTask task

theorem condvarWait_effect {condvarId : Nat} (current : k.current = some a)
    (h : k.condvarWait (k.tasks a).process condvarId id processes = some path) :
    SyncEffect a (k.unlockWakes (k.tasks a).process id)
      (callAt (k.tasks a).process id (.unlock a)) (fun _ _ => none) k path.kernel := by
  unfold condvarWait at h
  obtain ⟨condvar, -, h⟩ := Option.bind_eq_some_iff.mp h
  obtain ⟨unlocked, unlock, h⟩ := Option.bind_eq_some_iff.mp h
  have effect : SyncEffect a (k.unlockWakes (k.tasks a).process id)
      (callAt (k.tasks a).process id (.unlock a)) (fun _ _ => none) k unlocked :=
    mutexUnlock_effect unlock
  obtain ⟨-, still, -⟩ : Moves a True k unlocked ∧ _ := mutexUnlock_moves current unlock
  simp only [still, Option.bind_some] at h
  have still' : (unlocked.setCondvar (k.tasks a).process condvarId
      ⟨condvar.waitQueue ++ [a]⟩).current = some a := still
  rw [blockCurrentAndRunNext_eq still', Option.map_some, Option.some.injEq] at h
  subst h
  exact (effect.then_plain (setCondvar_plain _)).then_plain .leave

end Kernel

/-! ## Wait queues -/

section Waiters

variable {w : TaskId}

/-- The threads that wait for an object of a process wait in a queue of the process. -/
theorem mem_flatMap_slot {α : Type} (queue : α → List TaskId) {list : List (Option α)} {object : α}
    (here : list[id]? = some (some object)) (mem : w ∈ queue object) :
    w ∈ list.flatMap (slotQueue queue) :=
  List.mem_flatMap.mpr ⟨some object, List.mem_of_getElem? here, mem⟩

theorem Kernel.mutexAt_waiter {m : Mutex} (here : k.mutexAt p id = some m)
    (mem : w ∈ m.waitQueue) : w ∈ (k.procs p).waiters :=
  List.mem_append_left _ (List.mem_append_left _
    (mem_flatMap_slot Mutex.waitQueue (entry_eq here) mem))

theorem Kernel.semaphoreAt_waiter {s : Semaphore} (here : k.semaphoreAt p id = some s)
    (mem : w ∈ s.waitQueue) : w ∈ (k.procs p).waiters :=
  List.mem_append_left _ (List.mem_append_right _
    (mem_flatMap_slot Semaphore.waitQueue (entry_eq here) mem))

end Waiters

/-! ## Steps -/

/-- A new object is in its slot. -/
theorem getElem?_allocSlot_self {α : Type} (list : List (Option α)) (object : α) :
    (allocSlot list object).1[(allocSlot list object).2]? = some (some object) := by
  unfold allocSlot
  cases found : list.findIdx? Option.isNone with
  | none => simp
  | some slot =>
      have below := (List.findIdx?_eq_some_iff_getElem.mp found).1
      simp [below]

/-- A new object takes no slot of another. -/
theorem getElem?_allocSlot {α : Type} {list : List (Option α)} {object other : α} {j : Nat}
    (here : list[j]? = some (some other)) :
    (allocSlot list object).1[j]? = some (some other) := by
  unfold allocSlot
  cases found : list.findIdx? Option.isNone with
  | none =>
      have inside := (List.getElem?_eq_some_iff.mp here).1
      rw [List.getElem?_append_left inside]
      exact here
  | some slot =>
      obtain ⟨below, isNone, -⟩ := List.findIdx?_eq_some_iff_getElem.mp found
      have differ : slot ≠ j := by
        rintro rfl
        rw [List.getElem?_eq_getElem below, Option.some.injEq] at here
        rw [here] at isNone
        simp at isNone
      rw [List.getElem?_set_ne differ]
      exact here

/-- The system calls that call no mutex, semaphore or condition variable. -/
def Syscall.IsPlain : Syscall → Prop
  | .mutexLock _ => False
  | .mutexUnlock _ => False
  | .semaphoreUp _ => False
  | .semaphoreDown _ => False
  | .condvarSignal _ => False
  | .condvarWait _ _ => False
  | _ => True

namespace Kernel

variable {path : Path} {call : Syscall} {event : Event}

theorem addSignal_plain (flags : UInt32) : Plain a k (k.addSignal p flags) :=
  .setProc rfl (fun _ _ h => h) fun _ _ h => h

theorem syscall_plain (current : k.current = some a) (h : k.syscall call = some path)
    (plain : call.IsPlain) : Plain a k path.kernel := by
  -- the calls that create an object
  have creates : ∀ {f : ProcId → Process → Process} {value : ProcId → Nat},
      (∀ p, (f p (k.procs p)).dropped = (k.procs p).dropped ∧
        (∀ (j : Nat) m, (k.procs p).mutexList[j]? = some (some m) →
          (f p (k.procs p)).mutexList[j]? = some (some m)) ∧
        ∀ (j : Nat) s, (k.procs p).semaphoreList[j]? = some (some s) →
          (f p (k.procs p)).semaphoreList[j]? = some (some s)) →
      (k.currentProcess.map fun process =>
        Path.done (k.setProc process (f process)) (value process)) = some path →
      Plain a k path.kernel := by
    intro f value keeps h
    obtain ⟨process, -, rfl⟩ := Option.map_eq_some_iff.mp h
    exact .setProc (keeps process).1 (keeps process).2.1 (keeps process).2.2
  cases call with
  | exit exitCode =>
      obtain ⟨last, exited, rfl⟩ := Option.map_eq_some_iff.mp h
      exact .exit current exited
  | yield =>
      simp only [syscall, suspendCurrentAndRunNext_eq current, Option.map_some,
        Option.some.injEq] at h
      subst h
      exact .suspend
  | sleep now ms =>
      obtain ⟨task, isCurrent, h⟩ := Option.bind_eq_some_iff.mp h
      cases current.symm.trans isCurrent
      have timed : (k.addTimer (now + ms) a).current = some a := current
      rw [blockCurrentAndRunNext_eq timed, Option.map_some, Option.some.injEq] at h
      subst h
      exact .of_procs rfl rfl rfl fun _ mem => .inl mem
  | kill pid signal =>
      simp only [syscall, sysKill] at h
      split at h
      · rw [Option.some.injEq] at h
        subst h
        exact addSignal_plain signal
      · rw [Option.some.injEq] at h
        subst h
        exact .refl k
  | fork =>
      obtain ⟨pid, last, done, rfl⟩ := sysFork_eq current h
      exact .forked done
  | exec found =>
      obtain ⟨process, -, h⟩ := Option.bind_eq_some_iff.mp h
      split at h
      · split at h
        · rw [Option.some.injEq] at h
          subst h
          exact .refl k
        · simp at h
      · rw [Option.some.injEq] at h
        subst h
        exact .refl k
  | waitpid pid =>
      rcases sysWaitpid_eq current h with ⟨value, rfl⟩ | ⟨i, child, allocator, -, -, -, rfl⟩
      · exact .refl k
      · exact .reaped
  | threadCreate =>
      obtain ⟨tid, allocator, -, -, rfl⟩ := sysThreadCreate_eq current h
      exact .spawned
  | waittid tid =>
      rcases sysWaittid_eq current h with ⟨value, rfl⟩ | ⟨u, exitCode, -, -, rfl⟩
      · exact .refl k
      · have noted : Plain a k
            { k with history := .waited (k.tasks a).process tid :: k.history } :=
          .of_procs rfl rfl rfl fun _ mem => .inl mem
        exact noted.then_plain (.setProc (p := (k.tasks a).process)
          (f := fun pcb => { pcb with tasks := pcb.tasks.set tid none }) rfl (fun _ _ h => h)
          fun _ _ h => h)
  | mutexCreate blocking =>
      exact creates (fun p => ⟨rfl, fun _ _ => getElem?_allocSlot, fun _ _ h => h⟩) h
  | semaphoreCreate resCount =>
      exact creates (fun p => ⟨rfl, fun _ _ h => h, fun _ _ => getElem?_allocSlot⟩) h
  | condvarCreate => exact creates (fun p => ⟨rfl, fun _ _ h => h, fun _ _ h => h⟩) h
  | file ready =>
      obtain ⟨process, -, h⟩ := Option.bind_eq_some_iff.mp h
      split at h
      · rw [Option.some.injEq] at h
        subst h
        exact .refl k
      · rw [suspendCurrentAndRunNext_eq current, Option.map_some, Option.some.injEq] at h
        subst h
        exact .suspend
  | quiet =>
      simp only [syscall, Option.some.injEq] at h
      subst h
      exact .refl k
  | mutexLock mutexId => exact plain.elim
  | mutexUnlock mutexId => exact plain.elim
  | semaphoreUp semId => exact plain.elim
  | semaphoreDown semId => exact plain.elim
  | condvarSignal condvarId => exact plain.elim
  | condvarWait condvarId mutexId => exact plain.elim

/-- The calls and wake-ups that a step makes. -/
def Effect (k : Kernel) (event : Event) (a : TaskId) : Kernel → Kernel → Prop :=
  SyncEffect a (k.wakeups event) (k.mutexCall event) (k.semaphoreCall event)

/-- The code makes the calls of the event. -/
theorem effect_of_calls (effect : SyncEffect a woken mutexCalls semaphoreCalls k k')
    (wakes : k.wakeups event = woken) (mutexes : ∀ q j, k.mutexCall event q j = mutexCalls q j)
    (semaphores : ∀ q j, k.semaphoreCall event q j = semaphoreCalls q j) :
    k.Effect event a k k' := by
  have sameMutexes : k.mutexCall event = mutexCalls := funext fun q => funext (mutexes q)
  have sameSemaphores : k.semaphoreCall event = semaphoreCalls :=
    funext fun q => funext (semaphores q)
  rw [Effect, wakes, sameMutexes, sameSemaphores]
  exact effect

theorem syscall_effect (current : k.current = some a) (h : k.syscall call = some path) :
    k.Effect (.syscall call) a k path.kernel := by
  cases call with
  | mutexLock mutexId =>
      refine effect_of_calls (mutexLock_effect current (currentProcess_bind current h)) ?_ ?_ ?_
      · simp only [wakeups, current]
      · intro q j
        simp only [mutexCall, current, callAt]
      · intro q j
        simp only [semaphoreCall, current]
  | mutexUnlock mutexId =>
      obtain ⟨last, unlocked, rfl⟩ := Option.map_eq_some_iff.mp (currentProcess_bind current h)
      refine effect_of_calls (mutexUnlock_effect unlocked) ?_ ?_ ?_
      · simp only [wakeups, current]
      · intro q j
        simp only [mutexCall, current, callAt]
      · intro q j
        simp only [semaphoreCall, current]
  | semaphoreUp semId =>
      obtain ⟨last, upped, rfl⟩ := Option.map_eq_some_iff.mp (currentProcess_bind current h)
      refine effect_of_calls (semaphoreUp_effect upped) ?_ ?_ ?_
      · simp only [wakeups, current]
      · intro q j
        simp only [mutexCall, current]
      · intro q j
        simp only [semaphoreCall, current, callAt]
  | semaphoreDown semId =>
      refine effect_of_calls (semaphoreDown_effect current (currentProcess_bind current h)) ?_ ?_ ?_
      · simp only [wakeups, current]
      · intro q j
        simp only [mutexCall, current]
      · intro q j
        simp only [semaphoreCall, current, callAt]
  | condvarSignal condvarId =>
      obtain ⟨last, signaled, rfl⟩ := Option.map_eq_some_iff.mp (currentProcess_bind current h)
      refine effect_of_calls (condvarSignal_effect signaled) ?_ ?_ ?_
      · simp only [wakeups, current]
      · intro q j
        simp only [mutexCall, current]
      · intro q j
        simp only [semaphoreCall, current]
  | condvarWait condvarId mutexId =>
      refine effect_of_calls (condvarWait_effect current (currentProcess_bind current h)) ?_ ?_ ?_
      · simp only [wakeups, current]
      · intro q j
        simp only [mutexCall, current, callAt]
      · intro q j
        simp only [semaphoreCall, current]
  | _ =>
      -- the calls without an object
      refine effect_of_calls (syscall_plain current h trivial) ?_ ?_ ?_
      · simp only [wakeups, current]
      · intro q j
        simp only [mutexCall, current]
      · intro q j
        simp only [semaphoreCall, current]

theorem afterPath_plain (current : ∀ last value, path = .done last value → last.current = some a)
    (h : afterPath path = some k') : Plain a path.kernel k' := by
  cases path with
  | done last value => exact .trapEnd (current last value rfl) h
  | away last =>
      simp only [afterPath, Option.some.injEq] at h
      exact h ▸ .refl last

/-- A system call that returns is followed by the end of `trap_handler`. -/
theorem step_returned {last : Kernel} {value : Int} (current : k.current = some a)
    (h : k.step (.syscall call) = some k') (called : k.syscall call = some (.done last value)) :
    Plain a last k' := by
  have by_a : (Path.done last value).By a True k := syscall_by current (fun _ => trivial) called
  rw [step.eq_def, current] at h
  simp only [called, Option.bind_some] at h
  exact .trapEnd by_a.2 h

theorem checkTimer_effect {now : UInt64} {due : List TimerCondVar}
    (h : checkTimer now due k = some k') :
    SyncEffect a (timerWakes now k.timers due) (fun _ _ => none) (fun _ _ => none) k k' := by
  induction due generalizing k with
  | nil =>
      simp only [checkTimer] at h
      split at h
      · simp at h
      · rw [Option.some.injEq] at h
        exact h ▸ Plain.refl k
  | cons c rest ih =>
      simp only [checkTimer] at h
      simp only [timerWakes]
      split at h
      · next peek =>
        rw [if_pos peek]
        have later : SyncEffect a (timerWakes now (k.timers.erase c) rest) (fun _ _ => none)
            (fun _ _ => none) { k.wakeupTask c.task with timers := k.timers.erase c } k' := ih h
        refine ⟨later.nextTask, later.nextProc, ?_, later.dropped, later.mutexes, later.semaphores⟩
        intro t mem
        rcases later.ready t mem with mem | isActing | isNew | isWoken
        · rcases List.mem_append.mp mem with mem | mem
          · exact .inl mem
          · rw [List.mem_singleton.mp mem]
            exact .inr (.inr (.inr List.mem_cons_self))
        · exact .inr (.inl isActing)
        · exact .inr (.inr (.inl isNew))
        · exact .inr (.inr (.inr (List.mem_cons_of_mem _ isWoken)))
      · simp at h

theorem resume_effect {frame : Frame} {ready : Bool} (current : k.current = some a)
    (own : ∀ q ∈ frame.processes, q = (k.tasks a).process)
    (h : k.resume (k.tasks a).process frame ready = some k') :
    SyncEffect a [] (fun q j => if (k.tasks a).process = q ∧ frame.resume = .lock j then
      some (.lock a) else none) (fun _ _ => none) k k' := by
  unfold resume at h
  cases resume : frame.resume with
  | trapReturn =>
      simp only [resume, Option.some.injEq] at h
      simp only [reduceCtorEq, and_false, if_false]
      exact h ▸ Plain.refl k
  | trapEnd =>
      simp only [resume] at h
      simp only [reduceCtorEq, and_false, if_false]
      exact Plain.trapEnd current h
  | lock mutexId =>
      simp only [resume] at h
      obtain ⟨path, locked, h⟩ := Option.bind_eq_some_iff.mp h
      simp only [Resume.lock.injEq]
      refine (mutexLock_effect current locked).then_plain (afterPath_plain ?_ h)
      have by_a : path.By a True k := mutexLock_by current own locked
      exact by_a.done_current
  | file =>
      simp only [resume] at h
      simp only [reduceCtorEq, and_false, if_false]
      split at h
      · exact Plain.trapEnd current h
      · rw [suspendCurrentAndRunNext_eq current, Option.some.injEq] at h
        exact h ▸ Plain.suspend

/-- The calls and wake-ups of a step are those of its event. -/
theorem step_effect (frames : FramesOwn k) (h : k.step event = some k') :
    ∃ a, (k.acting = some a ∨ k' = k) ∧ k.Effect event a k k' := by
  unfold step at h
  split at h
  · next ready idle =>
    unfold runTasks at h
    split at h
    · next queue =>
      rw [Option.some.injEq] at h
      subst h
      refine ⟨0, .inr rfl, effect_of_calls (Plain.refl k) ?_ ?_ ?_⟩
      · simp only [wakeups, idle]
      · intro q j
        simp only [mutexCall, idle, queue, List.head?_nil, Option.bind_none]
      · intro q j
        simp only [semaphoreCall, idle]
    · next task readyQueue queue =>
      refine ⟨task, .inl (by rw [acting, idle, queue]; rfl), ?_⟩
      have dispatched : Plain task k (({ k with
          readyQueue := readyQueue, current := some task } : Kernel).setTask task fun tcb =>
            { tcb with taskStatus := .running, frame := ⟨.trapReturn, []⟩ }) := by
        refine .of_procs rfl rfl rfl fun t mem => .inl ?_
        rw [queue]
        exact List.mem_cons_of_mem _ mem
      have resumed : (({ k with readyQueue := readyQueue, current := some task } :
          Kernel).setTask task fun tcb =>
            { tcb with taskStatus := .running, frame := ⟨.trapReturn, []⟩ }).current =
              some task := rfl
      have effect := @resume_effect _ k' task (k.tasks task).frame ready resumed
        (by simpa using frames task) (by simpa using h)
      refine effect_of_calls (effect.of_plain dispatched) ?_ ?_ ?_
      · simp only [wakeups, idle]
      · intro q j
        simp [mutexCall, idle, queue]
      · intro q j
        simp only [semaphoreCall, idle]
  · next task call isCurrent =>
    obtain ⟨path, called, h⟩ := Option.bind_eq_some_iff.mp h
    refine ⟨task, .inl (by rw [acting, isCurrent]; rfl), ?_⟩
    refine (syscall_effect isCurrent called).then_plain (afterPath_plain ?_ h)
    have by_task : path.By task True k := syscall_by isCurrent (fun _ => trivial) called
    exact by_task.done_current
  · next task now due isCurrent =>
    obtain ⟨woken, checked, h⟩ := Option.bind_eq_some_iff.mp h
    obtain ⟨-, still⟩ : Moves task True k woken ∧ _ := checkTimer_moves isCurrent checked
    rw [suspendCurrentAndRunNext_eq still, Option.some.injEq] at h
    subst h
    refine ⟨task, .inl (by rw [acting, isCurrent]; rfl), ?_⟩
    refine effect_of_calls ((checkTimer_effect checked).then_plain .suspend) ?_ ?_ ?_
    · simp only [wakeups, isCurrent]
    · intro q j
      simp only [mutexCall, isCurrent]
    · intro q j
      simp only [semaphoreCall, isCurrent]
  · next task isCurrent =>
    obtain ⟨process, -, h⟩ := Option.bind_eq_some_iff.mp h
    refine ⟨task, .inl (by rw [acting, isCurrent]; rfl), ?_⟩
    refine effect_of_calls ((addSignal_plain sigSegv).then_plain (.trapEnd isCurrent h)) ?_ ?_ ?_
    · simp only [wakeups, isCurrent]
    · intro q j
      simp only [mutexCall, isCurrent]
    · intro q j
      simp only [semaphoreCall, isCurrent]
  · next task isCurrent =>
    obtain ⟨process, -, h⟩ := Option.bind_eq_some_iff.mp h
    refine ⟨task, .inl (by rw [acting, isCurrent]; rfl), ?_⟩
    refine effect_of_calls ((addSignal_plain sigIll).then_plain (.trapEnd isCurrent h)) ?_ ?_ ?_
    · simp only [wakeups, isCurrent]
    · intro q j
      simp only [mutexCall, isCurrent]
    · intro q j
      simp only [semaphoreCall, isCurrent]
  · simp at h

end Kernel

end CoreFromDust.Os
