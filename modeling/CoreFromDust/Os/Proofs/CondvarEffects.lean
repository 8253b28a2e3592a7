import CoreFromDust.Os.Proofs.Scheduled
import CoreFromDust.Os.Proofs.SyncEffects

/-!
# What a step does to condition variables

`CondvarEffect` names the calls on condition variables that a piece of kernel code makes, and says
that an object it adds is a new one; `SameLists` says that there is none of either. `Others` is
what a step leaves to the threads that do not act in it.
-/

namespace CoreFromDust.Os

variable {k k' k₁ : Kernel} {a : TaskId} {p : ProcId} {id : Nat} {spawns : Prop}
  {calls : ProcId → Nat → Option CondvarCall}

/-! ## Condition variables -/

/-- The mutexes and condition variables of the processes that are not dropped stay as they are; a
new process has none. -/
structure SameLists (k k' : Kernel) : Prop where
  nextProc : k.nextProc ≤ k'.nextProc
  dropped : ∀ p, p < k.nextProc → (k'.procs p).dropped = false → (k.procs p).dropped = false
  mutexes : ∀ p id, p < k.nextProc → (k'.procs p).dropped = false →
    k'.mutexAt p id = k.mutexAt p id
  condvars : ∀ p id, p < k.nextProc → (k'.procs p).dropped = false →
    k'.condvarAt p id = k.condvarAt p id
  born : ∀ p id, k.nextProc ≤ p → p < k'.nextProc → (k'.procs p).dropped = false →
    k'.mutexAt p id = none ∧ k'.condvarAt p id = none

/-- These calls are made on the condition variables of processes that are not dropped, and a mutex
or condition variable that was not there before is new. -/
structure CondvarEffect (calls : ProcId → Nat → Option CondvarCall) (k k' : Kernel) : Prop where
  nextProc : k.nextProc ≤ k'.nextProc
  dropped : ∀ p, p < k.nextProc → (k'.procs p).dropped = false → (k.procs p).dropped = false
  mutexes : ∀ p id m, p < k.nextProc → (k'.procs p).dropped = false → k.mutexAt p id = none →
    k'.mutexAt p id = some m →
    ∃ blocking : Bool, m = if blocking then .blocking false [] else .spin false
  condvars : ∀ p id condvar, p < k.nextProc → (k'.procs p).dropped = false →
    k.condvarAt p id = some condvar →
    k'.condvarAt p id = some ((calls p id).elim condvar fun call => condvar.after call)
  newCondvar : ∀ p id condvar, p < k.nextProc → (k'.procs p).dropped = false →
    k.condvarAt p id = none → k'.condvarAt p id = some condvar → condvar = ⟨[]⟩
  born : ∀ p id, k.nextProc ≤ p → p < k'.nextProc → (k'.procs p).dropped = false →
    k'.mutexAt p id = none ∧ k'.condvarAt p id = none

namespace SameLists

theorem refl (k : Kernel) : SameLists k k :=
  ⟨Nat.le_refl _, fun _ _ h => h, fun _ _ _ _ => rfl, fun _ _ _ _ => rfl,
    fun _ _ least below => absurd below (Nat.not_lt.mpr least)⟩

theorem trans (first : SameLists k k₁) (second : SameLists k₁ k') : SameLists k k' := by
  have present : ∀ q, q < k₁.nextProc → (k'.procs q).dropped = false →
      (k₁.procs q).dropped = false := second.dropped
  refine ⟨Nat.le_trans first.nextProc second.nextProc, ?_, ?_, ?_, ?_⟩
  · intro q below here
    exact first.dropped q below (present q (Nat.lt_of_lt_of_le below first.nextProc) here)
  · intro q j below here
    have below₁ := Nat.lt_of_lt_of_le below first.nextProc
    rw [second.mutexes q j below₁ here, first.mutexes q j below (present q below₁ here)]
  · intro q j below here
    have below₁ := Nat.lt_of_lt_of_le below first.nextProc
    rw [second.condvars q j below₁ here, first.condvars q j below (present q below₁ here)]
  · intro q j least below here
    by_cases below₁ : q < k₁.nextProc
    · obtain ⟨noMutex, noCondvar⟩ := first.born q j least below₁ (present q below₁ here)
      rw [second.mutexes q j below₁ here, second.condvars q j below₁ here]
      exact ⟨noMutex, noCondvar⟩
    · exact second.born q j (Nat.not_lt.mp below₁) below here

/-- No process is created, and the processes keep their lists. -/
theorem of_lists (nextProc : k'.nextProc = k.nextProc)
    (lists : ∀ q, (k'.procs q).dropped = false → (k.procs q).dropped = false ∧
      (k'.procs q).mutexList = (k.procs q).mutexList ∧
      (k'.procs q).condvarList = (k.procs q).condvarList) : SameLists k k' := by
  refine ⟨Nat.le_of_eq nextProc.symm, fun q _ here => (lists q here).1, ?_, ?_, ?_⟩
  · intro q j _ here
    rw [Kernel.mutexAt, Kernel.mutexAt, (lists q here).2.1]
  · intro q j _ here
    rw [Kernel.condvarAt, Kernel.condvarAt, (lists q here).2.2]
  · intro q j least below
    rw [nextProc] at below
    exact absurd below (Nat.not_lt.mpr least)

theorem of_procs (procs : k'.procs = k.procs) (nextProc : k'.nextProc = k.nextProc) :
    SameLists k k' := by
  refine of_lists nextProc fun q here => ?_
  rw [procs] at here ⊢
  exact ⟨here, rfl, rfl⟩

theorem setProc {f : Process → Process} (dropped : (f (k.procs p)).dropped = (k.procs p).dropped)
    (mutexes : (f (k.procs p)).mutexList = (k.procs p).mutexList)
    (condvars : (f (k.procs p)).condvarList = (k.procs p).condvarList) :
    SameLists k (k.setProc p f) := by
  refine of_lists rfl fun q here => ?_
  rw [Kernel.setProc_procs] at here ⊢
  split at here
  · next same =>
    subst same
    rw [if_pos rfl, ← dropped]
    exact ⟨here, mutexes, condvars⟩
  · next differ =>
    rw [if_neg differ]
    exact ⟨here, rfl, rfl⟩

theorem wakeupTask (w : TaskId) : SameLists k (k.wakeupTask w) := of_procs rfl rfl

theorem leave {status : TaskStatus} {frame : Frame} : SameLists k (k.leave a status frame) :=
  of_procs rfl rfl

theorem suspend {frame : Frame} : SameLists k ((k.leave a .ready frame).addTask a) :=
  of_procs rfl rfl

theorem exited {tid : Nat} {exitCode : Int32} {allocator : RecycleAllocator} :
    SameLists k (k.exited a tid exitCode allocator) := by
  have recorded : SameLists k (({ k with
      current := none
      history := .exited (k.tasks a).process tid exitCode :: k.history } : Kernel).setTask a
        fun tcb => { tcb with exitCode := some exitCode, res := none }) :=
    of_procs rfl rfl
  exact recorded.trans (setProc rfl rfl rfl)

theorem terminated {exitCode : Int32} (done : Terminated p exitCode k k') : SameLists k k' := by
  refine of_lists done.nextProc fun q here => ?_
  rw [(done.ids q).2] at here
  exact ⟨here, (done.objects q).1, (done.objects q).2.2⟩

theorem exit {exitCode : Int32} (current : k.current = some a)
    (h : k.exitCurrentAndRunNext exitCode = some k') : SameLists k k' := by
  obtain ⟨tid, allocator, -, -, ⟨-, rfl⟩ | ⟨-, done⟩⟩ := Kernel.exitCurrentAndRunNext_eq current h
  · exact exited
  · exact exited.trans (terminated done)

theorem trapEnd (current : k.current = some a) (h : k.trapEnd = some k') : SameLists k k' := by
  unfold Kernel.trapEnd at h
  obtain ⟨process, -, h⟩ := Option.bind_eq_some_iff.mp h
  split at h
  · exact exit current h
  · rw [Option.some.injEq] at h
    exact h ▸ refl k

theorem forked {pid : Nat} (below : p < k.nextProc) (done : Forked p pid k k') :
    SameLists k k' := by
  have old : ∀ q, q < k.nextProc → (k'.procs q).dropped = (k.procs q).dropped ∧
      (k'.procs q).mutexList = (k.procs q).mutexList ∧
      (k'.procs q).condvarList = (k.procs q).condvarList := by
    intro q below
    rw [done.process q (Nat.ne_of_lt below)]
    exact ⟨rfl, rfl, rfl⟩
  refine ⟨by rw [done.nextProc]; exact Nat.le_succ _, ?_, ?_, ?_, ?_⟩
  · intro q below here
    rwa [(old q below).1] at here
  · intro q j below _
    rw [Kernel.mutexAt, Kernel.mutexAt, (old q below).2.1]
  · intro q j below _
    rw [Kernel.condvarAt, Kernel.condvarAt, (old q below).2.2]
  · intro q j least below' _
    rw [done.nextProc] at below'
    obtain rfl : q = k.nextProc := Nat.le_antisymm (Nat.le_of_lt_succ below') least
    rw [Kernel.mutexAt, Kernel.condvarAt, done.newProcess (Nat.ne_of_lt below)]
    exact ⟨rfl, rfl⟩

theorem reaped {i : Nat} {child : ProcId} {allocator : RecycleAllocator} :
    SameLists k (k.reaped a i child allocator) := by
  refine of_lists rfl fun q here => ?_
  simp only [Kernel.reaped, Kernel.setProc_procs] at here ⊢
  split at here
  · simp at here
  · next other =>
    rw [if_neg other]
    split at here
    · next same =>
      rw [if_pos same]
      exact ⟨here, rfl, rfl⟩
    · next differ =>
      rw [if_neg differ]
      exact ⟨here, rfl, rfl⟩

theorem spawned {tid : Nat} {allocator : RecycleAllocator} :
    SameLists k (k.spawned a tid allocator) := by
  have created : SameLists k ((({ k with nextTask := k.nextTask + 1 } : Kernel).setTask k.nextTask
      fun _ => Task.new (k.tasks a).process tid).addTask k.nextTask) := of_procs rfl rfl
  exact created.trans (setProc rfl rfl rfl)

theorem checkTimer {now : UInt64} {due : List TimerCondVar}
    (h : Kernel.checkTimer now due k = some k') : SameLists k k' := by
  induction due generalizing k with
  | nil =>
      simp only [Kernel.checkTimer] at h
      split at h
      · simp at h
      · rw [Option.some.injEq] at h
        exact h ▸ refl k
  | cons c rest ih =>
      simp only [Kernel.checkTimer] at h
      split at h
      · have woken : SameLists k { k.wakeupTask c.task with timers := k.timers.erase c } :=
          of_procs rfl rfl
        exact woken.trans (ih h)
      · simp at h

end SameLists

namespace CondvarEffect

/-- Code without calls. -/
theorem of_same (same : SameLists k k') : CondvarEffect (fun _ _ => none) k k' := by
  refine ⟨same.nextProc, same.dropped, ?_, ?_, ?_, same.born⟩
  · intro q j m below here absent there
    rw [same.mutexes q j below here, absent] at there
    simp at there
  · intro q j condvar below here found
    rw [same.condvars q j below here]
    exact found
  · intro q j condvar below here absent found
    rw [same.condvars q j below here, absent] at found
    simp at found

/-- Code without calls after. -/
theorem then_same (effect : CondvarEffect calls k k₁) (after : SameLists k₁ k') :
    CondvarEffect calls k k' := by
  have inside : ∀ q, q < k.nextProc → q < k₁.nextProc :=
    fun q below => Nat.lt_of_lt_of_le below effect.nextProc
  refine ⟨Nat.le_trans effect.nextProc after.nextProc, ?_, ?_, ?_, ?_, ?_⟩
  · intro q below here
    exact effect.dropped q below (after.dropped q (inside q below) here)
  · intro q j m below here absent found
    rw [after.mutexes q j (inside q below) here] at found
    exact effect.mutexes q j m below (after.dropped q (inside q below) here) absent found
  · intro q j condvar below here found
    rw [after.condvars q j (inside q below) here]
    exact effect.condvars q j condvar below (after.dropped q (inside q below) here) found
  · intro q j condvar below here absent found
    rw [after.condvars q j (inside q below) here] at found
    exact effect.newCondvar q j condvar below (after.dropped q (inside q below) here) absent found
  · intro q j least below here
    by_cases below₁ : q < k₁.nextProc
    · obtain ⟨noMutex, noCondvar⟩ := effect.born q j least below₁ (after.dropped q below₁ here)
      rw [after.mutexes q j below₁ here, after.condvars q j below₁ here]
      exact ⟨noMutex, noCondvar⟩
    · exact after.born q j (Nat.not_lt.mp below₁) below here

/-- Code before that adds no object and leaves the condition variables as they are. -/
theorem after_same (nextProc : k₁.nextProc = k.nextProc)
    (dropped : ∀ q, (k₁.procs q).dropped = (k.procs q).dropped)
    (mutexes : ∀ q j, k.mutexAt q j = none → k₁.mutexAt q j = none)
    (condvars : ∀ q j, k₁.condvarAt q j = k.condvarAt q j) (effect : CondvarEffect calls k₁ k') :
    CondvarEffect calls k k' := by
  obtain ⟨grows, present, changes, called, newCondvar, born⟩ := effect
  simp only [nextProc, dropped, condvars] at grows present changes called newCondvar born
  exact ⟨grows, present,
    fun q j m below here absent => changes q j m below here (mutexes q j absent),
    called, newCondvar, born⟩

/-- Updates of one process that is not dropped by them, as its lists say. -/
theorem setProc {f : Process → Process} (dropped : (f (k.procs p)).dropped = (k.procs p).dropped)
    (mutexes : ∀ (j : Nat) m, ((k.procs p).mutexList[j]?.bind fun slot => slot) = none →
      ((f (k.procs p)).mutexList[j]?.bind fun slot => slot) = some m →
      ∃ blocking : Bool, m = if blocking then .blocking false [] else .spin false)
    (condvars : ∀ (j : Nat) v, ((k.procs p).condvarList[j]?.bind fun slot => slot) = some v →
      ((f (k.procs p)).condvarList[j]?.bind fun slot => slot) =
        some ((calls p j).elim v fun call => v.after call))
    (newCondvar : ∀ (j : Nat) v, ((k.procs p).condvarList[j]?.bind fun slot => slot) = none →
      ((f (k.procs p)).condvarList[j]?.bind fun slot => slot) = some v → v = ⟨[]⟩)
    (others : ∀ q, q ≠ p → ∀ j, calls q j = none) : CondvarEffect calls k (k.setProc p f) := by
  refine ⟨Nat.le_refl _, ?_, ?_, ?_, ?_, fun _ _ least below => absurd below (Nat.not_lt.mpr least)⟩
  · intro q _ here
    rw [Kernel.setProc_procs] at here
    split at here
    · next same =>
      subst same
      rwa [dropped] at here
    · exact here
  · intro q j m _ _ absent found
    rw [Kernel.mutexAt, Kernel.setProc_procs] at found
    split at found
    · next same =>
      subst same
      exact mutexes j m absent found
    · rw [Kernel.mutexAt] at absent
      rw [absent] at found
      simp at found
  · intro q j v _ _ found
    rw [Kernel.condvarAt, Kernel.setProc_procs]
    split
    · next same =>
      subst same
      exact condvars j v found
    · next differ =>
      rw [others q differ j]
      exact found
  · intro q j v _ _ absent found
    rw [Kernel.condvarAt, Kernel.setProc_procs] at found
    split at found
    · next same =>
      subst same
      exact newCondvar j v absent found
    · rw [Kernel.condvarAt] at absent
      rw [absent] at found
      simp at found

end CondvarEffect

/-! ## Calls on condition variables -/

namespace CondvarEffect

/-- A mutex that is there changes. -/
theorem setMutex {old : Mutex} (here : k.mutexAt p id = some old) (new : Mutex) :
    CondvarEffect (fun _ _ => none) k (k.setMutex p id new) := by
  refine setProc rfl ?_ (fun _ _ h => h) ?_ fun _ _ _ => rfl
  · intro j m absent found
    rw [Kernel.entry_set (entry_eq here)] at found
    split at found
    · next same =>
      subst same
      rw [Kernel.mutexAt, absent] at here
      simp at here
    · rw [absent] at found
      simp at found
  · intro j v absent found
    rw [absent] at found
    simp at found

/-- A call on a condition variable. -/
theorem setCondvar {old : Condvar} (here : k.condvarAt p id = some old) (call : CondvarCall) :
    CondvarEffect (callAt p id call) k (k.setCondvar p id (old.after call)) := by
  refine setProc rfl ?_ ?_ ?_ ?_
  · intro j m absent found
    rw [absent] at found
    simp at found
  · intro j v found
    rw [Kernel.entry_set (entry_eq here), callAt]
    by_cases same : id = j
    · subst same
      rw [Kernel.condvarAt, found, Option.some.injEq] at here
      simp [here]
    · simpa [same] using found
  · intro j v absent found
    rw [Kernel.entry_set (entry_eq here)] at found
    split at found
    · next same =>
      subst same
      rw [Kernel.condvarAt, absent] at here
      simp at here
    · rw [absent] at found
      simp at found
  · intro q differ j
    rw [callAt, if_neg fun both => differ both.1.symm]

/-- A call that leaves the condition variable as it is. -/
theorem sameCondvar {condvar : Condvar} (here : k.condvarAt p id = some condvar)
    {call : CondvarCall}
    (same : condvar.after call = condvar) : CondvarEffect (callAt p id call) k k := by
  refine ⟨Nat.le_refl _, fun _ _ h => h, ?_, ?_, ?_,
    fun _ _ least below => absurd below (Nat.not_lt.mpr least)⟩
  · intro q j m _ _ absent found
    rw [absent] at found
    simp at found
  · intro q j v _ _ found
    rw [callAt]
    split
    · next both =>
      obtain ⟨rfl, rfl⟩ := both
      rw [here, Option.some.injEq] at found
      rw [← found, here, Option.elim_some, same]
    · exact found
  · intro q j v _ _ absent found
    rw [absent] at found
    simp at found

/-- A new object is the only entry that was not there before. -/
theorem allocSlot_new {α : Type} {list : List (Option α)} {object new : α} {j : Nat}
    (absent : (list[j]?.bind fun slot => slot) = none)
    (found : ((allocSlot list object).1[j]?.bind fun slot => slot) = some new) : new = object := by
  unfold allocSlot at found
  cases free : list.findIdx? Option.isNone with
  | none =>
      rw [free] at found
      have entry := entry_eq found
      rw [List.getElem?_append] at entry
      split at entry
      · rw [entry] at absent
        simp at absent
      · rw [List.getElem?_singleton] at entry
        split at entry
        · exact (Option.some.inj (Option.some.inj entry)).symm
        · simp at entry
  | some slot =>
      rw [free] at found
      have entry := entry_eq found
      rw [List.getElem?_set] at entry
      split at entry
      · split at entry
        · exact (Option.some.inj (Option.some.inj entry)).symm
        · simp at entry
      · rw [entry] at absent
        simp at absent

theorem createMutex (blocking : Bool) : CondvarEffect (fun _ _ => none) k (k.setProc p fun pcb =>
    { pcb with mutexList := (allocSlot pcb.mutexList
      (if blocking then .blocking false [] else .spin false)).1 }) := by
  refine setProc rfl ?_ (fun _ _ h => h) ?_ fun _ _ _ => rfl
  · intro j m absent found
    exact ⟨blocking, allocSlot_new absent found⟩
  · intro j v absent found
    rw [absent] at found
    simp at found

theorem createCondvar : CondvarEffect (fun _ _ => none) k (k.setProc p fun pcb =>
    { pcb with condvarList := (allocSlot pcb.condvarList ⟨[]⟩).1 }) := by
  refine setProc rfl ?_ ?_ ?_ fun _ _ _ => rfl
  · intro j m absent found
    rw [absent] at found
    simp at found
  · intro j v found
    rw [getElem?_allocSlot (entry_eq found)]
    rfl
  · intro j v absent found
    exact allocSlot_new absent found

end CondvarEffect

namespace Kernel

variable {path : Path} {processes : List ProcId} {call : Syscall} {event : Event}

theorem mutexLock_condvars (current : k.current = some a)
    (h : k.mutexLock p id processes = some path) :
    CondvarEffect (fun _ _ => none) k path.kernel := by
  unfold mutexLock at h
  obtain ⟨mutex, found, h⟩ := Option.bind_eq_some_iff.mp h
  have here : k.mutexAt p id = some mutex := found
  cases mutex with
  | blocking isLocked waitQueue =>
      cases isLocked with
      | true =>
          have still :
              (k.setMutex p id (.blocking true (waitQueue ++ [a]))).current = some a := current
          simp only [current, Option.bind_some, blockCurrentAndRunNext_eq still, Option.map_some,
            Option.some.injEq] at h
          subst h
          exact (CondvarEffect.setMutex here _).then_same .leave
      | false =>
          simp only [Option.some.injEq] at h
          subst h
          exact .setMutex here _
  | spin isLocked =>
      cases isLocked with
      | true =>
          simp only [suspendCurrentAndRunNext_eq current, Option.map_some, Option.some.injEq] at h
          subst h
          exact .of_same .suspend
      | false =>
          simp only [Option.some.injEq] at h
          subst h
          exact .setMutex here _

/-- `Mutex::unlock` sets the mutex and may wake a thread. -/
theorem mutexUnlock_cases (h : k.mutexUnlock p id = some k') :
    ∃ old new, k.mutexAt p id = some old ∧
    (k' = k.setMutex p id new ∨ ∃ w, k' = (k.setMutex p id new).wakeupTask w) := by
  unfold mutexUnlock at h
  obtain ⟨mutex, found, h⟩ := Option.bind_eq_some_iff.mp h
  have here : k.mutexAt p id = some mutex := found
  split at h
  · exact ⟨_, _, here, .inr ⟨_, (Option.some.inj h).symm⟩⟩
  · exact ⟨_, _, here, .inl (Option.some.inj h).symm⟩
  · simp at h
  · exact ⟨_, _, here, .inl (Option.some.inj h).symm⟩
  · simp at h

theorem mutexUnlock_condvars (h : k.mutexUnlock p id = some k') :
    CondvarEffect (fun _ _ => none) k k' := by
  obtain ⟨old, new, here, rfl | ⟨w, rfl⟩⟩ := mutexUnlock_cases h
  · exact .setMutex here new
  · exact (CondvarEffect.setMutex here new).then_same (.wakeupTask w)

theorem condvarSignal_condvars (h : k.condvarSignal p id = some k') :
    CondvarEffect (callAt p id .signal) k k' := by
  unfold condvarSignal at h
  obtain ⟨condvar, found, rfl⟩ := Option.map_eq_some_iff.mp h
  have here : k.condvarAt p id = some condvar := found
  have signaled := CondvarEffect.setCondvar here .signal
  obtain ⟨queue⟩ := condvar
  cases queue with
  | nil => exact .sameCondvar here rfl
  | cons task waitQueue => exact signaled.then_same (.wakeupTask task)

/-- `Mutex::unlock` leaves the condition variables as they are and adds no mutex. -/
theorem mutexUnlock_objects (h : k.mutexUnlock p id = some k') : k'.nextProc = k.nextProc ∧
    (∀ q, (k'.procs q).dropped = (k.procs q).dropped) ∧
    (∀ q j, k.mutexAt q j = none → k'.mutexAt q j = none) ∧
    ∀ q j, k'.condvarAt q j = k.condvarAt q j := by
  have set : ∀ old new, k.mutexAt p id = some old → ∀ q,
      ((k.setMutex p id new).procs q).dropped = (k.procs q).dropped ∧
      (∀ j, k.mutexAt q j = none → (k.setMutex p id new).mutexAt q j = none) ∧
      ∀ j, (k.setMutex p id new).condvarAt q j = k.condvarAt q j := by
    intro old new here q
    refine ⟨?_, fun j absent => ?_, fun j => ?_⟩
    · simp only [setMutex, setProc_procs]
      split <;> rfl
    · rw [mutexAt_setMutex here]
      split
      · next same =>
        obtain ⟨rfl, rfl⟩ := same
        rw [here] at absent
        simp at absent
      · exact absent
    · simp only [condvarAt, setMutex, setProc_procs]
      split <;> rfl
  obtain ⟨old, new, here, rfl | ⟨w, rfl⟩⟩ := mutexUnlock_cases h
  · exact ⟨rfl, fun q => (set old new here q).1, fun q => (set old new here q).2.1,
      fun q => (set old new here q).2.2⟩
  · exact ⟨rfl, fun q => (set old new here q).1, fun q => (set old new here q).2.1,
      fun q => (set old new here q).2.2⟩

/-- `Condvar::wait` puts the thread into the queue and goes on with `Mutex::lock`. -/
theorem condvarWait_condvars {condvarId mutexId : Nat} (current : k.current = some a)
    (h : k.condvarWait p condvarId mutexId processes = some path) :
    CondvarEffect (callAt p condvarId (.wait a)) k path.kernel ∧ ∃ last, path = .away last ∧
      last.current = none ∧ (last.tasks a).frame.resume = .lock mutexId := by
  unfold condvarWait at h
  obtain ⟨condvar, found, h⟩ := Option.bind_eq_some_iff.mp h
  have here : k.condvarAt p condvarId = some condvar := found
  obtain ⟨unlocked, unlock, h⟩ := Option.bind_eq_some_iff.mp h
  obtain ⟨nextProc, dropped, mutexes, condvars⟩ := mutexUnlock_objects unlock
  have still : unlocked.current = some a := by
    obtain ⟨old, new, -, rfl | ⟨w, rfl⟩⟩ := mutexUnlock_cases unlock
    · exact current
    · exact current
  have here₁ : unlocked.condvarAt p condvarId = some condvar := by rw [condvars, here]
  have waits := CondvarEffect.setCondvar here₁ (.wait a)
  simp only [still, Option.bind_some] at h
  have still' : (unlocked.setCondvar p condvarId ⟨condvar.waitQueue ++ [a]⟩).current =
      some a := still
  rw [blockCurrentAndRunNext_eq still', Option.map_some, Option.some.injEq] at h
  subst h
  refine ⟨?_, _, rfl, rfl, ?_⟩
  · exact (waits.then_same .leave).after_same nextProc dropped mutexes condvars
  · simp [leave]

theorem semaphoreUp_lists (h : k.semaphoreUp p id = some k') : SameLists k k' := by
  unfold semaphoreUp at h
  obtain ⟨sem, found, rfl⟩ := Option.map_eq_some_iff.mp h
  have set : ∀ new, SameLists k (k.setSemaphore p id new) := fun new => .setProc rfl rfl rfl
  by_cases waits : sem.count + 1 ≤ 0
  · rw [if_pos waits]
    cases sem.waitQueue with
    | nil => exact set _
    | cons task waitQueue => exact (set _).trans (.wakeupTask task)
  · rw [if_neg waits]
    exact set _

theorem semaphoreDown_lists (current : k.current = some a)
    (h : k.semaphoreDown p id processes = some path) : SameLists k path.kernel := by
  unfold semaphoreDown at h
  obtain ⟨sem, found, h⟩ := Option.bind_eq_some_iff.mp h
  have set : ∀ new, SameLists k (k.setSemaphore p id new) := fun new => .setProc rfl rfl rfl
  split at h
  · simp only [current, Option.bind_some] at h
    obtain ⟨waitQueue, pushed, h⟩ := Option.bind_eq_some_iff.mp h
    have still : (k.setSemaphore p id ⟨sem.count - 1, waitQueue⟩).current = some a := current
    rw [blockCurrentAndRunNext_eq still, Option.map_some, Option.some.injEq] at h
    subst h
    exact (set _).trans .leave
  · rw [Option.some.injEq] at h
    subst h
    exact set _

theorem addSignal_lists (flags : UInt32) : SameLists k (k.addSignal p flags) := .setProc rfl rfl rfl

/-- The system calls that create no mutex or condition variable and call none. -/
theorem syscall_lists (current : k.current = some a) (own : (k.tasks a).process < k.nextProc)
    (h : k.syscall call = some path) (plain : call.IsPlain)
    (noMutex : ∀ blocking, call ≠ .mutexCreate blocking) (noCondvar : call ≠ .condvarCreate) :
    SameLists k path.kernel := by
  cases call with
  | exit exitCode =>
      obtain ⟨last, exited, rfl⟩ := Option.map_eq_some_iff.mp h
      exact .exit current exited
  | yield =>
      simp only [syscall, suspendCurrentAndRunNext_eq current, Option.map_some,
        Option.some.injEq] at h
      subst h
      exact .suspend
  | sleep now ms =>
      obtain ⟨task, isCurrent, h⟩ := Option.bind_eq_some_iff.mp h
      cases current.symm.trans isCurrent
      have timed : (k.addTimer (now + ms) a).current = some a := current
      rw [blockCurrentAndRunNext_eq timed, Option.map_some, Option.some.injEq] at h
      subst h
      exact .of_procs rfl rfl
  | kill pid signal =>
      simp only [syscall, sysKill] at h
      split at h
      · rw [Option.some.injEq] at h
        subst h
        exact addSignal_lists signal
      · rw [Option.some.injEq] at h
        subst h
        exact .refl k
  | fork =>
      obtain ⟨pid, last, done, rfl⟩ := sysFork_eq current h
      exact .forked own done
  | exec found =>
      obtain ⟨process, -, h⟩ := Option.bind_eq_some_iff.mp h
      split at h
      · split at h
        · rw [Option.some.injEq] at h
          subst h
          exact .refl k
        · simp at h
      · rw [Option.some.injEq] at h
        subst h
        exact .refl k
  | waitpid pid =>
      rcases sysWaitpid_eq current h with ⟨value, rfl⟩ | ⟨i, child, allocator, -, -, -, rfl⟩
      · exact .refl k
      · exact .reaped
  | threadCreate =>
      obtain ⟨tid, allocator, -, -, rfl⟩ := sysThreadCreate_eq current h
      exact .spawned
  | waittid tid =>
      rcases sysWaittid_eq current h with ⟨value, rfl⟩ | ⟨u, exitCode, -, -, rfl⟩
      · exact .refl k
      · have noted : SameLists k
            { k with history := .waited (k.tasks a).process tid :: k.history } := .of_procs rfl rfl
        exact noted.trans (.setProc (p := (k.tasks a).process)
          (f := fun pcb => { pcb with tasks := pcb.tasks.set tid none }) rfl rfl rfl)
  | semaphoreCreate resCount =>
      obtain ⟨process, -, rfl⟩ := Option.map_eq_some_iff.mp h
      exact SameLists.setProc (f := fun pcb => { pcb with semaphoreList :=
        (allocSlot (k.procs process).semaphoreList ⟨resCount.toInt64, []⟩).1 }) rfl rfl rfl
  | file ready =>
      obtain ⟨process, -, h⟩ := Option.bind_eq_some_iff.mp h
      split at h
      · rw [Option.some.injEq] at h
        subst h
        exact .refl k
      · rw [suspendCurrentAndRunNext_eq current, Option.map_some, Option.some.injEq] at h
        subst h
        exact .suspend
  | quiet =>
      simp only [syscall, Option.some.injEq] at h
      subst h
      exact .refl k
  | mutexCreate blocking => exact absurd rfl (noMutex blocking)
  | condvarCreate => exact absurd rfl noCondvar
  | mutexLock mutexId => exact plain.elim
  | mutexUnlock mutexId => exact plain.elim
  | semaphoreUp semId => exact plain.elim
  | semaphoreDown semId => exact plain.elim
  | condvarSignal condvarId => exact plain.elim
  | condvarWait condvarId mutexId => exact plain.elim

/-- The code makes the calls of the event. -/
theorem condvars_of_calls (effect : CondvarEffect calls k k')
    (same : ∀ q j, k.condvarCall event q j = calls q j) :
    CondvarEffect (k.condvarCall event) k k' := by
  rw [show k.condvarCall event = calls from funext fun q => funext (same q)]
  exact effect

theorem condvars_of_silent (effect : CondvarEffect (fun _ _ => none) k k')
    (silent : ∀ q j, k.condvarCall event q j = none) : CondvarEffect (k.condvarCall event) k k' :=
  condvars_of_calls effect silent

theorem syscall_condvars (current : k.current = some a) (own : (k.tasks a).process < k.nextProc)
    (h : k.syscall call = some path) :
    CondvarEffect (k.condvarCall (.syscall call)) k path.kernel := by
  have silent : CondvarEffect (fun _ _ => none) k path.kernel →
      (∀ q j, k.condvarCall (.syscall call) q j = none) →
      CondvarEffect (k.condvarCall (.syscall call)) k path.kernel := condvars_of_calls
  cases call with
  | mutexLock mutexId =>
      refine silent (mutexLock_condvars current (currentProcess_bind current h)) ?_
      intro q j
      simp only [condvarCall, current]
  | mutexUnlock mutexId =>
      obtain ⟨last, unlocked, rfl⟩ := Option.map_eq_some_iff.mp (currentProcess_bind current h)
      refine silent (mutexUnlock_condvars unlocked) ?_
      intro q j
      simp only [condvarCall, current]
  | semaphoreUp semId =>
      obtain ⟨last, upped, rfl⟩ := Option.map_eq_some_iff.mp (currentProcess_bind current h)
      refine silent (.of_same (semaphoreUp_lists upped)) ?_
      intro q j
      simp only [condvarCall, current]
  | semaphoreDown semId =>
      refine silent (.of_same (semaphoreDown_lists current (currentProcess_bind current h))) ?_
      intro q j
      simp only [condvarCall, current]
  | condvarSignal condvarId =>
      obtain ⟨last, signaled, rfl⟩ := Option.map_eq_some_iff.mp (currentProcess_bind current h)
      refine condvars_of_calls (condvarSignal_condvars signaled) ?_
      intro q j
      simp only [condvarCall, current, callAt]
  | condvarWait condvarId mutexId =>
      refine condvars_of_calls (condvarWait_condvars current (currentProcess_bind current h)).1 ?_
      intro q j
      simp only [condvarCall, current, callAt]
  | mutexCreate blocking =>
      obtain ⟨process, -, rfl⟩ := Option.map_eq_some_iff.mp h
      refine silent (.createMutex blocking) ?_
      intro q j
      simp only [condvarCall, current]
  | condvarCreate =>
      obtain ⟨process, -, rfl⟩ := Option.map_eq_some_iff.mp h
      refine silent .createCondvar ?_
      intro q j
      simp only [condvarCall, current]
  | _ =>
      -- the calls without an object
      refine silent (.of_same (syscall_lists current own h trivial (by simp) (by simp))) ?_
      intro q j
      simp only [condvarCall, current]

theorem afterPath_lists (current : ∀ last value, path = .done last value → last.current = some a)
    (h : afterPath path = some k') : SameLists path.kernel k' := by
  cases path with
  | done last value => exact .trapEnd (current last value rfl) h
  | away last =>
      simp only [afterPath, Option.some.injEq] at h
      exact h ▸ .refl last

theorem resume_condvars {frame : Frame} {ready : Bool} (current : k.current = some a)
    (own : ∀ q ∈ frame.processes, q = (k.tasks a).process)
    (h : k.resume (k.tasks a).process frame ready = some k') :
    CondvarEffect (fun _ _ => none) k k' := by
  unfold resume at h
  cases resume : frame.resume with
  | trapReturn =>
      simp only [resume, Option.some.injEq] at h
      exact h ▸ .of_same (.refl k)
  | trapEnd =>
      simp only [resume] at h
      exact .of_same (.trapEnd current h)
  | lock mutexId =>
      simp only [resume] at h
      obtain ⟨path, locked, h⟩ := Option.bind_eq_some_iff.mp h
      refine (mutexLock_condvars current locked).then_same (@afterPath_lists _ a _ ?_ h)
      have by_a : path.By a True k := mutexLock_by current own locked
      exact by_a.done_current
  | file =>
      simp only [resume] at h
      split at h
      · exact .of_same (.trapEnd current h)
      · rw [suspendCurrentAndRunNext_eq current, Option.some.injEq] at h
        exact h ▸ .of_same .suspend

/-- The calls on condition variables of a step are those of its event. -/
theorem step_condvars (inv : Inv k) (frames : FramesOwn k) (h : k.step event = some k') :
    CondvarEffect (k.condvarCall event) k k' := by
  unfold step at h
  split at h
  · next ready idle =>
    refine condvars_of_silent ?_ fun q j => by simp only [condvarCall, idle]
    unfold runTasks at h
    split at h
    · rw [Option.some.injEq] at h
      subst h
      exact .of_same (.refl k)
    · next task readyQueue queue =>
      have resumed : (({ k with readyQueue := readyQueue, current := some task } :
          Kernel).setTask task fun tcb =>
            { tcb with taskStatus := .running, frame := ⟨.trapReturn, []⟩ }).current =
              some task := rfl
      have effect := @resume_condvars _ k' task (k.tasks task).frame ready resumed
        (by simpa using frames task) (by simpa using h)
      refine CondvarEffect.after_same ?_ ?_ ?_ ?_ effect
      · rfl
      · exact fun _ => rfl
      · exact fun _ _ absent => absent
      · exact fun _ _ => rfl
  · next task call isCurrent =>
    obtain ⟨path, called, h⟩ := Option.bind_eq_some_iff.mp h
    have effect := syscall_condvars isCurrent (inv.current_process isCurrent).1 called
    refine effect.then_same (@afterPath_lists _ task _ ?_ h)
    have by_task : path.By task True k := syscall_by isCurrent (fun _ => trivial) called
    exact by_task.done_current
  · next task now due isCurrent =>
    refine condvars_of_silent ?_ fun q j => by
      simp only [condvarCall, isCurrent]
    obtain ⟨woken, checked, h⟩ := Option.bind_eq_some_iff.mp h
    obtain ⟨-, still⟩ : Moves task True k woken ∧ _ := checkTimer_moves isCurrent checked
    rw [suspendCurrentAndRunNext_eq still, Option.some.injEq] at h
    subst h
    exact .of_same ((SameLists.checkTimer checked).trans .suspend)
  · next task isCurrent =>
    refine condvars_of_silent ?_ fun q j => by
      simp only [condvarCall, isCurrent]
    obtain ⟨process, -, h⟩ := Option.bind_eq_some_iff.mp h
    exact .of_same ((addSignal_lists sigSegv).trans (.trapEnd isCurrent h))
  · next task isCurrent =>
    refine condvars_of_silent ?_ fun q j => by
      simp only [condvarCall, isCurrent]
    obtain ⟨process, -, h⟩ := Option.bind_eq_some_iff.mp h
    exact .of_same ((addSignal_lists sigIll).trans (.trapEnd isCurrent h))
  · simp at h

/-- A thread that `Condvar::wait` blocks goes on with `Mutex::lock`. -/
theorem step_condvarWait {condvarId mutexId : Nat} (current : k.current = some a)
    (h : k.step (.syscall (.condvarWait condvarId mutexId)) = some k') :
    k'.current = none ∧ (k'.tasks a).frame.resume = .lock mutexId := by
  simp only [step, current] at h
  obtain ⟨path, called, h⟩ := Option.bind_eq_some_iff.mp h
  obtain ⟨process, -, called⟩ := Option.bind_eq_some_iff.mp called
  obtain ⟨-, last, rfl, noCurrent, resume⟩ := condvarWait_condvars current called
  rw [afterPath, Option.some.injEq] at h
  exact h ▸ ⟨noCurrent, resume⟩

/-- A thread that `Mutex::lock` makes wait goes on behind it, or calls it again. -/
theorem mutexLock_waits {m : Mutex} (current : k.current = some a) (here : k.mutexAt p id = some m)
    (h : k.mutexLock p id processes = some path) :
    (∀ waitQueue, m = .blocking true waitQueue → ∃ last, path = .away last ∧
      last.current = none ∧ (last.tasks a).frame.resume = .trapEnd) ∧
    (m = .spin true → ∃ last, path = .away last ∧
      last.current = none ∧ (last.tasks a).frame.resume = .lock id) := by
  have found : ((k.procs p).mutexList[id]?.bind fun slot => slot) = some m := here
  rw [mutexLock, found, Option.bind_some] at h
  refine ⟨?_, ?_⟩
  · rintro waitQueue rfl
    have still : (k.setMutex p id (.blocking true (waitQueue ++ [a]))).current = some a := current
    simp only [current, Option.bind_some, blockCurrentAndRunNext_eq still, Option.map_some,
      Option.some.injEq] at h
    exact ⟨_, h.symm, rfl, by simp [leave]⟩
  · rintro rfl
    simp only [suspendCurrentAndRunNext_eq current, Option.map_some, Option.some.injEq] at h
    exact ⟨_, h.symm, rfl, by simp [leave]⟩

/-- The idle loop switches to a thread that goes on with `Mutex::lock`. -/
theorem step_lock {ready : Bool} {readyQueue : List TaskId} (idle : k.current = none)
    (queue : k.readyQueue = a :: readyQueue) (resume : (k.tasks a).frame.resume = .lock id)
    (h : k.step (.idle ready) = some k') : ∃ m, k.mutexAt (k.tasks a).process id = some m ∧
    (∀ waitQueue, m = .blocking true waitQueue →
      k'.current = none ∧ (k'.tasks a).frame.resume = .trapEnd) ∧
    (m = .spin true → k'.current = none ∧ (k'.tasks a).frame.resume = .lock id) := by
  simp only [step, idle, runTasks, queue, Kernel.resume, resume] at h
  obtain ⟨path, locked, h⟩ := Option.bind_eq_some_iff.mp h
  obtain ⟨m, found, -⟩ := Option.bind_eq_some_iff.mp locked
  have waits := fun current here => @mutexLock_waits _ a _ _ _ _ m current here locked
  obtain ⟨blocks, spins⟩ := waits rfl found
  refine ⟨m, found, ?_, ?_⟩
  · intro waitQueue isLocked
    obtain ⟨last, rfl, noCurrent, goesOn⟩ := blocks waitQueue isLocked
    rw [afterPath, Option.some.injEq] at h
    exact h ▸ ⟨noCurrent, goesOn⟩
  · intro isLocked
    obtain ⟨last, rfl, noCurrent, goesOn⟩ := spins isLocked
    rw [afterPath, Option.some.injEq] at h
    exact h ▸ ⟨noCurrent, goesOn⟩

end Kernel

/-! ## The other threads -/

/-- The threads other than `a` keep their process and what their kernel code goes on with, and none
of them gets the processor. -/
structure Others (a : TaskId) (k k' : Kernel) : Prop where
  nextTask : k.nextTask ≤ k'.nextTask
  process : ∀ t, t < k.nextTask → (k'.tasks t).process = (k.tasks t).process
  frame : ∀ t, t ≠ a → t < k.nextTask → (k'.tasks t).frame = (k.tasks t).frame
  current : ∀ t, k'.current = some t → t = a ∨ k.current = some t

namespace Others

theorem refl (k : Kernel) : Others a k k :=
  ⟨Nat.le_refl _, fun _ _ => rfl, fun _ _ _ => rfl, fun _ here => .inr here⟩

theorem trans (first : Others a k k₁) (second : Others a k₁ k') : Others a k k' := by
  refine ⟨Nat.le_trans first.nextTask second.nextTask, ?_, ?_, ?_⟩
  · intro t below
    rw [second.process t (Nat.lt_of_lt_of_le below first.nextTask), first.process t below]
  · intro t other below
    rw [second.frame t other (Nat.lt_of_lt_of_le below first.nextTask), first.frame t other below]
  · intro t here
    rcases second.current t here with isActing | here
    · exact .inl isActing
    · exact first.current t here

/-- No thread is created. -/
theorem of_tasks (nextTask : k'.nextTask = k.nextTask)
    (task : ∀ t, (k'.tasks t).process = (k.tasks t).process ∧
      (t ≠ a → (k'.tasks t).frame = (k.tasks t).frame))
    (current : ∀ t, k'.current = some t → t = a ∨ k.current = some t) : Others a k k' :=
  ⟨Nat.le_of_eq nextTask.symm, fun t _ => (task t).1, fun t other _ => (task t).2 other, current⟩

/-- One thread changes, and it keeps its process. -/
theorem of_update {t : TaskId} {new : Task} (nextTask : k'.nextTask = k.nextTask)
    (tasks : k'.tasks = Function.update k.tasks t new) (process : new.process = (k.tasks t).process)
    (frame : t ≠ a → new.frame = (k.tasks t).frame)
    (current : ∀ t, k'.current = some t → t = a ∨ k.current = some t) : Others a k k' := by
  refine of_tasks nextTask (fun u => ?_) current
  rw [tasks]
  by_cases same : u = t
  · subst same
    rw [Function.update_self]
    exact ⟨process, frame⟩
  · rw [Function.update_of_ne same]
    exact ⟨rfl, fun _ => rfl⟩

end Others

theorem Others.exited {tid : Nat} {exitCode : Int32} {allocator : RecycleAllocator} :
    Others a k (k.exited a tid exitCode allocator) := by
  refine .of_tasks rfl (fun t => ?_) fun t here => by simp [Kernel.exited] at here
  rw [Kernel.exited_tasks]
  split
  · exact ⟨rfl, fun _ => rfl⟩
  · exact ⟨rfl, fun _ => rfl⟩

/-- A move of the thread `a` leaves the others alone. -/
theorem Move.others (move : Move a spawns k k') : Others a k k' := by
  cases move with
  | quiet keeps waiters =>
      exact .of_tasks rfl (fun t => ⟨rfl, fun _ => rfl⟩) fun t here => .inr here
  | wake current keeps waiters =>
      exact .of_update rfl rfl rfl (fun _ => rfl) fun t here => .inr here
  | expire mem => exact .of_update rfl rfl rfl (fun _ => rfl) fun t here => .inr here
  | suspend current own =>
      exact .of_update rfl rfl rfl (fun other => absurd rfl other) fun t here => by
        simp [Kernel.leave] at here
  | block current own keeps waiters =>
      exact .of_update rfl rfl rfl (fun other => absurd rfl other) fun t here => by
        simp [Kernel.leave] at here
  | sleep current =>
      exact .of_update rfl rfl rfl (fun other => absurd rfl other) fun t here => by
        simp [Kernel.leave] at here
  | dispatch current ready =>
      refine .of_update rfl rfl rfl (fun other => absurd rfl other) fun t here => ?_
      simp only [Kernel.setTask_current, Option.some.injEq] at here
      exact .inl here.symm
  | spawn may current alloc =>
      have old : ∀ t, t < k.nextTask → ∀ tid allocator,
          (k.spawned a tid allocator).tasks t = k.tasks t := by
        intro t below tid allocator
        simp only [Kernel.spawned, Kernel.setProc_tasks, Kernel.addTask_tasks, Kernel.setTask_tasks,
          if_neg (Nat.ne_of_lt below)]
      exact ⟨Nat.le_succ _, fun t below => by rw [old t below],
        fun t _ below => by rw [old t below], fun t here => .inr here⟩
  | collect current slot exited =>
      exact .of_tasks rfl (fun t => ⟨rfl, fun _ => rfl⟩) fun t here => .inr here
  | fork current done =>
      have old : ∀ t, t < k.nextTask → k'.tasks t = k.tasks t :=
        fun t below => done.task t (Nat.ne_of_lt below)
      exact ⟨by rw [done.nextTask]; exact Nat.le_succ _, fun t below => by rw [old t below],
        fun t _ below => by rw [old t below], fun t here => .inr (by rwa [← done.current])⟩
  | reap current found zombie dealloc =>
      exact .of_tasks rfl (fun t => ⟨rfl, fun _ => rfl⟩) fun t here => .inr here
  | exit current res notMain dealloc => exact .exited
  | terminate current res isMain dealloc done =>
      refine Others.exited.trans (.of_tasks done.nextTask (fun t => ?_) fun t here => .inr ?_)
      · rw [done.task]
        exact ⟨rfl, fun _ => rfl⟩
      · rwa [← done.current]

theorem Moves.others (moves : Moves a spawns k k') : Others a k k' := by
  induction moves with
  | refl => exact .refl k
  | tail _ move ih => exact ih.trans move.others

/-- A step leaves the threads alone that do not act in it. -/
theorem Kernel.step_others {event : Event} (frames : FramesOwn k) (h : k.step event = some k') :
    k' = k ∨ ∃ a, k.acting = some a ∧ Others a k k' := by
  rcases step_moves frames h with same | ⟨a, acts, moves⟩
  · exact .inl same
  · exact .inr ⟨a, acts, moves.others⟩

end CoreFromDust.Os
