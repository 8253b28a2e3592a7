import CoreFromDust.User.MutualExclusion
import Mathlib.Algebra.Order.BigOperators.Group.Finset
import Mathlib.Data.Finset.Max

/-!
# Barriers

Embedding of `Barrier` and `thread_fn` of `user/src/bin/barrier_condvar.rs`, for any number of
threads, letters and barriers: the barrier with the number `b` is between the letters with the
numbers `b` and `b + 1`. A turn of a thread is one access to the count, one system call or one
`print!`; a call of `condvar_wait` that has been woken goes on with the lock of the mutex.
-/

namespace CoreFromDust.User.Barriers

open CoreFromDust.Lib CoreFromDust.Os

/-- `Barrier`, with the objects that its indices stand for. -/
structure Barrier where
  mutex : Mutex
  condvar : Condvar
  count : Nat

/-- The barriers and the output. -/
structure Shared where
  barrier : Nat → Barrier
  printed : List Char

/-- The letter of a phase: `a`, `b`, `c`. -/
def letter (phase : Nat) : Char := Char.ofNat ('a'.toNat + phase)

/-- Where a thread is in `thread_fn`: it has printed so many letters of its phase, or is in
`Barrier::block`. -/
inductive Pc where
  | print (letters : Nat)
  | lock (place : MutexEnter)
  /-- it loads the count to add one -/
  | load
  | store (count : Nat)
  /-- it compares the count with `THREAD_NUM` -/
  | compare
  | signal
  /-- it calls `condvar_wait` -/
  | wait
  /-- it has been blocked in `condvar_wait` -/
  | queued
  /-- it locks the mutex in `condvar_wait` -/
  | relock (place : MutexEnter)
  | unlock
  | done
  /-- an assertion in `unlock` of the mutex has failed -/
  | panicked
  deriving DecidableEq, Repr

/-- A thread; its phase is the number of barriers that it has left behind. -/
structure Worker where
  phase : Nat
  pc : Pc
  deriving DecidableEq, Repr

/-- What the threads do: the number of letters of each phase, and of barriers. -/
structure Plan where
  letters : Nat
  barriers : Nat

/-- Change a barrier. -/
def Shared.set (s : Shared) (b : Nat) (barrier : Barrier) : Shared :=
  { s with barrier := Function.update s.barrier b barrier }

variable {n : Nat} {plan : Plan}

/-- The next turn of a thread of `thread_fn`. -/
def step (plan : Plan) (i : Fin n) (s : Shared) (t : Worker) : Option (Shared × Worker) :=
  let barrier := s.barrier t.phase
  match t.pc with
  | .print letters => some (if letters < plan.letters then
      ({ s with printed := s.printed ++ [letter t.phase] }, ⟨t.phase, .print (letters + 1)⟩)
      else (s, ⟨t.phase, if t.phase < plan.barriers then .lock .call else .done⟩))
  | .lock place => ((kernelMutex n).lockStep i barrier.mutex place).map fun (mutex, next) =>
      (s.set t.phase { barrier with mutex }, ⟨t.phase, match next with
        | some place => .lock place
        | none => .load⟩)
  | .load => some (s, ⟨t.phase, .store barrier.count⟩)
  | .store count => some (s.set t.phase { barrier with count := count + 1 }, ⟨t.phase, .compare⟩)
  | .compare => some (s, ⟨t.phase, if barrier.count = n then .signal else .wait⟩)
  | .signal => some (s.set t.phase { barrier with condvar := barrier.condvar.after .signal },
      ⟨t.phase, .unlock⟩)
  | .wait => match (kernelMutex n).unlockStep i barrier.mutex () with
      | none => some (s, ⟨t.phase, .panicked⟩)
      | some (mutex, _) => some (s.set t.phase { barrier with
          mutex, condvar := barrier.condvar.after (.wait i) }, ⟨t.phase, .queued⟩)
  | .queued =>
      if i.val ∈ barrier.condvar.waitQueue then none else some (s, ⟨t.phase, .relock .call⟩)
  | .relock place => ((kernelMutex n).lockStep i barrier.mutex place).map fun (mutex, next) =>
      (s.set t.phase { barrier with mutex }, ⟨t.phase, match next with
        | some place => .relock place
        | none => .signal⟩)
  | .unlock => match (kernelMutex n).unlockStep i barrier.mutex () with
      | none => some (s, ⟨t.phase, .panicked⟩)
      | some (mutex, _) => some (s.set t.phase { barrier with mutex }, ⟨t.phase + 1, .print 0⟩)
  | .done => none
  | .panicked => none

/-- The threads of `barrier_condvar.rs`. -/
def threads (n : Nat) (plan : Plan) : Threads (Fin n) Shared Worker := ⟨step plan⟩

/-- The barriers are new and nothing has been printed. `mutex_create` creates spin mutexes. -/
def start (n : Nat) : World (Fin n) Shared Worker where
  shared := ⟨fun _ => ⟨.spin false, ⟨[]⟩, 0⟩, []⟩
  locals _ := ⟨0, .print 0⟩

/-! ## One barrier -/

/-- The phase of a thread with respect to the mutex of the barrier that it is in. -/
def Pc.ofMutex : Pc → Phase MutexEnter Unit
  | .lock place | .relock place => .locking place
  | .load | .store _ | .compare | .signal => .holding
  | .wait | .unlock => .unlocking ()
  | _ => .locking .call

/-- The phase of a thread with respect to the mutex of a barrier. -/
def Worker.phaseAt (b : Nat) (t : Worker) : Phase MutexEnter Unit :=
  if t.phase = b then t.pc.ofMutex else .locking .call

theorem phaseAt_here (b : Nat) (pc : Pc) : (⟨b, pc⟩ : Worker).phaseAt b = pc.ofMutex := if_pos rfl

/-- The thread has added itself to the count of the barrier that it is in. -/
def Pc.counted : Pc → Bool
  | .compare | .signal | .wait | .queued | .relock _ | .unlock => true
  | _ => false

/-- The thread has added itself to the count of a barrier. -/
def Worker.Arrived (b : Nat) (t : Worker) : Prop :=
  b < t.phase ∨ (t.phase = b ∧ t.pc.counted = true)

instance (b : Nat) : DecidablePred (Worker.Arrived b) :=
  fun _ => inferInstanceAs (Decidable (_ ∨ _))

/-- The thread is on its way to `condvar_signal`. -/
def Worker.Carries (queue : List TaskId) (b i : Nat) (t : Worker) : Prop :=
  t.phase = b ∧ match t.pc with
    | .compare | .signal | .relock _ => True
    | .queued => i ∉ queue
    | _ => False

/-- A barrier and the threads. When all threads have arrived, those that are still in the queue have
somebody who will wake the next one of them. -/
structure Ok (n b : Nat) (barrier : Barrier) (locals : Fin n → Worker) : Prop where
  mutex : (KernelMutex.lively n false).inv barrier.mutex fun i => (locals i).phaseAt b
  count : barrier.count = (Finset.univ.filter fun i => (locals i).Arrived b).card
  stores : ∀ i count, locals i = ⟨b, .store count⟩ → count = barrier.count
  queue : ∀ t ∈ barrier.condvar.waitQueue, ∃ i : Fin n, i.val = t ∧ locals i = ⟨b, .queued⟩
  nodup : barrier.condvar.waitQueue.Nodup
  early : ∀ i, (locals i).Arrived b → barrier.count = n ∨ locals i = ⟨b, .compare⟩ ∨
    locals i = ⟨b, .wait⟩ ∨ (locals i = ⟨b, .queued⟩ ∧ i.val ∈ barrier.condvar.waitQueue)
  waits : ∀ i, locals i = ⟨b, .wait⟩ → barrier.count ≠ n
  carried : barrier.count = n → barrier.condvar.waitQueue ≠ [] →
    ∃ i, (locals i).Carries barrier.condvar.waitQueue b i

section Turns

variable {b : Nat} {barrier : Barrier} {locals : Fin n → Worker} {i : Fin n} {t : Worker}

theorem phaseAt_update (b : Nat) (locals : Fin n → Worker) (i : Fin n) (t : Worker) :
    (fun j => (Function.update locals i t j).phaseAt b) =
      Function.update (fun j => (locals j).phaseAt b) i (t.phaseAt b) :=
  Function.comp_update (Worker.phaseAt b) locals i t

/-- What is said of the threads that are somewhere. -/
theorem update_at {place : Worker} (property : Fin n → Prop) (mine : t = place → property i)
    (others : ∀ j, j ≠ i → locals j = place → property j) (j : Fin n)
    (here : Function.update locals i t j = place) : property j := by
  by_cases same : j = i
  · subst same
    rw [Function.update_self] at here
    exact mine here
  · rw [Function.update_of_ne same] at here
    exact others j same here

/-- A thread that is not blocked in `condvar_wait` is not in the queue. -/
theorem Ok.absent (ok : Ok n b barrier locals) (notQueued : locals i ≠ ⟨b, .queued⟩) :
    i.val ∉ barrier.condvar.waitQueue := by
  intro mem
  obtain ⟨j, same, queued⟩ := ok.queue _ mem
  rw [Fin.ext same] at queued
  exact notQueued queued

/-- The threads of the queue are still where they were. -/
theorem Ok.queued_update (ok : Ok n b barrier locals) (absent : i.val ∉ barrier.condvar.waitQueue)
    {task : TaskId} (mem : task ∈ barrier.condvar.waitQueue) :
    ∃ j : Fin n, j.val = task ∧ Function.update locals i t j = ⟨b, .queued⟩ := by
  obtain ⟨j, rfl, queued⟩ := ok.queue task mem
  have differ : j ≠ i := by
    rintro rfl
    exact absent mem
  exact ⟨j, rfl, by rwa [Function.update_of_ne differ]⟩

/-- A thread that wakes another one after its turn, if it did so before. -/
theorem carries_update {queue : List TaskId}
    (carries : (locals i).Carries queue b i → t.Carries queue b i)
    (some : ∃ j, (locals j).Carries queue b j) :
    ∃ j, (Function.update locals i t j).Carries queue b j := by
  obtain ⟨j, carrier⟩ := some
  refine ⟨j, ?_⟩
  by_cases same : j = i
  · subst same
    rw [Function.update_self]
    exact carries carrier
  · rwa [Function.update_of_ne same]

theorem arrived_update (arrived : t.Arrived b ↔ (locals i).Arrived b) (j : Fin n) :
    (Function.update locals i t j).Arrived b ↔ (locals j).Arrived b := by
  by_cases same : j = i
  · subst same
    rwa [Function.update_self]
  · rw [Function.update_of_ne same]

/-- A turn that changes neither the count nor the queue. -/
theorem Ok.change (ok : Ok n b barrier locals) (mutex : Mutex)
    (inv : (KernelMutex.lively n false).inv mutex
      (Function.update (fun j => (locals j).phaseAt b) i (t.phaseAt b)))
    (absent : i.val ∉ barrier.condvar.waitQueue) (arrived : t.Arrived b ↔ (locals i).Arrived b)
    (stores : ∀ count, t = ⟨b, .store count⟩ → count = barrier.count)
    (early : t.Arrived b → barrier.count = n ∨ t = ⟨b, .compare⟩ ∨ t = ⟨b, .wait⟩)
    (waits : t = ⟨b, .wait⟩ → barrier.count ≠ n)
    (carries : barrier.count = n → (locals i).Carries barrier.condvar.waitQueue b i →
      t.Carries barrier.condvar.waitQueue b i) :
    Ok n b { barrier with mutex } (Function.update locals i t) where
  mutex := by rwa [phaseAt_update]
  count := by simpa only [arrived_update arrived] using ok.count
  stores j count here :=
    update_at (fun _ => count = barrier.count) (stores count)
      (fun j _ => ok.stores j count) j here
  queue _ mem := ok.queued_update absent mem
  nodup := ok.nodup
  early := by
    intro j has
    by_cases same : j = i
    · subst same
      rw [Function.update_self] at has ⊢
      rcases early has with all | compare | wait
      · exact .inl all
      · exact .inr (.inl compare)
      · exact .inr (.inr (.inl wait))
    · rw [Function.update_of_ne same] at has ⊢
      exact ok.early j has
  waits j here := update_at (fun _ => barrier.count ≠ n) waits
    (fun j _ => ok.waits j) j here
  carried all waiting := carries_update (carries all) (ok.carried all waiting)

/-- A turn that has nothing to do with the barrier. -/
theorem Ok.elsewhere (ok : Ok n b barrier locals) (was : (locals i).phase ≠ b)
    (is : t.phase ≠ b ∨ t = ⟨b, .print 0⟩) (arrived : t.Arrived b ↔ (locals i).Arrived b) :
    Ok n b barrier (Function.update locals i t) := by
  have wasNot : ∀ pc, locals i ≠ ⟨b, pc⟩ := fun pc here => was (congrArg Worker.phase here)
  have isNot : ∀ pc, pc ≠ .print 0 → t ≠ ⟨b, pc⟩ := by
    rintro pc other rfl
    rcases is with differ | same
    · exact differ rfl
    · exact other (congrArg Worker.pc same)
  have away : t.phaseAt b = .locking .call := by
    rcases is with differ | rfl
    · exact if_neg differ
    · exact if_pos rfl
  refine ok.change barrier.mutex ?_ (ok.absent (wasNot _)) arrived ?_ ?_ ?_ ?_
  · have still : t.phaseAt b = (locals i).phaseAt b := by rw [away, Worker.phaseAt, if_neg was]
    rw [still, Function.update_eq_self]
    exact ok.mutex
  · exact fun count here => absurd here (isNot _ (by simp))
  · intro has
    rcases ok.early i (arrived.mp has) with all | compare | wait | ⟨queued, -⟩
    · exact .inl all
    · exact absurd compare (wasNot _)
    · exact absurd wait (wasNot _)
    · exact absurd queued (wasNot _)
  · exact fun here => absurd here (isNot _ (by simp))
  · exact fun _ carries => absurd carries.1 was

/-- A turn at the barrier that leaves the mutex, the count and the queue alone. -/
theorem Ok.quiet (ok : Ok n b barrier locals) (absent : i.val ∉ barrier.condvar.waitQueue)
    (still : t.phaseAt b = (locals i).phaseAt b) (arrived : t.Arrived b ↔ (locals i).Arrived b)
    (stores : ∀ count, t = ⟨b, .store count⟩ → count = barrier.count)
    (early : t.Arrived b → barrier.count = n ∨ t = ⟨b, .compare⟩ ∨ t = ⟨b, .wait⟩)
    (waits : t = ⟨b, .wait⟩ → barrier.count ≠ n)
    (carries : barrier.count = n → (locals i).Carries barrier.condvar.waitQueue b i →
      t.Carries barrier.condvar.waitQueue b i) :
    Ok n b barrier (Function.update locals i t) := by
  refine ok.change barrier.mutex ?_ absent arrived stores early waits carries
  rw [still, Function.update_eq_self]
  exact ok.mutex

/-- A turn of a thread that has not arrived and does not with it. -/
theorem Ok.before (ok : Ok n b barrier locals) {pc pc' : Pc} (here : locals i = ⟨b, pc⟩)
    (was : pc.counted = false) (is : pc'.counted = false) (same : pc'.ofMutex = pc.ofMutex)
    (stores : ∀ count, pc' = .store count → count = barrier.count) :
    Ok n b barrier (Function.update locals i ⟨b, pc'⟩) := by
  have missing : ∀ pc : Pc, pc.counted = false → ¬ (⟨b, pc⟩ : Worker).Arrived b := by
    intro pc not
    simp [Worker.Arrived, not]
  have notQueued : locals i ≠ ⟨b, .queued⟩ := by
    rw [here]
    rintro eq
    rw [Worker.mk.injEq] at eq
    simp [eq.2, Pc.counted] at was
  refine ok.quiet (ok.absent notQueued) ?_ ?_ ?_ ?_ ?_ ?_
  · rw [here, phaseAt_here, phaseAt_here, same]
  · rw [here]
    exact iff_of_false (missing pc' is) (missing pc was)
  · intro count eq
    exact stores count (congrArg Worker.pc eq)
  · exact fun arrived => absurd arrived (missing pc' is)
  · intro eq
    have wait : pc' = .wait := congrArg Worker.pc eq
    simp [wait, Pc.counted] at is
  · intro _ carries
    rw [here] at carries
    cases pc with
    | compare => simp [Pc.counted] at was
    | signal => simp [Pc.counted] at was
    | relock place => simp [Pc.counted] at was
    | queued => simp [Pc.counted] at was
    | _ => exact absurd carries.2 id

/-- A thread that has not arrived is missing in the count. -/
theorem Ok.count_lt (ok : Ok n b barrier locals) (missing : ¬ (locals i).Arrived b) :
    barrier.count < n := by
  have less : (Finset.univ.filter fun i => (locals i).Arrived b).card < Fintype.card (Fin n) := by
    apply Finset.card_lt_univ_of_notMem (x := i)
    exact fun mem => missing (Finset.mem_filter.mp mem).2
  rwa [← ok.count, Fintype.card_fin] at less

/-- A thread that has arrived and is neither about to wait nor waiting. -/
theorem Ok.all (ok : Ok n b barrier locals) {pc : Pc} (here : locals i = ⟨b, pc⟩)
    (counted : pc.counted = true) (later : pc ≠ .compare ∧ pc ≠ .wait)
    (woken : pc = .queued → i.val ∉ barrier.condvar.waitQueue) : barrier.count = n := by
  have has : (locals i).Arrived b := by
    rw [here]
    exact .inr ⟨rfl, counted⟩
  rcases ok.early i has with all | compare | wait | ⟨queued, mem⟩
  · exact all
  · rw [here, Worker.mk.injEq] at compare
    exact absurd compare.2 later.1
  · rw [here, Worker.mk.injEq] at wait
    exact absurd wait.2 later.2
  · rw [here, Worker.mk.injEq] at queued
    exact absurd mem (woken queued.2)

/-- A thread at the mutex is the only one that has it. -/
theorem Ok.alone (ok : Ok n b barrier locals) {j : Fin n} {pc pc' : Pc} (here : locals i = ⟨b, pc⟩)
    (there : locals j = ⟨b, pc'⟩) (entered : pc.ofMutex.Entered) (entered' : pc'.ofMutex.Entered) :
    i = j := by
  have has : ∀ {k pc}, locals k = ⟨b, pc⟩ → pc.ofMutex.Entered →
      KernelMutex.Has barrier.mutex.waitQueue k ((locals k).phaseAt b) := by
    intro k pc at' isIn
    rw [at', phaseAt_here]
    cases phase : pc.ofMutex with
    | locking place =>
        rw [phase] at isIn
        exact absurd isIn id
    | holding => trivial
    | unlocking _ => trivial
  exact ok.mutex.1.one i j (has here entered) (has there entered')

/-- The count goes up. -/
theorem Ok.stored (ok : Ok n b barrier locals) {count : Nat} (here : locals i = ⟨b, .store count⟩) :
    Ok n b { barrier with count := count + 1 } (Function.update locals i ⟨b, .compare⟩) := by
  obtain rfl := ok.stores i count here
  have missing : ¬ (locals i).Arrived b := by
    rw [here]
    simp [Worker.Arrived, Pc.counted]
  have absent := ok.absent (i := i) (by simp [here])
  refine ⟨?_, ?_, ?_, ?_, ok.nodup, ?_, ?_, ?_⟩
  · have still : (⟨b, .compare⟩ : Worker).phaseAt b = (locals i).phaseAt b := by
      rw [here, phaseAt_here, phaseAt_here]
      rfl
    rw [phaseAt_update, still, Function.update_eq_self]
    exact ok.mutex
  · have insert : (Finset.univ.filter fun j =>
        (Function.update locals i ⟨b, .compare⟩ j).Arrived b) =
        insert i (Finset.univ.filter fun j => (locals j).Arrived b) := by
      ext j
      simp only [Finset.mem_filter, Finset.mem_univ, true_and, Finset.mem_insert]
      by_cases same : j = i
      · subst same
        simp [Worker.Arrived, Pc.counted]
      · rw [Function.update_of_ne same]
        exact ⟨.inr, fun has => has.resolve_left same⟩
    rw [insert, Finset.card_insert_of_notMem (by simpa using missing), ← ok.count]
  · refine fun j count' there => update_at (fun _ => count' = barrier.count + 1)
      (by simp) (fun j differ at' => ?_) j there
    exact absurd (ok.alone at' here trivial trivial) differ
  · exact fun task mem => ok.queued_update absent mem
  · intro j has
    by_cases same : j = i
    · subst same
      exact .inr (.inl (Function.update_self ..))
    · rw [Function.update_of_ne same] at has ⊢
      exact .inr ((ok.early j has).resolve_left (ok.count_lt missing).ne)
  · refine fun j there => update_at (fun _ => barrier.count + 1 ≠ n)
      (by simp) (fun j differ at' => ?_) j there
    exact absurd (ok.alone at' here trivial trivial) differ
  · refine fun _ _ => ⟨i, ?_⟩
    rw [Function.update_self]
    exact ⟨rfl, trivial⟩

/-- `condvar_signal`: whoever it wakes will call it too. -/
theorem Ok.signaled (ok : Ok n b barrier locals) (here : locals i = ⟨b, .signal⟩) :
    Ok n b { barrier with condvar := barrier.condvar.after .signal }
      (Function.update locals i ⟨b, .unlock⟩) := by
  have all := ok.all here rfl (by simp) (by simp)
  have absent := ok.absent (i := i) (by simp [here])
  have arrived : (⟨b, .unlock⟩ : Worker).Arrived b ↔ (locals i).Arrived b := by
    rw [here]
    simp [Worker.Arrived, Pc.counted]
  refine ⟨?_, ?_, ?_, ?_, ok.nodup.tail, fun _ _ => .inl all, ?_, ?_⟩
  · have holds : (locals i).phaseAt b = .holding := by rw [here, phaseAt_here]; rfl
    have leaves : (⟨b, .unlock⟩ : Worker).phaseAt b = .unlocking () := phaseAt_here ..
    rw [phaseAt_update, leaves]
    exact (KernelMutex.lively n false).leaves ok.mutex holds
  · simpa only [arrived_update arrived] using ok.count
  · exact fun j count there => update_at (fun _ => count = barrier.count) (by simp)
      (fun j _ => ok.stores j count) j there
  · exact fun task mem => ok.queued_update absent (List.mem_of_mem_tail mem)
  · exact fun j there => update_at (fun _ => barrier.count ≠ n) (by simp)
      (fun j _ => ok.waits j) j there
  · intro _ waiting
    have nodup := ok.nodup
    have queue := ok.queue
    cases first : barrier.condvar.waitQueue with
    | nil => simp [Condvar.after, first] at waiting
    | cons task rest =>
        rw [first] at nodup queue
        obtain ⟨j, rfl, queued⟩ := queue task List.mem_cons_self
        have differ : j ≠ i := by
          rintro rfl
          simp [here] at queued
        refine ⟨j, ?_⟩
        rw [Function.update_of_ne differ, queued]
        refine ⟨rfl, ?_⟩
        simpa [Condvar.after, first] using (List.nodup_cons.mp nodup).1

theorem unlock_returns {mutex mutex' : Mutex} {next : Option Unit}
    (steps : (kernelMutex n).unlockStep i mutex () = some (mutex', next)) : next = none := by
  simp only [kernelMutex] at steps
  split at steps
  · simp only [Option.some.injEq, Prod.mk.injEq] at steps
    exact steps.2.symm
  · simp only [Option.some.injEq, Prod.mk.injEq] at steps
    exact steps.2.symm
  · simp at steps

/-- `condvar_wait`, up to where it blocks the thread. -/
theorem Ok.waited (ok : Ok n b barrier locals) (here : locals i = ⟨b, .wait⟩) {mutex : Mutex}
    {next : Option Unit}
    (steps : (kernelMutex n).unlockStep i barrier.mutex () = some (mutex, next)) :
    Ok n b { barrier with mutex, condvar := barrier.condvar.after (.wait i) }
      (Function.update locals i ⟨b, .queued⟩) := by
  obtain rfl := unlock_returns steps
  have notAll := ok.waits i here
  have absent := ok.absent (i := i) (by simp [here])
  have arrived : (⟨b, .queued⟩ : Worker).Arrived b ↔ (locals i).Arrived b := by
    rw [here]
    simp [Worker.Arrived, Pc.counted]
  refine ⟨?_, ?_, ?_, ?_, ?_, ?_, ?_, fun all => absurd all notAll⟩
  · have leaving : (locals i).phaseAt b = .unlocking () := by rw [here, phaseAt_here]; rfl
    have away : (⟨b, .queued⟩ : Worker).phaseAt b = .locking .call := phaseAt_here ..
    rw [phaseAt_update, away]
    exact (KernelMutex.lively n false).unlocks ok.mutex leaving steps
  · simpa only [arrived_update arrived] using ok.count
  · exact fun j count there => update_at (fun _ => count = barrier.count) (by simp)
      (fun j _ => ok.stores j count) j there
  · intro task mem
    rcases List.mem_append.mp mem with old | last
    · exact ok.queued_update absent old
    · exact ⟨i, (List.mem_singleton.mp last).symm, Function.update_self ..⟩
  · refine List.nodup_append.mpr ⟨ok.nodup, List.nodup_singleton _, ?_⟩
    rintro task mem task' last rfl
    rw [List.mem_singleton.mp last] at mem
    exact absent mem
  · intro j has
    by_cases same : j = i
    · subst same
      exact .inr (.inr (.inr ⟨Function.update_self .., List.mem_append_right _ List.mem_cons_self⟩))
    · rw [Function.update_of_ne same] at has ⊢
      rcases ok.early j has with all | compare | wait | ⟨queued, mem⟩
      · exact absurd all notAll
      · exact .inr (.inl compare)
      · exact .inr (.inr (.inl wait))
      · exact .inr (.inr (.inr ⟨queued, List.mem_append_left _ mem⟩))
  · exact fun _ _ => notAll

/-- A turn in `mutex_lock`. -/
theorem Ok.locked (ok : Ok n b barrier locals) {place : MutexEnter}
    (here : locals i = ⟨b, .lock place⟩) {mutex : Mutex} {next : Option MutexEnter}
    (steps : (kernelMutex n).lockStep i barrier.mutex place = some (mutex, next)) :
    Ok n b { barrier with mutex } (Function.update locals i ⟨b, match next with
      | some place => .lock place
      | none => .load⟩) := by
  have locking : (locals i).phaseAt b = .locking place := by rw [here, phaseAt_here]; rfl
  have inv := (KernelMutex.lively n false).locks ok.mutex locking steps
  have absent := ok.absent (i := i) (by simp [here])
  have arrived : ∀ pc, pc.counted = false → ¬ (⟨b, pc⟩ : Worker).Arrived b := by
    simp [Worker.Arrived]
  have notCounted : ∀ pc : Pc, pc.counted = false →
      ((⟨b, pc⟩ : Worker).Arrived b ↔ (locals i).Arrived b) := by
    intro pc not
    rw [here]
    exact iff_of_false (arrived pc not) (arrived _ rfl)
  cases next with
  | some place =>
      refine ok.change mutex ?_ absent (notCounted _ rfl)
        (by simp) (fun has => absurd has (arrived _ rfl)) (by simp) (by simp [here, Worker.Carries])
      rw [phaseAt_here]
      exact inv
  | none =>
      refine ok.change mutex ?_ absent (notCounted _ rfl)
        (by simp) (fun has => absurd has (arrived _ rfl)) (by simp) (by simp [here, Worker.Carries])
      rw [phaseAt_here]
      exact inv

/-- A turn in `condvar_wait` after the thread has been woken. -/
theorem Ok.relocked (ok : Ok n b barrier locals) {place : MutexEnter}
    (here : locals i = ⟨b, .relock place⟩) {mutex : Mutex} {next : Option MutexEnter}
    (steps : (kernelMutex n).lockStep i barrier.mutex place = some (mutex, next)) :
    Ok n b { barrier with mutex } (Function.update locals i ⟨b, match next with
      | some place => .relock place
      | none => .signal⟩) := by
  have locking : (locals i).phaseAt b = .locking place := by rw [here, phaseAt_here]; rfl
  have inv := (KernelMutex.lively n false).locks ok.mutex locking steps
  have absent := ok.absent (i := i) (by simp [here])
  have all := ok.all here rfl (by simp) (by simp)
  have arrived : ∀ pc : Pc, pc.counted = true →
      ((⟨b, pc⟩ : Worker).Arrived b ↔ (locals i).Arrived b) := by
    intro pc counted
    rw [here]
    exact iff_of_true (.inr ⟨rfl, counted⟩) (.inr ⟨rfl, rfl⟩)
  cases next with
  | some place =>
      refine ok.change mutex ?_ absent (arrived _ rfl) (by simp) (fun _ => .inl all) (by simp)
        fun _ _ => ⟨rfl, trivial⟩
      rw [phaseAt_here]
      exact inv
  | none =>
      refine ok.change mutex ?_ absent (arrived _ rfl) (by simp) (fun _ => .inl all) (by simp)
        fun _ _ => ⟨rfl, trivial⟩
      rw [phaseAt_here]
      exact inv

/-- `mutex_unlock`: the thread leaves the barrier behind. -/
theorem Ok.unlocked (ok : Ok n b barrier locals) (here : locals i = ⟨b, .unlock⟩) {mutex : Mutex}
    {next : Option Unit}
    (steps : (kernelMutex n).unlockStep i barrier.mutex () = some (mutex, next)) :
    Ok n b { barrier with mutex } (Function.update locals i ⟨b + 1, .print 0⟩) := by
  obtain rfl := unlock_returns steps
  have leaving : (locals i).phaseAt b = .unlocking () := by rw [here, phaseAt_here]; rfl
  have inv := (KernelMutex.lively n false).unlocks ok.mutex leaving steps
  have all := ok.all here rfl (by simp) (by simp)
  refine ok.change mutex ?_ (ok.absent (by simp [here]))
    (by simp [here, Worker.Arrived, Pc.counted])
    (by simp) (fun _ => .inl all) (by simp) (by simp [here, Worker.Carries])
  have away : (⟨b + 1, .print 0⟩ : Worker).phaseAt b = .locking .call := by simp [Worker.phaseAt]
  rw [away]
  exact inv

/-- The comparison of the count. -/
theorem Ok.compared (ok : Ok n b barrier locals) (here : locals i = ⟨b, .compare⟩) :
    Ok n b barrier (Function.update locals i
      ⟨b, if barrier.count = n then .signal else .wait⟩) := by
  have holds : (locals i).phaseAt b = .holding := by rw [here, phaseAt_here]; rfl
  have absent := ok.absent (i := i) (by simp [here])
  split_ifs with all
  · exact ok.quiet absent (by rw [holds, phaseAt_here]; rfl)
      (by simp [here, Worker.Arrived, Pc.counted]) (by simp) (fun _ => .inl all) (by simp)
      (by simp [Worker.Carries])
  · refine ok.change barrier.mutex ?_ absent (by simp [here, Worker.Arrived, Pc.counted])
      (by simp) (fun _ => .inr (.inr rfl)) (fun _ => all) (fun all' => absurd all' all)
    have leaves : (⟨b, .wait⟩ : Worker).phaseAt b = .unlocking () := phaseAt_here ..
    rw [leaves]
    exact (KernelMutex.lively n false).leaves ok.mutex holds

end Turns

/-! ## The output -/

/-- So many letters of each phase, one phase after the other. -/
def lines (phases : Nat) (counts : Nat → Nat) : List Char :=
  (List.range phases).flatMap fun phase => List.replicate (counts phase) (letter phase)

section Lines

variable {phases q full : Nat} {counts counts' : Nat → Nat}

theorem lines_succ (phases : Nat) (counts : Nat → Nat) : lines (phases + 1) counts =
    lines phases counts ++ List.replicate (counts phases) (letter phases) := by
  simp [lines, List.range_succ]

theorem lines_congr (same : ∀ q < phases, counts q = counts' q) :
    lines phases counts = lines phases counts' := by
  induction phases with
  | zero => rfl
  | succ phases ih =>
      rw [lines_succ, lines_succ, ih fun q less => same q (less.trans (Nat.lt_succ_self _)),
        same phases (Nat.lt_succ_self _)]

/-- One more letter of the last phase that has any. -/
theorem lines_add (less : q < phases) (one : counts' q = counts q + 1)
    (same : ∀ r, r ≠ q → counts' r = counts r) (later : ∀ r, q < r → r < phases → counts r = 0) :
    lines phases counts' = lines phases counts ++ [letter q] := by
  induction phases with
  | zero => exact absurd less (Nat.not_lt_zero q)
  | succ phases ih =>
      rw [lines_succ, lines_succ]
      by_cases here : q = phases
      · subst here
        rw [lines_congr fun r before => same r before.ne, one, List.replicate_succ',
          List.append_assoc]
      · have before : q < phases := by omega
        rw [ih before fun r after small => later r after (small.trans (Nat.lt_succ_self _)),
          same phases (Ne.symm here), later phases before (Nat.lt_succ_self _), List.replicate_zero,
          List.append_nil, List.append_nil]

/-- Whole phases, and then a part of one. -/
theorem lines_prefix (le : ∀ q, counts q ≤ full)
    (whole : ∀ q r, q < r → r < phases → 0 < counts r → counts q = full) :
    lines phases counts <+: lines phases fun _ => full := by
  induction phases with
  | zero => exact List.prefix_rfl
  | succ phases ih =>
      rw [lines_succ, lines_succ]
      by_cases none : counts phases = 0
      · rw [none, List.replicate_zero, List.append_nil]
        exact (ih fun q r less small => whole q r less (small.trans (Nat.lt_succ_self _))).trans
          (List.prefix_append ..)
      · rw [lines_congr fun q less =>
          whole q phases less (Nat.lt_succ_self _) (Nat.pos_of_ne_zero none)]
        apply (List.prefix_append_right_inj _).mpr
        refine ⟨List.replicate (full - counts phases) (letter phases), ?_⟩
        rw [List.replicate_append_replicate, Nat.add_sub_cancel' (le phases)]

end Lines

/-- The letters of a phase that a thread has printed. -/
def prints (plan : Plan) (q : Nat) (t : Worker) : Nat :=
  if q < t.phase then plan.letters
  else if t.phase = q then
    match t.pc with
    | .print letters => letters
    | _ => plan.letters
  else 0

/-! ## All barriers -/

/-- The places where a thread can be. -/
def Worker.Possible (plan : Plan) (t : Worker) : Prop :=
  match t.pc with
  | .print letters => t.phase ≤ plan.barriers ∧ letters ≤ plan.letters
  | .done => t.phase = plan.barriers
  | .panicked => False
  | _ => t.phase < plan.barriers

/-- What holds in all schedules. -/
structure Inv (plan : Plan) (w : World (Fin n) Shared Worker) : Prop where
  barriers : ∀ b < plan.barriers, Ok n b (w.shared.barrier b) w.locals
  places : ∀ i, (w.locals i).Possible plan
  printed : w.shared.printed =
    lines (plan.barriers + 1) fun q => ∑ i, prints plan q (w.locals i)

section Runs

variable {w : World (Fin n) Shared Worker} {i j : Fin n} {s : Shared} {t : Worker} {b phase : Nat}
  {pc : Pc}

theorem Worker.Possible.le (possible : t.Possible plan) : t.phase ≤ plan.barriers := by
  unfold Possible at possible
  split at possible
  · exact possible.1
  · exact possible.le
  · exact absurd possible id
  · exact possible.le

/-- A thread in `Barrier::block` is at one of the barriers. -/
theorem Worker.Possible.small (possible : t.Possible plan)
    (block : ∀ letters, t.pc ≠ .print letters) (notDone : t.pc ≠ .done) :
    t.phase < plan.barriers := by
  unfold Possible at possible
  split at possible
  · next letters here => exact absurd here (block letters)
  · next here => exact absurd here notDone
  · exact absurd possible id
  · exact possible

/-- When a thread has left a barrier behind, all have arrived at it. -/
theorem Inv.arrived (inv : Inv plan w) (later : b < (w.locals j).phase) (i : Fin n) :
    (w.locals i).Arrived b := by
  have ok := inv.barriers b (later.trans_le (inv.places j).le)
  have gone : ∀ pc, w.locals j ≠ ⟨b, pc⟩ := fun pc here => later.ne' (congrArg Worker.phase here)
  have all : (w.shared.barrier b).count = n := by
    rcases ok.early j (.inl later) with all | compare | wait | ⟨queued, -⟩
    · exact all
    · exact absurd compare (gone _)
    · exact absurd wait (gone _)
    · exact absurd queued (gone _)
  by_contra missing
  exact (ok.count_lt missing).ne all

/-- A turn of a thread at one barrier. -/
theorem Inv.change (inv : Inv plan w) (here : w.locals i = ⟨phase, pc⟩) {barrier : Barrier}
    (changed : s.barrier = Function.update w.shared.barrier phase barrier)
    (own : phase < plan.barriers → Ok n phase barrier (Function.update w.locals i t))
    (goes : t.phase = phase ∨ t = ⟨phase + 1, .print 0⟩) (possible : t.Possible plan)
    (printed : s.printed =
      lines (plan.barriers + 1) fun q => ∑ j, prints plan q (Function.update w.locals i t j)) :
    Inv plan ⟨s, Function.update w.locals i t⟩ := by
  refine ⟨fun b small => ?_, fun j => ?_, printed⟩
  · dsimp only
    rw [changed]
    by_cases this : b = phase
    · subst this
      rw [Function.update_self]
      exact own small
    · rw [Function.update_of_ne this]
      have was : (w.locals i).phase ≠ b := by
        rw [here]
        exact Ne.symm this
      rcases goes with stays | rfl
      · refine (inv.barriers b small).elsewhere was (.inl (by rw [stays]; exact Ne.symm this)) ?_
        rw [here]
        simp [Worker.Arrived, stays, Ne.symm this]
      · refine (inv.barriers b small).elsewhere was ?_ ?_
        · by_cases next : b = phase + 1
          · exact .inr (by rw [next])
          · exact .inl (Ne.symm next)
        · rw [here]
          simp only [Worker.Arrived, Pc.counted, Ne.symm this, false_and, or_false,
            Bool.false_eq_true, and_false]
          omega
  · by_cases same : j = i
    · subst same
      dsimp only
      rwa [Function.update_self]
    · dsimp only
      rw [Function.update_of_ne same]
      exact inv.places j

/-- The letters when a thread has printed none. -/
theorem Inv.printed_same (inv : Inv plan w)
    (same : ∀ q, prints plan q t = prints plan q (w.locals i)) : w.shared.printed =
      lines (plan.barriers + 1) fun q => ∑ j, prints plan q (Function.update w.locals i t j) := by
  rw [inv.printed]
  apply lines_congr
  intro q _
  have total := sum_update (fun _ => prints plan q) w.locals i t
  have own := same q
  omega

theorem prints_block (q phase : Nat) {pc : Pc} (block : ∀ letters, pc ≠ .print letters) :
    prints plan q ⟨phase, pc⟩ = if q ≤ phase then plan.letters else 0 := by
  cases pc with
  | print letters => exact absurd rfl (block letters)
  | _ =>
      unfold prints
      dsimp only
      split_ifs <;> first | rfl | omega

theorem prints_print (q phase letters : Nat) : prints plan q ⟨phase, .print letters⟩ =
    if q < phase then plan.letters else if phase = q then letters else 0 := rfl

/-- The letters of a phase that the thread has not come to. -/
theorem prints_later {q : Nat} (later : t.phase < q) : prints plan q t = 0 := by
  unfold prints
  rw [if_neg (by omega), if_neg (by omega)]

/-- The letters of a phase when the thread has arrived at its barrier. -/
theorem prints_arrived {q : Nat} (arrived : t.Arrived q) : prints plan q t = plan.letters := by
  rcases arrived with later | ⟨here, counted⟩
  · exact if_pos later
  · obtain ⟨phase, pc⟩ := t
    rw [prints_block]
    · exact if_pos (Nat.le_of_eq here.symm)
    · rintro letters rfl
      simp [Pc.counted] at counted

theorem prints_le {q : Nat} (possible : t.Possible plan) : prints plan q t ≤ plan.letters := by
  obtain ⟨phase, pc⟩ := t
  by_cases print : ∃ letters, pc = .print letters
  · obtain ⟨letters, rfl⟩ := print
    have le : letters ≤ plan.letters := possible.2
    rw [prints_print]
    split_ifs <;> omega
  · rw [prints_block q phase fun letters here => print ⟨letters, here⟩]
    split_ifs <;> omega

/-- One more letter. -/
theorem Inv.print (inv : Inv plan w) {letters : Nat} (here : w.locals i = ⟨phase, .print letters⟩) :
    w.shared.printed ++ [letter phase] = lines (plan.barriers + 1) fun q =>
      ∑ j, prints plan q (Function.update w.locals i ⟨phase, .print (letters + 1)⟩ j) := by
  have possible := inv.places i
  rw [here] at possible
  have le : phase ≤ plan.barriers := possible.1
  have total := fun q =>
    sum_update (fun _ => prints plan q) w.locals i ⟨phase, .print (letters + 1)⟩
  rw [inv.printed]
  refine (lines_add (Nat.lt_succ_of_le le) ?_ ?_ ?_).symm
  · have own := total phase
    rw [here, prints_print, prints_print, if_neg (Nat.lt_irrefl _), if_neg (Nat.lt_irrefl _),
      if_pos rfl, if_pos rfl] at own
    omega
  · intro q other
    have own := total q
    rw [here, prints_print, prints_print, if_neg (Ne.symm other), if_neg (Ne.symm other)] at own
    omega
  · -- nobody can have left the barrier of this phase behind
    intro q later _
    apply Finset.sum_eq_zero
    intro j _
    apply prints_later
    by_contra behind
    have arrived := inv.arrived (b := phase) (j := j) (by omega) i
    rw [here] at arrived
    simp [Worker.Arrived, Pc.counted] at arrived

/-- Every turn keeps the barriers, the places and the output. -/
theorem Inv.turn (inv : Inv plan w) (takes : step plan i w.shared (w.locals i) = some (s, t)) :
    Inv plan ⟨s, Function.update w.locals i t⟩ := by
  rcases here : w.locals i with ⟨phase, pc⟩
  have possible := inv.places i
  rw [here] at takes possible
  have unchanged : w.shared.barrier =
      Function.update w.shared.barrier phase (w.shared.barrier phase) :=
    (Function.update_eq_self ..).symm
  have set : ∀ barrier, (w.shared.set phase barrier).barrier =
      Function.update w.shared.barrier phase barrier := fun _ => rfl
  -- a turn within `block` prints nothing
  have silent : ∀ pc', (∀ letters, pc ≠ .print letters) → (∀ letters, pc' ≠ .print letters) →
      ∀ q, prints plan q ⟨phase, pc'⟩ = prints plan q (w.locals i) := by
    intro pc' was is q
    rw [here, prints_block q phase was, prints_block q phase is]
  cases pc with
  | print letters =>
      simp only [step, Option.some.injEq] at takes
      split_ifs at takes with more small
      · simp only [Prod.mk.injEq] at takes
        obtain ⟨rfl, rfl⟩ := takes
        refine inv.change here unchanged ?_ (.inl rfl) ⟨possible.1, more⟩ (inv.print here)
        exact fun small => (inv.barriers phase small).before here rfl rfl rfl (by simp)
      · have all : letters = plan.letters := Nat.le_antisymm possible.2 (Nat.le_of_not_lt more)
        simp only [Prod.mk.injEq] at takes
        obtain ⟨rfl, rfl⟩ := takes
        refine inv.change here unchanged ?_ (.inl rfl) small (inv.printed_same fun q => ?_)
        · exact fun small => (inv.barriers phase small).before here rfl rfl rfl (by simp)
        · rw [here, prints_print, prints_block q phase (by simp), all]
          split_ifs <;> first | rfl | omega
      · have all : letters = plan.letters := Nat.le_antisymm possible.2 (Nat.le_of_not_lt more)
        have last : phase = plan.barriers := Nat.le_antisymm possible.1 (Nat.le_of_not_lt small)
        simp only [Prod.mk.injEq] at takes
        obtain ⟨rfl, rfl⟩ := takes
        refine inv.change here unchanged (fun small' => absurd small' small) (.inl rfl) last
          (inv.printed_same fun q => ?_)
        rw [here, prints_print, prints_block q phase (by simp), all]
        split_ifs <;> first | rfl | omega
  | lock place =>
      simp only [step] at takes
      obtain ⟨⟨mutex, next⟩, steps, eq⟩ := Option.map_eq_some_iff.mp takes
      simp only [Prod.mk.injEq] at eq
      obtain ⟨rfl, rfl⟩ := eq
      have own := fun small => (inv.barriers phase small).locked here steps
      cases next with
      | some place =>
          exact inv.change here (set _) own (.inl rfl) possible
            (inv.printed_same (silent _ (by simp) (by simp)))
      | none =>
          exact inv.change here (set _) own (.inl rfl) possible
            (inv.printed_same (silent _ (by simp) (by simp)))
  | load =>
      simp only [step, Option.some.injEq, Prod.mk.injEq] at takes
      obtain ⟨rfl, rfl⟩ := takes
      refine inv.change here unchanged ?_ (.inl rfl) possible
        (inv.printed_same (silent _ (by simp) (by simp)))
      exact fun small => (inv.barriers phase small).before here rfl rfl rfl (by simp)
  | store count =>
      simp only [step, Option.some.injEq, Prod.mk.injEq] at takes
      obtain ⟨rfl, rfl⟩ := takes
      exact inv.change here (set _) (fun small => (inv.barriers phase small).stored here) (.inl rfl)
        possible (inv.printed_same (silent _ (by simp) (by simp)))
  | compare =>
      simp only [step, Option.some.injEq, Prod.mk.injEq] at takes
      obtain ⟨rfl, rfl⟩ := takes
      refine inv.change here unchanged (fun small => (inv.barriers phase small).compared here)
        (.inl rfl) ?_ (inv.printed_same (silent _ (by simp) ?_))
      · split_ifs <;> exact possible
      · split_ifs <;> simp
  | signal =>
      simp only [step, Option.some.injEq, Prod.mk.injEq] at takes
      obtain ⟨rfl, rfl⟩ := takes
      exact inv.change here (set _)
        (fun small => (inv.barriers phase small).signaled here) (.inl rfl)
        possible (inv.printed_same (silent _ (by simp) (by simp)))
  | wait =>
      have small : phase < plan.barriers := possible
      have leaving : (w.locals i).phaseAt phase = .unlocking () := by rw [here, phaseAt_here]; rfl
      obtain ⟨⟨mutex, next⟩, steps⟩ :=
        (KernelMutex.lively n false).leavesAlways (inv.barriers phase small).mutex leaving
      simp only [step, steps, Option.some.injEq, Prod.mk.injEq] at takes
      obtain ⟨rfl, rfl⟩ := takes
      exact inv.change here (set _) (fun small => (inv.barriers phase small).waited here steps)
        (.inl rfl) possible (inv.printed_same (silent _ (by simp) (by simp)))
  | queued =>
      simp only [step] at takes
      split_ifs at takes with mem
      simp only [Option.some.injEq, Prod.mk.injEq] at takes
      obtain ⟨rfl, rfl⟩ := takes
      refine inv.change here unchanged ?_ (.inl rfl) possible
        (inv.printed_same (silent _ (by simp) (by simp)))
      intro small
      have ok := inv.barriers phase small
      have all := ok.all here rfl (by simp) fun _ => mem
      exact ok.quiet mem (by rw [here, phaseAt_here, phaseAt_here]; rfl)
        (by simp [here, Worker.Arrived, Pc.counted]) (by simp) (fun _ => .inl all) (by simp)
        fun _ _ => ⟨rfl, trivial⟩
  | relock place =>
      simp only [step] at takes
      obtain ⟨⟨mutex, next⟩, steps, eq⟩ := Option.map_eq_some_iff.mp takes
      simp only [Prod.mk.injEq] at eq
      obtain ⟨rfl, rfl⟩ := eq
      have own := fun small => (inv.barriers phase small).relocked here steps
      cases next with
      | some place =>
          exact inv.change here (set _) own (.inl rfl) possible
            (inv.printed_same (silent _ (by simp) (by simp)))
      | none =>
          exact inv.change here (set _) own (.inl rfl) possible
            (inv.printed_same (silent _ (by simp) (by simp)))
  | unlock =>
      have small : phase < plan.barriers := possible
      have leaving : (w.locals i).phaseAt phase = .unlocking () := by rw [here, phaseAt_here]; rfl
      obtain ⟨⟨mutex, next⟩, steps⟩ :=
        (KernelMutex.lively n false).leavesAlways (inv.barriers phase small).mutex leaving
      simp only [step, steps, Option.some.injEq, Prod.mk.injEq] at takes
      obtain ⟨rfl, rfl⟩ := takes
      refine inv.change here (set _) (fun small => (inv.barriers phase small).unlocked here steps)
        (.inr rfl) ⟨small, Nat.zero_le _⟩ (inv.printed_same fun q => ?_)
      rw [here, prints_print, prints_block q phase (by simp)]
      split_ifs <;> first | rfl | omega
  | done => simp [step] at takes
  | panicked => simp [step] at takes

theorem lines_zero (phases : Nat) : lines phases (fun _ => 0) = [] := by
  induction phases with
  | zero => rfl
  | succ phases ih => rw [lines_succ, ih, List.replicate_zero, List.append_nil]

theorem inv_start (n : Nat) (plan : Plan) : Inv plan (start n) := by
  have away : ∀ b, (⟨0, .print 0⟩ : Worker).phaseAt b = .locking .call := fun b => ite_self _
  have missing : ∀ b, ¬ (⟨0, .print 0⟩ : Worker).Arrived b := by
    simp [Worker.Arrived, Pc.counted]
  refine ⟨fun b _ => ?_, fun _ => ⟨Nat.zero_le _, Nat.zero_le _⟩, ?_⟩
  · refine ⟨?_, ?_, by simp [start], by simp [start], List.nodup_nil,
      fun _ has => absurd has (missing b), by simp [start], fun _ some => absurd rfl some⟩
    · simp only [start, away]
      exact (KernelMutex.lively n false).init
    · simp [start, missing b]
  · have none : ∀ q, prints plan q ⟨0, .print 0⟩ = 0 := by
      intro q
      rw [prints_print, if_neg (Nat.not_lt_zero q), ite_self]
    simp only [start, none, Finset.sum_const_zero]
    exact (lines_zero _).symm

theorem inv_run (plan : Plan) (schedule : List (Fin n)) :
    Inv plan ((threads n plan).run (start n) schedule) :=
  Threads.run_keeps (Inv plan) (inv_start n plan) (fun _ _ _ _ inv takes => inv.turn takes) schedule

/-! ## What has been printed -/

/-- A phase that all threads have left. -/
theorem sum_prints {q : Nat} (all : ∀ j, prints plan q (w.locals j) = plan.letters) :
    ∑ j, prints plan q (w.locals j) = n * plan.letters := by
  rw [Finset.sum_congr rfl fun j _ => all j, Finset.sum_const, Finset.card_univ, Fintype.card_fin,
    smul_eq_mul]

/-- Every phase is printed after the one before it. -/
theorem Inv.printed_prefix (inv : Inv plan w) :
    w.shared.printed <+: lines (plan.barriers + 1) fun _ => n * plan.letters := by
  rw [inv.printed]
  apply lines_prefix
  · intro q
    have le := Finset.sum_le_card_nsmul Finset.univ (fun j => prints plan q (w.locals j))
      plan.letters fun j _ => prints_le (inv.places j)
    rwa [Finset.card_univ, Fintype.card_fin, smul_eq_mul] at le
  · intro q r less _ some
    obtain ⟨j, -, more⟩ := Finset.exists_ne_zero_of_sum_ne_zero some.ne'
    have behind : q < (w.locals j).phase := by
      by_contra before
      exact more (prints_later (by omega))
    exact sum_prints fun i => prints_arrived (inv.arrived behind i)

/-- When all threads are done, everything has been printed. -/
theorem Inv.printed_done (inv : Inv plan w) (done : ∀ i, (w.locals i).pc = .done) :
    w.shared.printed = lines (plan.barriers + 1) fun _ => n * plan.letters := by
  rw [inv.printed]
  apply lines_congr
  intro q small
  apply sum_prints
  intro j
  have possible := inv.places j
  rcases here : w.locals j with ⟨phase, pc⟩
  have isDone : pc = .done := by
    have own := done j
    rwa [here] at own
  subst isDone
  rw [here] at possible
  have last : phase = plan.barriers := possible
  rw [prints_block q phase (by simp), if_pos (by omega)]

/-! ## Progress -/

/-- A thread whose turn changes nothing is done, waits for a mutex or is in the queue. -/
theorem Inv.waits (inv : Inv plan w) (same : (threads n plan).turn w i = w)
    (here : w.locals i = ⟨phase, pc⟩) : pc = .done ∨
      (∃ place, (pc = .lock place ∨ pc = .relock place) ∧
        (kernelMutex n).Waits i (w.shared.barrier phase).mutex place) ∨
      (pc = .queued ∧ i.val ∈ (w.shared.barrier phase).condvar.waitQueue) := by
  have still : ∀ s t, step plan i w.shared ⟨phase, pc⟩ = some (s, t) →
      s = w.shared ∧ t = ⟨phase, pc⟩ := by
    intro s t takes
    rw [← here] at takes ⊢
    exact Threads.still same takes
  -- the mutex when a turn has changed nothing else
  have mutexSame : ∀ mutex, w.shared.set phase { w.shared.barrier phase with mutex } = w.shared →
      mutex = (w.shared.barrier phase).mutex := by
    intro mutex eq
    have own := congrArg (fun s => (s.barrier phase).mutex) eq
    simpa [Shared.set] using own
  cases pc with
  | print letters =>
      exfalso
      by_cases more : letters < plan.letters
      · obtain ⟨-, eq⟩ := still _ _ (by simp only [step, if_pos more]; rfl)
        simp at eq
      · obtain ⟨-, eq⟩ := still _ _ (by simp only [step, if_neg more]; rfl)
        simp only [Worker.mk.injEq, true_and] at eq
        split_ifs at eq
  | lock place =>
      refine .inr (.inl ⟨place, .inl rfl, ?_⟩)
      rintro ⟨mutex, next⟩ steps
      obtain ⟨shared, eq⟩ := still _ _ (by simp only [step, steps]; rfl)
      rw [mutexSame mutex shared]
      cases next with
      | some place' => simpa using eq
      | none => simp at eq
  | load =>
      obtain ⟨-, eq⟩ := still _ _ rfl
      simp at eq
  | store count =>
      obtain ⟨-, eq⟩ := still _ _ rfl
      simp at eq
  | compare =>
      obtain ⟨-, eq⟩ := still _ _ rfl
      simp only [Worker.mk.injEq, true_and] at eq
      split_ifs at eq
  | signal =>
      obtain ⟨-, eq⟩ := still _ _ rfl
      simp at eq
  | wait =>
      exfalso
      cases steps : (kernelMutex n).unlockStep i (w.shared.barrier phase).mutex () with
      | none =>
          obtain ⟨-, eq⟩ := still _ _ (by simp only [step, steps]; rfl)
          simp at eq
      | some next =>
          obtain ⟨-, eq⟩ := still _ _ (by simp only [step, steps]; rfl)
          simp at eq
  | queued =>
      by_cases mem : i.val ∈ (w.shared.barrier phase).condvar.waitQueue
      · exact .inr (.inr ⟨rfl, mem⟩)
      · obtain ⟨-, eq⟩ := still _ _ (by simp only [step, if_neg mem]; rfl)
        simp at eq
  | relock place =>
      refine .inr (.inl ⟨place, .inr rfl, ?_⟩)
      rintro ⟨mutex, next⟩ steps
      obtain ⟨shared, eq⟩ := still _ _ (by simp only [step, steps]; rfl)
      rw [mutexSame mutex shared]
      cases next with
      | some place' => simpa using eq
      | none => simp at eq
  | unlock =>
      exfalso
      cases steps : (kernelMutex n).unlockStep i (w.shared.barrier phase).mutex () with
      | none =>
          obtain ⟨-, eq⟩ := still _ _ (by simp only [step, steps]; rfl)
          simp at eq
      | some next =>
          obtain ⟨-, eq⟩ := still _ _ (by simp only [step, steps]; rfl)
          simp at eq
  | done => exact .inl rfl
  | panicked =>
      have possible := inv.places i
      rw [here] at possible
      exact absurd possible id

/-- When the turns of all threads change nothing, nobody waits for a mutex: its owner would go
on. -/
theorem Inv.free (inv : Inv plan w) (still : ∀ i, (threads n plan).turn w i = w)
    {place : MutexEnter} (here : (w.locals i).pc = .lock place ∨ (w.locals i).pc = .relock place) :
    ¬ (kernelMutex n).Waits i (w.shared.barrier (w.locals i).phase).mutex place := by
  intro waiting
  have small : (w.locals i).phase < plan.barriers := by
    rcases here with here | here
    · exact (inv.places i).small (by simp [here]) (by simp [here])
    · exact (inv.places i).small (by simp [here]) (by simp [here])
  have locking : (w.locals i).phaseAt (w.locals i).phase = .locking place := by
    rw [Worker.phaseAt, if_pos rfl]
    rcases here with here | here
    · rw [here]
      rfl
    · rw [here]
      rfl
  -- whoever does not move is locking this mutex, and waits for it, or has not begun to
  have stopped : ∀ j, ∃ place', (w.locals j).phaseAt (w.locals i).phase = .locking place' ∧
      (place' = .call ∨
        (kernelMutex n).Waits j (w.shared.barrier (w.locals i).phase).mutex place') := by
    intro j
    by_cases same : (w.locals j).phase = (w.locals i).phase
    · rw [Worker.phaseAt, if_pos same, ← same]
      rcases inv.waits (still j) rfl with done | ⟨place', lock | relock, waits⟩ | ⟨queued, -⟩
      · rw [done]
        exact ⟨.call, rfl, .inl rfl⟩
      · rw [lock]
        exact ⟨place', rfl, .inr waits⟩
      · rw [relock]
        exact ⟨place', rfl, .inr waits⟩
      · rw [queued]
        exact ⟨.call, rfl, .inl rfl⟩
    · rw [Worker.phaseAt, if_neg same]
      exact ⟨.call, rfl, .inl rfl⟩
  obtain ⟨j, entered | ⟨place', there, begun, goes⟩⟩ :=
    (KernelMutex.lively n false).moves (inv.barriers _ small).mutex locking waiting
  · obtain ⟨place', at', -⟩ := stopped j
    rw [at'] at entered
    exact entered
  · obtain ⟨place'', at', new | waits⟩ := stopped j
    · rw [there, Phase.locking.injEq] at at'
      exact begun (at'.trans new)
    · rw [there, Phase.locking.injEq] at at'
      rw [← at'] at waits
      exact goes waits

/-- As long as not all threads are done, the turn of some thread changes something: among those that
wait in a queue, look at one at the first barrier. -/
theorem Inv.moves (inv : Inv plan w) :
    (∀ i, (w.locals i).pc = .done) ∨ ∃ i, (threads n plan).turn w i ≠ w := by
  by_contra stuck
  rw [not_or, not_forall, not_exists] at stuck
  obtain ⟨⟨i₀, notDone⟩, moves⟩ := stuck
  have still : ∀ i, (threads n plan).turn w i = w := fun i => not_not.mp (moves i)
  have rest : ∀ i, (w.locals i).pc = .done ∨ ((w.locals i).pc = .queued ∧
      i.val ∈ (w.shared.barrier (w.locals i).phase).condvar.waitQueue) := by
    intro i
    rcases inv.waits (still i) rfl with done | ⟨place, here, waiting⟩ | queued
    · exact .inl done
    · exact absurd waiting (inv.free still here)
    · exact .inr queued
  obtain ⟨i, mem, least⟩ := Finset.exists_min_image
    (Finset.univ.filter fun i => (w.locals i).pc ≠ .done) (fun i => (w.locals i).phase)
    ⟨i₀, Finset.mem_filter.mpr ⟨Finset.mem_univ i₀, notDone⟩⟩
  obtain ⟨queued, inQueue⟩ := (rest i).resolve_left (Finset.mem_filter.mp mem).2
  have small := (inv.places i).small (by simp [queued]) (by simp [queued])
  have ok := inv.barriers _ small
  by_cases all : (w.shared.barrier (w.locals i).phase).count = n
  · -- somebody is on the way to wake the next one
    obtain ⟨j, same, carries⟩ := ok.carried all (List.ne_nil_of_mem inQueue)
    rcases rest j with done | ⟨queued', inQueue'⟩
    · rw [done] at carries
      exact carries
    · rw [queued'] at carries
      rw [same] at inQueue'
      exact carries inQueue'
  · -- somebody has not arrived, and waits at a barrier before this one
    have missing : ∃ j, ¬ (w.locals j).Arrived (w.locals i).phase := by
      by_contra none
      apply all
      rw [ok.count, Finset.filter_true_of_mem fun j _ => not_not.mp fun not => none ⟨j, not⟩,
        Finset.card_univ, Fintype.card_fin]
    obtain ⟨j, missing⟩ := missing
    rcases rest j with done | ⟨queued', -⟩
    · have possible := inv.places j
      unfold Worker.Possible at possible
      rw [done] at possible
      have last : (w.locals j).phase = plan.barriers := possible
      exact missing (.inl (by omega))
    · have le := least j (Finset.mem_filter.mpr ⟨Finset.mem_univ j, by simp [queued']⟩)
      rcases le.lt_or_eq with later | same
      · exact missing (.inl later)
      · exact missing (.inr ⟨same.symm, by rw [queued']; rfl⟩)

/-- How far a thread is from the end of its phase. -/
def pcRank (plan : Plan) : Pc → Nat
  | .print letters => plan.letters - letters + 13
  | .lock .call => 12
  | .lock .queued => 11
  | .load => 10
  | .store _ => 9
  | .compare => 8
  | .wait => 7
  | .queued => 6
  | .relock .call => 5
  | .relock .queued => 4
  | .signal => 3
  | .unlock => 2
  | .done => 0
  | .panicked => 0

theorem pcRank_lock (n : Nat) (place : MutexEnter) :
    pcRank plan (.lock place) = (KernelMutex.lively n false).enterRank place + 11 := by
  cases place <;> rfl

theorem pcRank_relock (n : Nat) (place : MutexEnter) :
    pcRank plan (.relock place) = (KernelMutex.lively n false).enterRank place + 4 := by
  cases place <;> rfl

/-- How far a thread is from the end. -/
def rank (plan : Plan) (t : Worker) : Nat :=
  (plan.barriers - t.phase) * (plan.letters + 14) + pcRank plan t.pc

/-- Every turn does nothing or brings the thread nearer to the end. -/
theorem rank_falls {s' : Shared} {t' : Worker} (possible : t.Possible plan)
    (takes : step plan i s t = some (s', t')) :
    (s' = s ∧ t' = t) ∨ rank plan t' < rank plan t := by
  obtain ⟨phase, pc⟩ := t
  -- a turn within a phase
  have within : ∀ {pc'}, pcRank plan pc' < pcRank plan pc →
      rank plan ⟨phase, pc'⟩ < rank plan ⟨phase, pc⟩ := fun less => Nat.add_lt_add_left less _
  have setSame : s.set phase (s.barrier phase) = s := by
    rw [Shared.set, Function.update_eq_self]
  cases pc with
  | print letters =>
      right
      simp only [step, Option.some.injEq] at takes
      split_ifs at takes with more small
      · simp only [Prod.mk.injEq] at takes
        obtain ⟨rfl, rfl⟩ := takes
        apply within
        unfold pcRank
        dsimp only
        omega
      · simp only [Prod.mk.injEq] at takes
        obtain ⟨rfl, rfl⟩ := takes
        apply within
        unfold pcRank
        dsimp only
        omega
      · simp only [Prod.mk.injEq] at takes
        obtain ⟨rfl, rfl⟩ := takes
        exact within (Nat.succ_pos _)
  | lock place =>
      simp only [step] at takes
      obtain ⟨⟨mutex, next⟩, steps, eq⟩ := Option.map_eq_some_iff.mp takes
      simp only [Prod.mk.injEq] at eq
      obtain ⟨rfl, rfl⟩ := eq
      cases next with
      | none =>
          right
          apply within
          rw [pcRank_lock n]
          exact Nat.lt_of_lt_of_le (Nat.lt_succ_self 10) (Nat.le_add_left ..)
      | some place' =>
          rcases (KernelMutex.lively n false).lockFalls steps with ⟨rfl, rfl⟩ | less
          · exact .inl ⟨setSame, rfl⟩
          · right
            apply within
            rw [pcRank_lock n, pcRank_lock n]
            exact Nat.add_lt_add_right less _
  | load =>
      simp only [step, Option.some.injEq, Prod.mk.injEq] at takes
      obtain ⟨rfl, rfl⟩ := takes
      exact .inr (within (Nat.lt_succ_self _))
  | store count =>
      simp only [step, Option.some.injEq, Prod.mk.injEq] at takes
      obtain ⟨rfl, rfl⟩ := takes
      exact .inr (within (Nat.lt_succ_self _))
  | compare =>
      simp only [step, Option.some.injEq, Prod.mk.injEq] at takes
      obtain ⟨rfl, rfl⟩ := takes
      right
      apply within
      split_ifs
      · exact (by decide : 3 < 8)
      · exact (by decide : 7 < 8)
  | signal =>
      simp only [step, Option.some.injEq, Prod.mk.injEq] at takes
      obtain ⟨rfl, rfl⟩ := takes
      exact .inr (within (Nat.lt_succ_self _))
  | wait =>
      simp only [step] at takes
      split at takes
      · simp only [Option.some.injEq, Prod.mk.injEq] at takes
        obtain ⟨rfl, rfl⟩ := takes
        exact .inr (within (Nat.succ_pos _))
      · simp only [Option.some.injEq, Prod.mk.injEq] at takes
        obtain ⟨rfl, rfl⟩ := takes
        exact .inr (within (Nat.lt_succ_self _))
  | queued =>
      simp only [step] at takes
      split_ifs at takes
      simp only [Option.some.injEq, Prod.mk.injEq] at takes
      obtain ⟨rfl, rfl⟩ := takes
      exact .inr (within (Nat.lt_succ_self _))
  | relock place =>
      simp only [step] at takes
      obtain ⟨⟨mutex, next⟩, steps, eq⟩ := Option.map_eq_some_iff.mp takes
      simp only [Prod.mk.injEq] at eq
      obtain ⟨rfl, rfl⟩ := eq
      cases next with
      | none =>
          right
          apply within
          rw [pcRank_relock n]
          exact Nat.lt_of_lt_of_le (Nat.lt_succ_self 3) (Nat.le_add_left ..)
      | some place' =>
          rcases (KernelMutex.lively n false).lockFalls steps with ⟨rfl, rfl⟩ | less
          · exact .inl ⟨setSame, rfl⟩
          · right
            apply within
            rw [pcRank_relock n, pcRank_relock n]
            exact Nat.add_lt_add_right less _
  | unlock =>
      right
      simp only [step] at takes
      split at takes
      · simp only [Option.some.injEq, Prod.mk.injEq] at takes
        obtain ⟨rfl, rfl⟩ := takes
        exact within (Nat.succ_pos _)
      · simp only [Option.some.injEq, Prod.mk.injEq] at takes
        obtain ⟨rfl, rfl⟩ := takes
        have small : phase < plan.barriers := possible
        have left : plan.barriers - phase = plan.barriers - (phase + 1) + 1 := by omega
        unfold rank pcRank
        dsimp only
        rw [left, Nat.succ_mul]
        omega
  | done => simp [step] at takes
  | panicked => simp [step] at takes

end Runs

/-! ## The program -/

/-- In every schedule: no `unlock` of the kernel finds its mutex unlocked, a thread leaves a barrier
behind only when all threads have arrived at it, and the letters are printed phase by phase; when
all threads are done each has printed all of its letters. -/
theorem barriers_separate (n : Nat) (plan : Plan) (schedule : List (Fin n)) :
    let w := (threads n plan).run (start n) schedule
    let output := lines (plan.barriers + 1) fun _ => n * plan.letters
    (∀ i, (w.locals i).pc ≠ .panicked) ∧
      (∀ i j b, b < (w.locals j).phase → (w.locals i).Arrived b) ∧ w.shared.printed <+: output ∧
      ((∀ i, (w.locals i).pc = .done) → w.shared.printed = output) := by
  have inv := inv_run plan schedule
  refine ⟨fun i panicked => ?_, fun i j b later => inv.arrived later i, inv.printed_prefix,
    inv.printed_done⟩
  have possible := inv.places i
  unfold Worker.Possible at possible
  rwa [panicked] at possible

/-- In every schedule in which all threads have turns again and again, all threads get past the
barriers, and everything is printed. -/
theorem barriers_passed (n : Nat) (plan : Plan) {schedule : Nat → Fin n} (fair : Fair schedule) :
    ∃ k, let w := (threads n plan).runTo (start n) schedule k
      (∀ i, (w.locals i).pc = .done) ∧
        w.shared.printed = lines (plan.barriers + 1) fun _ => n * plan.letters := by
  have moves : ∀ w : World (Fin n) Shared Worker, Inv plan w → ((∀ i, (w.locals i).pc = .done) ∧
      w.shared.printed = lines (plan.barriers + 1) fun _ => n * plan.letters) ∨
        ∃ i, (threads n plan).turn w i ≠ w :=
    fun w inv => inv.moves.imp_left fun done => ⟨done, inv.printed_done done⟩
  exact Threads.eventually_of_fair (fun w => ∑ i, rank plan (w.locals i)) (inv_start n plan)
    (fun _ _ _ _ inv takes => inv.turn takes) (fun _ i inv =>
      Threads.turn_falls (fun _ => rank plan) i fun _ _ => rank_falls (inv.places i)) moves fair

/-- `main`: three threads, 300 letters of each phase, and two barriers. -/
theorem barriers_passed_three : ∃ k,
    let w := (threads 3 ⟨300, 2⟩).runTo (start 3) (fun k => Fin.ofNat 3 k) k
    (∀ i, (w.locals i).pc = .done) ∧ w.shared.printed = lines 3 fun _ => 3 * 300 :=
  barriers_passed 3 ⟨300, 2⟩ (fair_ofNat 2)

end CoreFromDust.User.Barriers
