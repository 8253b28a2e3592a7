import CoreFromDust.User.CriticalSections
import CoreFromDust.Os.MutexOwners

/-!
# One thread in the critical section

For each lock of the user programs the invariant which shows that it lets one thread in at a time,
and what that means for the programs: in every schedule no assertion of `critical_test_enter` and
the like fails, and no addition to `A` is lost.
-/

namespace CoreFromDust.User

open CoreFromDust.Lib CoreFromDust.Os

/-- The phases after a turn of the thread `i`. -/
theorem phase_after {Id Enter Leave : Type} [DecidableEq Id]
    (property : Id → Phase Enter Leave → Prop) {phase : Id → Phase Enter Leave} {i : Id}
    {new : Phase Enter Leave} (others : ∀ j, j ≠ i → property j (phase j)) (mine : property i new)
    (j : Id) : property j (Function.update phase i new j) := by
  by_cases same : j = i
  · subst same
    rwa [Function.update_self]
  · rw [Function.update_of_ne same]
    exact others j same

/-! ## Peterson's algorithm -/

namespace Peterson

variable {s : Shared} {phase : Fin 2 → Phase Enter Unit} {i : Fin 2} {new : Phase Enter Unit}

/-- The thread has raised its flag. -/
def Raised : Phase Enter Unit → Prop
  | .locking place => place ≠ .storeFlag
  | .holding => True
  | .unlocking _ => True

/-- Who has raised the flag, and why the other thread has to wait when one has entered. -/
structure Inv (s : Shared) (phase : Fin 2 → Phase Enter Unit) : Prop where
  raised : ∀ i, Raised (phase i) → s.flag i = true
  waits : ∀ i, (phase i).Entered →
    s.flag (peer i) = false ∨ s.turn = i ∨ phase (peer i) = .locking .storeTurn

theorem peer_ne (i : Fin 2) : peer i ≠ i := by revert i; decide

theorem peer_peer (i : Fin 2) : peer (peer i) = i := by revert i; decide

theorem eq_peer {j : Fin 2} (differ : j ≠ i) : j = peer i := by revert i j; decide

theorem turn_eq (other : s.turn ≠ peer i) : s.turn = i := by
  generalize s.turn = turn at other
  revert i turn
  decide

/-- A thread moves and leaves the static variables alone. -/
theorem Inv.quiet (inv : Inv s phase) (raised : Raised new → Raised (phase i))
    (entered : new.Entered → s.flag (peer i) = false ∨ s.turn = i ∨
      phase (peer i) = .locking .storeTurn)
    (notPending : phase i ≠ .locking .storeTurn) : Inv s (Function.update phase i new) := by
  constructor
  · exact phase_after (fun j state => Raised state → s.flag j = true)
      (fun j _ => inv.raised j) fun up => inv.raised i (raised up)
  · intro j isIn
    by_cases same : j = i
    · subst same
      rw [Function.update_self] at isIn
      rw [Function.update_of_ne (peer_ne j)]
      exact entered isIn
    · obtain rfl := eq_peer same
      rw [Function.update_of_ne same] at isIn
      rcases inv.waits _ isIn with down | turn | pending
      · exact .inl down
      · exact .inr (.inl turn)
      · rw [peer_peer] at pending
        exact absurd pending notPending

/-- `FLAG` of the thread changes. -/
theorem Inv.setFlag {up : Bool} (inv : Inv s phase) (raised : Raised new → up = true)
    (outside : ¬ new.Entered) (pending : up = true → new = .locking .storeTurn) :
    Inv { s with flag := Function.update s.flag i up } (Function.update phase i new) := by
  constructor
  · intro j isUp
    by_cases same : j = i
    · subst same
      rw [Function.update_self] at isUp
      exact (Function.update_self j up s.flag).trans (raised isUp)
    · rw [Function.update_of_ne same] at isUp
      exact (Function.update_of_ne same up s.flag).trans (inv.raised j isUp)
  · intro j isIn
    by_cases same : j = i
    · subst same
      rw [Function.update_self] at isIn
      exact absurd isIn outside
    · obtain rfl := eq_peer same
      rw [peer_peer]
      cases up with
      | false => exact .inl (Function.update_self i false s.flag)
      | true =>
          rw [Function.update_self]
          exact .inr (.inr (pending rfl))

/-- The thread lets the other one go first. -/
theorem Inv.giveTurn (inv : Inv s phase) (here : phase i = .locking .storeTurn) :
    Inv { s with turn := peer i } (Function.update phase i (.locking .loadFlag)) := by
  constructor
  · refine phase_after (fun j state => Raised state → s.flag j = true)
      (fun j _ => inv.raised j) fun _ => inv.raised i ?_
    rw [here]
    exact fun eq => Enter.noConfusion eq
  · intro j isIn
    by_cases same : j = i
    · subst same
      rw [Function.update_self] at isIn
      exact absurd isIn id
    · exact .inr (.inl (eq_peer same).symm)

theorem Inv.excludes {j : Fin 2} (inv : Inv s phase) (first : phase i = .holding)
    (second : phase j = .holding) : i = j := by
  by_contra differ
  obtain rfl := eq_peer (Ne.symm differ)
  have turns : ∀ k, phase k = .holding → phase (peer k) = .holding → s.turn = k := by
    intro k mine other
    rcases inv.waits k (by rw [mine]; trivial) with down | turn | pending
    · rw [inv.raised _ (by rw [other]; trivial)] at down
      simp at down
    · exact turn
    · rw [other] at pending
      simp at pending
  have mine := turns i first second
  have other := turns (peer i) second (by rwa [peer_peer])
  exact differ (mine.symm.trans other)

theorem Inv.locks (inv : Inv s phase) {place : Enter} {s' : Shared} {next : Option Enter}
    (here : phase i = .locking place) (steps : code.lockStep i s place = some (s', next)) :
    Inv s' (Function.update phase i (LockCode.afterLock next)) := by
  have up : place ≠ .storeFlag → Raised (phase i) := by
    rw [here]
    exact id
  cases place with
  | storeFlag =>
      simp only [code, Option.some.injEq, Prod.mk.injEq] at steps
      obtain ⟨rfl, rfl⟩ := steps
      exact inv.setFlag (fun _ => rfl) id fun _ => rfl
  | storeTurn =>
      simp only [code, Option.some.injEq, Prod.mk.injEq] at steps
      obtain ⟨rfl, rfl⟩ := steps
      exact inv.giveTurn here
  | loadFlag =>
      simp only [code, Option.some.injEq, Prod.mk.injEq] at steps
      obtain ⟨rfl, rfl⟩ := steps
      apply inv.quiet
      · exact fun _ => up (by simp)
      · intro isIn
        split at isIn
        · exact absurd isIn id
        · next flag => exact .inl (by simpa using flag)
      · rw [here]
        simp
  | loadTurn =>
      simp only [code, Option.some.injEq, Prod.mk.injEq] at steps
      obtain ⟨rfl, rfl⟩ := steps
      apply inv.quiet
      · exact fun _ => up (by simp)
      · intro isIn
        split at isIn
        · exact absurd isIn id
        · next mine => exact .inr (.inl (turn_eq mine))
      · rw [here]
        simp

/-- Peterson's algorithm lets one thread in at a time. -/
def exclusion : code.Exclusion start where
  inv := Inv
  init := ⟨fun _ up => absurd rfl up, fun _ isIn => absurd isIn id⟩
  locks := fun inv here steps => inv.locks here steps
  leaves := by
    intro s phase i inv here
    apply inv.quiet
    · rw [here]
      exact id
    · exact fun _ => inv.waits i (by rw [here]; trivial)
    · rw [here]
      simp
  unlocks := by
    intro s phase i place s' next inv here steps
    simp only [code, Option.some.injEq, Prod.mk.injEq] at steps
    obtain ⟨rfl, rfl⟩ := steps
    exact inv.setFlag (fun up => absurd rfl up) id (by simp)
  excludes := Inv.excludes

end Peterson

/-! ## The algorithm of Eisenberg and McGuire -/

namespace Eisenberg

variable {s s' : Shared} {phase : Fin threadNum → Phase Enter Leave} {i : Fin threadNum}
  {new : Phase Enter Leave}

/-- The flag of the thread is `In`. -/
def Claims : Phase Enter Leave → Prop
  | .locking (.conflicts _ _) => True
  | .locking .takeTurn => True
  | .locking _ => False
  | .holding => True
  | .unlocking _ => True

/-- The thread has stored `In`, and seen after that that the flag with the index `j` is not `In`. -/
def Checked (j : Nat) : Phase Enter Leave → Prop
  | .locking (.conflicts i conflict) => conflict = false ∧ j < i
  | .locking .takeTurn => True
  | .locking _ => False
  | .holding => True
  | .unlocking _ => True

theorem Checked.claims {j : Nat} (checked : Checked j new) : Claims new := by
  unfold Checked at checked
  unfold Claims
  split <;> simp_all

/-- Of two threads that both claim the critical section, one has not checked the other. -/
structure Inv (s : Shared) (phase : Fin threadNum → Phase Enter Leave) : Prop where
  claims : ∀ i : Fin threadNum, Claims (phase i) → s.flag i = .inside
  apart : ∀ i j : Fin threadNum, i ≠ j → Checked j (phase i) → ¬ Checked i (phase j)

/-- A thread moves; it has checked no more than before, except for threads that do not claim the
critical section. -/
theorem Inv.move (inv : Inv s phase) (flags : ∀ j, j ≠ i.val → s'.flag j = s.flag j)
    (flag : Claims new → s'.flag i = .inside)
    (checked : ∀ j : Fin threadNum, j ≠ i → Checked j new →
      Checked j (phase i) ∨ ¬ Claims (phase j)) : Inv s' (Function.update phase i new) := by
  constructor
  · refine phase_after (fun (j : Fin threadNum) state =>
      Claims state → s'.flag j = .inside) ?_ flag
    intro j differ claims
    rw [flags j fun same => differ (Fin.ext same)]
    exact inv.claims j claims
  · -- a new check of a thread finds that it does not claim the critical section
    have fresh : ∀ j : Fin threadNum, j ≠ i → Checked j new → ¬ Checked i (phase j) := by
      intro j differ sees seen
      rcases checked j differ sees with before | calm
      · exact inv.apart i j (Ne.symm differ) before seen
      · exact calm seen.claims
    intro j k differ sees seen
    by_cases first : j = i
    · subst first
      rw [Function.update_self] at sees
      rw [Function.update_of_ne (Ne.symm differ)] at seen
      exact fresh k (Ne.symm differ) sees seen
    · rw [Function.update_of_ne first] at sees
      by_cases second : k = i
      · subst second
        rw [Function.update_self] at seen
        exact fresh j first seen sees
      · rw [Function.update_of_ne second] at seen
        exact inv.apart j k differ sees seen

/-- A thread moves and leaves its flag alone. -/
theorem Inv.quiet (inv : Inv s phase) (flags : s'.flag = s.flag)
    (claims : Claims new → Claims (phase i))
    (checked : ∀ j : Fin threadNum, Checked j new → Checked j (phase i)) :
    Inv s' (Function.update phase i new) :=
  inv.move (fun j _ => by rw [flags]) (fun isIn => by rw [flags]; exact inv.claims i (claims isIn))
    fun j _ sees => .inl (checked j sees)

/-- A thread does not claim the critical section any more, or not yet. -/
theorem Inv.outside (inv : Inv s phase) (flags : ∀ j, j ≠ i.val → s'.flag j = s.flag j)
    (calm : ¬ Claims new) : Inv s' (Function.update phase i new) :=
  inv.move flags (fun claims => absurd claims calm) fun _ _ sees => absurd sees.claims calm

theorem Inv.excludes {j : Fin threadNum} (inv : Inv s phase) (first : phase i = .holding)
    (second : phase j = .holding) : i = j := by
  by_contra differ
  exact inv.apart i j differ (by rw [first]; trivial) (by rw [second]; trivial)

/-- The access to `FLAG[k]` in the loop over all threads. -/
theorem Inv.conflicts {k : Nat} {conflict : Bool} (inv : Inv s phase)
    (here : phase i = .locking (.conflicts k conflict)) :
    Inv s (Function.update phase i (.locking
      (.conflicts (k + 1) (conflict || (k ≠ i ∧ s.flag k = .inside))))) := by
  apply inv.move
  · exact fun _ _ => rfl
  · exact fun _ => inv.claims i (by rw [here]; trivial)
  · intro j differ sees
    obtain ⟨noConflict, upTo⟩ := sees
    rw [Bool.or_eq_false_iff, decide_eq_false_iff_not, not_and] at noConflict
    rcases Nat.lt_succ_iff_lt_or_eq.mp upTo with before | now
    · left
      rw [here]
      exact ⟨noConflict.1, before⟩
    · right
      intro claims
      refine noConflict.2 ?_ ?_
      · rw [← now]
        exact fun same => differ (Fin.ext same)
      · rw [← now]
        exact inv.claims j claims

/-- The end of that loop. -/
theorem Inv.passed {k : Nat} {conflict : Bool} (inv : Inv s phase)
    (here : phase i = .locking (.conflicts k conflict)) (all : ¬ k < threadNum) :
    Inv s (Function.update phase i (.locking (if conflict then .want else .takeTurn))) := by
  cases conflict with
  | true => exact inv.outside (fun _ _ => rfl) id
  | false =>
      apply inv.quiet rfl
      · rw [here]
        exact id
      · intro j _
        rw [here]
        exact ⟨rfl, Nat.lt_of_lt_of_le j.isLt (Nat.le_of_not_lt all)⟩

theorem Inv.locks (inv : Inv s phase) {place : Enter} {next : Option Enter}
    (here : phase i = .locking place) (steps : code.lockStep i s place = some (s', next)) :
    Inv s' (Function.update phase i (LockCode.afterLock next)) := by
  cases place with
  | want =>
      simp only [code, enterStep, Option.some.injEq, Prod.mk.injEq] at steps
      obtain ⟨rfl, rfl⟩ := steps
      exact inv.outside (fun j differ => Function.update_of_ne differ _ _) id
  | loadTurn =>
      simp only [code, enterStep, Option.some.injEq, Prod.mk.injEq] at steps
      obtain ⟨rfl, rfl⟩ := steps
      exact inv.outside (fun _ _ => rfl) id
  | prior j ringId =>
      simp only [code, enterStep, Option.some.injEq] at steps
      split at steps
      · simp only [Prod.mk.injEq] at steps
        obtain ⟨rfl, rfl⟩ := steps
        apply inv.outside (fun _ _ => rfl)
        split <;> exact id
      · simp only [Prod.mk.injEq] at steps
        obtain ⟨rfl, rfl⟩ := steps
        exact inv.outside (fun _ _ => rfl) id
  | claim =>
      simp only [code, enterStep, Option.some.injEq, Prod.mk.injEq] at steps
      obtain ⟨rfl, rfl⟩ := steps
      exact inv.move (fun j differ => Function.update_of_ne differ _ _)
        (fun _ => Function.update_self i.val _ s.flag)
        fun j _ sees => absurd sees.2 (Nat.not_lt_zero j)
  | conflicts k conflict =>
      simp only [code, enterStep, Option.some.injEq] at steps
      split at steps
      · simp only [Prod.mk.injEq] at steps
        obtain ⟨rfl, rfl⟩ := steps
        exact inv.conflicts here
      · next all =>
        simp only [Prod.mk.injEq] at steps
        obtain ⟨rfl, rfl⟩ := steps
        exact inv.passed here all
  | takeTurn =>
      simp only [code, enterStep, Option.some.injEq, Prod.mk.injEq] at steps
      obtain ⟨rfl, rfl⟩ := steps
      refine inv.quiet rfl ?_ ?_
      · rw [here]
        exact id
      · intro j
        rw [here]
        exact id

/-- The algorithm of Eisenberg and McGuire lets one thread in at a time. -/
def exclusion : code.Exclusion start where
  inv := Inv
  init := ⟨fun _ isIn => absurd isIn id, fun _ _ _ sees => absurd sees id⟩
  locks := fun inv here steps => inv.locks here steps
  leaves := by
    intro s phase i inv here
    apply inv.quiet rfl
    · rw [here]
      exact id
    · intro j
      rw [here]
      exact id
  unlocks := by
    intro s phase i place s' next inv here steps
    have claims : ∀ new : Phase Enter Leave, Claims new → Claims (phase i) := by
      rw [here]
      exact fun _ _ => trivial
    have checked : ∀ (j : Fin threadNum) (new : Phase Enter Leave),
        Checked j new → Checked j (phase i) := by
      rw [here]
      exact fun _ _ _ => trivial
    cases place with
    | next passed =>
        simp only [code, exitStep, Option.some.injEq] at steps
        split at steps <;>
          · simp only [Prod.mk.injEq] at steps
            obtain ⟨rfl, rfl⟩ := steps
            exact inv.quiet rfl (claims _) fun j => checked j _
    | giveTurn next =>
        simp only [code, exitStep, Option.some.injEq, Prod.mk.injEq] at steps
        obtain ⟨rfl, rfl⟩ := steps
        exact inv.quiet rfl (claims _) fun j => checked j _
    | out =>
        simp only [code, exitStep, Option.some.injEq, Prod.mk.injEq] at steps
        obtain ⟨rfl, rfl⟩ := steps
        exact inv.outside (fun j differ => Function.update_of_ne differ _ _) id
  excludes := Inv.excludes

end Eisenberg

/-! ## Compare and exchange -/

/-- `OCCUPIED` is set when a thread has entered, and one has at most. -/
structure OccupiedInv {Id : Type} (occupied : Bool) (phase : Id → Phase Unit Unit) : Prop where
  occupied : ∀ i, (phase i).Entered → occupied = true
  one : ∀ i j, (phase i).Entered → (phase j).Entered → i = j

/-- The lock of `adder_atomic.rs` lets one thread in at a time. -/
def occupiedExclusion (Id : Type) [DecidableEq Id] : (occupied Id).Exclusion false where
  inv := OccupiedInv
  init := ⟨fun _ isIn => absurd isIn id, fun _ _ isIn => absurd isIn id⟩
  locks := by
    intro s phase i place s' next inv here steps
    simp only [occupied, Option.some.injEq, Prod.mk.injEq] at steps
    obtain ⟨rfl, rfl⟩ := steps
    cases s with
    | true =>
        rw [if_pos rfl, LockCode.afterLock, ← here, Function.update_eq_self]
        exact inv
    | false =>
        have nobody : ∀ j, ¬ (phase j).Entered := fun j isIn => by simpa using inv.occupied j isIn
        have mine : ∀ j, (Function.update phase i .holding j).Entered → j = i := by
          intro j isIn
          by_contra differ
          rw [Function.update_of_ne differ] at isIn
          exact nobody j isIn
        exact ⟨fun _ _ => rfl, fun j k first second => (mine j first).trans (mine k second).symm⟩
  leaves := by
    intro s phase i inv here
    have same : ∀ j, (Function.update phase i (.unlocking ()) j).Entered → (phase j).Entered := by
      refine phase_after (fun j state => state.Entered → (phase j).Entered)
        (fun j _ => id) fun _ => ?_
      rw [here]
      trivial
    exact ⟨fun j isIn => inv.occupied j (same j isIn),
      fun j k first second => inv.one j k (same j first) (same k second)⟩
  unlocks := by
    intro s phase i place s' next inv here steps
    simp only [occupied, Option.some.injEq, Prod.mk.injEq] at steps
    obtain ⟨rfl, rfl⟩ := steps
    have nobody : ∀ j, ¬ (Function.update phase i (.locking ()) j).Entered := by
      refine phase_after (fun _ state => ¬ state.Entered) ?_ id
      intro j differ isIn
      exact differ (inv.one j i isIn (by rw [here]; trivial))
    exact ⟨fun j isIn => absurd isIn (nobody j), fun j _ isIn => absurd isIn (nobody j)⟩
  excludes := by
    intro s phase i j inv first second
    exact inv.one i j (by rw [first]; trivial) (by rw [second]; trivial)

/-! ## The mutexes of the kernel -/

namespace KernelMutex

variable {n : Nat} {mutex mutex' : Mutex} {phase : Fin n → Phase MutexEnter Unit} {i j : Fin n}
  {new : Phase MutexEnter Unit}

/-- The thread has the mutex: it has been let in, or the mutex has been handed to it. -/
def Has (waitQueue : List TaskId) (i : Fin n) : Phase MutexEnter Unit → Prop
  | .locking .call => False
  | .locking .queued => i.val ∉ waitQueue
  | .holding => True
  | .unlocking _ => True

/-- One thread has the mutex at most, and it is locked then; the queue holds threads that have been
blocked, each once. -/
structure Inv (mutex : Mutex) (phase : Fin n → Phase MutexEnter Unit) : Prop where
  locked : ∀ i, Has mutex.waitQueue i (phase i) → mutex.locked = true
  one : ∀ i j, Has mutex.waitQueue i (phase i) → Has mutex.waitQueue j (phase j) → i = j
  free : mutex.locked = false → mutex.waitQueue = []
  waiters : ∀ t ∈ mutex.waitQueue, ∃ i : Fin n, i.val = t ∧ phase i = .locking .queued
  nodup : mutex.waitQueue.Nodup

/-- A thread whose phase differs in nothing that matters. -/
theorem Inv.same (inv : Inv mutex phase)
    (has : Has mutex.waitQueue i new → Has mutex.waitQueue i (phase i))
    (notQueued : i.val ∉ mutex.waitQueue) : Inv mutex (Function.update phase i new) := by
  have before : ∀ j, Has mutex.waitQueue j (Function.update phase i new j) →
      Has mutex.waitQueue j (phase j) :=
    phase_after (fun j state => Has mutex.waitQueue j state →
      Has mutex.waitQueue j (phase j)) (fun j _ => id) has
  refine ⟨fun j isIn => inv.locked j (before j isIn),
    fun j k first second => inv.one j k (before j first) (before k second), inv.free, ?_, inv.nodup⟩
  intro t mem
  obtain ⟨j, rfl, queued⟩ := inv.waiters t mem
  refine ⟨j, rfl, ?_⟩
  have differ : j ≠ i := by
    rintro rfl
    exact notQueued mem
  rwa [Function.update_of_ne differ]

/-- A thread that has called is not in the queue. -/
theorem Inv.notQueued (inv : Inv mutex phase) (here : phase i ≠ .locking .queued) :
    i.val ∉ mutex.waitQueue := by
  intro mem
  obtain ⟨j, eq, queued⟩ := inv.waiters _ mem
  rw [Fin.ext eq] at queued
  exact here queued

/-- The thread gets a free mutex. -/
theorem Inv.acquire (inv : Inv mutex phase) (isFree : mutex.locked = false)
    (locked : mutex'.locked = true) (queue : mutex'.waitQueue = []) :
    Inv mutex' (Function.update phase i .holding) := by
  have nobody : ∀ j, ¬ Has mutex.waitQueue j (phase j) := by
    intro j isIn
    rw [inv.locked j isIn] at isFree
    simp at isFree
  have mine : ∀ j, Has mutex'.waitQueue j (Function.update phase i .holding j) → j = i := by
    intro j isIn
    by_contra differ
    rw [Function.update_of_ne differ, queue, ← inv.free isFree] at isIn
    exact nobody j isIn
  refine ⟨fun _ _ => locked, fun j k first second => (mine j first).trans (mine k second).symm,
    fun _ => queue, ?_, ?_⟩
  · simp [queue]
  · simp [queue]

/-- The thread goes to the end of the queue of a locked mutex. -/
theorem Inv.enqueue {waitQueue : List TaskId} (inv : Inv (.blocking true waitQueue) phase)
    (here : phase i = .locking .call) :
    Inv (.blocking true (waitQueue ++ [i.val])) (Function.update phase i (.locking .queued)) := by
  have before : ∀ j, Has (waitQueue ++ [i.val]) j
      (Function.update phase i (.locking .queued) j) → Has waitQueue j (phase j) := by
    refine phase_after (fun j state => Has (waitQueue ++ [i.val]) j state →
      Has waitQueue j (phase j)) ?_ ?_
    · intro j differ isIn
      unfold Has at isIn ⊢
      split at isIn
      · exact isIn
      · exact fun mem => isIn (List.mem_append_left _ mem)
      · trivial
      · trivial
    · intro isIn
      exact absurd (List.mem_append_right _ List.mem_cons_self) isIn
  have absent : i.val ∉ waitQueue := inv.notQueued (by rw [here]; simp)
  refine ⟨fun _ _ => rfl, fun j k first second => inv.one j k (before j first) (before k second),
    fun free => absurd free (by simp [Mutex.locked]), ?_, ?_⟩
  · intro t mem
    by_cases isNew : t = i.val
    · exact ⟨i, isNew.symm, Function.update_self ..⟩
    · have old : t ∈ waitQueue := by
        rcases List.mem_append.mp mem with old | last
        · exact old
        · exact absurd (List.mem_singleton.mp last) isNew
      obtain ⟨j, rfl, queued⟩ := inv.waiters t old
      refine ⟨j, rfl, ?_⟩
      rw [Function.update_of_ne fun same => isNew (by rw [same])]
      exact queued
  · refine List.nodup_append.mpr ⟨inv.nodup, List.nodup_singleton _, ?_⟩
    rintro t mem u isNew rfl
    rw [List.mem_singleton.mp isNew] at mem
    exact absent mem

/-- The thread that has the mutex hands it to the first one of the queue. -/
theorem Inv.handOver {waking : TaskId} {waitQueue : List TaskId}
    (inv : Inv (.blocking true (waking :: waitQueue)) phase)
    (has : Has (waking :: waitQueue) i (phase i)) (here : phase i ≠ .locking .queued) :
    Inv (.blocking true waitQueue) (Function.update phase i (.locking .call)) := by
  -- whoever has it now is the one that was first in the queue
  have first : ∀ j, Has waitQueue j (Function.update phase i (.locking .call) j) →
      j.val = waking := by
    refine phase_after (fun j state => Has waitQueue j state → j.val = waking) ?_
      fun isIn => absurd isIn id
    intro j differ isIn
    by_contra other
    refine differ (inv.one j i ?_ has)
    unfold Has at isIn ⊢
    split at isIn
    · exact isIn
    · intro mem
      rcases List.mem_cons.mp mem with eq | mem
      · exact other eq
      · exact isIn mem
    · trivial
    · trivial
  have absent := inv.notQueued here
  refine ⟨fun _ _ => rfl, fun j k isIn isIn' => Fin.ext ((first j isIn).trans (first k isIn').symm),
    fun free => absurd free (by simp [Mutex.locked]), ?_, (List.nodup_cons.mp inv.nodup).2⟩
  intro t mem
  obtain ⟨j, rfl, queued⟩ := inv.waiters t (List.mem_cons_of_mem _ mem)
  refine ⟨j, rfl, ?_⟩
  have differ : j ≠ i := by
    rintro rfl
    exact absent (List.mem_cons_of_mem _ mem)
  rwa [Function.update_of_ne differ]

/-- The thread that has the mutex frees it. -/
theorem Inv.release (inv : Inv mutex phase) (has : Has mutex.waitQueue i (phase i))
    (queue : mutex.waitQueue = []) (queue' : mutex'.waitQueue = []) :
    Inv mutex' (Function.update phase i (.locking .call)) := by
  have nobody : ∀ j, ¬ Has mutex'.waitQueue j (Function.update phase i (.locking .call) j) := by
    refine phase_after (fun j state => ¬ Has mutex'.waitQueue j state) ?_ id
    intro j differ isIn
    rw [queue', ← queue] at isIn
    exact differ (inv.one j i isIn has)
  refine ⟨fun j isIn => absurd isIn (nobody j), fun j _ isIn => absurd isIn (nobody j),
    fun _ => queue', ?_, ?_⟩
  · simp [queue']
  · simp [queue']

theorem Inv.locks (inv : Inv mutex phase) {place : MutexEnter} {next : Option MutexEnter}
    (here : phase i = .locking place)
    (steps : (kernelMutex n).lockStep i mutex place = some (mutex', next)) :
    Inv mutex' (Function.update phase i (LockCode.afterLock next)) := by
  cases place with
  | call =>
      simp only [kernelMutex, Option.some.injEq, Prod.mk.injEq] at steps
      obtain ⟨rfl, rfl⟩ := steps
      cases mutex with
      | blocking locked waitQueue =>
          cases locked with
          | true => exact inv.enqueue here
          | false =>
              obtain rfl : waitQueue = [] := inv.free rfl
              exact inv.acquire rfl rfl rfl
      | spin locked =>
          cases locked with
          | true =>
              rw [LockCode.afterLock, ← here, Function.update_eq_self]
              exact inv
          | false => exact inv.acquire rfl rfl rfl
  | queued =>
      simp only [kernelMutex] at steps
      split at steps
      · simp at steps
      · next absent =>
        simp only [Option.some.injEq, Prod.mk.injEq] at steps
        obtain ⟨rfl, rfl⟩ := steps
        refine inv.same (fun _ => ?_) absent
        rw [here]
        exact absent

/-- A mutex of the kernel lets one thread in at a time. -/
def exclusion (n : Nat) (blocking : Bool) :
    (kernelMutex n).Exclusion (if blocking then .blocking false [] else .spin false) where
  inv := Inv
  init := by
    cases blocking with
    | true => exact ⟨fun _ isIn => absurd isIn id, fun _ _ isIn => absurd isIn id, fun _ => rfl,
        fun _ mem => absurd mem List.not_mem_nil, List.nodup_nil⟩
    | false => exact ⟨fun _ isIn => absurd isIn id, fun _ _ isIn => absurd isIn id, fun _ => rfl,
        fun _ mem => absurd mem List.not_mem_nil, List.nodup_nil⟩
  locks := fun inv here steps => inv.locks here steps
  leaves := by
    intro mutex phase i inv here
    refine inv.same (fun _ => ?_) (inv.notQueued ?_)
    · rw [here]
      trivial
    · rw [here]
      simp
  unlocks := by
    intro mutex phase i place mutex' next inv here steps
    have has : ∀ waitQueue, Has waitQueue i (phase i) := by
      rw [here]
      exact fun _ => trivial
    cases mutex with
    | blocking locked waitQueue =>
        cases locked with
        | false => simp [kernelMutex] at steps
        | true =>
            simp only [kernelMutex, Option.some.injEq, Prod.mk.injEq] at steps
            obtain ⟨rfl, rfl⟩ := steps
            cases waitQueue with
            | nil => exact inv.release (has _) rfl rfl
            | cons waking waitQueue => exact inv.handOver (has _) (by rw [here]; simp)
    | spin locked =>
        cases locked with
        | false => simp [kernelMutex] at steps
        | true =>
            simp only [kernelMutex, Option.some.injEq, Prod.mk.injEq] at steps
            obtain ⟨rfl, rfl⟩ := steps
            exact inv.release (has _) rfl rfl
  excludes := by
    intro mutex phase i j inv first second
    exact inv.one i j (by rw [first]; trivial) (by rw [second]; trivial)

/-- A mutex that is locked belongs to a thread. -/
def Owned (mutex : Mutex) (phase : Fin n → Phase MutexEnter Unit) : Prop :=
  mutex.locked = true → ∃ i, Has mutex.waitQueue i (phase i)

theorem Owned.locks (owned : Owned mutex phase) {place : MutexEnter} {next : Option MutexEnter}
    (here : phase i = .locking place)
    (steps : (kernelMutex n).lockStep i mutex place = some (mutex', next)) :
    Owned mutex' (Function.update phase i (LockCode.afterLock next)) := by
  have mine : Has mutex'.waitQueue i (Function.update phase i .holding i) := by
    rw [Function.update_self]
    trivial
  cases place with
  | call =>
      simp only [kernelMutex, Option.some.injEq, Prod.mk.injEq] at steps
      obtain ⟨rfl, rfl⟩ := steps
      cases mutex with
      | blocking locked waitQueue =>
          cases locked with
          | false => exact fun _ => ⟨i, mine⟩
          | true =>
              intro _
              obtain ⟨j, has⟩ := owned rfl
              have differ : j ≠ i := by
                rintro rfl
                rw [here] at has
                exact has
              refine ⟨j, ?_⟩
              rw [Function.update_of_ne differ]
              cases state : phase j with
              | locking place =>
                  rw [state] at has
                  cases place with
                  | call => exact has
                  | queued =>
                      intro mem
                      rcases List.mem_append.mp mem with old | last
                      · exact has old
                      · exact differ (Fin.ext (List.mem_singleton.mp last))
              | holding => trivial
              | unlocking place => trivial
      | spin locked =>
          cases locked with
          | false => exact fun _ => ⟨i, mine⟩
          | true =>
              rw [LockCode.afterLock, ← here, Function.update_eq_self]
              exact owned
  | queued =>
      simp only [kernelMutex] at steps
      split at steps
      · simp at steps
      · simp only [Option.some.injEq, Prod.mk.injEq] at steps
        obtain ⟨rfl, rfl⟩ := steps
        exact fun _ => ⟨i, mine⟩

theorem Owned.leaves (owned : Owned mutex phase) :
    Owned mutex (Function.update phase i (.unlocking ())) := by
  intro locked
  obtain ⟨j, has⟩ := owned locked
  refine ⟨j, ?_⟩
  by_cases same : j = i
  · subst same
    rw [Function.update_self]
    trivial
  · rwa [Function.update_of_ne same]

theorem Owned.unlocks (inv : Inv mutex phase) {next : Option Unit}
    (here : phase i = .unlocking ())
    (steps : (kernelMutex n).unlockStep i mutex () = some (mutex', next)) :
    Owned mutex' (Function.update phase i ((kernelMutex n).afterUnlock next)) := by
  cases mutex with
  | blocking locked waitQueue =>
      cases locked with
      | false => simp [kernelMutex] at steps
      | true =>
          simp only [kernelMutex, Option.some.injEq, Prod.mk.injEq] at steps
          obtain ⟨rfl, rfl⟩ := steps
          cases waitQueue with
          | nil => exact fun locked => absurd locked (by simp [Mutex.after, Mutex.locked])
          | cons waking waitQueue =>
              -- it is handed to the first thread of the queue
              intro _
              obtain ⟨j, rfl, queued⟩ := inv.waiters waking List.mem_cons_self
              have differ : j ≠ i := by
                rintro rfl
                rw [here] at queued
                simp at queued
              refine ⟨j, ?_⟩
              rw [Function.update_of_ne differ, queued]
              exact (List.nodup_cons.mp inv.nodup).1
  | spin locked =>
      cases locked with
      | false => simp [kernelMutex] at steps
      | true =>
          simp only [kernelMutex, Option.some.injEq, Prod.mk.injEq] at steps
          obtain ⟨rfl, rfl⟩ := steps
          exact fun locked => absurd locked (by simp [Mutex.after, Mutex.locked])

/-- Whoever has a mutex is in, or its next turn lets it in. -/
theorem Owned.moves (owned : Owned mutex phase) (locked : mutex.locked = true) :
    ∃ j, (phase j).Entered ∨ ∃ place, phase j = .locking place ∧ place ≠ (kernelMutex n).lock ∧
      ¬ (kernelMutex n).Waits j mutex place := by
  obtain ⟨j, has⟩ := owned locked
  refine ⟨j, ?_⟩
  cases state : phase j with
  | locking place =>
      rw [state] at has
      cases place with
      | call => exact absurd has id
      | queued =>
          refine .inr ⟨.queued, rfl, by simp [kernelMutex], fun waits => ?_⟩
          have absent : ¬ j.val ∈ mutex.waitQueue := has
          have stays := waits (mutex, none) (if_neg absent)
          simp at stays
  | holding => exact .inl trivial
  | unlocking place => exact .inl trivial

/-- A mutex of the kernel lets somebody in when nobody has it. -/
def lively (n : Nat) (blocking : Bool) :
    (kernelMutex n).Lively (if blocking then .blocking false [] else .spin false) where
  inv mutex phase := Inv mutex phase ∧ Owned mutex phase
  init := by
    refine ⟨(exclusion n blocking).init, fun locked => ?_⟩
    cases blocking with
    | true => exact absurd locked (by simp [Mutex.locked])
    | false => exact absurd locked (by simp [Mutex.locked])
  locks := fun inv here steps => ⟨inv.1.locks here steps, inv.2.locks here steps⟩
  leaves := fun inv here => ⟨(exclusion n blocking).leaves inv.1 here, inv.2.leaves⟩
  unlocks := fun inv here steps =>
    ⟨(exclusion n blocking).unlocks inv.1 here steps, Owned.unlocks inv.1 here steps⟩
  excludes := fun inv first second => (exclusion n blocking).excludes inv.1 first second
  enterRank
    | .call => 1
    | .queued => 0
  leaveRank _ := 0
  lockFalls := by
    intro i mutex place mutex' place' steps
    cases place with
    | call =>
        simp only [kernelMutex, Option.some.injEq, Prod.mk.injEq] at steps
        obtain ⟨rfl, waits⟩ := steps
        cases mutex with
        | blocking locked waitQueue =>
            cases locked with
            | true =>
                obtain rfl : MutexEnter.queued = place' := by simpa using waits
                exact .inr Nat.zero_lt_one
            | false => simp at waits
        | spin locked =>
            cases locked with
            | true =>
                obtain rfl : MutexEnter.call = place' := by simpa using waits
                exact .inl ⟨rfl, rfl⟩
            | false => simp at waits
    | queued =>
        simp only [kernelMutex] at steps
        split at steps <;> simp at steps
  unlockFalls := by
    intro i mutex place mutex' place' steps
    simp only [kernelMutex] at steps
    split at steps <;> simp at steps
  leavesAlways := by
    intro mutex phase i place inv here
    have locked := inv.1.locked i (by rw [here]; trivial)
    cases mutex with
    | blocking flag waitQueue =>
        obtain rfl : flag = true := locked
        exact ⟨_, rfl⟩
    | spin flag =>
        obtain rfl : flag = true := locked
        exact ⟨_, rfl⟩
  moves := by
    intro mutex phase i place inv here waits
    apply inv.2.moves
    by_contra notLocked
    rw [Bool.not_eq_true] at notLocked
    -- a free mutex lets the thread in
    cases place with
    | call =>
        have stays := waits _ rfl
        cases mutex with
        | blocking flag waitQueue =>
            obtain rfl : flag = false := notLocked
            simp at stays
        | spin flag =>
            obtain rfl : flag = false := notLocked
            simp at stays
    | queued =>
        have absent : ¬ i.val ∈ mutex.waitQueue := by
          rw [inv.1.free notLocked]
          exact List.not_mem_nil
        have stays := waits (mutex, none) (if_neg absent)
        simp at stays

end KernelMutex

/-! ## The programs -/

/-- Nobody interferes with `GUARD`: it is 0 before and after, and 1 within. -/
theorem criticalTest_sequential (Id : Type) : Sequential (criticalTest Id)
    (fun _ guard => guard = 0) fun _ guard call => guard = if call = .enter then 0 else 1 where
  enters := by
    rintro n guard rfl
    rfl
  steps := by
    rintro n guard call i rfl
    cases call with
    | enter => exact ⟨1, some (.claim 0), rfl, by simp, by simp⟩
    | claim round =>
        refine ⟨1, _, rfl, ?_, by simp⟩
        intro call eq
        rw [Option.some.injEq] at eq
        subst eq
        split <;> simp
    | exit => exact ⟨0, none, rfl, by simp, by simp⟩

/-- Nobody interferes with `A`: it counts the critical sections. -/
theorem adding_sequential (Id : Type) : Sequential (adding Id) (fun n a => a = UInt64.ofNat n)
    fun n a place => a = UInt64.ofNat n ∧ ∀ cur, place = .store cur → cur = a where
  enters := by
    intro n a eq
    exact ⟨eq, fun cur here => Adding.noConfusion here⟩
  steps := by
    rintro n a place i ⟨rfl, loaded⟩
    cases place with
    | load =>
        refine ⟨_, some (.store (UInt64.ofNat n)), rfl, ?_, by simp⟩
        intro place eq
        rw [Option.some.injEq] at eq
        subst eq
        exact ⟨rfl, fun cur here => (Adding.store.inj here).symm⟩
    | store cur =>
        obtain rfl := loaded cur rfl
        refine ⟨_, none, rfl, by simp, fun _ => ?_⟩
        rw [UInt64.ofNat_add]
        rfl

/-- `eisenberg.rs`, in which `thread_fn` has two rounds. -/
def Eisenberg.threads :
    Threads (Fin threadNum) (Shared × UInt64) (Client Enter Leave CriticalTest) :=
  clients code (criticalTest _) 2

/-- `peterson.rs`, in which `thread_fn` has 1000 rounds. -/
def Peterson.threads : Threads (Fin 2) (Shared × UInt64) (Client Enter Unit CriticalTest) :=
  clients code (criticalTest _) 1000

/-- `eisenberg.rs`: in every schedule of the ten threads no assertion of the critical test fails,
and one thread at most is in the critical section. -/
theorem eisenberg_never_conflicts (schedule : List (Fin Eisenberg.threadNum)) :
    let w := Eisenberg.threads.run (clientsStart Eisenberg.code 2 Eisenberg.start 0) schedule
    (∀ i, (w.locals i).pc ≠ .panicked) ∧
      ∀ i j call call', (w.locals i).pc = .body call → (w.locals j).pc = .body call' → i = j := by
  have ok := clients_ok Eisenberg.exclusion (criticalTest_sequential _) 2 rfl schedule
  exact ⟨ok.calm, fun i j call call' => ok.alone⟩

/-- `peterson.rs`: in every schedule of the two threads no assertion of the critical test fails, and
one thread at most is in the critical section. -/
theorem peterson_never_conflicts (schedule : List (Fin 2)) :
    let w := Peterson.threads.run (clientsStart Peterson.code 1000 Peterson.start 0) schedule
    (∀ i, (w.locals i).pc ≠ .panicked) ∧
      ∀ i j call call', (w.locals i).pc = .body call → (w.locals j).pc = .body call' → i = j := by
  have ok := clients_ok Peterson.exclusion (criticalTest_sequential _) 1000 rfl schedule
  exact ⟨ok.calm, fun i j call call' => ok.alone⟩

/-- What `main` of the adders asserts when it has waited for all threads. -/
def AddsUp {Id Shared Enter Leave : Type} [Fintype Id] (perThread : Nat)
    (w : World Id (Shared × UInt64) (Client Enter Leave Adding)) : Prop :=
  (∀ i, (w.locals i).pc = .done) →
    w.shared.2 = UInt64.ofNat perThread * UInt64.ofNat (Fintype.card Id)

theorem addsUp_clients {Id Shared Enter Leave : Type} [DecidableEq Id] [Fintype Id]
    {code : LockCode Id Shared Enter Leave} {start : Shared} (exclusion : code.Exclusion start)
    (perThread : Nat) (schedule : List Id) :
    AddsUp perThread ((clients code (adding Id) perThread).run
      (clientsStart code perThread start 0) schedule) := by
  intro done
  have first : (0 : UInt64) = UInt64.ofNat 0 := rfl
  have ok := clients_ok exclusion (adding_sequential Id) perThread first schedule
  rw [ok.outside (by simp [done]), clients_done (adding Id) done, Nat.mul_comm]
  exact UInt64.ofNat_mul ..

/-- `adder_peterson_spin.rs`, `adder_peterson_yield.rs`, `adder_atomic.rs`, `adder_mutex_spin.rs`
and `adder_mutex_blocking.rs`, for every number of threads, of rounds of each, and in every
schedule: when all threads have ended, `A` is what `main` asserts, and `unlock` of the kernel never
finds its mutex unlocked. -/
theorem adders_lose_nothing (threadCount perThread : Nat) :
    (∀ schedule, AddsUp perThread ((clients Peterson.code (adding _) perThread).run
      (clientsStart Peterson.code perThread Peterson.start 0) schedule)) ∧
    (∀ schedule, AddsUp perThread ((clients (occupied (Fin threadCount)) (adding _) perThread).run
      (clientsStart (occupied _) perThread false 0) schedule)) ∧
    ∀ (blocking : Bool) schedule,
      let mutex : Mutex := if blocking then .blocking false [] else .spin false
      let w := (clients (kernelMutex threadCount) (adding _) perThread).run
        (clientsStart (kernelMutex threadCount) perThread mutex 0) schedule
      AddsUp perThread w ∧ ∀ i, (w.locals i).pc = .unlock () → w.shared.1.locked = true := by
  refine ⟨addsUp_clients Peterson.exclusion perThread,
    addsUp_clients (occupiedExclusion (Fin threadCount)) perThread, ?_⟩
  intro blocking schedule mutex w
  refine ⟨addsUp_clients (KernelMutex.exclusion threadCount blocking) perThread schedule, ?_⟩
  intro i leaving
  have first : (0 : UInt64) = UInt64.ofNat 0 := rfl
  have ok := clients_ok (KernelMutex.exclusion threadCount blocking) (adding_sequential _) perThread
    first schedule
  apply ok.lock.locked i
  simp only [w, mutex] at leaving
  simp only [Client.phase, leaving]
  trivial

end CoreFromDust.User
