import CoreFromDust.Lib.Interleaving

/-!
# Locks and their clients

The code of a lock is what threads do in `lock` and `unlock`. An invariant that shows that it lets
one thread in at a time, whatever the threads do inside, is an `Exclusion`. The critical sections of
clients then run as if they were not interleaved.
-/

namespace CoreFromDust.Lib

variable {Id Shared Data Enter Leave Inner : Type}

/-- The code of `lock` and `unlock`. The next access of a thread may be the last one of the call. A
thread that waits has none. -/
structure LockCode (Id Shared Enter Leave : Type) where
  lock : Enter
  unlock : Leave
  lockStep : Id → Shared → Enter → Option (Shared × Option Enter)
  unlockStep : Id → Shared → Leave → Option (Shared × Option Leave)

/-- The code of a critical section. It has no next access where an assertion fails. -/
structure CriticalSection (Id Data Inner : Type) where
  enter : Inner
  step : Id → Data → Inner → Option (Data × Option Inner)

/-- Where a thread is with respect to a lock. Whoever is away may call `lock` next. -/
inductive Phase (Enter Leave : Type) where
  | locking (place : Enter)
  | holding
  | unlocking (place : Leave)

/-- The thread has been let in and not left yet. -/
def Phase.Entered : Phase Enter Leave → Prop
  | .locking _ => False
  | .holding => True
  | .unlocking _ => True

namespace LockCode

variable {code : LockCode Id Shared Enter Leave}

/-- The phase after an access in `lock`. -/
def afterLock : Option Enter → Phase Enter Leave
  | some place => .locking place
  | none => .holding

/-- The phase after an access in `unlock`. -/
def afterUnlock (code : LockCode Id Shared Enter Leave) : Option Leave → Phase Enter Leave
  | some place => .unlocking place
  | none => .locking code.lock

/-- An invariant of the lock and the phases of all threads which shows that one thread holds it at
most. -/
structure Exclusion [DecidableEq Id] (code : LockCode Id Shared Enter Leave) (start : Shared) where
  inv : Shared → (Id → Phase Enter Leave) → Prop
  init : inv start fun _ => .locking code.lock
  locks : ∀ {s phase i place s' next}, inv s phase → phase i = .locking place →
    code.lockStep i s place = some (s', next) → inv s' (Function.update phase i (afterLock next))
  leaves : ∀ {s phase i}, inv s phase → phase i = .holding →
    inv s (Function.update phase i (.unlocking code.unlock))
  unlocks : ∀ {s phase i place s' next}, inv s phase → phase i = .unlocking place →
    code.unlockStep i s place = some (s', next) →
    inv s' (Function.update phase i (code.afterUnlock next))
  excludes : ∀ {s phase i j}, inv s phase → phase i = .holding → phase j = .holding → i = j

/-- A turn of a thread in `lock` does nothing. -/
def Waits (code : LockCode Id Shared Enter Leave) (i : Id) (s : Shared) (place : Enter) : Prop :=
  ∀ next, code.lockStep i s place = some next → next = (s, some place)

/-- A lock that lets a thread in when nobody has it: a thread waits only while another one is in, or
while one that has started to wait goes on. -/
structure Lively [DecidableEq Id] (code : LockCode Id Shared Enter Leave) (start : Shared) extends
    code.Exclusion start where
  enterRank : Enter → Nat
  leaveRank : Leave → Nat
  lockFalls : ∀ {i s place s' place'}, code.lockStep i s place = some (s', some place') →
    (s' = s ∧ place' = place) ∨ enterRank place' < enterRank place
  unlockFalls : ∀ {i s place s' place'}, code.unlockStep i s place = some (s', some place') →
    leaveRank place' < leaveRank place
  leavesAlways : ∀ {s phase i place}, inv s phase → phase i = .unlocking place →
    ∃ next, code.unlockStep i s place = some next
  moves : ∀ {s phase i place}, inv s phase → phase i = .locking place → code.Waits i s place →
    ∃ j, (phase j).Entered ∨
      ∃ place', phase j = .locking place' ∧ place' ≠ code.lock ∧ ¬ code.Waits j s place'

end LockCode

/-! ## Clients -/

/-- Where a client is. -/
inductive ClientPc (Enter Leave Inner : Type) where
  | lock (place : Enter)
  | body (inner : Inner)
  | unlock (place : Leave)
  | done
  /-- an assertion has failed in the critical section -/
  | panicked
  deriving DecidableEq, Repr

/-- A client, with the rounds that it has finished. -/
structure Client (Enter Leave Inner : Type) where
  finished : Nat
  pc : ClientPc Enter Leave Inner
  deriving DecidableEq, Repr

/-- A client before a round, if there is one. -/
def Client.nextRound (code : LockCode Id Shared Enter Leave) (rounds finished : Nat) :
    Client Enter Leave Inner :=
  ⟨finished, if finished < rounds then .lock code.lock else .done⟩

/-- Threads that lock, run the critical section and unlock, in as many rounds. -/
def clients (code : LockCode Id Shared Enter Leave) (critical : CriticalSection Id Data Inner)
    (rounds : Nat) : Threads Id (Shared × Data) (Client Enter Leave Inner) where
  step id s t :=
    match t.pc with
    | .lock place => (code.lockStep id s.1 place).map fun (shared, next) =>
        ((shared, s.2), { t with pc := match next with
          | some place => .lock place
          | none => .body critical.enter })
    | .body inner =>
        match critical.step id s.2 inner with
        | none => some (s, { t with pc := .panicked })
        | some (data, next) => some ((s.1, data), { t with pc := match next with
            | some inner => .body inner
            | none => .unlock code.unlock })
    | .unlock place => (code.unlockStep id s.1 place).map fun (shared, next) =>
        ((shared, s.2), match next with
          | some place => { t with pc := .unlock place }
          | none => Client.nextRound code rounds (t.finished + 1))
    | .done => none
    | .panicked => none

namespace Client

/-- The phase of a client. -/
def phase (code : LockCode Id Shared Enter Leave) (t : Client Enter Leave Inner) :
    Phase Enter Leave :=
  match t.pc with
  | .lock place => .locking place
  | .body _ => .holding
  | .unlock place => .unlocking place
  | .done => .locking code.lock
  | .panicked => .holding

/-- The critical sections that a client has left. -/
def sections (t : Client Enter Leave Inner) : Nat :=
  match t.pc with
  | .unlock _ => t.finished + 1
  | _ => t.finished

theorem phase_nextRound (code : LockCode Id Shared Enter Leave) (rounds finished : Nat) :
    (nextRound code rounds finished : Client Enter Leave Inner).phase code =
    .locking code.lock := by
  unfold nextRound phase
  split_ifs <;> rfl

theorem phase_update [DecidableEq Id] (code : LockCode Id Shared Enter Leave)
    (locals : Id → Client Enter Leave Inner) (i : Id) (t : Client Enter Leave Inner) :
    (fun j => (Function.update locals i t j).phase code) =
      Function.update (fun j => (locals j).phase code) i (t.phase code) :=
  Function.comp_update (phase code) locals i t

theorem sections_nextRound (code : LockCode Id Shared Enter Leave) (rounds finished : Nat) :
    (nextRound code rounds finished : Client Enter Leave Inner).sections = finished := by
  unfold nextRound sections
  split_ifs <;> rfl

/-- The client is done when it has finished all rounds. -/
def Counted (rounds : Nat) (t : Client Enter Leave Inner) : Prop :=
  t.finished ≤ rounds ∧ (t.pc = .done ↔ t.finished = rounds)

theorem counted_nextRound {code : LockCode Id Shared Enter Leave} {rounds finished : Nat}
    (le : finished ≤ rounds) :
    (nextRound code rounds finished : Client Enter Leave Inner).Counted rounds := by
  refine ⟨le, ?_⟩
  unfold nextRound
  dsimp only
  split_ifs with more
  · exact iff_of_false (by simp) (Nat.ne_of_lt more)
  · exact iff_of_true rfl (Nat.le_antisymm le (Nat.le_of_not_lt more))

/-- Every turn keeps the count of rounds. -/
theorem counted_step {code : LockCode Id Shared Enter Leave}
    {critical : CriticalSection Id Data Inner} {rounds : Nat} {i : Id}
    {t t' : Client Enter Leave Inner} {s s' : Shared × Data}
    (counted : t.Counted rounds)
    (takes : (clients code critical rounds).step i s t = some (s', t')) :
    t'.Counted rounds := by
  -- a turn within a round leaves the count alone
  have within : t.pc ≠ .done → ∀ pc, pc ≠ .done →
      ({ t with pc } : Client Enter Leave Inner).Counted rounds := by
    intro notDone pc pcNotDone
    refine ⟨counted.1, iff_of_false pcNotDone ?_⟩
    exact fun all => notDone (counted.2.mpr all)
  cases pc : t.pc with
  | lock place =>
      simp only [clients, pc] at takes
      obtain ⟨⟨lock, next⟩, steps, eq⟩ := Option.map_eq_some_iff.mp takes
      simp only [Prod.mk.injEq] at eq
      obtain ⟨rfl, rfl⟩ := eq
      apply within (by simp [pc])
      split <;> simp
  | body inner =>
      simp only [clients, pc] at takes
      split at takes
      · simp only [Option.some.injEq, Prod.mk.injEq] at takes
        obtain ⟨rfl, rfl⟩ := takes
        exact within (by simp [pc]) _ (by simp)
      · simp only [Option.some.injEq, Prod.mk.injEq] at takes
        obtain ⟨rfl, rfl⟩ := takes
        apply within (by simp [pc])
        split <;> simp
  | unlock place =>
      simp only [clients, pc] at takes
      obtain ⟨⟨lock, next⟩, steps, eq⟩ := Option.map_eq_some_iff.mp takes
      simp only [Prod.mk.injEq] at eq
      obtain ⟨rfl, rfl⟩ := eq
      cases next with
      | some place => exact within (by simp [pc]) _ (by simp)
      | none =>
          apply counted_nextRound
          have more : t.finished ≠ rounds := fun all => by simp [counted.2.mpr all] at pc
          exact Nat.lt_of_le_of_ne counted.1 more
  | done => simp [clients, pc] at takes
  | panicked => simp [clients, pc] at takes

end Client

section Rule

variable [DecidableEq Id] [Fintype Id] {code : LockCode Id Shared Enter Leave}
  {critical : CriticalSection Id Data Inner} {rounds : Nat}
  {w : World Id (Shared × Data) (Client Enter Leave Inner)} {i : Id}

/-- The critical sections that have been left. -/
def World.sections (w : World Id (Shared × Data) (Client Enter Leave Inner)) : Nat :=
  ∑ i, (w.locals i).sections

/-- What a critical section does when nobody interferes: `before n` holds of the data when `n`
sections have been left, and `within n` at a place inside of the next one. -/
structure Sequential (critical : CriticalSection Id Data Inner) (before : Nat → Data → Prop)
    (within : Nat → Data → Inner → Prop) : Prop where
  enters : ∀ {n data}, before n data → within n data critical.enter
  steps : ∀ {n data inner} (i : Id), within n data inner → ∃ data' next,
    critical.step i data inner = some (data', next) ∧
      (∀ inner', next = some inner' → within n data' inner') ∧ (next = none → before (n + 1) data')

/-- The clients of a lock: the lock is in order, no assertion fails, and the data are as after so
many critical sections, one after the other. -/
structure ClientsOk (code : LockCode Id Shared Enter Leave)
    (inv : Shared → (Id → Phase Enter Leave) → Prop)
    (before : Nat → Data → Prop) (within : Nat → Data → Inner → Prop)
    (w : World Id (Shared × Data) (Client Enter Leave Inner)) : Prop where
  lock : inv w.shared.1 fun i => (w.locals i).phase code
  calm : ∀ i, (w.locals i).pc ≠ .panicked
  outside : (∀ i inner, (w.locals i).pc ≠ .body inner) → before w.sections w.shared.2
  inside : ∀ i inner, (w.locals i).pc = .body inner → within w.sections w.shared.2 inner

variable {start : Shared} {exclusion : code.Exclusion start} {before : Nat → Data → Prop}
  {within : Nat → Data → Inner → Prop}

/-- A client that is in the critical section is there alone. -/
theorem ClientsOk.alone (ok : ClientsOk code exclusion.inv before within w) {j : Id}
    {inner inner' : Inner} (here : (w.locals i).pc = .body inner)
    (there : (w.locals j).pc = .body inner') : i = j := by
  refine exclusion.excludes ok.lock ?_ ?_
  · simp only [Client.phase, here]
  · simp only [Client.phase, there]

theorem ClientsOk.calm_update (ok : ClientsOk code exclusion.inv before within w)
    {t : Client Enter Leave Inner} (calm : t.pc ≠ .panicked) (j : Id) :
    (Function.update w.locals i t j).pc ≠ .panicked := by
  by_cases here : j = i
  · subst here
    rwa [Function.update_self]
  · rw [Function.update_of_ne here]
    exact ok.calm j

/-- A turn in `lock` or `unlock` that does not enter the critical section. -/
theorem ClientsOk.outsideTurn (ok : ClientsOk code exclusion.inv before within w)
    {shared : Shared} {t : Client Enter Leave Inner}
    (lock : exclusion.inv shared
      (Function.update (fun j => (w.locals j).phase code) i (t.phase code)))
    (wasOutside : ∀ inner, (w.locals i).pc ≠ .body inner) (isOutside : ∀ inner, t.pc ≠ .body inner)
    (calm : t.pc ≠ .panicked) (same : t.sections = (w.locals i).sections) :
    ClientsOk code exclusion.inv before within
      ⟨(shared, w.shared.2), Function.update w.locals i t⟩ := by
  have total : (⟨(shared, w.shared.2), Function.update w.locals i t⟩ :
      World Id (Shared × Data) (Client Enter Leave Inner)).sections = w.sections := by
    have := sum_update (fun _ => Client.sections) w.locals i t
    unfold World.sections
    dsimp only
    omega
  have pcs : ∀ j inner, (Function.update w.locals i t j).pc = .body inner ↔
      (w.locals j).pc = .body inner := by
    intro j inner
    by_cases here : j = i
    · subst here
      rw [Function.update_self]
      exact iff_of_false (isOutside inner) (wasOutside inner)
    · rw [Function.update_of_ne here]
  refine ⟨by rwa [Client.phase_update], ok.calm_update calm, ?_, ?_⟩
  · intro nobody
    rw [total]
    exact ok.outside fun j inner here => nobody j inner ((pcs j inner).mpr here)
  · intro j inner here
    rw [total]
    exact ok.inside j inner ((pcs j inner).mp here)

/-- A turn while no other client is in the critical section. -/
theorem ClientsOk.soleTurn (ok : ClientsOk code exclusion.inv before within w)
    {shared : Shared} {data : Data} {t : Client Enter Leave Inner} {n : Nat}
    (lock : exclusion.inv shared
      (Function.update (fun j => (w.locals j).phase code) i (t.phase code)))
    (others : ∀ j, j ≠ i → ∀ inner, (w.locals j).pc ≠ .body inner) (calm : t.pc ≠ .panicked)
    (total : n + (w.locals i).sections = w.sections + t.sections)
    (outside : (∀ inner, t.pc ≠ .body inner) → before n data)
    (inside : ∀ inner, t.pc = .body inner → within n data inner) :
    ClientsOk code exclusion.inv before within
      ⟨(shared, data), Function.update w.locals i t⟩ := by
  have sections : (⟨(shared, data), Function.update w.locals i t⟩ :
      World Id (Shared × Data) (Client Enter Leave Inner)).sections = n := by
    have := sum_update (fun _ => Client.sections) w.locals i t
    unfold World.sections at total ⊢
    dsimp only
    omega
  refine ⟨by rwa [Client.phase_update], ok.calm_update calm, ?_, ?_⟩
  · intro nobody
    rw [sections]
    refine outside fun inner here => nobody i inner ?_
    rw [← here]
    exact congrArg Client.pc (Function.update_self i t w.locals)
  · intro j inner here
    rw [sections]
    by_cases mine : j = i
    · subst mine
      exact inside inner ((congrArg Client.pc (Function.update_self j t w.locals)).symm.trans here)
    · refine absurd ?_ (others j mine inner)
      rw [← here]
      exact (congrArg Client.pc (Function.update_of_ne mine t w.locals)).symm

/-- A client holds the lock in the critical section, so all others are outside. -/
theorem ClientsOk.others (ok : ClientsOk code exclusion.inv before within w) {inner : Inner}
    (here : (w.locals i).pc = .body inner) (j : Id) (differ : j ≠ i) (inner' : Inner) :
    (w.locals j).pc ≠ .body inner' :=
  fun there => differ (ok.alone there here)

/-- Every turn keeps the clients in order. -/
theorem ClientsOk.turn (sequential : Sequential critical before within)
    (ok : ClientsOk code exclusion.inv before within w) {shared : Shared × Data}
    {t : Client Enter Leave Inner}
    (takes : (clients code critical rounds).step i w.shared (w.locals i) = some (shared, t)) :
    ClientsOk code exclusion.inv before within ⟨shared, Function.update w.locals i t⟩ := by
  cases pc : (w.locals i).pc with
  | lock place =>
      simp only [clients, pc] at takes
      obtain ⟨⟨lock, next⟩, steps, eq⟩ := Option.map_eq_some_iff.mp takes
      simp only [Prod.mk.injEq] at eq
      obtain ⟨rfl, rfl⟩ := eq
      have phase : (w.locals i).phase code = .locking place := by simp only [Client.phase, pc]
      have locked := exclusion.locks ok.lock phase steps
      have same : (w.locals i).sections = (w.locals i).finished := by
        simp only [Client.sections, pc]
      cases next with
      | some place => exact ok.outsideTurn locked (by simp [pc]) (by simp) (by simp) same.symm
      | none =>
          -- whoever is in the critical section now is there alone
          have others : ∀ j, j ≠ i → ∀ inner, (w.locals j).pc ≠ .body inner := by
            intro j differ inner there
            refine differ (exclusion.excludes locked ?_ ?_)
            · rw [Function.update_of_ne differ]
              simp only [Client.phase, there]
            · rw [Function.update_self]
              rfl
          have nobody : ∀ j inner, (w.locals j).pc ≠ .body inner := by
            intro j inner there
            by_cases mine : j = i
            · rw [mine, pc] at there
              simp at there
            · exact others j mine inner there
          refine ok.soleTurn (n := w.sections) locked others (by simp) (by rw [same]; rfl)
            (fun outside => absurd rfl (outside _)) ?_
          intro inner here
          obtain rfl : critical.enter = inner := by simpa using here
          exact sequential.enters (ok.outside nobody)
  | body inner =>
      obtain ⟨data, next, steps, goesOn, ends⟩ := sequential.steps i (ok.inside i inner pc)
      simp only [clients, pc, steps, Option.some.injEq, Prod.mk.injEq] at takes
      obtain ⟨rfl, rfl⟩ := takes
      have phase : (w.locals i).phase code = .holding := by simp only [Client.phase, pc]
      have same : (w.locals i).sections = (w.locals i).finished := by
        simp only [Client.sections, pc]
      cases next with
      | some inner' =>
          have still : Function.update (fun j => (w.locals j).phase code) i .holding =
              fun j => (w.locals j).phase code := by
            rw [← phase, Function.update_eq_self]
          have lock := ok.lock
          rw [← still] at lock
          refine ok.soleTurn (n := w.sections) lock (ok.others pc) (by simp) (by rw [same]; rfl)
            (fun outside => absurd rfl (outside _)) ?_
          intro inner here
          obtain rfl : inner' = inner := by simpa using here
          exact goesOn _ rfl
      | none =>
          refine ok.soleTurn (n := w.sections + 1) (exclusion.leaves ok.lock phase) (ok.others pc)
            (by simp) ?_ (fun _ => ends rfl) (by simp)
          rw [same]
          simp only [Client.sections]
          omega
  | unlock place =>
      simp only [clients, pc] at takes
      obtain ⟨⟨lock, next⟩, steps, eq⟩ := Option.map_eq_some_iff.mp takes
      simp only [Prod.mk.injEq] at eq
      obtain ⟨rfl, rfl⟩ := eq
      have phase : (w.locals i).phase code = .unlocking place := by simp only [Client.phase, pc]
      have unlocked := exclusion.unlocks ok.lock phase steps
      have same : (w.locals i).sections = (w.locals i).finished + 1 := by
        simp only [Client.sections, pc]
      cases next with
      | some place => exact ok.outsideTurn unlocked (by simp [pc]) (by simp) (by simp) same.symm
      | none =>
          refine ok.outsideTurn ?_ (by simp [pc]) ?_ ?_ ?_
          · dsimp only
            rw [Client.phase_nextRound]
            exact unlocked
          · intro inner
            dsimp only
            unfold Client.nextRound
            split_ifs <;> simp
          · dsimp only
            unfold Client.nextRound
            split_ifs <;> simp
          · dsimp only
            rw [Client.sections_nextRound, same]
  | done => simp [clients, pc] at takes
  | panicked => exact absurd pc (ok.calm i)

/-- Before the first turn. -/
def clientsStart (code : LockCode Id Shared Enter Leave) (rounds : Nat) (start : Shared)
    (data : Data) :
    World Id (Shared × Data) (Client Enter Leave Inner) :=
  ⟨(start, data), fun _ => Client.nextRound code rounds 0⟩

/-- Whatever the schedule, the clients of a lock stay in order. -/
theorem clients_ok (exclusion : code.Exclusion start)
    (sequential : Sequential critical before within) (rounds : Nat) {data : Data}
    (first : before 0 data) (schedule : List Id) : ClientsOk code exclusion.inv before within
      ((clients code critical rounds).run (clientsStart code rounds start data) schedule) := by
  refine Threads.run_keeps (ClientsOk code exclusion.inv before within) ?_
    (fun w i shared t ok takes => ok.turn sequential takes) schedule
  have outside : ∀ inner, (Client.nextRound code rounds 0 : Client Enter Leave Inner).pc ≠
      .body inner := by
    intro inner
    unfold Client.nextRound
    split_ifs <;> simp
  have none : (clientsStart code rounds start data :
      World Id (Shared × Data) (Client Enter Leave Inner)).sections = 0 := by
    unfold World.sections clientsStart
    simp only [Client.sections_nextRound, Finset.sum_const_zero]
  refine ⟨?_, ?_, ?_, ?_⟩
  · simp only [clientsStart, Client.phase_nextRound]
    exact exclusion.init
  · intro i
    simp only [clientsStart, Client.nextRound]
    split_ifs <;> simp
  · intro _
    rw [none]
    exact first
  · intro i inner here
    exact absurd here (outside inner)

/-- When all clients are done, each has left as many critical sections as there are rounds. -/
theorem clients_done (critical : CriticalSection Id Data Inner) {data : Data} {schedule : List Id}
    (done : ∀ i, (((clients code critical rounds).run (clientsStart code rounds start data)
      schedule).locals i).pc = .done) :
    ((clients code critical rounds).run (clientsStart code rounds start data) schedule).sections =
      Fintype.card Id * rounds := by
  have counted := Threads.run_keeps_local (p := clients code critical rounds)
    (w := clientsStart code rounds start data) (fun _ t => t.Counted rounds)
    (fun i => Client.counted_nextRound (Nat.zero_le rounds))
    (fun i s t s' t' counted takes => Client.counted_step counted takes) schedule
  have each : ∀ i, (((clients code critical rounds).run (clientsStart code rounds start data)
      schedule).locals i).sections = rounds := by
    intro i
    rw [Client.sections, done i]
    exact (counted i).2.mp (done i)
  unfold World.sections
  rw [Finset.sum_congr rfl fun i _ => each i, Finset.sum_const, Finset.card_univ, smul_eq_mul]

end Rule

end CoreFromDust.Lib
