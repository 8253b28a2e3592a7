import CoreFromDust.Lib.Locks
import Mathlib.Data.Finset.Max
import Mathlib.Order.Monotone.Basic

/-!
# Locks that are taken in an order

Threads that take several locks, one after the other, and give them back in the reverse order. The
order in which the locks are taken is the same for all threads. Then no threads wait for each other
in a circle: a thread that waits for the greatest lock of all that are waited for waits for a thread
that goes on.
-/

namespace CoreFromDust.Lib

variable {L Id Shared Enter Leave : Type}

/-! ## The threads -/

/-- What the threads do: the locks that each one takes in a round, from number 0 to `last`, the
turns that it spends outside and inside of them, and the number of rounds. -/
structure Nest (L Id : Type) where
  needs : Id → Nat → L
  last : Nat
  outside : Nat
  inside : Nat
  rounds : Nat

/-- Where a thread is. -/
inductive NestPc (Enter Leave : Type) where
  | outside (turns : Nat)
  | acquire (k : Nat) (place : Enter)
  | inside (turns : Nat)
  | release (k : Nat) (place : Leave)
  | done
  /-- an assertion in `unlock` has failed -/
  | panicked
  deriving DecidableEq, Repr

/-- A thread, with the rounds that it has finished. -/
structure Nester (Enter Leave : Type) where
  finished : Nat
  pc : NestPc Enter Leave
  deriving DecidableEq, Repr

namespace Nest

variable {code : LockCode Id Shared Enter Leave} {p : Nest L Id}

/-- A thread before a round, if there is one. -/
def nextRound (p : Nest L Id) (finished : Nat) : Nester Enter Leave :=
  ⟨finished, if finished < p.rounds then .outside 0 else .done⟩

/-- The threads. -/
def threads [DecidableEq L] (p : Nest L Id) (code : LockCode Id Shared Enter Leave) :
    Threads Id (L → Shared) (Nester Enter Leave) where
  step i s t :=
    match t.pc with
    | .outside turns => some (s, ⟨t.finished,
        if turns < p.outside then .outside (turns + 1) else .acquire 0 code.lock⟩)
    | .acquire k place =>
        (code.lockStep i (s (p.needs i k)) place).map fun (lock, next) =>
          (Function.update s (p.needs i k) lock, ⟨t.finished, match next with
            | some place => .acquire k place
            | none => if k < p.last then .acquire (k + 1) code.lock else .inside 0⟩)
    | .inside turns => some (s, ⟨t.finished,
        if turns < p.inside then .inside (turns + 1) else .release p.last code.unlock⟩)
    | .release k place =>
        match code.unlockStep i (s (p.needs i k)) place with
        | none => some (s, ⟨t.finished, .panicked⟩)
        | some (lock, next) => some (Function.update s (p.needs i k) lock, match next, k with
            | some place, k => ⟨t.finished, .release k place⟩
            | none, k + 1 => ⟨t.finished, .release k code.unlock⟩
            | none, 0 => p.nextRound (t.finished + 1))
    | .done => none
    | .panicked => none

/-- Before the first turn. -/
def start (p : Nest L Id) (s : L → Shared) : World Id (L → Shared) (Nester Enter Leave) :=
  ⟨s, fun _ => p.nextRound 0⟩

/-! ## What a thread has to do with the locks -/

/-- The lock is one of the first `k` that the thread takes. -/
def Among (p : Nest L Id) (i : Id) (k : Nat) (l : L) : Prop := ∃ j < k, p.needs i j = l

instance [DecidableEq L] (p : Nest L Id) (i : Id) (k : Nat) (l : L) : Decidable (p.Among i k l) :=
  inferInstanceAs (Decidable (∃ j < k, p.needs i j = l))

/-- The number of the lock that the thread is at. -/
def number (p : Nest L Id) : NestPc Enter Leave → Nat
  | .acquire k _ => k
  | .inside _ => p.last
  | .release k _ => k
  | _ => 0

theorem number_nextRound (finished : Nat) :
    p.number (p.nextRound finished : Nester Enter Leave).pc = 0 := by
  unfold nextRound
  dsimp only
  split_ifs <;> rfl

theorem calm_nextRound (finished : Nat) :
    (p.nextRound finished : Nester Enter Leave).pc ≠ .panicked := by
  unfold nextRound
  dsimp only
  split_ifs <;> simp

section Phases

variable [DecidableEq L]

/-- A thread that holds its locks before number `k`, and is with that one in a given phase. -/
def phases (p : Nest L Id) (code : LockCode Id Shared Enter Leave) (i : Id) (k : Nat)
    (current : Phase Enter Leave) (l : L) : Phase Enter Leave :=
  if l = p.needs i k then current
  else if p.Among i k l then .holding
  else .locking code.lock

/-- The phase of the thread at that lock. -/
def current (code : LockCode Id Shared Enter Leave) : NestPc Enter Leave → Phase Enter Leave
  | .acquire _ place => .locking place
  | .inside _ => .holding
  | .release _ place => .unlocking place
  | _ => .locking code.lock

/-- The phase of a thread at each lock. -/
def phaseAt (p : Nest L Id) (code : LockCode Id Shared Enter Leave) (i : Id)
    (pc : NestPc Enter Leave) : L → Phase Enter Leave :=
  p.phases code i (p.number pc) (current code pc)

/-- Every thread takes its locks in their order. -/
def Ordered [Preorder L] (p : Nest L Id) : Prop :=
  ∀ i j k, j < k → k ≤ p.last → p.needs i j < p.needs i k

theorem phases_self (i : Id) (k : Nat) (current : Phase Enter Leave) :
    p.phases code i k current (p.needs i k) = current := if_pos rfl

theorem phaseAt_nextRound (i : Id) (finished : Nat) :
    p.phaseAt code i (p.nextRound finished : Nester Enter Leave).pc =
      p.phases code i 0 (.locking code.lock) := by
  unfold nextRound
  dsimp only
  split_ifs <;> rfl

/-- A thread that is away from the locks. -/
theorem phases_away (i : Id) (l : L) :
    p.phases code i 0 (.locking code.lock) l = .locking code.lock := by
  have none : ¬ p.Among i 0 l := by
    rintro ⟨j, small, -⟩
    exact Nat.not_lt_zero j small
  rw [phases, if_neg none, ite_self]

theorem phaseAt_done (i : Id) (l : L) : p.phaseAt code i .done l = .locking code.lock :=
  phases_away i l

/-- To hold a lock is to be before the next one. -/
theorem phases_next [Preorder L] (ordered : p.Ordered) {i : Id} {k : Nat} (less : k < p.last) :
    p.phases code i (k + 1) (.locking code.lock) = p.phases code i k .holding := by
  funext l
  unfold phases
  by_cases next : l = p.needs i (k + 1)
  · have notThis : l ≠ p.needs i k := by
      rw [next]
      exact (ordered i k (k + 1) (Nat.lt_succ_self k) less).ne'
    have notBefore : ¬ p.Among i k l := by
      rintro ⟨j, before, same⟩
      have small : p.needs i j < p.needs i (k + 1) := ordered i j (k + 1) (by omega) less
      exact small.ne (same.trans next)
    rw [if_pos next, if_neg notThis, if_neg notBefore]
  · rw [if_neg next]
    by_cases this : l = p.needs i k
    · rw [if_pos this, if_pos ⟨k, Nat.lt_succ_self k, this.symm⟩]
    · rw [if_neg this]
      have same : p.Among i (k + 1) l ↔ p.Among i k l := by
        constructor
        · rintro ⟨j, before, eq⟩
          refine ⟨j, ?_, eq⟩
          have other : j ≠ k := by
            rintro rfl
            exact this eq.symm
          omega
        · rintro ⟨j, before, eq⟩
          exact ⟨j, before.trans (Nat.lt_succ_self k), eq⟩
      simp only [same]

/-- A thread that has been let in at a lock has it among its locks, or is at it. -/
theorem entered_phaseAt {i : Id} {pc : NestPc Enter Leave} {l : L}
    (entered : (p.phaseAt code i pc l).Entered) :
    p.Among i (p.number pc) l ∨ (l = p.needs i (p.number pc) ∧ (current code pc).Entered) := by
  unfold phaseAt phases at entered
  split at entered
  · next here => exact .inr ⟨here, entered⟩
  · split at entered
    · next before => exact .inl before
    · exact absurd entered id

theorem phases_update [DecidableEq Id] (locals : Id → Nester Enter Leave) (i : Id)
    (t : Nester Enter Leave) (l : L) :
    (fun j => p.phaseAt code j (Function.update locals i t j).pc l) =
      Function.update (fun j => p.phaseAt code j (locals j).pc l) i (p.phaseAt code i t.pc l) := by
  funext j
  by_cases same : j = i
  · subst same
    rw [Function.update_self, Function.update_self]
  · rw [Function.update_of_ne same, Function.update_of_ne same]

end Phases

/-! ## What a turn keeps -/

section Turns

variable [DecidableEq L] [DecidableEq Id] {first : Shared} {lively : code.Lively first}
  {w : World Id (L → Shared) (Nester Enter Leave)} {i : Id} {s : L → Shared} {k : Nat}

/-- The locks are in order, no thread is at a lock that it does not take, and none has panicked. -/
structure Ok (p : Nest L Id) (lively : code.Lively first)
    (w : World Id (L → Shared) (Nester Enter Leave)) : Prop where
  locks : ∀ l, lively.inv (w.shared l) fun i => p.phaseAt code i (w.locals i).pc l
  bounds : ∀ i, p.number (w.locals i).pc ≤ p.last
  calm : ∀ i, (w.locals i).pc ≠ .panicked

/-- The locks are in order when the thread is with them in the given phases, and all others are as
in the world. -/
def InOrder (p : Nest L Id) (lively : code.Lively first)
    (w : World Id (L → Shared) (Nester Enter Leave)) (i : Id) (s : L → Shared)
    (phases : L → Phase Enter Leave) : Prop :=
  ∀ l, lively.inv (s l)
    (Function.update (fun j => p.phaseAt code j (w.locals j).pc l) i (phases l))

theorem Ok.inOrder (ok : p.Ok lively w) (i : Id) :
    p.InOrder lively w i w.shared (p.phaseAt code i (w.locals i).pc) := by
  intro l
  rw [Function.update_eq_self]
  exact ok.locks l

theorem Ok.change (ok : p.Ok lively w) {t : Nester Enter Leave}
    (inOrder : p.InOrder lively w i s (p.phaseAt code i t.pc)) (bound : p.number t.pc ≤ p.last)
    (calm : t.pc ≠ .panicked) : p.Ok lively ⟨s, Function.update w.locals i t⟩ := by
  refine ⟨fun l => ?_, fun j => ?_, fun j => ?_⟩
  · dsimp only
    rw [phases_update]
    exact inOrder l
  · by_cases same : j = i
    · subst same
      dsimp only
      rwa [Function.update_self]
    · dsimp only
      rw [Function.update_of_ne same]
      exact ok.bounds j
  · by_cases same : j = i
    · subst same
      dsimp only
      rwa [Function.update_self]
    · dsimp only
      rw [Function.update_of_ne same]
      exact ok.calm j

/-- The thread gets from one phase to another one at one lock. -/
theorem InOrder.change {old : Phase Enter Leave} (new : Phase Enter Leave) (lock : Shared)
    (inOrder : p.InOrder lively w i s (p.phases code i k old))
    (step : ∀ phase, phase i = old → lively.inv (s (p.needs i k)) phase →
      lively.inv lock (Function.update phase i new)) :
    p.InOrder lively w i (Function.update s (p.needs i k) lock) (p.phases code i k new) := by
  intro l
  by_cases this : l = p.needs i k
  · subst this
    have before := inOrder (p.needs i k)
    rw [phases_self] at before ⊢
    rw [Function.update_self]
    have after := step _ (Function.update_self ..) before
    rwa [Function.update_idem] at after
  · have still : p.phases code i k new l = p.phases code i k old l := by
      rw [phases, phases, if_neg this, if_neg this]
    rw [Function.update_of_ne this, still]
    exact inOrder l

theorem InOrder.locked {place : Enter} {lock : Shared} {next : Option Enter}
    (inOrder : p.InOrder lively w i s (p.phases code i k (.locking place)))
    (steps : code.lockStep i (s (p.needs i k)) place = some (lock, next)) :
    p.InOrder lively w i (Function.update s (p.needs i k) lock)
      (p.phases code i k (LockCode.afterLock next)) :=
  inOrder.change _ lock fun _ here inv => lively.locks inv here steps

theorem InOrder.unlocked {place : Leave} {lock : Shared} {next : Option Leave}
    (inOrder : p.InOrder lively w i s (p.phases code i k (.unlocking place)))
    (steps : code.unlockStep i (s (p.needs i k)) place = some (lock, next)) :
    p.InOrder lively w i (Function.update s (p.needs i k) lock)
      (p.phases code i k (code.afterUnlock next)) :=
  inOrder.change _ lock fun _ here inv => lively.unlocks inv here steps

theorem InOrder.leaves (inOrder : p.InOrder lively w i s (p.phases code i k .holding)) :
    p.InOrder lively w i s (p.phases code i k (.unlocking code.unlock)) := by
  have after := inOrder.change (.unlocking code.unlock) (s (p.needs i k))
    fun _ here inv => lively.leaves inv here
  rwa [Function.update_eq_self] at after

/-- Every turn keeps the locks in order. -/
theorem Ok.turn [Preorder L] (ordered : p.Ordered) (ok : p.Ok lively w) {t : Nester Enter Leave}
    (takes : (p.threads code).step i w.shared (w.locals i) = some (s, t)) :
    p.Ok lively ⟨s, Function.update w.locals i t⟩ := by
  have before := ok.inOrder i
  have bound := ok.bounds i
  cases pc : (w.locals i).pc with
  | outside turns =>
      simp only [threads, pc, Option.some.injEq, Prod.mk.injEq] at takes
      obtain ⟨rfl, rfl⟩ := takes
      rw [pc] at before
      apply ok.change
      · dsimp only
        split_ifs <;> exact before
      · dsimp only
        split_ifs <;> exact Nat.zero_le _
      · dsimp only
        split_ifs <;> simp
  | acquire k place =>
      simp only [threads, pc] at takes
      obtain ⟨⟨lock, next⟩, steps, eq⟩ := Option.map_eq_some_iff.mp takes
      simp only [Prod.mk.injEq] at eq
      obtain ⟨rfl, rfl⟩ := eq
      rw [pc] at before bound
      have after := before.locked steps
      cases next with
      | some place => exact ok.change after bound (by simp)
      | none =>
          dsimp only
          by_cases more : k < p.last
          · rw [if_pos more]
            refine ok.change ?_ more (by simp)
            rw [phaseAt, number, current, phases_next ordered more]
            exact after
          · obtain rfl : k = p.last := Nat.le_antisymm bound (Nat.le_of_not_lt more)
            rw [if_neg more]
            exact ok.change after le_rfl (by simp)
  | inside turns =>
      simp only [threads, pc, Option.some.injEq, Prod.mk.injEq] at takes
      obtain ⟨rfl, rfl⟩ := takes
      rw [pc] at before
      split_ifs
      · exact ok.change before le_rfl (by simp)
      · exact ok.change before.leaves le_rfl (by simp)
  | release k place =>
      rw [pc] at before bound
      have here : p.phaseAt code i (w.locals i).pc (p.needs i k) = .unlocking place := by
        rw [pc]
        exact phases_self ..
      obtain ⟨⟨lock, next⟩, steps⟩ := lively.leavesAlways (ok.locks _) here
      simp only [threads, pc, steps, Option.some.injEq, Prod.mk.injEq] at takes
      obtain ⟨rfl, rfl⟩ := takes
      have after := before.unlocked steps
      cases next with
      | some place => exact ok.change after bound (by simp)
      | none =>
          cases k with
          | zero =>
              refine ok.change ?_ ?_ (calm_nextRound _)
              · rw [phaseAt_nextRound]
                exact after
              · rw [number_nextRound]
                exact Nat.zero_le _
          | succ k =>
              have less : k < p.last := bound
              rw [LockCode.afterUnlock, number, phases_next ordered less] at after
              exact ok.change after.leaves less.le (by simp)
  | done => simp [threads, pc] at takes
  | panicked => exact absurd pc (ok.calm i)

theorem ok_start (p : Nest L Id) (lively : code.Lively first) :
    p.Ok lively (p.start fun _ => first) := by
  refine ⟨fun l => ?_, fun i => ?_, fun i => calm_nextRound 0⟩
  · simp only [start, phaseAt_nextRound, phases_away]
    exact lively.init
  · simp only [start, number_nextRound]
    exact Nat.zero_le _

end Turns

/-! ## Progress -/

section Progress

variable [DecidableEq Id] {first : Shared} {lively : code.Lively first}
  {w : World Id (L → Shared) (Nester Enter Leave)} {i : Id}

/-- A thread whose turn changes nothing is done, or it waits for a lock. -/
theorem Ok.waits [DecidableEq L] (ok : p.Ok lively w) (same : (p.threads code).turn w i = w) :
    (w.locals i).pc = .done ∨ ∃ k place, (w.locals i).pc = .acquire k place ∧
      code.Waits i (w.shared (p.needs i k)) place := by
  have still : ∀ s t, (p.threads code).step i w.shared (w.locals i) = some (s, t) →
      s = w.shared ∧ t.pc = (w.locals i).pc := by
    intro s t takes
    obtain ⟨shared, mine⟩ := Threads.still same takes
    exact ⟨shared, congrArg Nester.pc mine⟩
  cases pc : (w.locals i).pc with
  | outside turns =>
      exfalso
      obtain ⟨-, eq⟩ := still _ _ (by simp only [threads, pc]; rfl)
      rw [pc] at eq
      dsimp only at eq
      split_ifs at eq
      rw [NestPc.outside.injEq] at eq
      omega
  | acquire k place =>
      refine .inr ⟨k, place, rfl, ?_⟩
      rintro ⟨lock, next⟩ steps
      obtain ⟨shared, eq⟩ := still _ _ (by simp only [threads, pc, steps]; rfl)
      rw [pc] at eq
      dsimp only at shared eq
      cases next with
      | some place' =>
          rw [NestPc.acquire.injEq] at eq
          rw [eq.2]
          congr 1
          have here := congrFun shared (p.needs i k)
          rwa [Function.update_self] at here
      | none =>
          dsimp only at eq
          split_ifs at eq
          rw [NestPc.acquire.injEq] at eq
          omega
  | inside turns =>
      exfalso
      obtain ⟨-, eq⟩ := still _ _ (by simp only [threads, pc]; rfl)
      rw [pc] at eq
      dsimp only at eq
      split_ifs at eq
      rw [NestPc.inside.injEq] at eq
      omega
  | release k place =>
      exfalso
      have here : p.phaseAt code i (w.locals i).pc (p.needs i k) = .unlocking place := by
        rw [pc]
        exact phases_self ..
      obtain ⟨⟨lock, next⟩, steps⟩ := lively.leavesAlways (ok.locks _) here
      obtain ⟨-, eq⟩ := still _ _ (by simp only [threads, pc, steps]; rfl)
      rw [pc] at eq
      cases next with
      | some place' =>
          have falls := lively.unlockFalls steps
          rw [NestPc.release.injEq] at eq
          rw [eq.2] at falls
          exact Nat.lt_irrefl _ falls
      | none =>
          cases k with
          | succ k =>
              rw [NestPc.release.injEq] at eq
              omega
          | zero =>
              simp only [nextRound] at eq
              split_ifs at eq
  | done => exact .inl rfl
  | panicked => exact absurd pc (ok.calm i)

/-- As long as not all threads are done, the turn of some thread changes something: among those that
wait, look at one that waits for the greatest lock. -/
theorem Ok.moves [LinearOrder L] [Fintype Id] (ordered : p.Ordered) (ok : p.Ok lively w) :
    (∀ i, (w.locals i).pc = .done) ∨ ∃ i, (p.threads code).turn w i ≠ w := by
  classical
  by_contra stuck
  rw [not_or, not_forall, not_exists] at stuck
  obtain ⟨⟨i₀, notDone⟩, still⟩ := stuck
  have waits := fun i => ok.waits (not_not.mp (still i))
  obtain ⟨i, mem, greatest⟩ := Finset.exists_max_image
    (Finset.univ.filter fun i => (w.locals i).pc ≠ .done)
    (fun i => p.needs i (p.number (w.locals i).pc))
    ⟨i₀, Finset.mem_filter.mpr ⟨Finset.mem_univ i₀, notDone⟩⟩
  obtain ⟨k, place, pc, waiting⟩ := (waits i).resolve_left (Finset.mem_filter.mp mem).2
  have here : p.phaseAt code i (w.locals i).pc (p.needs i k) = .locking place := by
    rw [pc]
    exact phases_self ..
  obtain ⟨j, entered | ⟨place', there, begun, goes⟩⟩ := lively.moves (ok.locks _) here waiting
  · rcases waits j with done | ⟨k', place', pc', -⟩
    · rw [done, phaseAt_done] at entered
      exact entered
    · -- it holds this lock, so the one that it waits for is greater
      rw [pc'] at entered
      obtain ⟨a, before, same⟩ := (entered_phaseAt entered).resolve_right fun at' => at'.2
      have bound := ok.bounds j
      rw [pc'] at bound
      have less : p.needs j a < p.needs j k' := ordered j a k' before bound
      have le := greatest j (Finset.mem_filter.mpr ⟨Finset.mem_univ j, by simp [pc']⟩)
      rw [pc, pc'] at le
      exact absurd (le.trans_eq same.symm) (not_le_of_gt less)
  · rcases waits j with done | ⟨k', place'', pc', waiting'⟩
    · rw [done, phaseAt_done, Phase.locking.injEq] at there
      exact begun there.symm
    · rw [pc', phaseAt, phases, number, current] at there
      split at there
      · next same =>
        rw [Phase.locking.injEq] at there
        rw [same, ← there] at goes
        exact goes waiting'
      · split at there
        · simp at there
        · rw [Phase.locking.injEq] at there
          exact begun there.symm

/-- How far a thread is from the end of a round. -/
def pcRank (p : Nest L Id) (lively : code.Lively first) : NestPc Enter Leave → Nat
  | .outside turns => p.outside - turns + p.last * (lively.enterRank code.lock + 1) +
      lively.enterRank code.lock + p.inside + p.last * (lively.leaveRank code.unlock + 1) +
      lively.leaveRank code.unlock + 4
  | .acquire k place => (p.last - k) * (lively.enterRank code.lock + 1) + lively.enterRank place +
      p.inside + p.last * (lively.leaveRank code.unlock + 1) + lively.leaveRank code.unlock + 3
  | .inside turns => p.inside - turns + p.last * (lively.leaveRank code.unlock + 1) +
      lively.leaveRank code.unlock + 2
  | .release k place => k * (lively.leaveRank code.unlock + 1) + lively.leaveRank place + 1
  | .done => 0
  | .panicked => 0

/-- How far a thread is from the end. -/
def rank (p : Nest L Id) (lively : code.Lively first) (t : Nester Enter Leave) : Nat :=
  (p.rounds - t.finished) * (p.pcRank lively (.outside 0) + 1) + p.pcRank lively t.pc

theorem rank_nextRound (lively : code.Lively first) (finished : Nat) {pc : NestPc Enter Leave}
    (more : 0 < p.pcRank lively pc) :
    p.rank lively (p.nextRound (finished + 1)) < p.rank lively ⟨finished, pc⟩ := by
  unfold rank nextRound
  dsimp only
  by_cases next : finished + 1 < p.rounds
  · have rounds : p.rounds - finished = p.rounds - (finished + 1) + 1 := by omega
    rw [if_pos next, rounds, Nat.succ_mul]
    omega
  · have none : p.rounds - (finished + 1) = 0 := by omega
    rw [if_neg next, none, Nat.zero_mul]
    exact Nat.add_pos_right _ more

/-- Every turn does nothing or brings the thread nearer to the end. -/
theorem rank_falls [DecidableEq L] {s s' : L → Shared} {t t' : Nester Enter Leave}
    (takes : (p.threads code).step i s t = some (s', t')) :
    (s' = s ∧ t' = t) ∨ p.rank lively t' < p.rank lively t := by
  -- a turn within a round
  have within : ∀ {pc pc'}, t.pc = pc → p.pcRank lively pc' < p.pcRank lively pc →
      p.rank lively ⟨t.finished, pc'⟩ < p.rank lively t := by
    intro pc pc' here less
    unfold rank
    rw [here]
    exact Nat.add_lt_add_left less _
  cases pc : t.pc with
  | outside turns =>
      simp only [threads, pc, Option.some.injEq, Prod.mk.injEq] at takes
      obtain ⟨rfl, rfl⟩ := takes
      right
      apply within pc
      unfold pcRank
      split_ifs
      · dsimp only
        omega
      · dsimp only
        rw [Nat.sub_zero]
        omega
  | acquire k place =>
      simp only [threads, pc] at takes
      obtain ⟨⟨lock, next⟩, steps, eq⟩ := Option.map_eq_some_iff.mp takes
      simp only [Prod.mk.injEq] at eq
      obtain ⟨rfl, rfl⟩ := eq
      cases next with
      | some place' =>
          rcases lively.lockFalls steps with ⟨rfl, rfl⟩ | less
          · left
            constructor
            · exact Function.update_eq_self ..
            · dsimp only
              rw [← pc]
          · right
            apply within pc
            unfold pcRank
            dsimp only
            omega
      | none =>
          right
          apply within pc
          unfold pcRank
          dsimp only
          split_ifs with more
          · have locks : p.last - k = p.last - (k + 1) + 1 := by omega
            dsimp only
            rw [locks, Nat.succ_mul]
            omega
          · dsimp only
            omega
  | inside turns =>
      simp only [threads, pc, Option.some.injEq, Prod.mk.injEq] at takes
      obtain ⟨rfl, rfl⟩ := takes
      right
      apply within pc
      unfold pcRank
      split_ifs
      · dsimp only
        omega
      · dsimp only
        omega
  | release k place =>
      right
      cases steps : code.unlockStep i (s (p.needs i k)) place with
      | none =>
          simp only [threads, pc, steps, Option.some.injEq, Prod.mk.injEq] at takes
          obtain ⟨rfl, rfl⟩ := takes
          exact within pc (Nat.succ_pos _)
      | some next =>
          obtain ⟨lock, next⟩ := next
          simp only [threads, pc, steps, Option.some.injEq, Prod.mk.injEq] at takes
          obtain ⟨rfl, rfl⟩ := takes
          cases next with
          | some place' =>
              have less := lively.unlockFalls steps
              apply within pc
              unfold pcRank
              dsimp only
              omega
          | none =>
              cases k with
              | succ k =>
                  apply within pc
                  unfold pcRank
                  dsimp only
                  rw [Nat.succ_mul]
                  omega
              | zero =>
                  have more : 0 < p.pcRank lively t.pc := by
                    rw [pc]
                    exact Nat.succ_pos _
                  exact rank_nextRound lively t.finished more
  | done => simp [threads, pc] at takes
  | panicked => simp [threads, pc] at takes

end Progress

/-! ## Whole runs -/

section Whole

variable [DecidableEq Id] {first : Shared}

/-- Whatever the schedule, the locks are in order. -/
theorem ok_run [DecidableEq L] [Preorder L] (lively : code.Lively first) (ordered : p.Ordered)
    (schedule : List Id) : p.Ok lively ((p.threads code).run (p.start fun _ => first) schedule) :=
  Threads.run_keeps (p.Ok lively) (ok_start p lively)
    (fun _ _ _ _ ok takes => ok.turn ordered takes) schedule

/-- Two threads that are inside have no lock in common. -/
theorem Ok.alone [DecidableEq L] {lively : code.Lively first}
    {w : World Id (L → Shared) (Nester Enter Leave)} (ok : p.Ok lively w) {i j : Id} {a b : Nat}
    {turns turns' : Nat} (here : (w.locals i).pc = .inside turns)
    (there : (w.locals j).pc = .inside turns') (ha : a ≤ p.last) (hb : b ≤ p.last)
    (common : p.needs i a = p.needs j b) : i = j := by
  -- whoever is inside holds all of its locks
  have holds : ∀ {i turns a}, (w.locals i).pc = .inside turns → a ≤ p.last →
      p.phaseAt code i (w.locals i).pc (p.needs i a) = .holding := by
    intro i turns a here le
    rw [here, phaseAt, phases, number, current]
    split_ifs with last among
    · rfl
    · rfl
    · refine absurd ⟨a, ?_, rfl⟩ among
      refine Nat.lt_of_le_of_ne le ?_
      rintro rfl
      exact last rfl
  apply lively.excludes (ok.locks (p.needs i a)) (holds here ha)
  rw [common]
  exact holds there hb

/-- In every fair schedule the threads come to their end. -/
theorem all_done [LinearOrder L] [Fintype Id] (lively : code.Lively first) (ordered : p.Ordered)
    {schedule : Nat → Id} (fair : Fair schedule) :
    ∃ n, ∀ i, (((p.threads code).runTo (p.start fun _ => first) schedule n).locals i).pc = .done :=
  Threads.eventually_of_fair (fun w => ∑ i, p.rank lively (w.locals i)) (ok_start p lively)
    (fun _ _ _ _ ok takes => ok.turn ordered takes)
    (fun _ i _ => Threads.turn_falls (fun _ => p.rank lively) i fun _ _ => rank_falls)
    (fun _ ok => ok.moves ordered) fair

end Whole

end Nest

end CoreFromDust.Lib
