import Mathlib.Logic.Function.Basic
import Mathlib.Data.List.Basic

/-!
# Programs over an array of cells

A `CellProg β α` is a computation that reads and writes numbered cells of type `β`. A cell
can be used only while it is held: `acquire` takes hold of it, `release` gives it up, and
`flush` asks the store to make all contents permanent. What these commands do is given by a
`Handler`; `arrayHandler` is the plain meaning, an array whose cells are locked while they
are held, and `run_simulates` carries a run under one handler over to another one.

`wp` is the total-correctness precondition: the program returns, and its result and final
state satisfy the postcondition.
-/

namespace CoreFromDust.Lib

/-- Computations over cells of type `β` with a result of type `α`. -/
inductive CellProg (β α : Type) : Type where
  | ret (a : α)
  | panic
  | acquire (id : Nat) (k : CellProg β α)
  | load (id : Nat) (k : β → CellProg β α)
  | store (id : Nat) (b : β) (k : CellProg β α)
  | release (id : Nat) (k : CellProg β α)
  | flush (k : CellProg β α)

namespace CellProg

variable {β α γ σ τ : Type}

/-- Sequencing of programs. -/
def bind : CellProg β α → (α → CellProg β γ) → CellProg β γ
  | ret a, f => f a
  | panic, _ => panic
  | acquire id k, f => acquire id (k.bind f)
  | load id k, f => load id (fun b => (k b).bind f)
  | store id b k, f => store id b (k.bind f)
  | release id k, f => release id (k.bind f)
  | flush k, f => flush (k.bind f)

instance : Monad (CellProg β) where
  pure := ret
  bind := bind

/-- Stop unless `c` holds. -/
def check (c : Prop) [Decidable c] : CellProg β Unit :=
  if c then pure () else panic

/-- The value of an option, stopping on `none`. -/
def unwrap : Option α → CellProg β α
  | some a => pure a
  | none => panic

/-- Hold cell `id` while `body` works on its contents. -/
def viewCell (id : Nat) (body : β → CellProg β α) : CellProg β α :=
  acquire id (load id fun b => (body b).bind fun a => release id (ret a))

/-- Hold cell `id` while `body` computes its new contents. -/
def modifyCell (id : Nat) (body : β → CellProg β (β × α)) : CellProg β α :=
  acquire id (load id fun b => (body b).bind fun r => store id r.1 (release id (ret r.2)))

/-- Flush the store. -/
def flushAll : CellProg β Unit := flush (ret ())

/-- Run `body` on the elements of a list in turn. -/
def forEach (body : γ → CellProg β Unit) : List γ → CellProg β Unit
  | [] => pure ()
  | x :: xs => do
      body x
      forEach body xs

/-- Run `body` on the elements of a list in turn, collecting the results. -/
def collect (body : γ → CellProg β α) : List γ → CellProg β (List α)
  | [] => pure []
  | x :: xs => do
      let a ← body x
      let as ← collect body xs
      pure (a :: as)

end CellProg

open CellProg

/-- The meaning of the commands on states of type `σ`; `none` is a stop. -/
structure Handler (β σ : Type) where
  acquire : Nat → σ → Option σ
  load : Nat → σ → Option β
  store : Nat → β → σ → Option σ
  release : Nat → σ → Option σ
  flush : σ → Option σ

section Run

variable {β α γ σ τ : Type}

/-- Run a program under a handler. -/
def run (H : Handler β σ) : CellProg β α → σ → Option (α × σ)
  | .ret a, s => some (a, s)
  | .panic, _ => none
  | .acquire id k, s => (H.acquire id s).bind fun s' => run H k s'
  | .load id k, s => (H.load id s).bind fun b => run H (k b) s
  | .store id b k, s => (H.store id b s).bind fun s' => run H k s'
  | .release id k, s => (H.release id s).bind fun s' => run H k s'
  | .flush k, s => (H.flush s).bind fun s' => run H k s'

theorem run_bind (H : Handler β σ) (p : CellProg β α) (f : α → CellProg β γ) (s : σ) :
    run H (p.bind f) s = (run H p s).bind fun r => run H (f r.1) r.2 := by
  induction p generalizing s with
  | ret a => rfl
  | panic => rfl
  | acquire id k ih => cases h : H.acquire id s <;> simp [run, CellProg.bind, h, ih]
  | load id k ih => cases h : H.load id s <;> simp [run, CellProg.bind, h, ih]
  | store id b k ih => cases h : H.store id b s <;> simp [run, CellProg.bind, h, ih]
  | release id k ih => cases h : H.release id s <;> simp [run, CellProg.bind, h, ih]
  | flush k ih => cases h : H.flush s <;> simp [run, CellProg.bind, h, ih]

/-- The two parts of a run of a sequence. -/
theorem run_do_some {H : Handler β σ} {p : CellProg β α} {f : α → CellProg β γ} {s s' : σ} {c : γ}
    (ran : run H (p >>= f) s = some (c, s')) :
    ∃ a s₁, run H p s = some (a, s₁) ∧ run H (f a) s₁ = some (c, s') := by
  have split : run H (p.bind f) s = some (c, s') := ran
  rw [run_bind] at split
  obtain ⟨⟨a, s₁⟩, first, second⟩ := Option.bind_eq_some_iff.mp split
  exact ⟨a, s₁, first, second⟩

/-- A sequence goes on where its first part has returned. -/
theorem run_do {H : Handler β σ} {p : CellProg β α} {f : α → CellProg β γ} {s s' : σ} {a : α}
    (ran : run H p s = some (a, s')) : run H (p >>= f) s = run H (f a) s' := by
  show run H (p.bind f) s = run H (f a) s'
  rw [run_bind, ran, Option.bind_some]

theorem run_pure (H : Handler β σ) (a : α) (s : σ) :
    run H (pure a : CellProg β α) s = some (a, s) := rfl

theorem run_check {H : Handler β σ} {c : Prop} [Decidable c] {s : σ} (holds : c) :
    run H (check c : CellProg β Unit) s = some ((), s) := by
  rw [check, if_pos holds]
  rfl

theorem run_check_some {H : Handler β σ} {c : Prop} [Decidable c] {s s' : σ} {u : Unit}
    (ran : run H (check c : CellProg β Unit) s = some (u, s')) : c := by
  by_contra fails
  rw [check, if_neg fails] at ran
  simp [run] at ran

/-- The result of a view is the one of its body. -/
theorem run_viewCell_some {H : Handler β σ} {id : Nat} {body : β → CellProg β α} {s s' : σ} {a : α}
    (ran : run H (viewCell id body) s = some (a, s')) :
    ∃ b s₁ s₂, run H (body b) s₁ = some (a, s₂) := by
  obtain ⟨s₁, -, ran⟩ := Option.bind_eq_some_iff.mp ran
  obtain ⟨b, -, ran⟩ := Option.bind_eq_some_iff.mp ran
  rw [run_bind] at ran
  obtain ⟨⟨r, s₂⟩, inner, ran⟩ := Option.bind_eq_some_iff.mp ran
  obtain ⟨s₃, -, ran⟩ := Option.bind_eq_some_iff.mp ran
  simp only [run, Option.some.injEq, Prod.mk.injEq] at ran
  exact ⟨b, s₁, s₂, ran.1 ▸ inner⟩

/-- The result of a modification is the one of its body. -/
theorem run_modifyCell_some {H : Handler β σ} {id : Nat} {body : β → CellProg β (β × α)} {s s' : σ}
    {a : α} (ran : run H (modifyCell id body) s = some (a, s')) :
    ∃ b s₁ r s₂, run H (body b) s₁ = some (r, s₂) ∧ r.2 = a := by
  obtain ⟨s₁, -, ran⟩ := Option.bind_eq_some_iff.mp ran
  obtain ⟨b, -, ran⟩ := Option.bind_eq_some_iff.mp ran
  rw [run_bind] at ran
  obtain ⟨⟨r, s₂⟩, inner, ran⟩ := Option.bind_eq_some_iff.mp ran
  obtain ⟨s₃, -, ran⟩ := Option.bind_eq_some_iff.mp ran
  obtain ⟨s₄, -, ran⟩ := Option.bind_eq_some_iff.mp ran
  simp only [run, Option.some.injEq, Prod.mk.injEq] at ran
  exact ⟨b, s₁, r, s₂, inner, ran.1⟩

/-- Every command that succeeds under `H` succeeds under `H'` from a related state, with the
same answer and a related result. -/
structure Simulates (H : Handler β σ) (H' : Handler β τ) (R : σ → τ → Prop) : Prop where
  acquire : ∀ {s s' t id}, R s t → H.acquire id s = some s' →
    ∃ t', H'.acquire id t = some t' ∧ R s' t'
  load : ∀ {s t id b}, R s t → H.load id s = some b → H'.load id t = some b
  store : ∀ {s s' t id b}, R s t → H.store id b s = some s' →
    ∃ t', H'.store id b t = some t' ∧ R s' t'
  release : ∀ {s s' t id}, R s t → H.release id s = some s' →
    ∃ t', H'.release id t = some t' ∧ R s' t'
  flush : ∀ {s s' t}, R s t → H.flush s = some s' → ∃ t', H'.flush t = some t' ∧ R s' t'

/-- A whole run is simulated when its commands are. -/
theorem run_simulates {H : Handler β σ} {H' : Handler β τ} {R : σ → τ → Prop}
    (sim : Simulates H H' R) (p : CellProg β α) {s s' : σ} {t : τ} {a : α}
    (related : R s t) (ran : run H p s = some (a, s')) :
    ∃ t', run H' p t = some (a, t') ∧ R s' t' := by
  induction p generalizing s t with
  | ret b =>
      simp only [run, Option.some.injEq, Prod.mk.injEq] at ran
      obtain ⟨rfl, rfl⟩ := ran
      exact ⟨t, rfl, related⟩
  | panic => simp [run] at ran
  | acquire id k ih =>
      obtain ⟨s₁, step, rest⟩ := Option.bind_eq_some_iff.mp ran
      obtain ⟨t₁, step', related₁⟩ := sim.acquire related step
      obtain ⟨t', rest', related'⟩ := ih related₁ rest
      exact ⟨t', by simp [run, step', rest'], related'⟩
  | load id k ih =>
      obtain ⟨b, step, rest⟩ := Option.bind_eq_some_iff.mp ran
      obtain ⟨t', rest', related'⟩ := ih b related rest
      exact ⟨t', by simp [run, sim.load related step, rest'], related'⟩
  | store id b k ih =>
      obtain ⟨s₁, step, rest⟩ := Option.bind_eq_some_iff.mp ran
      obtain ⟨t₁, step', related₁⟩ := sim.store related step
      obtain ⟨t', rest', related'⟩ := ih related₁ rest
      exact ⟨t', by simp [run, step', rest'], related'⟩
  | release id k ih =>
      obtain ⟨s₁, step, rest⟩ := Option.bind_eq_some_iff.mp ran
      obtain ⟨t₁, step', related₁⟩ := sim.release related step
      obtain ⟨t', rest', related'⟩ := ih related₁ rest
      exact ⟨t', by simp [run, step', rest'], related'⟩
  | flush k ih =>
      obtain ⟨s₁, step, rest⟩ := Option.bind_eq_some_iff.mp ran
      obtain ⟨t₁, step', related₁⟩ := sim.flush related step
      obtain ⟨t', rest', related'⟩ := ih related₁ rest
      exact ⟨t', by simp [run, step', rest'], related'⟩

/-- A property of states that the commands keep is kept by a run. -/
theorem run_preserves {H : Handler β σ} {I : σ → Prop}
    (acquire : ∀ {s s' id}, I s → H.acquire id s = some s' → I s')
    (store : ∀ {s s' id b}, I s → H.store id b s = some s' → I s')
    (release : ∀ {s s' id}, I s → H.release id s = some s' → I s')
    (flush : ∀ {s s'}, I s → H.flush s = some s' → I s')
    {p : CellProg β α} {s s' : σ} {a : α} (start : I s) (ran : run H p s = some (a, s')) :
    I s' := by
  induction p generalizing s with
  | ret b =>
      simp only [run, Option.some.injEq, Prod.mk.injEq] at ran
      obtain ⟨rfl, rfl⟩ := ran
      exact start
  | panic => simp [run] at ran
  | acquire id k ih =>
      obtain ⟨s₁, step, rest⟩ := Option.bind_eq_some_iff.mp ran
      exact ih (acquire start step) rest
  | load id k ih =>
      obtain ⟨b, step, rest⟩ := Option.bind_eq_some_iff.mp ran
      exact ih b start rest
  | store id b k ih =>
      obtain ⟨s₁, step, rest⟩ := Option.bind_eq_some_iff.mp ran
      exact ih (store start step) rest
  | release id k ih =>
      obtain ⟨s₁, step, rest⟩ := Option.bind_eq_some_iff.mp ran
      exact ih (release start step) rest
  | flush k ih =>
      obtain ⟨s₁, step, rest⟩ := Option.bind_eq_some_iff.mp ran
      exact ih (flush start step) rest

/-- After the program has returned nothing is left to flush, provided that nothing was at its
start when `c` is true. -/
def LeavesClean : Bool → CellProg β α → Prop
  | c, .ret _ => c = true
  | _, .panic => True
  | c, .acquire _ k => LeavesClean c k
  | c, .load _ k => ∀ b, LeavesClean c (k b)
  | _, .store _ _ k => LeavesClean false k
  | c, .release _ k => LeavesClean c k
  | _, .flush k => LeavesClean true k

/-- `LeavesClean` for a store whose states are clean after a flush and stay so until a cell is
written. -/
theorem run_leavesClean {H : Handler β σ} {Clean : σ → Prop}
    (acquire : ∀ {s s' id}, Clean s → H.acquire id s = some s' → Clean s')
    (release : ∀ {s s' id}, Clean s → H.release id s = some s' → Clean s')
    (flush : ∀ {s s'}, H.flush s = some s' → Clean s')
    {c : Bool} {p : CellProg β α} {s s' : σ} {a : α} (leaves : LeavesClean c p)
    (start : c = true → Clean s) (ran : run H p s = some (a, s')) : Clean s' := by
  induction p generalizing s c with
  | ret b =>
      simp only [run, Option.some.injEq, Prod.mk.injEq] at ran
      obtain ⟨rfl, rfl⟩ := ran
      exact start leaves
  | panic => simp [run] at ran
  | acquire id k ih =>
      obtain ⟨s₁, step, rest⟩ := Option.bind_eq_some_iff.mp ran
      exact ih leaves (fun h => acquire (start h) step) rest
  | load id k ih =>
      obtain ⟨b, step, rest⟩ := Option.bind_eq_some_iff.mp ran
      exact ih b (leaves b) start rest
  | store id b k ih =>
      obtain ⟨s₁, step, rest⟩ := Option.bind_eq_some_iff.mp ran
      exact ih leaves (fun h => Bool.noConfusion h) rest
  | release id k ih =>
      obtain ⟨s₁, step, rest⟩ := Option.bind_eq_some_iff.mp ran
      exact ih leaves (fun h => release (start h) step) rest
  | flush k ih =>
      obtain ⟨s₁, step, rest⟩ := Option.bind_eq_some_iff.mp ran
      exact ih leaves (fun _ => flush step) rest

/-- What follows decides when it flushes in the end. -/
theorem leavesClean_second {p : CellProg β α} {f : α → CellProg β γ} {c : Bool}
    (h : ∀ c a, LeavesClean c (f a)) : LeavesClean c (p >>= f) := by
  show LeavesClean c (p.bind f)
  induction p generalizing c with
  | ret a => exact h c a
  | panic => trivial
  | acquire id k ih => exact ih
  | load id k ih => exact fun b => ih b
  | store id b k ih => exact ih
  | release id k ih => exact ih
  | flush k ih => exact ih

/-- Two programs that write nothing, one after the other. -/
theorem leavesClean_bind {p : CellProg β α} {f : α → CellProg β γ}
    (first : LeavesClean true p) (second : ∀ a, LeavesClean true (f a)) :
    LeavesClean true (p >>= f) := by
  have general : ∀ c, LeavesClean c p → LeavesClean c (p.bind f) := by
    clear first
    induction p with
    | ret a =>
        rintro c rfl
        exact second a
    | panic => exact fun _ _ => trivial
    | acquire id k ih => exact ih
    | load id k ih => exact fun c h b => ih b c (h b)
    | store id b k ih => exact fun _ => ih false
    | release id k ih => exact ih
    | flush k ih => exact fun _ => ih true
  exact general true first

theorem leavesClean_pure (a : α) : LeavesClean true (pure a : CellProg β α) := rfl

theorem leavesClean_flushAll (c : Bool) : LeavesClean c (flushAll : CellProg β Unit) := rfl

/-- A flush and what writes nothing after it. -/
theorem leavesClean_flush {c : Bool} {f : Unit → CellProg β α} (h : LeavesClean true (f ())) :
    LeavesClean c (flushAll >>= f) := h

theorem leavesClean_check (c : Prop) [Decidable c] :
    LeavesClean true (check c : CellProg β Unit) := by
  unfold check
  split
  · rfl
  · trivial

theorem leavesClean_unwrap (o : Option α) : LeavesClean true (unwrap o : CellProg β α) := by
  cases o with
  | none => trivial
  | some a => rfl

theorem leavesClean_viewCell {id : Nat} {body : β → CellProg β α}
    (h : ∀ b, LeavesClean true (body b)) : LeavesClean true (viewCell id body) :=
  fun b => leavesClean_bind (h b) fun _ => rfl

theorem leavesClean_panic (c : Bool) : LeavesClean c (.panic : CellProg β α) := trivial

-- from here on only the rules above are used
attribute [irreducible] LeavesClean

/-- The program reaches a `panic`, all commands before it having succeeded. -/
def Panics (H : Handler β σ) : CellProg β α → σ → Prop
  | .ret _, _ => False
  | .panic, _ => True
  | .acquire id k, s => ∃ s', H.acquire id s = some s' ∧ Panics H k s'
  | .load id k, s => ∃ b, H.load id s = some b ∧ Panics H (k b) s
  | .store id b k, s => ∃ s', H.store id b s = some s' ∧ Panics H k s'
  | .release id k, s => ∃ s', H.release id s = some s' ∧ Panics H k s'
  | .flush k, s => ∃ s', H.flush s = some s' ∧ Panics H k s'

/-- A program that panics does not return. -/
theorem Panics.run_eq {H : Handler β σ} {p : CellProg β α} {s : σ} (h : Panics H p s) :
    run H p s = none := by
  induction p generalizing s with
  | ret a => exact h.elim
  | panic => rfl
  | acquire id k ih =>
      obtain ⟨s', step, rest⟩ := h
      simp [run, step, ih rest]
  | load id k ih =>
      obtain ⟨b, step, rest⟩ := h
      simp [run, step, ih b rest]
  | store id b k ih =>
      obtain ⟨s', step, rest⟩ := h
      simp [run, step, ih rest]
  | release id k ih =>
      obtain ⟨s', step, rest⟩ := h
      simp [run, step, ih rest]
  | flush k ih =>
      obtain ⟨s', step, rest⟩ := h
      simp [run, step, ih rest]

/-- A panic is simulated when the commands before it are. -/
theorem Panics.simulates {H : Handler β σ} {H' : Handler β τ} {R : σ → τ → Prop}
    (sim : Simulates H H' R) {p : CellProg β α} {s : σ} {t : τ} (related : R s t)
    (h : Panics H p s) : Panics H' p t := by
  induction p generalizing s t with
  | ret a => exact h.elim
  | panic => trivial
  | acquire id k ih =>
      obtain ⟨s', step, rest⟩ := h
      obtain ⟨t', step', related'⟩ := sim.acquire related step
      exact ⟨t', step', ih related' rest⟩
  | load id k ih =>
      obtain ⟨b, step, rest⟩ := h
      exact ⟨b, sim.load related step, ih b related rest⟩
  | store id b k ih =>
      obtain ⟨s', step, rest⟩ := h
      obtain ⟨t', step', related'⟩ := sim.store related step
      exact ⟨t', step', ih related' rest⟩
  | release id k ih =>
      obtain ⟨s', step, rest⟩ := h
      obtain ⟨t', step', related'⟩ := sim.release related step
      exact ⟨t', step', ih related' rest⟩
  | flush k ih =>
      obtain ⟨s', step, rest⟩ := h
      obtain ⟨t', step', related'⟩ := sim.flush related step
      exact ⟨t', step', ih related' rest⟩

/-- `p` returns from `s`, with a result and a final state that satisfy `Q`. -/
def wp (H : Handler β σ) (p : CellProg β α) (Q : α → σ → Prop) (s : σ) : Prop :=
  ∃ a s', run H p s = some (a, s') ∧ Q a s'

theorem wp_mono {H : Handler β σ} {p : CellProg β α} {Q Q' : α → σ → Prop} {s : σ}
    (h : wp H p Q s) (imp : ∀ a s', Q a s' → Q' a s') : wp H p Q' s := by
  obtain ⟨a, s', ran, post⟩ := h
  exact ⟨a, s', ran, imp a s' post⟩

@[simp] theorem wp_ret (H : Handler β σ) (a : α) (Q : α → σ → Prop) (s : σ) :
    wp H (.ret a) Q s ↔ Q a s := by
  simp [wp, run]

@[simp] theorem wp_pure (H : Handler β σ) (a : α) (Q : α → σ → Prop) (s : σ) :
    wp H (pure a : CellProg β α) Q s ↔ Q a s := wp_ret H a Q s

@[simp] theorem wp_panic (H : Handler β σ) (Q : α → σ → Prop) (s : σ) :
    wp H (.panic : CellProg β α) Q s ↔ False := by
  simp [wp, run]

@[simp] theorem wp_bind' (H : Handler β σ) (p : CellProg β α) (f : α → CellProg β γ)
    (Q : γ → σ → Prop) (s : σ) :
    wp H (p.bind f) Q s ↔ wp H p (fun a s' => wp H (f a) Q s') s := by
  simp only [wp, run_bind, Option.bind_eq_some_iff]
  constructor
  · rintro ⟨c, s₂, ⟨⟨a, s₁⟩, first, second⟩, post⟩
    exact ⟨a, s₁, first, c, s₂, second, post⟩
  · rintro ⟨a, s₁, first, c, s₂, second, post⟩
    exact ⟨c, s₂, ⟨⟨a, s₁⟩, first, second⟩, post⟩

@[simp] theorem wp_bind (H : Handler β σ) (p : CellProg β α) (f : α → CellProg β γ)
    (Q : γ → σ → Prop) (s : σ) :
    wp H (p >>= f) Q s ↔ wp H p (fun a s' => wp H (f a) Q s') s := wp_bind' H p f Q s

/-- A sequence panics when its first part does. -/
theorem panics_first {H : Handler β σ} {p : CellProg β α} {f : α → CellProg β γ} {s : σ}
    (h : Panics H p s) : Panics H (p.bind f) s := by
  induction p generalizing s with
  | ret a => exact h.elim
  | panic => trivial
  | acquire id k ih =>
      obtain ⟨s', step, rest⟩ := h
      exact ⟨s', step, ih rest⟩
  | load id k ih =>
      obtain ⟨b, step, rest⟩ := h
      exact ⟨b, step, ih b rest⟩
  | store id b k ih =>
      obtain ⟨s', step, rest⟩ := h
      exact ⟨s', step, ih rest⟩
  | release id k ih =>
      obtain ⟨s', step, rest⟩ := h
      exact ⟨s', step, ih rest⟩
  | flush k ih =>
      obtain ⟨s', step, rest⟩ := h
      exact ⟨s', step, ih rest⟩

/-- A sequence panics when its second part does. -/
theorem panics_second {H : Handler β σ} {p : CellProg β α} {f : α → CellProg β γ} {s : σ}
    (h : wp H p (fun a s' => Panics H (f a) s') s) : Panics H (p.bind f) s := by
  obtain ⟨a, s₁, ran, rest⟩ := h
  induction p generalizing s with
  | ret b =>
      simp only [run, Option.some.injEq, Prod.mk.injEq] at ran
      obtain ⟨rfl, rfl⟩ := ran
      exact rest
  | panic => simp [run] at ran
  | acquire id k ih =>
      obtain ⟨s', step, ran⟩ := Option.bind_eq_some_iff.mp ran
      exact ⟨s', step, ih ran⟩
  | load id k ih =>
      obtain ⟨b, step, ran⟩ := Option.bind_eq_some_iff.mp ran
      exact ⟨b, step, ih b ran⟩
  | store id b k ih =>
      obtain ⟨s', step, ran⟩ := Option.bind_eq_some_iff.mp ran
      exact ⟨s', step, ih ran⟩
  | release id k ih =>
      obtain ⟨s', step, ran⟩ := Option.bind_eq_some_iff.mp ran
      exact ⟨s', step, ih ran⟩
  | flush k ih =>
      obtain ⟨s', step, ran⟩ := Option.bind_eq_some_iff.mp ran
      exact ⟨s', step, ih ran⟩

theorem panics_do_first {H : Handler β σ} {p : CellProg β α} {f : α → CellProg β γ} {s : σ}
    (h : Panics H p s) : Panics H (p >>= f) s := panics_first h

theorem panics_do_second {H : Handler β σ} {p : CellProg β α} {f : α → CellProg β γ} {s : σ}
    (h : wp H p (fun a s' => Panics H (f a) s') s) : Panics H (p >>= f) s := panics_second h

theorem panics_unwrap (H : Handler β σ) (s : σ) :
    Panics H (unwrap none : CellProg β α) s := True.intro

theorem panics_check (H : Handler β σ) {c : Prop} [Decidable c] (s : σ) (fails : ¬ c) :
    Panics H (check c : CellProg β Unit) s := by
  rw [check, if_neg fails]
  exact True.intro

/-- `p` only looks at the state: it returns the value of `o`, or panics when there is none. -/
def Answers (H : Handler β σ) (p : CellProg β α) (s : σ) : Option α → Prop
  | some a => run H p s = some (a, s)
  | none => Panics H p s

theorem answers_pure (H : Handler β σ) (a : α) (s : σ) :
    Answers H (pure a : CellProg β α) s (some a) := rfl

theorem answers_unwrap (H : Handler β σ) (o : Option α) (s : σ) :
    Answers H (unwrap o : CellProg β α) s o := by
  cases o with
  | none => trivial
  | some a => rfl

theorem answers_check (H : Handler β σ) {c : Prop} [Decidable c] (s : σ) (h : c) :
    Answers H (check c : CellProg β Unit) s (some ()) := by
  rw [check, if_pos h]
  rfl

theorem answers_bind {H : Handler β σ} {p : CellProg β α} {f : α → CellProg β γ} {s : σ}
    {o : Option α} {g : α → Option γ} (first : Answers H p s o)
    (second : ∀ a, o = some a → Answers H (f a) s (g a)) : Answers H (p >>= f) s (o.bind g) := by
  cases o with
  | none => exact panics_first first
  | some a =>
      have rest := second a rfl
      have ran : run H p s = some (a, s) := first
      rw [Option.bind_some]
      cases hg : g a with
      | none =>
          rw [hg] at rest
          exact panics_second ⟨a, s, ran, rest⟩
      | some c =>
          rw [hg] at rest
          have ran' : run H (f a) s = some (c, s) := rest
          show run H (p.bind f) s = some (c, s)
          rw [run_bind, ran, Option.bind_some, ran']

@[simp] theorem wp_check (H : Handler β σ) (c : Prop) [Decidable c] (Q : Unit → σ → Prop)
    (s : σ) : wp H (check c : CellProg β Unit) Q s ↔ c ∧ Q () s := by
  unfold check
  split <;> simp_all

@[simp] theorem wp_unwrap_some (H : Handler β σ) (a : α) (Q : α → σ → Prop) (s : σ) :
    wp H (unwrap (some a) : CellProg β α) Q s ↔ Q a s := by
  simp [unwrap]

end Run

section Array

variable {β α : Type}

/-- An array of cells, some of which are held. -/
structure CellArray (β : Type) where
  cells : Nat → β
  held : List Nat

namespace CellArray

/-- Take hold of a cell. -/
def hold (s : CellArray β) (id : Nat) : CellArray β := { s with held := id :: s.held }

/-- Overwrite the contents of a cell. -/
def put (s : CellArray β) (id : Nat) (b : β) : CellArray β :=
  { s with cells := Function.update s.cells id b }

@[simp] theorem hold_cells (s : CellArray β) (id : Nat) : (s.hold id).cells = s.cells := rfl
@[simp] theorem hold_held (s : CellArray β) (id : Nat) : (s.hold id).held = id :: s.held := rfl
@[simp] theorem put_cells (s : CellArray β) (id : Nat) (b : β) :
    (s.put id b).cells = Function.update s.cells id b := rfl
@[simp] theorem put_held (s : CellArray β) (id : Nat) (b : β) : (s.put id b).held = s.held := rfl

theorem hold_holds (s : CellArray β) (id : Nat) : id ∈ (s.hold id).held := List.mem_cons_self

/-- The cell exists, nobody holds it, and one more cell may be held: in an array of `size`
cells of which at most `slots` are held at once. -/
structure Lockable (size slots : Nat) (s : CellArray β) (id : Nat) : Prop where
  inRange : id < size
  notHeld : id ∉ s.held
  room : s.held.length < slots

/-- Whether a cell can be taken depends only on what is held. -/
theorem Lockable.congr {size slots : Nat} {s s' : CellArray β} {id : Nat}
    (h : Lockable size slots s id) (same : s'.held = s.held) : Lockable size slots s' id :=
  ⟨h.inRange, same ▸ h.notHeld, same ▸ h.room⟩

/-- While no cell is held, every cell can be taken. -/
theorem Lockable.of_held_nil {size slots : Nat} {s : CellArray β} {id : Nat} (held : s.held = [])
    (room : 0 < slots) (below : id < size) : Lockable size slots s id :=
  ⟨below, by simp [held], by rwa [held]⟩

instance (size slots : Nat) (s : CellArray β) (id : Nat) : Decidable (Lockable size slots s id) :=
  decidable_of_iff (id < size ∧ id ∉ s.held ∧ s.held.length < slots)
    ⟨fun h => ⟨h.1, h.2.1, h.2.2⟩, fun h => ⟨h.inRange, h.notHeld, h.room⟩⟩

end CellArray

open CellArray

/-- The plain meaning of the commands: an array of `size` cells of which at most `slots` are
held at once. Holding a cell twice, releasing out of order and flushing while a cell is held
never succeed. -/
def arrayHandler (β : Type) (size slots : Nat) : Handler β (CellArray β) where
  acquire id s := if Lockable size slots s id then some (s.hold id) else none
  load id s := if id ∈ s.held then some (s.cells id) else none
  store id b s := if id ∈ s.held then some (s.put id b) else none
  release id s := if s.held.head? = some id then some { s with held := s.held.tail } else none
  flush s := if s.held = [] then some s else none

section Commands

variable (size slots : Nat)

theorem array_acquire {s : CellArray β} {id : Nat} (lock : Lockable size slots s id) :
    (arrayHandler β size slots).acquire id s = some (s.hold id) := if_pos lock

theorem array_load {s : CellArray β} {id : Nat} (held : id ∈ s.held) :
    (arrayHandler β size slots).load id s = some (s.cells id) := if_pos held

theorem array_store {s : CellArray β} {id : Nat} (b : β) (held : id ∈ s.held) :
    (arrayHandler β size slots).store id b s = some (s.put id b) := if_pos held

theorem array_release {s : CellArray β} {id : Nat} {rest : List Nat} (held : s.held = id :: rest) :
    (arrayHandler β size slots).release id s = some { s with held := rest } := by
  simp [arrayHandler, held]

end Commands

variable {size slots : Nat}

/-- Viewing a lockable cell runs the body with the cell held. -/
theorem wp_viewCell {id : Nat} {body : β → CellProg β α} {Q : α → CellArray β → Prop}
    {s : CellArray β} (lock : Lockable size slots s id)
    (h : wp (arrayHandler β size slots) (body (s.cells id))
      (fun a s' => s'.held = id :: s.held ∧ Q a { s' with held := s.held }) (s.hold id)) :
    wp (arrayHandler β size slots) (viewCell id body) Q s := by
  obtain ⟨a, s', ran, heldEq, post⟩ := h
  refine ⟨a, { s' with held := s.held }, ?_, post⟩
  have loaded := array_load size slots (s.hold_holds id)
  simp only [viewCell, run, array_acquire size slots lock, loaded, Option.bind_some, run_bind,
    CellArray.hold_cells, ran, array_release size slots heldEq]

/-- Modifying a lockable cell runs the body with the cell held and then overwrites it. -/
theorem wp_modifyCell {id : Nat} {body : β → CellProg β (β × α)} {Q : α → CellArray β → Prop}
    {s : CellArray β} (lock : Lockable size slots s id)
    (h : wp (arrayHandler β size slots) (body (s.cells id))
      (fun r s' => s'.held = id :: s.held ∧
        Q r.2 { cells := Function.update s'.cells id r.1, held := s.held }) (s.hold id)) :
    wp (arrayHandler β size slots) (modifyCell id body) Q s := by
  obtain ⟨⟨b, a⟩, s', ran, heldEq, post⟩ := h
  refine ⟨a, { cells := Function.update s'.cells id b, held := s.held }, ?_, post⟩
  have loaded := array_load size slots (s.hold_holds id)
  have isHeld : id ∈ s'.held := by simp [heldEq]
  have stored := array_store size slots b isHeld
  have putHeld : (s'.put id b).held = id :: s.held := heldEq
  have released := array_release size slots putHeld
  simp only [modifyCell, run, array_acquire size slots lock, loaded, Option.bind_some, run_bind,
    CellArray.hold_cells, ran, stored, released, CellArray.put_cells]

/-- Viewing a cell panics when the body does. -/
theorem panics_viewCell {id : Nat} {body : β → CellProg β α} {s : CellArray β}
    (lock : Lockable size slots s id)
    (h : Panics (arrayHandler β size slots) (body (s.cells id)) (s.hold id)) :
    Panics (arrayHandler β size slots) (viewCell id body) s :=
  ⟨s.hold id, array_acquire size slots lock, s.cells id, array_load size slots (s.hold_holds id),
    panics_first h⟩

/-- Modifying a cell panics when the body does. -/
theorem panics_modifyCell {id : Nat} {body : β → CellProg β (β × α)} {s : CellArray β}
    (lock : Lockable size slots s id)
    (h : Panics (arrayHandler β size slots) (body (s.cells id)) (s.hold id)) :
    Panics (arrayHandler β size slots) (modifyCell id body) s :=
  ⟨s.hold id, array_acquire size slots lock, s.cells id, array_load size slots (s.hold_holds id),
    panics_first h⟩

theorem wp_flushAll {Q : Unit → CellArray β → Prop} {s : CellArray β} (idle : s.held = [])
    (h : Q () s) : wp (arrayHandler β size slots) flushAll Q s := by
  refine ⟨(), s, ?_, h⟩
  simp [flushAll, run, arrayHandler, idle]

end Array

-- as above, from here on only the rules are used
attribute [irreducible] Panics

end CoreFromDust.Lib
