import CoreFromDust.Lib.CellProg

/-!
# Holding cells with discipline

A run is disciplined when no cell is taken that is held already, few cells are held at once, none is
held at a flush, and every command succeeds. A run on an array whose cells are locked is, and the
store that simulates the array inherits it.
-/

namespace CoreFromDust.Lib

open CellProg

variable {β α σ τ : Type}

/-- On its way from `s`, with the cells `held` so far, the program takes only cells that it does not
hold, at most `slots` at once, and flushes only while it holds none; no command fails, so it
returns, with nothing held, or stops at a `panic` of its own. -/
def Disciplined (H : Handler β σ) (slots : Nat) : CellProg β α → List Nat → σ → Prop
  | .ret _, held, _ => held = []
  | .panic, _, _ => True
  | .acquire id k, held, s => id ∉ held ∧ held.length < slots ∧
      ∃ s', H.acquire id s = some s' ∧ Disciplined H slots k (id :: held) s'
  | .load id k, held, s => id ∈ held ∧ ∃ b, H.load id s = some b ∧ Disciplined H slots (k b) held s
  | .store id b k, held, s => id ∈ held ∧
      ∃ s', H.store id b s = some s' ∧ Disciplined H slots k held s'
  | .release id k, held, s => id ∈ held ∧
      ∃ s', H.release id s = some s' ∧ Disciplined H slots k (held.erase id) s'
  | .flush k, held, s => held = [] ∧ ∃ s', H.flush s = some s' ∧ Disciplined H slots k held s'

/-- Discipline is inherited by what simulates the commands. -/
theorem Disciplined.simulates {H : Handler β σ} {H' : Handler β τ} {R : σ → τ → Prop}
    (sim : Simulates H H' R) {slots : Nat} {p : CellProg β α} {held : List Nat} {s : σ} {t : τ}
    (related : R s t) (disciplined : Disciplined H slots p held s) :
    Disciplined H' slots p held t := by
  induction p generalizing held s t with
  | ret a => exact disciplined
  | panic => trivial
  | acquire id k ih =>
      obtain ⟨notHeld, room, s', step, rest⟩ := disciplined
      obtain ⟨t', step', related'⟩ := sim.acquire related step
      exact ⟨notHeld, room, t', step', ih related' rest⟩
  | load id k ih =>
      obtain ⟨mem, b, step, rest⟩ := disciplined
      exact ⟨mem, b, sim.load related step, ih b related rest⟩
  | store id b k ih =>
      obtain ⟨mem, s', step, rest⟩ := disciplined
      obtain ⟨t', step', related'⟩ := sim.store related step
      exact ⟨mem, t', step', ih related' rest⟩
  | release id k ih =>
      obtain ⟨mem, s', step, rest⟩ := disciplined
      obtain ⟨t', step', related'⟩ := sim.release related step
      exact ⟨mem, t', step', ih related' rest⟩
  | flush k ih =>
      obtain ⟨none, s', step, rest⟩ := disciplined
      obtain ⟨t', step', related'⟩ := sim.flush related step
      exact ⟨none, t', step', ih related' rest⟩

section Array

variable {size slots cap : Nat}

theorem acquire_some {id : Nat} {a a' : CellArray β}
    (step : (arrayHandler β size slots).acquire id a = some a') :
    a.Lockable size slots id ∧ a' = a.hold id := by
  simp only [arrayHandler, Option.ite_none_right_eq_some, Option.some.injEq] at step
  exact ⟨step.1, step.2.symm⟩

theorem load_some {id : Nat} {a : CellArray β} {b : β}
    (step : (arrayHandler β size slots).load id a = some b) : id ∈ a.held := by
  simp only [arrayHandler, Option.ite_none_right_eq_some] at step
  exact step.1

theorem store_some {id : Nat} {a a' : CellArray β} {b : β}
    (step : (arrayHandler β size slots).store id b a = some a') :
    id ∈ a.held ∧ a'.held = a.held := by
  simp only [arrayHandler, Option.ite_none_right_eq_some, Option.some.injEq] at step
  obtain ⟨mem, rfl⟩ := step
  exact ⟨mem, rfl⟩

theorem release_some {id : Nat} {a a' : CellArray β}
    (step : (arrayHandler β size slots).release id a = some a') :
    id ∈ a.held ∧ a'.held = a.held.erase id := by
  simp only [arrayHandler, Option.ite_none_right_eq_some, Option.some.injEq] at step
  obtain ⟨head, rfl⟩ := step
  obtain ⟨rest, heldEq⟩ := List.head?_eq_some_iff.mp head
  simp [heldEq]

theorem flush_some {a a' : CellArray β} (step : (arrayHandler β size slots).flush a = some a') :
    a.held = [] ∧ a' = a := by
  simp only [arrayHandler, Option.ite_none_right_eq_some, Option.some.injEq] at step
  exact ⟨step.1, step.2.symm⟩

/-- A program that returns with nothing held is disciplined. -/
theorem disciplined_of_run {p : CellProg β α} {a a' : CellArray β} {r : α}
    (ran : run (arrayHandler β size slots) p a = some (r, a')) (idle : a'.held = []) :
    Disciplined (arrayHandler β size slots) slots p a.held a := by
  induction p generalizing a with
  | ret b =>
      simp only [run, Option.some.injEq, Prod.mk.injEq] at ran
      obtain ⟨rfl, rfl⟩ := ran
      exact idle
  | panic => simp [run] at ran
  | acquire id k ih =>
      obtain ⟨a₁, step, rest⟩ := Option.bind_eq_some_iff.mp ran
      obtain ⟨lock, rfl⟩ := acquire_some step
      exact ⟨lock.notHeld, lock.room, _, step, ih rest⟩
  | load id k ih =>
      obtain ⟨b, step, rest⟩ := Option.bind_eq_some_iff.mp ran
      exact ⟨load_some step, b, step, ih b rest⟩
  | store id b k ih =>
      obtain ⟨a₁, step, rest⟩ := Option.bind_eq_some_iff.mp ran
      obtain ⟨mem, heldEq⟩ := store_some step
      exact ⟨mem, a₁, step, heldEq ▸ ih rest⟩
  | release id k ih =>
      obtain ⟨a₁, step, rest⟩ := Option.bind_eq_some_iff.mp ran
      obtain ⟨mem, heldEq⟩ := release_some step
      exact ⟨mem, a₁, step, heldEq ▸ ih rest⟩
  | flush k ih =>
      obtain ⟨a₁, step, rest⟩ := Option.bind_eq_some_iff.mp ran
      obtain ⟨none, rfl⟩ := flush_some step
      exact ⟨none, _, step, ih rest⟩

-- the commands of a program that panics are looked at once more
unseal Panics in
/-- A program that panics by itself is disciplined. -/
theorem disciplined_of_panics {p : CellProg β α} {a : CellArray β}
    (stops : Panics (arrayHandler β size slots) p a) :
    Disciplined (arrayHandler β size slots) slots p a.held a := by
  induction p generalizing a with
  | ret b => exact stops.elim
  | panic => trivial
  | acquire id k ih =>
      obtain ⟨a₁, step, rest⟩ := stops
      obtain ⟨lock, rfl⟩ := acquire_some step
      exact ⟨lock.notHeld, lock.room, _, step, ih rest⟩
  | load id k ih =>
      obtain ⟨b, step, rest⟩ := stops
      exact ⟨load_some step, b, step, ih b rest⟩
  | store id b k ih =>
      obtain ⟨a₁, step, rest⟩ := stops
      obtain ⟨mem, heldEq⟩ := store_some step
      exact ⟨mem, a₁, step, heldEq ▸ ih rest⟩
  | release id k ih =>
      obtain ⟨a₁, step, rest⟩ := stops
      obtain ⟨mem, heldEq⟩ := release_some step
      exact ⟨mem, a₁, step, heldEq ▸ ih rest⟩
  | flush k ih =>
      obtain ⟨a₁, step, rest⟩ := stops
      obtain ⟨none, rfl⟩ := flush_some step
      exact ⟨none, _, step, ih rest⟩

/-- A cell that can be taken among few can be taken among more. -/
theorem array_simulates_more (few : slots ≤ cap) :
    Simulates (arrayHandler β size slots) (arrayHandler β size cap) Eq := by
  refine ⟨?_, ?_, ?_, ?_, ?_⟩
  · rintro a a' t id rfl step
    obtain ⟨lock, rfl⟩ := acquire_some step
    exact ⟨_, array_acquire size cap ⟨lock.inRange, lock.notHeld, Nat.lt_of_lt_of_le lock.room few⟩,
      rfl⟩
  · rintro a t id b rfl step
    exact step
  · rintro a a' t id b rfl step
    exact ⟨a', step, rfl⟩
  · rintro a a' t id rfl step
    exact ⟨a', step, rfl⟩
  · rintro a a' t rfl step
    exact ⟨a', step, rfl⟩

end Array

end CoreFromDust.Lib
