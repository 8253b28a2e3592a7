import Mathlib.Data.Option.Basic

/-!
# Machines that answer calls

A machine takes calls one after the other and answers each, or stops. One machine refines another
when it gives the same answers to all lists of calls that the other answers.
-/

namespace CoreFromDust.Lib

universe u v w x

variable {α : Type u} {σ : Type v} {ι : Type w} {ρ : Type x}

/-- The answers to a list of calls, and the state after them. -/
def answers (step : σ → ι → Option (ρ × σ)) (s : σ) : List ι → Option (List ρ × σ)
  | [] => some ([], s)
  | call :: calls =>
      (step s call).bind fun (r, s) => (answers step s calls).map fun (rs, s) => (r :: rs, s)

section Answers

variable {step : σ → ι → Option (ρ × σ)} {s s' s'' : σ}

theorem answers_cons {call : ι} {calls : List ι} {results : List ρ}
    (h : answers step s (call :: calls) = some (results, s'')) :
    ∃ r s' rest, step s call = some (r, s') ∧ answers step s' calls = some (rest, s'') ∧
      results = r :: rest := by
  obtain ⟨⟨r, s'⟩, first, h⟩ := Option.bind_eq_some_iff.mp h
  obtain ⟨⟨rest, last⟩, later, h⟩ := Option.map_eq_some_iff.mp h
  simp only [Prod.mk.injEq] at h
  obtain ⟨rfl, rfl⟩ := h
  exact ⟨r, s', rest, first, later, rfl⟩

theorem answers_of_cons {call : ι} {calls : List ι} {r : ρ} {rest : List ρ}
    (first : step s call = some (r, s')) (later : answers step s' calls = some (rest, s'')) :
    answers step s (call :: calls) = some (r :: rest, s'') := by
  simp only [answers, first, Option.bind_some, later, Option.map_some]

end Answers

/-- Whenever `spec` answers a call, `impl` gives the same answer, and the states stay related. -/
def Refines (related : α → σ → Prop) (spec : α → ι → Option (ρ × α))
    (impl : σ → ι → Option (ρ × σ)) :
    Prop :=
  ∀ a s call r a', related a s → spec a call = some (r, a') →
    ∃ s', impl s call = some (r, s') ∧ related a' s'

/-- A machine that refines another one call by call does so on lists of calls. -/
theorem Refines.answers {related : α → σ → Prop} {spec : α → ι → Option (ρ × α)}
    {impl : σ → ι → Option (ρ × σ)} (refines : Refines related spec impl) {a a' : α} {s : σ}
    (start : related a s) {calls : List ι} {results : List ρ}
    (h : Lib.answers spec a calls = some (results, a')) :
    ∃ s', Lib.answers impl s calls = some (results, s') ∧ related a' s' := by
  induction calls generalizing a s results with
  | nil =>
      obtain ⟨rfl, rfl⟩ := Prod.mk.inj (Option.some.inj h)
      exact ⟨s, rfl, start⟩
  | cons call calls ih =>
      obtain ⟨r, mid, rest, first, later, rfl⟩ := answers_cons h
      obtain ⟨s₁, ran, next⟩ := refines a s call r mid start first
      obtain ⟨s', ran', last⟩ := ih next later
      exact ⟨s', answers_of_cons ran ran', last⟩

end CoreFromDust.Lib
