/-!
# Runs with a log

A partial step function runs while an observer writes a log. What the next step may be can depend
on the log, which is how a condition on the caller is stated.
-/

namespace CoreFromDust.Lib

universe u v w

variable {σ : Type u} {ε : Type v} {ν : Type w}

/-- The states of runs, each with the notes that were made since the start. -/
inductive LoggedRun (step : σ → ε → Option σ) (notes : σ → ε → List ν)
    (allowed : List ν → σ → ε → Prop) (start : σ → Prop) : σ → List ν → Prop
  | start {s} : start s → LoggedRun step notes allowed start s []
  | step {s s' log event} : LoggedRun step notes allowed start s log → allowed log s event →
      step s event = some s' → LoggedRun step notes allowed start s' (log ++ notes s event)

/-- The state and the log after a list of events, each of which passes a check. -/
def loggedSteps (step : σ → ε → Option σ) (notes : σ → ε → List ν)
    (check : List ν → σ → ε → Bool) (s : σ) (log : List ν) : List ε → Option (σ × List ν)
  | [] => some (s, log)
  | event :: events =>
      if check log s event then
        (step s event).bind fun s' => loggedSteps step notes check s' (log ++ notes s event) events
      else none

namespace LoggedRun

variable {step : σ → ε → Option σ} {notes : σ → ε → List ν} {allowed : List ν → σ → ε → Prop}
  {start : σ → Prop} {s s' : σ} {log log' : List ν}

/-- What holds at the start and is kept by every step holds in every run. -/
theorem invariant (inv : σ → List ν → Prop) (run : LoggedRun step notes allowed start s log)
    (init : ∀ s, start s → inv s [])
    (kept : ∀ s s' log event, inv s log → allowed log s event → step s event = some s' →
      inv s' (log ++ notes s event)) : inv s log := by
  induction run with
  | start isStart => exact init _ isStart
  | step _ isAllowed h ih => exact kept _ _ _ _ ih isAllowed h

/-- Events that pass a check make a run longer. -/
theorem loggedSteps {check : List ν → σ → ε → Bool}
    (sound : ∀ log s event, check log s event = true → allowed log s event) {events : List ε}
    (run : LoggedRun step notes allowed start s log)
    (h : Lib.loggedSteps step notes check s log events = some (s', log')) :
    LoggedRun step notes allowed start s' log' := by
  induction events generalizing s log with
  | nil =>
      simp only [Lib.loggedSteps, Option.some.injEq, Prod.mk.injEq] at h
      obtain ⟨rfl, rfl⟩ := h
      exact run
  | cons event rest ih =>
      rw [Lib.loggedSteps] at h
      split at h
      · next passes =>
        obtain ⟨next, first, h⟩ := Option.bind_eq_some_iff.mp h
        exact ih (.step run (sound log s event passes) first) h
      · simp at h

end LoggedRun

end CoreFromDust.Lib
