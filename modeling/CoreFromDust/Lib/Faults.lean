import Mathlib.Logic.Basic

/-!
# Computations that avoid a fault

A computation in `Except` avoids an error when it does not stop with it, and what it returns has a
property. The rules follow the way the computation is put together, so one proof shows both that the
error does not come up and what holds after the computation.
-/

namespace CoreFromDust.Lib

variable {ε α β : Type}

/-- The computation does not stop with `bad`, and what it returns has the property. -/
def Avoids (bad : ε) (post : α → Prop) : Except ε α → Prop
  | .ok a => post a
  | .error e => e ≠ bad

namespace Avoids

variable {bad : ε} {post post' : α → Prop} {x : Except ε α}

theorem ne_error (avoids : Avoids bad post x) : x ≠ .error bad := by
  rintro rfl
  exact avoids rfl

theorem of_ok (avoids : Avoids bad post x) {a : α} (returned : x = .ok a) : post a := by
  subst returned
  exact avoids

theorem mono (avoids : Avoids bad post x) (weaker : ∀ a, post a → post' a) :
    Avoids bad post' x := by
  cases x with
  | error e => exact avoids
  | ok a => exact weaker a avoids

theorem bind {f : α → Except ε β} {last : β → Prop} (avoids : Avoids bad post x)
    (next : ∀ a, post a → Avoids bad last (f a)) : Avoids bad last (x.bind f) := by
  cases x with
  | error e => exact avoids
  | ok a => exact next a avoids

theorem map {f : α → β} {last : β → Prop} (avoids : Avoids bad post x)
    (next : ∀ a, post a → last (f a)) : Avoids bad last (x.map f) := by
  cases x with
  | error e => exact avoids
  | ok a => exact next a avoids

end Avoids

/-- An optional value, with an error in the place of `none`. -/
def orError (e : ε) : Option α → Except ε α
  | some a => .ok a
  | none => .error e

theorem Avoids.orError {bad e : ε} {post : α → Prop} {x : Option α} (other : e ≠ bad)
    (next : ∀ a, x = some a → post a) : Avoids bad post (orError e x) := by
  cases x with
  | none => exact other
  | some a => exact next a rfl

theorem Avoids.orError_bind {bad e : ε} {f : α → Except ε β} {last : β → Prop} {x : Option α}
    (other : e ≠ bad) (next : ∀ a, x = some a → Avoids bad last (f a)) :
    Avoids bad last ((Lib.orError e x).bind f) :=
  (Avoids.orError other fun _ isSome => isSome).bind next

theorem Avoids.orError_map {bad e : ε} {f : α → β} {last : β → Prop} {x : Option α}
    (other : e ≠ bad) (next : ∀ a, x = some a → last (f a)) :
    Avoids bad last ((Lib.orError e x).map f) :=
  (Avoids.orError other fun _ isSome => isSome).map next

/-! ## What a computation that returned has done -/

theorem bind_ok {x : Except ε α} {f : α → Except ε β} {b : β} (h : x.bind f = .ok b) :
    ∃ a, x = .ok a ∧ f a = .ok b := by
  cases x with
  | error e => exact absurd h (by simp [Except.bind])
  | ok a => exact ⟨a, rfl, h⟩

theorem map_ok {x : Except ε α} {f : α → β} {b : β} (h : x.map f = .ok b) :
    ∃ a, x = .ok a ∧ f a = b := by
  cases x with
  | error e => exact absurd h (by simp [Except.map])
  | ok a => exact ⟨a, rfl, Except.ok.inj h⟩

theorem orError_ok {e : ε} {x : Option α} {a : α} (h : orError e x = .ok a) : x = some a := by
  cases x with
  | none => exact absurd h (by simp [orError])
  | some b => rw [Except.ok.inj h]

theorem orError_bind_ok {e : ε} {x : Option α} {f : α → Except ε β} {b : β}
    (h : (orError e x).bind f = .ok b) : ∃ a, x = some a ∧ f a = .ok b := by
  obtain ⟨a, isSome, h⟩ := bind_ok h
  exact ⟨a, orError_ok isSome, h⟩

theorem orError_map_ok {e : ε} {x : Option α} {f : α → β} {b : β}
    (h : (orError e x).map f = .ok b) : ∃ a, x = some a ∧ f a = b := by
  obtain ⟨a, isSome, h⟩ := map_ok h
  exact ⟨a, orError_ok isSome, h⟩

end CoreFromDust.Lib
