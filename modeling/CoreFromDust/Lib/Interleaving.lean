import Mathlib.Algebra.BigOperators.Fin
import Mathlib.Data.Fintype.Basic

/-!
# Interleaved threads

The threads of a program take turns on one processor. A turn is one access to the shared memory;
which thread has it is for a schedule to say. A thread that has ended or waits for another one
lets its turn pass.
-/

namespace CoreFromDust.Lib

variable {Id Shared Local : Type} [DecidableEq Id]

/-- The shared memory and the memory of each thread, which holds its place in the code. -/
structure World (Id Shared Local : Type) where
  shared : Shared
  locals : Id → Local

/-- A program for many threads: what the next turn of a thread does. -/
structure Threads (Id Shared Local : Type) where
  step : Id → Shared → Local → Option (Shared × Local)

namespace Threads

variable {p : Threads Id Shared Local} {w : World Id Shared Local} {i : Id}

/-- The turn of one thread. -/
def turn (p : Threads Id Shared Local) (w : World Id Shared Local) (i : Id) :
    World Id Shared Local :=
  match p.step i w.shared (w.locals i) with
  | none => w
  | some (shared, mine) => ⟨shared, Function.update w.locals i mine⟩

/-- The turns of a schedule. -/
def run (p : Threads Id Shared Local) (w : World Id Shared Local) (schedule : List Id) :
    World Id Shared Local :=
  schedule.foldl p.turn w

/-- Every turn of the schedule takes place. -/
def Takes (p : Threads Id Shared Local) (w : World Id Shared Local) : List Id → Prop
  | [] => True
  | i :: rest => (p.step i w.shared (w.locals i)).isSome = true ∧ p.Takes (p.turn w i) rest

/-- What a turn keeps if it takes place. -/
theorem turn_keeps {inv : World Id Shared Local → Prop} (start : inv w)
    (kept : ∀ shared mine, p.step i w.shared (w.locals i) = some (shared, mine) →
      inv ⟨shared, Function.update w.locals i mine⟩) : inv (p.turn w i) := by
  unfold turn
  split
  · exact start
  · next shared mine takes => exact kept shared mine takes

/-- What every turn keeps holds after every schedule. -/
theorem run_keeps (inv : World Id Shared Local → Prop) (start : inv w)
    (kept : ∀ w i shared mine, inv w → p.step i w.shared (w.locals i) = some (shared, mine) →
      inv ⟨shared, Function.update w.locals i mine⟩) (schedule : List Id) :
    inv (p.run w schedule) := by
  induction schedule generalizing w with
  | nil => exact start
  | cons i rest ih =>
      apply ih
      exact turn_keeps start fun shared mine => kept w i shared mine start

/-- What every turn of a thread keeps of its own memory, it keeps of all. -/
theorem run_keeps_local (own : Id → Local → Prop) (start : ∀ i, own i (w.locals i))
    (kept : ∀ i shared mine shared' mine', own i mine →
      p.step i shared mine = some (shared', mine') → own i mine') (schedule : List Id) (i : Id) :
    own i ((p.run w schedule).locals i) := by
  refine run_keeps (fun w => ∀ i, own i (w.locals i)) start ?_ schedule i
  intro w j shared mine inv takes k
  by_cases same : k = j
  · subst same
    dsimp only
    rw [Function.update_self]
    exact kept k _ _ _ _ (inv k) takes
  · dsimp only
    rw [Function.update_of_ne same]
    exact inv k

end Threads

/-- A sum over all threads when one of them changes. -/
theorem sum_update [Fintype Id] (weight : Id → Local → Nat) (locals : Id → Local) (i : Id)
    (t : Local) : ∑ j, weight j (Function.update locals i t j) + weight i (locals i) =
      ∑ j, weight j (locals j) + weight i t := by
  have others : ∑ j ∈ Finset.univ.erase i, weight j (Function.update locals i t j) =
      ∑ j ∈ Finset.univ.erase i, weight j (locals j) := by
    apply Finset.sum_congr rfl
    intro j mem
    rw [Function.update_of_ne (Finset.ne_of_mem_erase mem)]
  rw [← Finset.sum_erase_add Finset.univ _ (Finset.mem_univ i), others, Function.update_self,
    ← Finset.sum_erase_add Finset.univ (fun j => weight j (locals j)) (Finset.mem_univ i)]
  omega

/-- As many turns take place at most as the ranks of all threads allow. -/
theorem Threads.length_le_rank [Fintype Id] {p : Threads Id Shared Local}
    {w : World Id Shared Local} (rank : Id → Local → Nat)
    (falls : ∀ i s t s' t', p.step i s t = some (s', t') → rank i t' < rank i t)
    {schedule : List Id}
    (takes : p.Takes w schedule) : schedule.length ≤ ∑ i, rank i (w.locals i) := by
  induction schedule generalizing w with
  | nil => exact Nat.zero_le _
  | cons i rest ih =>
      obtain ⟨⟨shared, mine⟩, step⟩ := Option.isSome_iff_exists.mp takes.1
      have next : p.turn w i = ⟨shared, Function.update w.locals i mine⟩ := by
        unfold turn
        rw [step]
      have later := ih takes.2
      have fall := falls i _ _ _ _ step
      have total := sum_update rank w.locals i mine
      rw [next] at later
      rw [List.length_cons]
      dsimp only at later
      omega

/-! ## Endless schedules -/

/-- Every thread has a turn again and again. -/
def Fair (schedule : Nat → Id) : Prop := ∀ i n, ∃ m, n ≤ m ∧ schedule m = i

/-- One thread after the other, again and again. -/
theorem fair_ofNat (n : Nat) : Fair fun k => Fin.ofNat (n + 1) k := by
  intro i k
  refine ⟨k * (n + 1) + i, ?_, Fin.ext ?_⟩
  · exact (Nat.le_mul_of_pos_right k (Nat.succ_pos n)).trans (Nat.le_add_right ..)
  · exact Nat.mul_add_mod_of_lt i.isLt

namespace Threads

variable {p : Threads Id Shared Local} {w : World Id Shared Local} {schedule : Nat → Id}

/-- The first turns of an endless schedule. -/
def runTo (p : Threads Id Shared Local) (w : World Id Shared Local)
    (schedule : Nat → Id) (n : Nat) :
    World Id Shared Local :=
  p.run w ((List.range n).map schedule)

theorem runTo_succ (n : Nat) :
    p.runTo w schedule (n + 1) = p.turn (p.runTo w schedule n) (schedule n) := by
  rw [runTo, List.range_succ, List.map_append, run, List.foldl_append]
  rfl

/-- A turn that takes place and leaves the world as it is. -/
theorem still {i : Id} {shared : Shared} {mine : Local} (same : p.turn w i = w)
    (takes : p.step i w.shared (w.locals i) = some (shared, mine)) :
    shared = w.shared ∧ mine = w.locals i := by
  have turn : p.turn w i = ⟨shared, Function.update w.locals i mine⟩ := by
    unfold turn
    rw [takes]
  rw [same] at turn
  refine ⟨(congrArg World.shared turn).symm, ?_⟩
  have here : w.locals i = Function.update w.locals i mine i :=
    congrFun (congrArg World.locals turn) i
  rwa [Function.update_self, eq_comm] at here

/-- A turn leaves the world as it is, or the ranks of all threads together fall. -/
theorem turn_falls [Fintype Id] (rank : Id → Local → Nat) (i : Id)
    (falls : ∀ s t, p.step i w.shared (w.locals i) = some (s, t) →
      (s = w.shared ∧ t = w.locals i) ∨ rank i t < rank i (w.locals i)) :
    p.turn w i = w ∨ ∑ j, rank j ((p.turn w i).locals j) < ∑ j, rank j (w.locals j) := by
  unfold turn
  split
  · exact .inl rfl
  · next shared mine takes =>
    rcases falls _ _ takes with ⟨rfl, rfl⟩ | less
    · left
      rw [Function.update_eq_self]
    · right
      have total := sum_update rank w.locals i mine
      dsimp only
      omega

/-- What a measure reaches: as long as the end has not come some thread has a turn that changes the
world, and such turns lower the measure. Then the end comes in every fair schedule. -/
theorem eventually_of_fair {inv final : World Id Shared Local → Prop}
    (measure : World Id Shared Local → Nat) (start : inv w)
    (kept : ∀ w i shared mine, inv w → p.step i w.shared (w.locals i) = some (shared, mine) →
      inv ⟨shared, Function.update w.locals i mine⟩)
    (falls : ∀ w i, inv w → p.turn w i = w ∨ measure (p.turn w i) < measure w)
    (moves : ∀ w, inv w → final w ∨ ∃ i, p.turn w i ≠ w) (fair : Fair schedule) :
    ∃ n, final (p.runTo w schedule n) := by
  have invAt : ∀ n, inv (p.runTo w schedule n) := by
    intro n
    induction n with
    | zero => exact start
    | succ n ih =>
        rw [runTo_succ]
        exact turn_keeps ih fun shared mine => kept _ _ shared mine ih
  -- between two moments nothing has happened or the measure has fallen
  have later : ∀ n m, n ≤ m → p.runTo w schedule m = p.runTo w schedule n ∨
      measure (p.runTo w schedule m) < measure (p.runTo w schedule n) := by
    intro n m le
    induction m, le using Nat.le_induction with
    | base => exact .inl rfl
    | succ m _ ih =>
        rw [runTo_succ]
        rcases falls _ (schedule m) (invAt m) with same | less
        · rwa [same]
        · rcases ih with same | before
          · rw [same] at less ⊢
            exact .inr less
          · exact .inr (less.trans before)
  have ends : ∀ b n, measure (p.runTo w schedule n) ≤ b → ∃ m, final (p.runTo w schedule m) := by
    intro b
    induction b using Nat.strong_induction_on with
    | _ b ih =>
        intro n le
        rcases moves _ (invAt n) with final | ⟨i, changes⟩
        · exact ⟨n, final⟩
        · obtain ⟨m, after, turn⟩ := fair i n
          have less : measure (p.runTo w schedule (m + 1)) < measure (p.runTo w schedule n) := by
            rcases later n m after with same | before
            · rcases later n (m + 1) (by omega) with still | less
              · rw [runTo_succ, same, turn] at still
                exact absurd still changes
              · exact less
            · rcases later m (m + 1) (Nat.le_succ m) with still | less
              · rwa [still]
              · exact less.trans before
          exact ih _ (less.trans_le le) (m + 1) le_rfl
  exact ends _ 0 le_rfl

end Threads

end CoreFromDust.Lib
