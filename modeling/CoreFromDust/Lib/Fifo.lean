import Mathlib.Data.List.Basic

/-!
# First in, first out

A queue serves its entries at the front and takes new ones at the back. An entry may leave it
without having been served only when nobody cares for it any more. An entry that somebody cares
for is then overtaken by nothing.
-/

namespace CoreFromDust.Lib

variable {α : Type} {keep : α → Bool} {q q' q'' served served' : List α} {x : α}

/-- The queue `q` has served `served` in this order and is now `q'`. Entries were `added` at its
back, and all that satisfy `keep` have been served or are still there. -/
def Serves (keep : α → Bool) (q served q' : List α) : Prop :=
  ∃ added, (served ++ q').Sublist (q ++ added) ∧
    (served ++ q').filter keep = (q ++ added).filter keep

namespace Serves

/-- The queue gets entries at its back. -/
theorem push (keep : α → Bool) (q added : List α) : Serves keep q [] (q ++ added) :=
  ⟨added, .refl _, rfl⟩

theorem refl (keep : α → Bool) (q : List α) : Serves keep q [] q :=
  ⟨[], by rw [List.append_nil]; exact .refl _, by rw [List.append_nil]; rfl⟩

/-- The entry at the front is served. -/
theorem pop (keep : α → Bool) (x : α) (q : List α) : Serves keep (x :: q) [x] q :=
  ⟨[], by rw [List.append_nil]; exact .refl _, by rw [List.append_nil]; rfl⟩

theorem of_longer (longer : q <+: q') : Serves keep q [] q' := by
  obtain ⟨added, rfl⟩ := longer
  exact push keep q added

/-- Entries leave the queue that nobody cares for. -/
theorem diff [BEq α] [LawfulBEq α] {gone : List α} (uncared : ∀ x ∈ gone, keep x = false) :
    Serves keep q [] (q.diff gone) := by
  refine ⟨[], by rw [List.append_nil]; exact List.diff_sublist q gone, ?_⟩
  rw [List.append_nil, List.nil_append]
  induction gone generalizing q with
  | nil => rfl
  | cons x gone ih =>
      have absent : x ∉ q.filter keep := by
        intro mem
        rw [List.mem_filter, uncared x List.mem_cons_self] at mem
        exact Bool.false_ne_true mem.2
      rw [List.diff_cons, ih fun y mem => uncared y (List.mem_cons_of_mem x mem),
        ← List.erase_filter, List.erase_of_not_mem absent]

theorem trans (first : Serves keep q served q') (second : Serves keep q' served' q'') :
    Serves keep q (served ++ served') q'' := by
  obtain ⟨added, part, same⟩ := first
  obtain ⟨added', part', same'⟩ := second
  refine ⟨added ++ added', ?_, ?_⟩
  · calc (served ++ served' ++ q'').Sublist (served ++ (q' ++ added')) := by
          rw [List.append_assoc]
          exact part'.append_left served
      _ |>.Sublist (q ++ (added ++ added')) := by
          rw [← List.append_assoc, ← List.append_assoc]
          exact part.append_right added'
  · calc (served ++ served' ++ q'').filter keep
        = served.filter keep ++ (q' ++ added').filter keep := by
          rw [List.append_assoc, List.filter_append, same']
      _ = (q ++ added).filter keep ++ added'.filter keep := by
          rw [← same, List.filter_append, List.filter_append, List.append_assoc]
      _ = (q ++ (added ++ added')).filter keep := by
          rw [← List.filter_append, List.append_assoc]

/-- An entry that somebody cares for is not lost. -/
theorem mem (serves : Serves keep q served q') (here : x ∈ q) (cares : keep x = true) :
    x ∈ served ++ q' := by
  obtain ⟨added, -, same⟩ := serves
  have kept : x ∈ (q ++ added).filter keep :=
    List.mem_filter.mpr ⟨List.mem_append_left added here, cares⟩
  rw [← same] at kept
  exact (List.mem_filter.mp kept).1

/-- Before an entry come only entries that were in front of it, in their order. -/
theorem behind {front back : List α} (serves : Serves keep (front ++ x :: back) served q')
    (cares : keep x = true) :
    ∃ before after, served ++ q' = before ++ x :: after ∧ before.Sublist front := by
  obtain ⟨added, part, same⟩ := serves
  rw [List.append_assoc, List.cons_append] at part same
  obtain ⟨before, rest, eq, beforePart, restPart⟩ := List.sublist_append_iff.mp part
  rw [eq, List.filter_append, List.filter_append, List.filter_cons_of_pos cares] at same
  cases restPart with
  | cons _ later =>
      -- then fewer entries that somebody cares for would be left
      have lengths := congrArg List.length same
      have fewer := (beforePart.filter keep).length_le
      have fewer' := (later.filter keep).length_le
      simp only [List.length_append, List.length_cons] at lengths
      omega
  | cons_cons _ later => exact ⟨before, _, eq, beforePart⟩

theorem not_overtaken {i : Nat} (serves : Serves keep q served q') (here : q[i]? = some x)
    (cares : keep x = true) :
    ∃ before after, served ++ q' = before ++ x :: after ∧ before.Sublist (q.take i) := by
  obtain ⟨inside, rfl⟩ := List.getElem?_eq_some_iff.mp here
  have split : q = q.take i ++ q[i] :: q.drop (i + 1) := by
    rw [List.getElem_cons_drop, List.take_append_drop]
  rw [split] at serves
  exact serves.behind cares

/-- An entry is served at the latest after those that were in front of it. -/
theorem mem_served {i : Nat} (serves : Serves keep q served q') (here : q[i]? = some x)
    (cares : keep x = true) (enough : i < served.length) : x ∈ served := by
  obtain ⟨before, after, eq, part⟩ := serves.not_overtaken here cares
  have short : before.length < served.length := by
    have := part.length_le
    rw [List.length_take] at this
    omega
  have at_place : (served ++ q')[before.length]? = some x := by
    rw [eq, List.getElem?_append_right (Nat.le_refl _), Nat.sub_self, List.getElem?_cons_zero]
  rw [List.getElem?_append_left short] at at_place
  exact List.mem_of_getElem? at_place

end Serves

end CoreFromDust.Lib
