import Mathlib.Data.List.Perm.Subperm
import Mathlib.Data.List.Nodup
import Mathlib.Order.Interval.Finset.Nat

/-!
# Ids from a counter and a stack of returned ids

Many allocators hand out the numbers from `first` on. They keep the next number that was never
handed out, `current`, and a stack `recycled` of the numbers that came back. `InUse` are the
numbers that are out. A pop, a step of the counter and a push each change that set by one
number.
-/

namespace CoreFromDust.Lib.FreeStack

/-- The numbers that were handed out and not returned. -/
def InUse (first current : Nat) (recycled : List Nat) (id : Nat) : Prop :=
  first ≤ id ∧ id < current ∧ id ∉ recycled

/-- Each returned number is held once. -/
structure Ok (first current : Nat) (recycled : List Nat) : Prop where
  le : first ≤ current
  nodup : recycled.Nodup
  bound : ∀ id ∈ recycled, first ≤ id ∧ id < current

variable {first current id other : Nat} {recycled live : List Nat}

theorem Ok.new (first : Nat) : Ok first first [] := ⟨Nat.le_refl _, List.nodup_nil, by simp⟩

theorem not_inUse_new (first id : Nat) : ¬ InUse first first [] id := by
  rintro ⟨lower, upper, -⟩
  omega

theorem Ok.pop (ok : Ok first current (id :: recycled)) : Ok first current recycled :=
  ⟨ok.le, (List.nodup_cons.mp ok.nodup).2,
    fun other mem => ok.bound other (List.mem_cons_of_mem _ mem)⟩

theorem not_inUse_head : ¬ InUse first current (id :: recycled) id :=
  fun inUse => inUse.2.2 List.mem_cons_self

/-- A pop hands the number out. -/
theorem Ok.inUse_pop (ok : Ok first current (id :: recycled)) :
    InUse first current recycled other ↔
      InUse first current (id :: recycled) other ∨ other = id := by
  constructor
  · rintro ⟨lower, upper, free⟩
    by_cases same : other = id
    · exact .inr same
    · exact .inl ⟨lower, upper, by simp [same, free]⟩
  · rintro (⟨lower, upper, free⟩ | rfl)
    · exact ⟨lower, upper, fun mem => free (List.mem_cons_of_mem _ mem)⟩
    · have range := ok.bound other List.mem_cons_self
      exact ⟨range.1, range.2, (List.nodup_cons.mp ok.nodup).1⟩

theorem Ok.bump (ok : Ok first current recycled) : Ok first (current + 1) recycled :=
  ⟨Nat.le_succ_of_le ok.le, ok.nodup,
    fun other mem => ⟨(ok.bound other mem).1, Nat.lt_succ_of_lt (ok.bound other mem).2⟩⟩

theorem not_inUse_current : ¬ InUse first current recycled current :=
  fun inUse => Nat.lt_irrefl _ inUse.2.1

/-- A step of the counter hands its value out. -/
theorem Ok.inUse_bump (ok : Ok first current recycled) :
    InUse first (current + 1) recycled other ↔
      InUse first current recycled other ∨ other = current := by
  constructor
  · rintro ⟨lower, upper, free⟩
    by_cases same : other = current
    · exact .inr same
    · exact .inl ⟨lower, by omega, free⟩
  · rintro (⟨lower, upper, free⟩ | rfl)
    · exact ⟨lower, by omega, free⟩
    · refine ⟨ok.le, Nat.lt_succ_self _, fun mem => ?_⟩
      exact Nat.lt_irrefl _ (ok.bound other mem).2

theorem Ok.push (ok : Ok first current recycled) (inUse : InUse first current recycled id) :
    Ok first current (id :: recycled) := by
  refine ⟨ok.le, List.nodup_cons.mpr ⟨inUse.2.2, ok.nodup⟩, fun other mem => ?_⟩
  rcases List.mem_cons.mp mem with rfl | mem
  · exact ⟨inUse.1, inUse.2.1⟩
  · exact ok.bound other mem

/-- A push takes the number back. -/
theorem inUse_push :
    InUse first current (id :: recycled) other ↔
      InUse first current recycled other ∧ other ≠ id := by
  simp only [InUse, List.mem_cons, not_or]
  tauto

/-- The numbers in use and the returned ones share the range out. -/
theorem Ok.length_add_length (ok : Ok first current recycled) (nodup : live.Nodup)
    (inUse : ∀ id, id ∈ live ↔ InUse first current recycled id) :
    live.length + recycled.length = current - first := by
  have disjoint : (live ++ recycled).Nodup := by
    refine List.nodup_append.mpr ⟨nodup, ok.nodup, ?_⟩
    rintro id isLive other isFree rfl
    exact ((inUse id).mp isLive).2.2 isFree
  have range : (live ++ recycled).toFinset = Finset.Ico first current := by
    ext id
    simp only [List.mem_toFinset, List.mem_append, Finset.mem_Ico]
    constructor
    · rintro (isLive | isFree)
      · exact ⟨((inUse id).mp isLive).1, ((inUse id).mp isLive).2.1⟩
      · exact ok.bound id isFree
    · rintro ⟨lower, upper⟩
      by_cases isFree : id ∈ recycled
      · exact .inr isFree
      · exact .inl ((inUse id).mpr ⟨lower, upper, isFree⟩)
  have card := congrArg Finset.card range
  rwa [List.toFinset_card_of_nodup disjoint, List.length_append, Nat.card_Ico] at card

end CoreFromDust.Lib.FreeStack
