import CoreFromDust.Os.Mm.Proofs.ThreadExits

/-!
# How the machine evolves

What threads and processes do to the machine is a sequence of changes, each to the frames of one
address space. From this it follows what becomes of the frames and of the address spaces that are
not changed.
-/

namespace CoreFromDust.Os.Mm

open CoreFromDust.Lib SpaceWf

/-- Changes to address spaces whose names are in `touched`, one after the other. -/
inductive Evolves (l tramp : Nat) (touched : SpaceId → Prop) (k : Machine) : Machine → Prop
  | refl : Evolves l tramp touched k k
  | put {k' : Machine} {phys : Phys} (id : SpaceId) (new : Option Space)
      (before : Evolves l tramp touched k k') (isTouched : touched id)
      (changes : Changes l k'.phys phys (ownOf (k'.spaces id)) (ownOf new))
      (newOk : ∀ space, new = some space → SpaceOk l tramp phys id space) :
      Evolves l tramp touched k (k'.put phys id new)

/-- The frames that are in use belong to the address spaces, and those of `rest`, which are in no
address space, to somebody else. -/
structure Machine.Shared (l : Nat) (rest : List Nat) (k : Machine) : Prop where
  apart : ∀ ppn ∈ rest, k.phys.InUse l ppn ∧ ∀ id, ppn ∉ ownOf (k.spaces id)
  noLeak : ∀ ppn, k.phys.InUse l ppn → ppn ∈ rest ∨ ∃ id, ppn ∈ ownOf (k.spaces id)

theorem Machine.Shared.put {l : Nat} {rest : List Nat} {k : Machine} {phys : Phys} {id : SpaceId}
    {new : Option Space} (shared : k.Shared l rest)
    (changes : Changes l k.phys phys (ownOf (k.spaces id)) (ownOf new)) :
    (k.put phys id new).Shared l rest := by
  refine ⟨fun ppn mem => ?_, fun ppn used => ?_⟩
  · obtain ⟨used, notOwn⟩ := shared.apart ppn mem
    refine ⟨(changes.inUse ppn).mpr (.inl ⟨used, notOwn id⟩), fun other => ?_⟩
    by_cases same : other = id
    · subst same
      rw [k.put_spaces_self]
      exact changes.not_mem used (notOwn other)
    · rw [k.put_spaces_of_ne _ _ same]
      exact notOwn other
  · rcases (changes.inUse ppn).mp used with ⟨used, notOwn⟩ | isNew
    · refine (shared.noLeak ppn used).imp_right ?_
      rintro ⟨other, mem⟩
      have differ : other ≠ id := by
        rintro rfl
        exact notOwn mem
      exact ⟨other, by rwa [k.put_spaces_of_ne _ _ differ]⟩
    · exact .inr ⟨id, by rwa [k.put_spaces_self]⟩

/-- The frames of the address space have the same bytes in both machines. -/
def SameBytes (k k' : Machine) (id : SpaceId) : Prop :=
  ∀ ppn ∈ ownOf (k.spaces id), SameFrame k.phys.mem k'.phys.mem ppn

namespace Evolves

variable {l tramp : Nat} {touched touched' : SpaceId → Prop} {k k' k'' : Machine} {id : SpaceId}
  {set set' : MemorySet} {phys : Phys}

theorem inv (evolves : Evolves l tramp touched k k') (inv : Machine.Inv l tramp k) :
    Machine.Inv l tramp k' := by
  induction evolves with
  | refl => exact inv
  | put id new before isTouched changes newOk ih => exact ih.put id new changes newOk

theorem trans (first : Evolves l tramp touched k k') (second : Evolves l tramp touched k' k'') :
    Evolves l tramp touched k k'' := by
  induction second with
  | refl => exact first
  | put id new before isTouched changes newOk ih => exact ih.put id new isTouched changes newOk

theorem mono (evolves : Evolves l tramp touched k k') (more : ∀ id, touched id → touched' id) :
    Evolves l tramp touched' k k' := by
  induction evolves with
  | refl => exact .refl
  | put id new before isTouched changes newOk ih =>
      exact ih.put id new (more id isTouched) changes newOk

theorem shared {rest : List Nat} (evolves : Evolves l tramp touched k k')
    (shared : k.Shared l rest) :
    k'.Shared l rest := by
  induction evolves with
  | refl => exact shared
  | put id new before isTouched changes newOk ih => exact ih.put changes

/-- An address space that is not touched stays as it is. -/
theorem kept (evolves : Evolves l tramp touched k k') (inv : Machine.Inv l tramp k)
    (apart : ¬ touched id) :
    k'.spaces id = k.spaces id ∧ SameBytes k k' id := by
  induction evolves with
  | refl => exact ⟨rfl, fun _ _ _ _ => rfl⟩
  | @put k' phys other new before isTouched changes newOk ih =>
      obtain ⟨same, bytes⟩ := ih
      have inv' := before.inv inv
      have differ : id ≠ other := by
        rintro rfl
        exact apart isTouched
      refine ⟨(k'.put_spaces_of_ne _ _ differ).trans same, fun ppn mem => (bytes ppn mem).trans ?_⟩
      rw [← same] at mem
      obtain ⟨space, isSpace, own⟩ := mem_ownOf.mp mem
      exact changes.other ppn (inv'.ownOf_inUse mem)
        (inv'.ownOf_disjoint differ isSpace ppn own)

/-- An operation on an address space. -/
theorem ofStep (inv : Machine.Inv l tramp k) (isLive : k.live id = some set)
    (step : SpaceStep l tramp k.phys phys set set') (isTouched : touched id) :
    Evolves l tramp touched k (k.put phys id (some ⟨set', false⟩)) := by
  obtain ⟨found, ok⟩ := inv.live isLive
  refine .put id _ .refl isTouched (by rw [found]; exact step.changes) ?_
  rintro space isSpace
  obtain rfl := Option.some.inj isSpace
  exact ⟨fun _ => step.wf, by simp, fun isUser => step.framed (ok.framed isUser)⟩

/-- A new address space. -/
theorem ofNew (free : k.spaces id = none) (changes : Changes l k.phys phys [] set.own)
    (wf : set.Wf l tramp phys) (framed : set.Framed) (isTouched : touched id) :
    Evolves l tramp touched k (k.put phys id (some ⟨set, false⟩)) := by
  refine .put id _ .refl isTouched (by rw [free]; exact changes) ?_
  rintro space isSpace
  obtain rfl := Option.some.inj isSpace
  exact ⟨fun _ => wf, by simp, fun _ => framed⟩

/-- A store to an address space. -/
theorem ofStore {layout : KernelLayout} {vpn offset : Nat} {byte : UInt8}
    (inv : Machine.Inv l tramp k)
    (above : Above layout l tramp) (h : k.step layout (.store id vpn offset byte) = some k') :
    Evolves l tramp (fun other => other = id) k k' := by
  obtain ⟨set, mem, found, rfl, same⟩ := inv.store above h
  have ok := inv.space id _ found
  have wf : set.Wf l tramp k.phys := ok.wf rfl
  have changes : Changes l k.phys { k.phys with mem := mem } set.own set.own := by
    refine .write wf.table.ok wf.own_inUse fun ppn used notOwn => same ppn used fun data => ?_
    exact notOwn (mem_own.mpr (.inr data))
  have written := wf.write fun ppn table => same ppn (wf.table.inUse ppn table) fun data =>
    wf.notTable ppn data table
  have put : Evolves l tramp (fun other => other = id) k
      (k.put { k.phys with mem := mem } id (some ⟨set, false⟩)) :=
    .ofStep inv (Machine.live_eq_some.mpr found) ⟨written, changes, fun framed => framed⟩ rfl
  rwa [Machine.put, ← found, Function.update_eq_self] at put

end Evolves

end CoreFromDust.Os.Mm
