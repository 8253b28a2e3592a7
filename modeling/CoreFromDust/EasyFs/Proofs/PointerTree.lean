import CoreFromDust.EasyFs.Proofs.Slots
import CoreFromDust.EasyFs.Proofs.BitmapAlloc

/-!
# Inodes as pointer trees

`ptr` reads the id in a slot from the inode and the index blocks on the disk, `setPtr` writes
it. As long as the ids of all slots in use are distinct (`TreeOk`), filling further slots with
fresh ids changes no id that is already there, and writing to blocks other than the file's
index blocks changes none either.
-/

namespace CoreFromDust.EasyFs

open CoreFromDust.Lib Slot

namespace DiskInode

/-- The block id in a slot. -/
def ptr (ino : DiskInode) (cells : Cells) : Slot → UInt32
  | .direct i => ino.direct[i]?.getD 0
  | .indirect1 => ino.indirect1
  | .indirect2 => ino.indirect2
  | .entry1 j => (cells ino.indirect1.toNat).u32 (4 * j)
  | .sub a => (cells ino.indirect2.toNat).u32 (4 * a)
  | .entry2 a b => (cells ((cells ino.indirect2.toNat).u32 (4 * a)).toNat).u32 (4 * b)

/-- Write the entry `i` of block `id`. -/
def setEntry (cells : Cells) (id : UInt32) (i : Nat) (v : UInt32) : Cells :=
  Function.update cells id.toNat ((cells id.toNat).setU32 (4 * i) v)

/-- Write the block id in a slot. -/
def setPtr (t : DiskInode × Cells) (s : Slot) (v : UInt32) : DiskInode × Cells :=
  match s with
  | .direct i => ({ t.1 with direct := t.1.direct.setIfInBounds i v }, t.2)
  | .indirect1 => ({ t.1 with indirect1 := v }, t.2)
  | .indirect2 => ({ t.1 with indirect2 := v }, t.2)
  | .entry1 j => (t.1, setEntry t.2 t.1.indirect1 j v)
  | .sub a => (t.1, setEntry t.2 t.1.indirect2 a v)
  | .entry2 a b => (t.1, setEntry t.2 (t.1.ptr t.2 (.sub a)) b v)

/-- Fill slots in turn. -/
def assign (t : DiskInode × Cells) : List (Slot × UInt32) → DiskInode × Cells
  | [] => t
  | (s, v) :: rest => assign (setPtr t s v) rest

theorem assign_append (t : DiskInode × Cells) (l l' : List (Slot × UInt32)) :
    assign t (l ++ l') = assign (assign t l) l' := by
  induction l generalizing t with
  | nil => rfl
  | cons p l ih => exact ih (setPtr t p.1 p.2)

/-- The id in a slot with a parent is the entry of the block the parent names. -/
theorem ptr_of_parent (ino : DiskInode) (cells : Cells) {s p : Slot} {i : Nat}
    (h : s.parent = some (p, i)) :
    ino.ptr cells s = (cells (ino.ptr cells p).toNat).u32 (4 * i) := by
  cases s <;> simp only [parent, Option.some.injEq, Prod.mk.injEq, reduceCtorEq] at h <;>
    obtain ⟨rfl, rfl⟩ := h <;> rfl

theorem setPtr_of_parent (t : DiskInode × Cells) (v : UInt32) {s p : Slot} {i : Nat}
    (h : s.parent = some (p, i)) :
    setPtr t s v = (t.1, setEntry t.2 (t.1.ptr t.2 p) i v) := by
  cases s <;> simp only [parent, Option.some.injEq, Prod.mk.injEq, reduceCtorEq] at h <;>
    obtain ⟨rfl, rfl⟩ := h <;> rfl

theorem setPtr_of_field (t : DiskInode × Cells) (v : UInt32) {s : Slot}
    (h : s.parent = none) : (setPtr t s v).2 = t.2 := by
  cases s <;> simp [parent] at h <;> rfl

theorem setPtr_size (t : DiskInode × Cells) (s : Slot) (v : UInt32) :
    (setPtr t s v).1.size = t.1.size ∧ (setPtr t s v).1.type_ = t.1.type_ := by
  cases s <;> exact ⟨rfl, rfl⟩

theorem assign_size (t : DiskInode × Cells) (l : List (Slot × UInt32)) :
    (assign t l).1.size = t.1.size ∧ (assign t l).1.type_ = t.1.type_ := by
  induction l generalizing t with
  | nil => exact ⟨rfl, rfl⟩
  | cons p l ih =>
      obtain ⟨size, type⟩ := ih (setPtr t p.1 p.2)
      obtain ⟨size', type'⟩ := setPtr_size t p.1 p.2
      exact ⟨size.trans size', type.trans type'⟩

theorem setEntry_u32 (cells : Cells) (id : UInt32) {i : Nat} (hi : i < 128) (v : UInt32)
    (id' j : Nat) :
    (setEntry cells id i v id').u32 (4 * j) =
      if id' = id.toNat ∧ j = i then v else (cells id').u32 (4 * j) := by
  unfold setEntry
  by_cases same : id' = id.toNat
  · subst same
    rw [Function.update_self, Block.u32_setU32 _ _ _ _ hi]
    by_cases h : j = i <;> simp [h]
  · rw [Function.update_of_ne same]
    simp [same]

/-- Blocks other than the one written to keep their contents. -/
theorem setEntry_other (cells : Cells) (id : UInt32) (i : Nat) (v : UInt32) {id' : Nat}
    (differ : id' ≠ id.toNat) : setEntry cells id i v id' = cells id' :=
  Function.update_of_ne differ _ _

end DiskInode

open DiskInode

/-- The index positions of a slot are in range: `direct` has 28 entries, an index block 128. -/
def Slot.Bounded : Slot → Prop
  | .direct i => i < 28
  | .indirect1 | .indirect2 => True
  | .entry1 j => j < 128
  | .sub a => a < 128
  | .entry2 _ b => b < 128

theorem Slot.bounded_parent {s p : Slot} {i : Nat} (bounded : s.Bounded)
    (h : s.parent = some (p, i)) : i < 128 := by
  cases s <;> simp only [parent, Option.some.injEq, Prod.mk.injEq, reduceCtorEq] at h <;>
    obtain ⟨rfl, rfl⟩ := h <;> exact bounded

/-- The slots in `S` hold distinct ids, and with a slot its parent is in `S`. -/
structure TreeOk (t : DiskInode × Cells) (S : List Slot) : Prop where
  distinct : (S.map fun s => (t.1.ptr t.2 s).toNat).Nodup
  closed : ∀ s ∈ S, ∀ p i, s.parent = some (p, i) → p ∈ S

namespace TreeOk

theorem inj {t : DiskInode × Cells} {S : List Slot} (ok : TreeOk t S) {s s' : Slot}
    (hs : s ∈ S) (hs' : s' ∈ S) (same : (t.1.ptr t.2 s).toNat = (t.1.ptr t.2 s').toNat) : s = s' :=
  List.inj_on_of_nodup_map ok.distinct hs hs' same

/-- Changes outside the index blocks do not change the ids. -/
theorem ptr_congr {ino : DiskInode} {cells cells' : Cells} {S : List Slot}
    (closed : ∀ s ∈ S, ∀ p i, s.parent = some (p, i) → p ∈ S)
    (same : ∀ p ∈ S, p.isIndex = true →
      cells' (ino.ptr cells p).toNat = cells (ino.ptr cells p).toNat) :
    ∀ s ∈ S, ino.ptr cells' s = ino.ptr cells s := by
  have field : ∀ s : Slot, s.parent = none → ino.ptr cells' s = ino.ptr cells s := by
    intro s h
    cases s <;> simp [parent] at h <;> rfl
  have step : ∀ s ∈ S, ∀ p i, s.parent = some (p, i) → ino.ptr cells' p = ino.ptr cells p →
      ino.ptr cells' s = ino.ptr cells s := by
    intro s hs p i h hp
    rw [ptr_of_parent _ _ h, ptr_of_parent _ _ h, hp, same p (closed s hs p i h) (parent_isIndex h)]
  -- a slot is at most two steps below a field of the inode
  intro s hs
  cases s with
  | direct i => exact field _ rfl
  | indirect1 => exact field _ rfl
  | indirect2 => exact field _ rfl
  | entry1 j => exact step _ hs _ _ rfl (field _ rfl)
  | sub a => exact step _ hs _ _ rfl (field _ rfl)
  | entry2 a b =>
      have parentIn := closed _ hs _ _ rfl
      exact step _ hs _ _ rfl (step _ parentIn _ _ rfl (field _ rfl))

/-- Filling a slot that is not in use with a fresh id keeps the ids in use. -/
theorem setPtr_ptr {t : DiskInode × Cells} {S : List Slot} (ok : TreeOk t S) {s : Slot}
    (new : s ∉ S) (bounded : s.Bounded) (parentIn : ∀ p i, s.parent = some (p, i) → p ∈ S)
    (v : UInt32) :
    (∀ s' ∈ S, (setPtr t s v).1.ptr (setPtr t s v).2 s' = t.1.ptr t.2 s') ∧
      (setPtr t s v).1.ptr (setPtr t s v).2 s = v := by
  cases hparent : s.parent with
  | none =>
      rw [setPtr_of_field t v hparent]
      have roots : ∀ s', s' ≠ s → s'.parent = none →
          (setPtr t s v).1.ptr t.2 s' = t.1.ptr t.2 s' := by
        intro s' differ h
        cases s <;> simp [parent] at hparent <;> cases s' <;> simp [parent] at h <;>
          simp [setPtr, ptr] at differ ⊢
        rw [Vector.getElem?_setIfInBounds, if_neg (Ne.symm differ)]
      have step : ∀ s' p i, s'.parent = some (p, i) →
          (setPtr t s v).1.ptr t.2 p = t.1.ptr t.2 p →
          (setPtr t s v).1.ptr t.2 s' = t.1.ptr t.2 s' := by
        intro s' p i h hp
        rw [ptr_of_parent _ _ h, ptr_of_parent _ _ h, hp]
      have notSelf : ∀ s' ∈ S, s' ≠ s := by
        rintro s' hs' rfl
        exact new hs'
      refine ⟨?_, ?_⟩
      · intro s' hs'
        cases s' with
        | direct i => exact roots _ (notSelf _ hs') rfl
        | indirect1 => exact roots _ (notSelf _ hs') rfl
        | indirect2 => exact roots _ (notSelf _ hs') rfl
        | entry1 j =>
            have hp := ok.closed _ hs' _ _ rfl
            exact step _ _ _ rfl (roots _ (notSelf _ hp) rfl)
        | sub a =>
            have hp := ok.closed _ hs' _ _ rfl
            exact step _ _ _ rfl (roots _ (notSelf _ hp) rfl)
        | entry2 a b =>
            have hp := ok.closed _ hs' _ _ rfl
            have hq := ok.closed _ hp _ _ rfl
            exact step _ _ _ rfl (step _ _ _ rfl (roots _ (notSelf _ hq) rfl))
      · cases s <;> simp [parent] at hparent <;> simp [setPtr, ptr]
        rw [Vector.getElem?_setIfInBounds_self_of_lt bounded]
        rfl
  | some q =>
      obtain ⟨p, i⟩ := q
      have hi : i < 128 := bounded_parent bounded hparent
      have pIn := parentIn p i hparent
      rw [setPtr_of_parent t v hparent]
      have keep : ∀ s' ∈ S, ∀ p' j, s'.parent = some (p', j) →
          t.1.ptr (setEntry t.2 (t.1.ptr t.2 p) i v) p' = t.1.ptr t.2 p' →
          t.1.ptr (setEntry t.2 (t.1.ptr t.2 p) i v) s' = t.1.ptr t.2 s' := by
        intro s' hs' p' j h hp'
        rw [ptr_of_parent _ _ h, ptr_of_parent _ _ h, hp', setEntry_u32 _ _ hi]
        rw [if_neg]
        rintro ⟨sameBlock, rfl⟩
        have sameParent := ok.inj (ok.closed _ hs' _ _ h) pIn sameBlock
        subst sameParent
        exact new (parent_inj hparent h ▸ hs')
      have old : ∀ s' ∈ S,
          t.1.ptr (setEntry t.2 (t.1.ptr t.2 p) i v) s' = t.1.ptr t.2 s' := by
        intro s' hs'
        cases s' with
        | direct i => rfl
        | indirect1 => rfl
        | indirect2 => rfl
        | entry1 j => exact keep _ hs' _ _ rfl rfl
        | sub a => exact keep _ hs' _ _ rfl rfl
        | entry2 a b =>
            exact keep _ hs' _ _ rfl (keep _ (ok.closed _ hs' _ _ rfl) _ _ rfl rfl)
      refine ⟨old, ?_⟩
      rw [ptr_of_parent _ _ hparent, old p pIn, setEntry_u32 _ _ hi, if_pos ⟨rfl, rfl⟩]

/-- One more slot with a fresh id keeps the ids distinct. -/
theorem setPtr_ok {t : DiskInode × Cells} {S : List Slot} (ok : TreeOk t S) {s : Slot}
    (new : s ∉ S) (bounded : s.Bounded) (parentIn : ∀ p i, s.parent = some (p, i) → p ∈ S)
    {v : UInt32} (fresh : v.toNat ∉ S.map fun s => (t.1.ptr t.2 s).toNat) :
    TreeOk (setPtr t s v) (S ++ [s]) := by
  obtain ⟨old, self⟩ := ok.setPtr_ptr new bounded parentIn v
  refine ⟨?_, ?_⟩
  · rw [List.map_append, List.nodup_append]
    have same : (S.map fun s' => ((setPtr t s v).1.ptr (setPtr t s v).2 s').toNat) =
        S.map fun s' => (t.1.ptr t.2 s').toNat :=
      List.map_congr_left fun s' hs' => by rw [old s' hs']
    rw [same]
    refine ⟨ok.distinct, by simp, ?_⟩
    intro x hx y hy
    simp only [List.map_cons, List.map_nil, List.mem_singleton, self] at hy
    rintro rfl
    exact fresh (hy ▸ hx)
  · intro s' hs' p i h
    rcases List.mem_append.mp hs' with hs' | hs'
    · exact List.mem_append_left _ (ok.closed s' hs' p i h)
    · rw [List.mem_singleton] at hs'
      subst hs'
      exact List.mem_append_left _ (parentIn p i h)

/-- The blocks that filling a slot writes to are index blocks. -/
theorem setPtr_frame {t : DiskInode × Cells} {S : List Slot} {s : Slot}
    (parentIn : ∀ p i, s.parent = some (p, i) → p ∈ S) (v : UInt32) {id : Nat}
    (h : ∀ p ∈ S, p.isIndex = true → (t.1.ptr t.2 p).toNat ≠ id) :
    (setPtr t s v).2 id = t.2 id := by
  cases hparent : s.parent with
  | none => rw [setPtr_of_field t v hparent]
  | some q =>
      obtain ⟨p, i⟩ := q
      rw [setPtr_of_parent t v hparent]
      exact setEntry_other _ _ _ _ (h p (parentIn p i hparent) (parent_isIndex hparent)).symm

/-- The slots of `ss` may be filled one after the other when those in `S` are in use. -/
def Fillable (S : List Slot) : List Slot → Prop
  | [] => True
  | s :: ss => s ∉ S ∧ s.Bounded ∧ (∀ p i, s.parent = some (p, i) → p ∈ S) ∧ Fillable (S ++ [s]) ss

theorem fillable_append {S ss ss' : List Slot} (h : Fillable S ss) (h' : Fillable (S ++ ss) ss') :
    Fillable S (ss ++ ss') := by
  induction ss generalizing S with
  | nil => simpa using h'
  | cons s ss ih =>
      obtain ⟨new, bounded, parentIn, rest⟩ := h
      exact ⟨new, bounded, parentIn, ih rest (by simpa using h')⟩

/-- Filling slots in turn with fresh ids: the ids in use stay, the new slots hold the new ids,
all ids are distinct, and only index blocks are written. -/
theorem assign_ok {ss : List Slot} {vs : List UInt32} {t : DiskInode × Cells} {S : List Slot}
    (ok : TreeOk t S) (fillable : Fillable S ss) (len : ss.length = vs.length)
    (fresh : (vs.map UInt32.toNat).Nodup)
    (disjoint : ∀ v ∈ vs, v.toNat ∉ S.map fun s => (t.1.ptr t.2 s).toNat) :
    TreeOk (assign t (ss.zip vs)) (S ++ ss) ∧
      (∀ s ∈ S, (assign t (ss.zip vs)).1.ptr (assign t (ss.zip vs)).2 s = t.1.ptr t.2 s) ∧
      ss.map (fun s => (assign t (ss.zip vs)).1.ptr (assign t (ss.zip vs)).2 s) = vs ∧
      ∀ id, (∀ p ∈ S ++ ss, p.isIndex = true →
          ((assign t (ss.zip vs)).1.ptr (assign t (ss.zip vs)).2 p).toNat ≠ id) →
        (assign t (ss.zip vs)).2 id = t.2 id := by
  induction ss generalizing t S vs with
  | nil =>
      cases vs with
      | nil => simpa [assign] using ok
      | cons v vs => simp at len
  | cons s ss ih =>
      cases vs with
      | nil => simp at len
      | cons v vs =>
          obtain ⟨new, bounded, parentIn, rest⟩ := fillable
          simp only [List.map_cons, List.nodup_cons] at fresh
          have vNew := disjoint v List.mem_cons_self
          obtain ⟨old, self⟩ := ok.setPtr_ptr new bounded parentIn v
          have ok' := ok.setPtr_ok new bounded parentIn vNew
          have disjoint' : ∀ w ∈ vs, w.toNat ∉ (S ++ [s]).map fun s' =>
              ((setPtr t s v).1.ptr (setPtr t s v).2 s').toNat := by
            intro w hw mem
            obtain ⟨s', hs', same⟩ := List.mem_map.mp mem
            rcases List.mem_append.mp hs' with hs' | hs'
            · rw [old s' hs'] at same
              exact disjoint w (List.mem_cons_of_mem _ hw) (List.mem_map.mpr ⟨s', hs', same⟩)
            · rw [List.mem_singleton] at hs'
              subst hs'
              rw [self] at same
              exact fresh.1 (List.mem_map.mpr ⟨w, hw, same.symm⟩)
          obtain ⟨okEnd, oldEnd, newEnd, frame⟩ :=
            ih ok' rest (by simpa using len) fresh.2 disjoint'
          simp only [List.zip_cons_cons, assign]
          have shift : S ++ s :: ss = S ++ [s] ++ ss := by simp
          refine ⟨by rw [shift]; exact okEnd, ?_, ?_, ?_⟩
          · intro s' hs'
            rw [oldEnd s' (List.mem_append_left _ hs'), old s' hs']
          · rw [List.map_cons, newEnd, oldEnd s (by simp), self]
          · intro id hid
            rw [frame id (by rw [← shift]; exact hid)]
            apply setPtr_frame parentIn
            intro p hp index same
            have final := oldEnd p (List.mem_append_left _ hp)
            rw [old p hp] at final
            exact hid p (List.mem_append_left _ hp) index (by rw [final, same])

end TreeOk

/-- The slots that one more data block adds may be filled in their order. -/
theorem fillable_newSlots {n : Nat} (small : n < 16540) :
    TreeOk.Fillable (slots n) (newSlots n) := by
  unfold newSlots indexSlots dataSlot
  split_ifs <;> simp [TreeOk.Fillable, parent, mem_slots, Present, Slot.Bounded] <;> omega

theorem fillable_slotsFrom {m n : Nat} (mn : m ≤ n) (small : n ≤ 16540) :
    TreeOk.Fillable (slots m) (slotsFrom m n) := by
  induction n, mn using Nat.le_induction with
  | base => simp [TreeOk.Fillable]
  | succ n mn ih =>
      rw [← slotsFrom_append mn (Nat.le_succ n), slotsFrom_succ]
      refine TreeOk.fillable_append (ih (by omega)) ?_
      rw [slots_append mn]
      exact fillable_newSlots (by omega)

end CoreFromDust.EasyFs
