import CoreFromDust.EasyFs.Proofs.Ownership

/-!
# Growing and overwriting a file

The two moves that change the contents of a file: filling further slots with pending zero
blocks appends zeros, and overwriting bytes below the size changes just these.
-/

namespace CoreFromDust.EasyFs

open CoreFromDust.Lib Slot

namespace DiskInode

theorem setPtr_indirect2 (t : DiskInode × Cells) {s : Slot} (v : UInt32) (h : s ≠ .indirect2) :
    (setPtr t s v).1.indirect2 = t.1.indirect2 := by
  cases s <;> first | rfl | exact absurd rfl h

theorem assign_indirect2 (ss : List Slot) (vs : List UInt32) (t : DiskInode × Cells)
    (h : Slot.indirect2 ∉ ss) : (assign t (ss.zip vs)).1.indirect2 = t.1.indirect2 := by
  induction ss generalizing t vs with
  | nil => rfl
  | cons s ss ih =>
      cases vs with
      | nil => rfl
      | cons v vs =>
          simp only [List.mem_cons, not_or] at h
          rw [List.zip_cons_cons, assign, ih _ _ h.2, setPtr_indirect2 t v (Ne.symm h.1)]

/-- The effect of `increase_size` on one file: zero blocks `vs` go into its further slots. -/
structure Grown (d d' : DiskInode) (newSize : UInt32) (vs : List UInt32) (cells cells' : Cells) :
    Prop where
  ok : FileOk d' cells'
  size : d'.size = newSize
  type : d'.type_ = d.type_
  ids : d'.ids cells' = d.ids cells ++ vs.map UInt32.toNat
  bytes : ∀ p, p < d'.blockCount * 512 →
    d'.fileByte cells' p = if p < d.size.toNat then d.fileByte cells p else 0
  frame : ∀ id, id ∉ d'.ids cells' → cells' id = cells id

/-- Filling the slots of a grown file with fresh zero blocks. -/
theorem grown_assign {d : DiskInode} {newSize : UInt32} {vs : List UInt32} {cells : Cells}
    (ok : FileOk d cells) (le : d.size.toNat ≤ newSize.toNat) (small : newSize.toNat ≤ maxSize)
    (len : (slotsFrom d.blockCount ((newSize.toNat + 511) / 512)).length = vs.length)
    (distinct : (vs.map UInt32.toNat).Nodup)
    (apart : ∀ v ∈ vs, v.toNat ∉ d.ids cells) (zero : ∀ v ∈ vs, cells v.toNat = Block.zero)
    {d' : DiskInode} {cells' : Cells}
    (effect : (d', cells') = assign ({ d with size := newSize }, cells)
      ((slotsFrom d.blockCount ((newSize.toNat + 511) / 512)).zip vs)) :
    Grown d d' newSize vs cells cells' := by
  have mn : d.blockCount ≤ (newSize.toNat + 511) / 512 := by
    unfold blockCount
    omega
  have bound : (newSize.toNat + 511) / 512 ≤ 16540 := by
    simp only [maxSize] at small
    omega
  generalize nEq : (newSize.toNat + 511) / 512 = n at *
  have tree : TreeOk ({ d with size := newSize }, cells) (slots d.blockCount) := by
    refine ⟨?_, ok.tree.closed⟩
    simp only [ptr_with_size]
    exact ok.tree.distinct
  have apart' : ∀ v ∈ vs, v.toNat ∉ (slots d.blockCount).map fun p =>
      ({ d with size := newSize }.ptr cells p).toNat := by
    simp only [ptr_with_size]
    exact apart
  obtain ⟨treeEnd, oldPtr, newPtr, frame⟩ :=
    TreeOk.assign_ok tree (fillable_slotsFrom mn bound) len distinct apart'
  have sizes := assign_size ({ d with size := newSize }, cells) ((slotsFrom d.blockCount n).zip vs)
  have second := assign_indirect2 (slotsFrom d.blockCount n) vs ({ d with size := newSize }, cells)
  rw [← effect] at treeEnd oldPtr newPtr frame sizes second
  simp only [ptr_with_size] at oldPtr
  rw [slots_append mn] at treeEnd frame
  obtain ⟨sizeEq, typeEq⟩ := sizes
  have count : d'.blockCount = n := by
    rw [blockCount, sizeEq]
    exact nEq
  have idsEq : d'.ids cells' = d.ids cells ++ vs.map UInt32.toNat := by
    rw [DiskInode.ids, count, ← slots_append mn, List.map_append, DiskInode.ids, ← newPtr,
      List.map_map]
    congr 1
    exact List.map_congr_left fun p hp => by rw [oldPtr p hp]
  -- data blocks are not index blocks, so they keep their contents
  have dataSame : ∀ j, j < n → cells' (d'.blockOf cells' j) = cells (d'.blockOf cells' j) := by
    intro j hj
    apply frame
    intro p hp index same
    have eq := treeEnd.inj hp (mem_slots.mpr (present_dataSlot hj)) same
    rw [eq, isIndex_dataSlot] at index
    exact Bool.noConfusion index
  have bytes : ∀ p, p < n * 512 →
      d'.fileByte cells' p = if p < d.size.toNat then d.fileByte cells p else 0 := by
    intro p hp
    rw [fileByte, dataSame _ (by omega)]
    by_cases old : p / 512 < d.blockCount
    · have sameBlock : d'.blockOf cells' (p / 512) = d.blockOf cells (p / 512) :=
        congrArg UInt32.toNat (oldPtr _ (mem_slots.mpr (present_dataSlot old)))
      rw [sameBlock]
      split_ifs with inside
      · rfl
      · have zeroTail := ok.tail p (Nat.not_lt.mp inside)
          ((Nat.div_lt_iff_lt_mul (Nat.succ_pos 511)).mp old)
        rwa [fileByte] at zeroTail
    · have outside : ¬ p < d.size.toNat := by
        have := FileOk.size_le d
        omega
      have slotNew : dataSlot (p / 512) ∈ slotsFrom d.blockCount n := by
        have slot := mem_slots.mpr (present_dataSlot (show p / 512 < n by omega))
        rw [← slots_append mn] at slot
        refine (List.mem_append.mp slot).resolve_left fun mem => old ?_
        have present := mem_slots.mp mem
        have inj := exists_dataSlot present (isIndex_dataSlot _)
        obtain ⟨j, hj, same⟩ := inj
        rwa [dataSlot_inj same]
      have fresh : d'.ptr cells' (dataSlot (p / 512)) ∈ vs := by
        rw [← newPtr]
        exact List.mem_map.mpr ⟨_, slotNew, rfl⟩
      rw [if_neg outside, blockOf, zero _ fresh, Block.byte_zero]
  refine ⟨⟨by rw [sizeEq]; exact small, by rw [count]; exact treeEnd, ?_, ?_⟩, sizeEq, typeEq,
    idsEq, by rw [count]; exact bytes, ?_⟩
  · intro short
    rw [count] at short
    rw [second, ok.single (by omega)]
    intro mem
    have present := mem_slots.mp (slots_append mn ▸ List.mem_append_right _ mem)
    simp only [Present] at present
    omega
  · intro p low high
    rw [count] at high
    rw [sizeEq] at low
    rw [bytes p high, if_neg (by simp only at low; omega)]
  · intro id notMine
    apply frame
    intro p hp _ same
    apply notMine
    rw [DiskInode.ids, count]
    exact List.mem_map.mpr ⟨p, hp, same⟩

/-- Growing appends zeros. -/
theorem Grown.contents {d d' : DiskInode} {newSize : UInt32} {vs : List UInt32}
    {cells cells' : Cells} (grown : Grown d d' newSize vs cells cells')
    (le : d.size.toNat ≤ newSize.toNat) : d'.contents cells' =
      d.contents cells ++ List.replicate (newSize.toNat - d.size.toNat) 0 := by
  have bound := FileOk.size_le d'
  rw [grown.size] at bound
  apply List.ext_getElem
  · simp [DiskInode.contents, grown.size]
    omega
  · intro p h₁ h₂
    simp only [length_contents, grown.size] at h₁
    have byte := grown.bytes p (by omega)
    simp only [DiskInode.contents, List.getElem_map, List.getElem_range, List.getElem_append,
      List.length_map, List.length_range, List.getElem_replicate, byte]
    split_ifs <;> rfl

end DiskInode

open DiskInode

namespace Owns

variable {g : Geometry} {k : Nat} {ino : Nat → DiskInode} {cells cells' : Cells}

/-- A file takes over the pending blocks. -/
theorem grow {vs : List UInt32} (own : Owns g k ino (vs.map UInt32.toNat) cells) {i : Nat}
    (hi : i < k) {d' : DiskInode} {newSize : UInt32}
    (grown : Grown (ino i) d' newSize vs cells cells') :
    Owns g k (Function.update ino i d') [] cells' ∧
      (∀ j, j < k → j ≠ i → (ino j).contents cells' = (ino j).contents cells) ∧
      ∀ id, ¬ g.InData id → cells' id = cells id := by
  have mine : ∀ id, id ∈ d'.ids cells' ↔ id ∈ (ino i).ids cells ∨ id ∈ vs.map UInt32.toNat := by
    intro id
    rw [grown.ids, List.mem_append]
  have notOwned : ∀ id, ¬ Owned k ino (vs.map UInt32.toNat) cells id → cells' id = cells id := by
    intro id h
    apply grown.frame
    rw [mine]
    rintro (mem | mem)
    · exact h (.inl ⟨i, hi, mem⟩)
    · exact h (.inr mem)
  have frame : ∀ j, j < k → j ≠ i → ∀ id ∈ (ino j).ids cells, cells' id = cells id := by
    intro j hj differ id mem
    apply grown.frame
    rw [mine]
    rintro (mem' | mem')
    · exact own.apart j hj i hi differ id mem mem'
    · exact own.pendingApart id mem' j hj mem
  have outside : ∀ id, ¬ g.InData id → cells' id = cells id :=
    fun id h => notOwned id fun owned => h (own.inData id owned)
  refine ⟨?_, ?_, outside⟩
  · apply own.replace hi grown.ok frame
    · intro id
      rw [mine]
      simp
    · exact List.nodup_nil
    · simp
    · intro id _ high
      apply outside
      intro h
      have low := h.low
      omega
    · exact fun id _ => notOwned id
  · exact fun j hj differ => (own.file j hj).contents_frame (frame j hj differ)

/-- Bytes of a file below its size are overwritten. -/
theorem overwrite (own : Owns g k ino [] cells) {i : Nat} (hi : i < k) {start stop : Nat}
    {f : Nat → UInt8} (within : stop ≤ (ino i).size.toNat)
    (writes : (ino i).Writes (ino i).blockCount cells cells' start stop f) :
    Owns g k ino [] cells' ∧
      (∀ j, j < k → j ≠ i → (ino j).contents cells' = (ino j).contents cells) ∧
      ∀ id, ¬ g.InData id → cells' id = cells id := by
  have file := own.file i hi
  have tree := file.tree
  have notMine : ∀ id, id ∉ (ino i).ids cells → cells' id = cells id := by
    intro id h
    apply writes.frame
    intro j hj same
    exact h (same ▸ FileOk.mem_ids (mem_slots.mpr (present_dataSlot hj)))
  have samePtr := ptr_of_frame tree writes.frame
  have sameIds : (ino i).ids cells' = (ino i).ids cells :=
    List.map_congr_left fun p hp => by rw [samePtr p hp]
  have fileOk : FileOk (ino i) cells' := by
    refine ⟨file.small, writes.tree tree, file.single, ?_⟩
    intro p low high
    rw [writes.bytes p high, if_neg (by omega)]
    exact file.tail p low high
  have frame : ∀ j, j < k → j ≠ i → ∀ id ∈ (ino j).ids cells, cells' id = cells id :=
    fun j hj differ id mem => notMine id (own.apart j hj i hi differ id mem)
  have outside : ∀ id, ¬ g.InData id → cells' id = cells id :=
    fun id h => notMine id fun mem => h (own.inData id (.inl ⟨i, hi, mem⟩))
  refine ⟨?_, ?_, outside⟩
  · have replaced : Owns g k (Function.update ino i (ino i)) [] cells' := by
      apply own.replace hi fileOk frame
      · simp [sameIds]
      · exact List.nodup_nil
      · simp
      · intro id _ high
        apply outside
        intro h
        have low := h.low
        omega
      · exact fun id _ h => notMine id fun mem => h (.inl ⟨i, hi, mem⟩)
    rwa [Function.update_eq_self] at replaced
  · exact fun j hj differ => (own.file j hj).contents_frame (frame j hj differ)

end Owns

/-- The contents after a write that stays below the size. -/
theorem DiskInode.Writes.contents {ino : DiskInode} {cells cells' : Cells} {offset : Nat}
    {buf : List UInt8} (within : offset + buf.length ≤ ino.size.toNat)
    (writes : ino.Writes ino.blockCount cells cells' offset (offset + buf.length)
      fun p => buf.getD (p - offset) 0) :
    ino.contents cells' = spliceAt (ino.contents cells) offset buf := by
  have bound := FileOk.size_le ino
  apply List.ext_getElem
  · rw [length_spliceAt (by simpa using within)]
    simp
  · intro p h₁ h₂
    simp only [length_contents] at h₁
    have byte := writes.bytes p (by omega)
    have takeLen : ((ino.contents cells).take offset).length = offset := by
      rw [List.length_take, length_contents]
      omega
    simp only [spliceAt, List.getElem_append, List.length_append, takeLen]
    simp only [DiskInode.contents, List.getElem_map, List.getElem_range, byte]
    split_ifs with inside low high
    · omega
    · rw [List.getD_eq_getElem _ _ (by omega)]
    · omega
    · simp
    · omega
    · simp
      congr 1
      omega

end CoreFromDust.EasyFs
