import CoreFromDust.EasyFs.Proofs.Invariant

/-!
# Growing and clearing an inode

However often a `DiskInode` has grown, its blocks are the ones that `increase_size` was given, each
in one place, and `clear_size` returns them all. The inode may lie in a block that is held
meanwhile.
-/

namespace CoreFromDust.EasyFs

open CoreFromDust.Lib CoreFromDust.Lib.CellProg DiskInode Slot

/-- The ids of the index blocks of an inode. -/
def DiskInode.indexIds (d : DiskInode) (cells : Cells) : List UInt32 :=
  ((slots d.blockCount).filter Slot.isIndex).map (d.ptr cells)

/-- Ids of blocks on the device that the inode does not have yet. Block `0` is never one, and the
held blocks are not. -/
structure Fresh (size : Nat) (held : List Nat) (supplied v : List UInt32) : Prop where
  distinct : v.Nodup
  nonzero : ∀ id ∈ v, id ≠ 0
  new : ∀ id ∈ v, id ∉ supplied
  onDevice : ∀ id ∈ v, id.toNat < size
  notHeld : ∀ id ∈ v, id.toNat ∉ held

/-- An inode that has grown in steps from an empty one, with all the ids that it was given. Between
the steps other blocks than its index blocks may change. -/
inductive Growth (size : Nat) (held : List Nat) (type_ : DiskInodeType) :
    DiskInode → CacheState Block → List UInt32 → Prop
  | start {s} : CacheRel size ⟨s.view, held⟩ s → Growth size held type_ (DiskInode.init type_) s []
  | grow {d s supplied newSize n v d' s'} : Growth size held type_ d s supplied →
      d.size ≤ newSize → newSize.toNat ≤ maxSize → d.blocksNumNeeded newSize = pure n →
      v.length = n.toNat → Fresh size held supplied v →
      run (machine size) (d.increaseSize newSize v) s = some (d', s') →
      Growth size held type_ d' s' (supplied ++ v)
  | other {d s supplied s'} : Growth size held type_ d s supplied →
      CacheRel size ⟨s'.view, held⟩ s' →
      (∀ id ∈ d.indexIds s.view, s'.view id.toNat = s.view id.toNat) →
      Growth size held type_ d s' supplied

/-- `get_block_id` finds the id for data block `k`. -/
def DiskInode.Finds (d : DiskInode) (size : Nat) (s : CacheState Block) (k : Nat)
    (id : UInt32) : Prop :=
  ∃ t, run (machine size) (d.getBlockId k) s = some (id, t)

/-! ## The slots of data and of indices -/

theorem filter_newSlots (k : Nat) : (newSlots k).filter (fun p => !p.isIndex) = [dataSlot k] := by
  have index : (indexSlots k).filter (fun p => !p.isIndex) = [] := by
    rw [List.filter_eq_nil_iff]
    intro p mem
    rcases mem_indexSlots.mp mem with ⟨-, rfl⟩ | ⟨-, rfl⟩ | ⟨-, rfl⟩ <;> simp [isIndex]
  rw [newSlots, List.filter_append, index, List.nil_append, List.filter_singleton, isIndex_dataSlot]
  rfl

/-- The slots that are not of indices are those of the data blocks. -/
theorem filter_slots (n : Nat) :
    (slots n).filter (fun p => !p.isIndex) = (List.range n).map dataSlot := by
  induction n with
  | zero => simp [slots]
  | succ n ih =>
      rw [slots_succ, List.filter_append, ih, filter_newSlots, List.range_succ, List.map_append]
      rfl

theorem dataSlots_perm (n : Nat) :
    ((List.range n).map dataSlot ++ (slots n).filter isIndex).Perm (slots n) := by
  rw [← filter_slots]
  exact List.perm_append_comm.trans (List.filter_append_perm isIndex (slots n))

/-! ## The invariant -/

/-- The blocks of an inode are the ids that it was given. -/
structure Grows (size : Nat) (held : List Nat) (type_ : DiskInodeType) (d : DiskInode)
    (s : CacheState Block) (supplied : List UInt32) : Prop where
  rel : CacheRel size ⟨s.view, held⟩ s
  type : d.type_ = type_
  small : d.size.toNat ≤ maxSize
  ids : (slots d.blockCount).map (d.ptr s.view) = supplied
  distinct : supplied.Nodup
  single : d.blockCount ≤ 156 → d.indirect2 = 0
  onDevice : ∀ id ∈ supplied, id.toNat < size
  notHeld : ∀ id ∈ supplied, id.toNat ∉ held

namespace Grows

variable {size : Nat} {held : List Nat} {type_ : DiskInodeType} {d : DiskInode}
  {s : CacheState Block} {supplied : List UInt32}

theorem tree (grown : Grows size held type_ d s supplied) :
    TreeOk (d, s.view) (slots d.blockCount) := by
  refine ⟨?_, ?_⟩
  · have ids : (slots d.blockCount).map (fun p => (d.ptr s.view p).toNat) =
        supplied.map UInt32.toNat := by
      rw [← grown.ids, List.map_map]
      rfl
    simp only [ids]
    exact grown.distinct.map fun _ _ => UInt32.toNat_inj.mp
  · intro p mem q i parent
    rw [mem_slots] at mem ⊢
    cases p <;>
      simp only [Slot.parent, Option.some.injEq, Prod.mk.injEq, reduceCtorEq] at parent <;>
      obtain ⟨rfl, rfl⟩ := parent <;> simp only [Present] at mem ⊢ <;> omega

/-- The blocks of the inode can be used next to those that are held. -/
theorem usable (grown : Grows size held type_ d s supplied) (few : held.length + 1 < 15) :
    ∀ p ∈ slots d.blockCount, Usable size 15 ⟨s.view, held⟩ (d.ptr s.view p).toNat := by
  intro p mem
  have supply : d.ptr s.view p ∈ supplied := by
    rw [← grown.ids]
    exact List.mem_map_of_mem mem
  exact ⟨grown.onDevice _ supply, grown.notHeld _ supply, few⟩

/-- `increase_size` fills the new slots with the new ids. -/
theorem increaseSize_wp (grown : Grows size held type_ d s supplied) (few : held.length + 1 < 15)
    (zero : 0 ∉ held) {newSize : UInt32} {v : List UInt32} (le : d.size.toNat ≤ newSize.toNat)
    (small : newSize.toNat ≤ maxSize)
    (len : (slotsFrom d.blockCount ((newSize.toNat + 511) / 512)).length = v.length)
    (fresh : Fresh size held supplied v) :
    wp (fsHandler size 15) (d.increaseSize newSize v) (fun r s' => s'.held = held ∧
      (r, s'.cells) = assign ({ d with size := newSize }, s.view)
        ((slotsFrom d.blockCount ((newSize.toNat + 511) / 512)).zip v)) ⟨s.view, held⟩ := by
  have count : d.dataBlocks.toNat = d.blockCount := dataBlocksOf_toNat grown.small
  have countNew := dataBlocksOf_toNat small
  have mono : d.blockCount ≤ (newSize.toNat + 511) / 512 := by
    unfold blockCount
    omega
  have bound : (newSize.toNat + 511) / 512 ≤ 16540 := by
    simp only [maxSize] at small
    omega
  have usableNew : ∀ id ∈ v, Usable size 15 (⟨s.view, held⟩ : CellArray Block) id.toNat :=
    fun id mem => ⟨fresh.onDevice id mem, fresh.notHeld id mem, few⟩
  by_cases empty : (newSize.toNat + 511) / 512 = 0
  · -- nothing is opened
    have none : d.blockCount = 0 := by omega
    rw [empty, none, slotsFrom_self, List.length_nil] at len
    obtain rfl := List.length_eq_zero_iff.mp len.symm
    rw [empty] at countNew
    have after : { d with size := newSize }.dataBlocks.toNat = 0 := countNew
    rw [none] at count
    simp [DiskInode.increaseSize, after, count, fillDirect, empty, none, assign]
  · refine DiskInode.increaseSize_wp d newSize count countNew mono bound v _ len usableNew
      (fresh.distinct.map fun _ _ => UInt32.toNat_inj.mp) (fun p mem _ => grown.usable few p mem)
      grown.tree ?_ ?_
    · intro id mem same
      obtain ⟨p, hp, same⟩ := List.mem_map.mp same
      refine fresh.new id mem ?_
      rw [← grown.ids, ← UInt32.toNat_inj.mp same]
      exact List.mem_map_of_mem hp
    · -- block 0 exists, since some block was supplied
      intro short
      rw [grown.single short]
      refine ⟨?_, zero, few⟩
      by_cases start : d.blockCount = 0
      · have some : 0 < v.length := by
          rw [← len, start, slotsFrom_cons (by omega)]
          simp [newSlots]
        have onDevice := fresh.onDevice _ (List.getElem_mem some)
        exact Nat.lt_of_le_of_lt (Nat.zero_le _) onDevice
      · have slot : dataSlot 0 ∈ slots d.blockCount := mem_slots.mpr (present_dataSlot (by omega))
        have onDevice := (grown.usable few _ slot).inRange
        exact Nat.lt_of_le_of_lt (Nat.zero_le _) onDevice

/-- One growth. -/
theorem increase (grown : Grows size held type_ d s supplied) (few : held.length + 1 < 15)
    (zero : 0 ∉ held) {newSize n : UInt32} {v : List UInt32} (le : d.size ≤ newSize)
    (small : newSize.toNat ≤ maxSize) (needed : d.blocksNumNeeded newSize = pure n)
    (len : v.length = n.toNat) (fresh : Fresh size held supplied v) :
    ∃ d' s', run (machine size) (d.increaseSize newSize v) s = some (d', s') ∧
      Grows size held type_ d' s' (supplied ++ v) ∧ d.blockCount ≤ d'.blockCount ∧
      (∀ p ∈ slots d.blockCount, d'.ptr s'.view p = d.ptr s.view p) ∧
      ∀ id, (∀ i ∈ d'.indexIds s'.view, i.toNat ≠ id) → s'.view id = s.view id := by
  have le := UInt32.le_iff_toNat_le.mp le
  have mono : d.blockCount ≤ (newSize.toNat + 511) / 512 := by
    unfold blockCount
    omega
  have bound : (newSize.toNat + 511) / 512 ≤ 16540 := by
    simp only [maxSize] at small
    omega
  obtain ⟨n', needed', count⟩ := blocksNumNeeded_eq le small
  rw [needed] at needed'
  obtain rfl : n = n' := by injection needed'
  have slotsLen : (slotsFrom d.blockCount ((newSize.toNat + 511) / 512)).length = v.length := by
    rw [length_slotsFrom mono, len, count]
    rfl
  obtain ⟨d', a', s', ran, rel', heldEq, effect⟩ :=
    grown.rel.run_of_wp (grown.increaseSize_wp few zero le small slotsLen fresh)
  have apart : ∀ id ∈ v, id.toNat ∉ (slots d.blockCount).map fun p =>
      ({ d with size := newSize }.ptr s.view p).toNat := by
    intro id mem same
    obtain ⟨p, hp, same⟩ := List.mem_map.mp same
    refine fresh.new id mem ?_
    rw [← grown.ids, ← UInt32.toNat_inj.mp same, ptr_with_size]
    exact List.mem_map_of_mem hp
  have tree : TreeOk ({ d with size := newSize }, s.view) (slots d.blockCount) := by
    refine ⟨?_, grown.tree.closed⟩
    simp only [ptr_with_size]
    exact grown.tree.distinct
  obtain ⟨-, oldPtr, newPtr, frame⟩ :=
    TreeOk.assign_ok tree (fillable_slotsFrom mono bound) slotsLen
    (fresh.distinct.map fun _ _ => UInt32.toNat_inj.mp) apart
  have sizes := assign_size ({ d with size := newSize }, s.view)
    ((slotsFrom d.blockCount ((newSize.toNat + 511) / 512)).zip v)
  have second := assign_indirect2 (slotsFrom d.blockCount ((newSize.toNat + 511) / 512)) v
    ({ d with size := newSize }, s.view)
  rw [← effect, ← rel'.view_eq] at oldPtr newPtr frame sizes second
  obtain ⟨sizeEq, typeEq⟩ := sizes
  have countNew : d'.blockCount = (newSize.toNat + 511) / 512 := by rw [blockCount, sizeEq]
  rw [← countNew] at mono newPtr second
  rw [← countNew, slots_append mono] at frame
  simp only [ptr_with_size] at oldPtr
  refine ⟨d', s', ran,
    ⟨?_, typeEq.trans grown.type, by rw [sizeEq]; exact small, ?_, ?_, ?_, ?_, ?_⟩,
    mono, oldPtr, ?_⟩
  · rw [rel'.view_eq, ← heldEq]
    exact rel'
  · rw [← slots_append mono, List.map_append, newPtr, ← grown.ids]
    congr 1
    exact List.map_congr_left oldPtr
  · rw [List.nodup_append]
    refine ⟨grown.distinct, fresh.distinct, ?_⟩
    rintro id old id' new rfl
    exact fresh.new id new old
  · intro short
    rw [second, grown.single (by omega)]
    intro mem
    have present := mem_slots.mp (slots_append mono ▸ List.mem_append_right _ mem)
    simp only [Present] at present
    omega
  · intro id mem
    exact (List.mem_append.mp mem).elim (grown.onDevice id) (fresh.onDevice id)
  · intro id mem
    exact (List.mem_append.mp mem).elim (grown.notHeld id) (fresh.notHeld id)
  · intro id other
    refine frame id fun p mem index => other _ ?_
    exact List.mem_map_of_mem (List.mem_filter.mpr ⟨mem, index⟩)

/-- What happens to other blocks does not matter. -/
theorem other (grown : Grows size held type_ d s supplied) {s' : CacheState Block}
    (rel : CacheRel size ⟨s'.view, held⟩ s')
    (same : ∀ id ∈ d.indexIds s.view, s'.view id.toNat = s.view id.toNat) :
    Grows size held type_ d s' supplied := by
  have ptrs := TreeOk.ptr_congr grown.tree.closed fun p mem index =>
    same _ (List.mem_map_of_mem (List.mem_filter.mpr ⟨mem, index⟩))
  refine ⟨rel, grown.type, grown.small, ?_, grown.distinct, grown.single, grown.onDevice,
    grown.notHeld⟩
  rw [← grown.ids]
  exact List.map_congr_left ptrs

/-- `get_block_id` finds what is in the slot of the data block. -/
theorem finds (grown : Grows size held type_ d s supplied) (few : held.length + 1 < 15) {k : Nat}
    (hk : k < d.blockCount) : d.Finds size s k (d.ptr s.view (dataSlot k)) := by
  have count : d.blockCount ≤ 16540 := by
    have small := grown.small
    simp only [maxSize] at small
    unfold blockCount
    omega
  obtain ⟨id, a', t, ran, -, rfl, -⟩ := grown.rel.run_of_wp
    (DiskInode.getBlockId_wp d hk count ⟨s.view, held⟩ fun p mem _ => (grown.usable few p mem).lock)
  exact ⟨t, ran⟩

/-- `clear_size` returns what is in the slots. -/
theorem clear (grown : Grows size held type_ d s supplied) (few : held.length + 1 < 15) :
    ∃ s', run (machine size) d.clearSize s = some ((DiskInode.init type_, supplied), s') ∧
      s'.view = s.view := by
  have count : d.blockCount ≤ 16540 := by
    have small := grown.small
    simp only [maxSize] at small
    unfold blockCount
    omega
  obtain ⟨r, a', s', ran, rel', rfl, rfl⟩ := grown.rel.run_of_wp
    (DiskInode.clearSize_wp d (dataBlocksOf_toNat grown.small) count ⟨s.view, held⟩ grown.tree
      (grown.usable few))
  have ids : (slots ((d.size.toNat + 511) / 512)).map (d.ptr s.view) = supplied := grown.ids
  rw [grown.type, ids] at ran
  exact ⟨s', ran, rel'.view_eq⟩

end Grows

section Chain

variable {size : Nat} {held : List Nat} {type_ : DiskInodeType} {d : DiskInode}
  {s : CacheState Block} {supplied : List UInt32}

theorem Growth.grows (growth : Growth size held type_ d s supplied) (few : held.length + 1 < 15)
    (zero : 0 ∉ held) : Grows size held type_ d s supplied := by
  induction growth with
  | start rel =>
      exact ⟨rel, rfl, Nat.zero_le _, by simp, List.nodup_nil, fun _ => rfl, by simp, by simp⟩
  | grow _ le small needed len fresh ran ih =>
      obtain ⟨d', s', ran', grown, -⟩ := ih.increase few zero le small needed len fresh
      rw [ran] at ran'
      simp only [Option.some.injEq, Prod.mk.injEq] at ran'
      obtain ⟨rfl, rfl⟩ := ran'
      exact grown
  | other _ rel same ih => exact ih.other rel same

/-- After any chain of growths: the next one takes all the ids it is given, keeps the ids of the
data blocks and changes index blocks only; the ids of the data blocks and of the index blocks are
the given ones, each once; and `clear_size` returns them all and leaves an empty inode. -/
theorem inodeGrowth_exact (growth : Growth size held type_ d s supplied)
    (few : held.length + 1 < 15) (zero : 0 ∉ held) :
    (∀ newSize n v, d.size ≤ newSize → newSize.toNat ≤ maxSize →
      d.blocksNumNeeded newSize = pure n → v.length = n.toNat → Fresh size held supplied v →
      ∃ d' s', run (machine size) (d.increaseSize newSize v) s = some (d', s') ∧
        Growth size held type_ d' s' (supplied ++ v) ∧
        (∀ k, k < d.dataBlocks.toNat → ∃ id, d.Finds size s k id ∧ d'.Finds size s' k id) ∧
        ∀ id, (∀ i ∈ d'.indexIds s'.view, i.toNat ≠ id) → s'.view id = s.view id) ∧
    (∃ ids, ids.length = d.dataBlocks.toNat ∧
      (∀ k id, ids[k]? = some id → d.Finds size s k id) ∧
      (ids ++ d.indexIds s.view).Nodup ∧ (ids ++ d.indexIds s.view).Perm supplied) ∧
    ∃ v s', run (machine size) d.clearSize s = some ((DiskInode.init type_, v), s') ∧
      v.Perm supplied ∧ s'.view = s.view := by
  have grown := growth.grows few zero
  have count : d.dataBlocks.toNat = d.blockCount := dataBlocksOf_toNat grown.small
  rw [count]
  refine ⟨fun newSize n v le small needed len fresh => ?_, ?_, ?_⟩
  · obtain ⟨d', s', ran, grown', more, kept, frame⟩ :=
      grown.increase few zero le small needed len fresh
    refine ⟨d', s', ran, growth.grow le small needed len fresh ran, fun k hk => ?_, frame⟩
    have found := grown'.finds few (Nat.lt_of_lt_of_le hk more)
    rw [kept _ (mem_slots.mpr (present_dataSlot hk))] at found
    exact ⟨_, grown.finds few hk, found⟩
  · have perm := (dataSlots_perm d.blockCount).map (d.ptr s.view)
    rw [grown.ids, List.map_append] at perm
    refine ⟨((List.range d.blockCount).map dataSlot).map (d.ptr s.view), by simp, fun k id h => ?_,
      perm.nodup_iff.mpr grown.distinct, perm⟩
    rw [List.map_map, List.getElem?_map, Option.map_eq_some_iff] at h
    obtain ⟨k', inRange, rfl⟩ := h
    obtain ⟨below, rfl⟩ := List.getElem?_eq_some_iff.mp inRange
    rw [List.length_range] at below
    rw [List.getElem_range]
    exact grown.finds few below
  · obtain ⟨s', ran, viewEq⟩ := grown.clear few
    exact ⟨supplied, s', ran, List.Perm.refl _, viewEq⟩

/-- The ids from 1 on. -/
def firstIds (n : Nat) : List UInt32 := (List.range n).map fun k => UInt32.ofNat (k + 1)

theorem firstIds_toNat {n : Nat} (small : n < 2 ^ 32) :
    (firstIds n).map UInt32.toNat = (List.range n).map (· + 1) := by
  rw [firstIds, List.map_map]
  refine List.map_congr_left fun k mem => ?_
  rw [List.mem_range] at mem
  exact UInt32.toNat_ofNat_of_lt' (by simp only [UInt32.size]; omega)

theorem firstIds_fresh {n size : Nat} (small : n < 2 ^ 32) (inside : n < size) :
    Fresh size [] [] (firstIds n) := by
  have range : ∀ id ∈ firstIds n, 0 < id.toNat ∧ id.toNat < size := by
    intro id mem
    have numbered := List.mem_map_of_mem (f := UInt32.toNat) mem
    rw [firstIds_toNat small, List.mem_map] at numbered
    obtain ⟨k, below, eq⟩ := numbered
    rw [List.mem_range] at below
    omega
  refine ⟨?_, ?_, by simp, fun id mem => (range id mem).2, by simp⟩
  · refine List.Nodup.of_map UInt32.toNat ?_
    rw [firstIds_toNat small]
    exact List.nodup_range.map fun a b eq => by simpa using eq
  · rintro id mem rfl
    exact absurd (range 0 mem).1 (by decide)

/-- An inode grows to 160 blocks, which need the single and the double indirect block, and is
cleared. -/
theorem inodeGrowth_exact_doubleIndirect : ∃ d s v s',
    run (machine 200) ((DiskInode.init .file).increaseSize 81920 (firstIds 163))
      (.fresh fun _ => Block.zero) = some (d, s) ∧
      (∃ ids, ids.length = d.dataBlocks.toNat ∧
        (ids ++ d.indexIds s.view).Perm (firstIds 163)) ∧
      run (machine 200) d.clearSize s = some ((DiskInode.init .file, v), s') ∧
      v.Perm (firstIds 163) := by
  have start : Growth 200 [] .file (DiskInode.init .file) (.fresh fun _ => Block.zero) [] :=
    .start (CacheRel.fresh fun _ => Block.zero)
  obtain ⟨grows, -⟩ := inodeGrowth_exact start (by decide) (by simp)
  obtain ⟨d, s, ran, growth, -⟩ := grows 81920 163 (firstIds 163) (by decide) (by decide) rfl
    (by simp [firstIds]) (firstIds_fresh (by decide) (by decide))
  obtain ⟨-, ⟨ids, count, -, -, perm'⟩, v, s', ran', perm, -⟩ :=
    inodeGrowth_exact growth (by decide) (by simp)
  exact ⟨d, s, v, s', ran, ⟨ids, count, perm'⟩, ran', perm⟩

end Chain

end CoreFromDust.EasyFs
