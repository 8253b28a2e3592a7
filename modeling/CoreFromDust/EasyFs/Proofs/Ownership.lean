import CoreFromDust.EasyFs.Proofs.FileData
import CoreFromDust.EasyFs.Proofs.Geometry

/-!
# Who owns which block

The blocks of the data area are divided among the files, a list of pending ids (allocated for
a file that is about to grow, or taken from one that was cleared) and the free blocks. `Owns`
says that the data bitmap marks exactly the blocks that are not free, that no block has two
owners, and that free blocks are zero. The lemmas of this module are the moves that the
operations of the file system are made of.
-/

namespace CoreFromDust.EasyFs

open CoreFromDust.Lib Slot

namespace DiskInode

/-- The largest size that the pointers of an inode can reach. -/
abbrev maxSize : Nat := 16540 * 512

/-- Number of data blocks of a file. -/
def blockCount (ino : DiskInode) : Nat := (ino.size.toNat + 511) / 512

theorem dataBlocksOf_toNat {size : UInt32} (small : size.toNat ≤ maxSize) :
    (dataBlocksOf size).toNat = (size.toNat + 511) / 512 := by
  rw [dataBlocksOf, UInt32.toNat_div, UInt32.toNat_sub_of_le]
  · rw [UInt32.toNat_add]
    simp only [UInt32.reduceToNat, maxSize] at small ⊢
    omega
  · rw [UInt32.le_iff_toNat_le, UInt32.toNat_add]
    simp only [UInt32.reduceToNat, maxSize] at small ⊢
    omega

theorem blocksFor_lt {n : Nat} (small : n ≤ 16540) : blocksFor n < 2 ^ 16 := by
  unfold blocksFor
  split_ifs <;> omega

/-- `total_blocks` counts the slots of a file. -/
theorem totalBlocks_toNat {size : UInt32} (small : size.toNat ≤ maxSize) :
    (totalBlocks size).toNat = blocksFor ((size.toNat + 511) / 512) := by
  have count := dataBlocksOf_toNat small
  have bound : (size.toNat + 511) / 512 ≤ 16540 := by
    simp only [maxSize] at small
    omega
  have narrow := blocksFor_lt bound
  have same : totalBlocks size = UInt32.ofNat (blocksFor ((size.toNat + 511) / 512)) := by
    simp only [totalBlocks, count, blocksFor, inodeDirectCount, indirect1Bound_eq,
      inodeIndirect1Count_eq, gt_iff_lt]
    congr 1
    split_ifs <;> omega
  rw [same, UInt32.toNat_ofNat', Nat.mod_eq_of_lt (by omega)]

/-- The ids of the blocks of a file, index blocks included. -/
def ids (ino : DiskInode) (cells : Cells) : List Nat :=
  (slots ino.blockCount).map fun p => (ino.ptr cells p).toNat

/-- The contents of a file. -/
def contents (ino : DiskInode) (cells : Cells) : List UInt8 :=
  (List.range ino.size.toNat).map (ino.fileByte cells)

@[simp] theorem length_contents (ino : DiskInode) (cells : Cells) :
    (ino.contents cells).length = ino.size.toNat := by
  simp [contents]

/-- A file whose pointers are in order and whose last block is zero past the end. -/
structure FileOk (ino : DiskInode) (cells : Cells) : Prop where
  small : ino.size.toNat ≤ maxSize
  tree : TreeOk (ino, cells) (slots ino.blockCount)
  single : ino.blockCount ≤ 156 → ino.indirect2 = 0
  tail : ∀ p, ino.size.toNat ≤ p → p < ino.blockCount * 512 → ino.fileByte cells p = 0

namespace FileOk

variable {ino : DiskInode} {cells cells' : Cells}

theorem count_le (ok : FileOk ino cells) : ino.blockCount ≤ 16540 := by
  have small := ok.small
  simp only [maxSize] at small
  unfold blockCount
  omega

theorem size_le (ino : DiskInode) : ino.size.toNat ≤ ino.blockCount * 512 := by
  unfold blockCount
  omega

theorem nodup (ok : FileOk ino cells) : (ino.ids cells).Nodup := ok.tree.distinct

theorem dataBlocks_eq (ok : FileOk ino cells) : ino.dataBlocks.toNat = ino.blockCount :=
  dataBlocksOf_toNat ok.small

theorem ids_length (ok : FileOk ino cells) :
    (ino.ids cells).length = (totalBlocks ino.size).toNat := by
  rw [ids, List.length_map, length_slots, totalBlocks_toNat ok.small, blockCount]

theorem mem_ids {p : Slot} (h : p ∈ slots ino.blockCount) :
    (ino.ptr cells p).toNat ∈ ino.ids cells :=
  List.mem_map.mpr ⟨p, h, rfl⟩

theorem ptr_frame (ok : FileOk ino cells) (same : ∀ id ∈ ino.ids cells, cells' id = cells id) :
    ∀ p ∈ slots ino.blockCount, ino.ptr cells' p = ino.ptr cells p :=
  TreeOk.ptr_congr ok.tree.closed fun _ hp _ => same _ (mem_ids hp)

theorem ids_frame (ok : FileOk ino cells) (same : ∀ id ∈ ino.ids cells, cells' id = cells id) :
    ino.ids cells' = ino.ids cells :=
  List.map_congr_left fun p hp => by rw [ok.ptr_frame same p hp]

theorem fileByte_frame (ok : FileOk ino cells) (same : ∀ id ∈ ino.ids cells, cells' id = cells id)
    {p : Nat} (hp : p < ino.blockCount * 512) : ino.fileByte cells' p = ino.fileByte cells p := by
  have slot : dataSlot (p / 512) ∈ slots ino.blockCount :=
    mem_slots.mpr (present_dataSlot (by omega))
  rw [fileByte, blockOf, ok.ptr_frame same _ slot, same _ (mem_ids slot), fileByte, blockOf]

theorem contents_frame (ok : FileOk ino cells) (same : ∀ id ∈ ino.ids cells, cells' id = cells id) :
    ino.contents cells' = ino.contents cells := by
  apply List.map_congr_left
  intro p hp
  have inside := List.mem_range.mp hp
  exact ok.fileByte_frame same (Nat.lt_of_lt_of_le inside (size_le ino))

/-- A file depends on its own blocks only. -/
theorem frame (ok : FileOk ino cells) (same : ∀ id ∈ ino.ids cells, cells' id = cells id) :
    FileOk ino cells' := by
  refine ⟨ok.small, ⟨?_, ok.tree.closed⟩, ok.single, ?_⟩
  · have ids := ok.ids_frame same
    unfold DiskInode.ids at ids
    simp only [ids]
    exact ok.tree.distinct
  · intro p low high
    rw [ok.fileByte_frame same high]
    exact ok.tail p low high

end FileOk

@[simp] theorem blockCount_init (type_ : DiskInodeType) : (init type_).blockCount = 0 := by
  simp [blockCount, init]

@[simp] theorem slots_zero : slots 0 = [] := slotsFrom_self 0

@[simp] theorem ids_init (type_ : DiskInodeType) (cells : Cells) :
    (init type_).ids cells = [] := by
  simp [ids]

@[simp] theorem contents_init (type_ : DiskInodeType) (cells : Cells) :
    (init type_).contents cells = [] := rfl

theorem fileOk_init (type_ : DiskInodeType) (cells : Cells) : FileOk (init type_) cells := by
  refine ⟨Nat.zero_le _, ⟨by simp, by simp⟩, fun _ => rfl, ?_⟩
  intro p _ high
  rw [blockCount_init] at high
  omega

end DiskInode

open DiskInode

section Owns

variable (g : Geometry) (k : Nat) (ino : Nat → DiskInode) (pending : List Nat) (cells : Cells)

/-- The block belongs to one of the inodes below `k` or is pending. -/
def Owned (id : Nat) : Prop := (∃ i, i < k ∧ id ∈ (ino i).ids cells) ∨ id ∈ pending

/-- The state of the data area when the inodes below `k` are in use. -/
structure Owns : Prop where
  file : ∀ i, i < k → FileOk (ino i) cells
  apart : ∀ i, i < k → ∀ j, j < k → i ≠ j → ∀ id ∈ (ino i).ids cells, id ∉ (ino j).ids cells
  pendingNodup : pending.Nodup
  pendingApart : ∀ id ∈ pending, ∀ i, i < k → id ∉ (ino i).ids cells
  inData : ∀ id, Owned k ino pending cells id → g.InData id
  marked : ∀ b, b < g.bitmapBlocks * 4096 →
    (g.efs.dataBitmap.bit cells b = true ↔ Owned k ino pending cells (g.dataStart + b))
  free : ∀ id, g.InData id → ¬ Owned k ino pending cells id → cells id = Block.zero

end Owns

namespace Owns

variable {g : Geometry} {k : Nat} {ino : Nat → DiskInode} {pending : List Nat}
  {cells cells' : Cells}

/-- The bits of the data bitmap depend only on its blocks. -/
theorem bit_frame (same : ∀ id, g.bitmapStart ≤ id → id < g.dataStart → cells' id = cells id)
    {b : Nat} (hb : b < g.bitmapBlocks * 4096) :
    g.efs.dataBitmap.bit cells' b = g.efs.dataBitmap.bit cells b := by
  rw [g.efs_dataBitmap]
  exact Bitmap.bit_congr _ hb fun id within => same id within.1 within.2

/-- Replace inode `i` by `d` and the pending ids by others, so that the blocks owned by the two
together stay the same. -/
theorem replace (own : Owns g k ino pending cells) {i : Nat} (hi : i < k) {d : DiskInode}
    {pending' : List Nat} (file : FileOk d cells')
    (frame : ∀ j, j < k → j ≠ i → ∀ id ∈ (ino j).ids cells, cells' id = cells id)
    (sameIds : ∀ id, (id ∈ d.ids cells' ∨ id ∈ pending') ↔
      (id ∈ (ino i).ids cells ∨ id ∈ pending))
    (nodup : pending'.Nodup) (apart : ∀ id ∈ pending', id ∉ d.ids cells')
    (bitmap : ∀ id, g.bitmapStart ≤ id → id < g.dataStart → cells' id = cells id)
    (free : ∀ id, g.InData id → ¬ Owned k ino pending cells id → cells' id = cells id) :
    Owns g k (Function.update ino i d) pending' cells' := by
  have others : ∀ j, j < k → j ≠ i → (ino j).ids cells' = (ino j).ids cells :=
    fun j hj differ => (own.file j hj).ids_frame (frame j hj differ)
  -- the blocks of `d` and `pending'` belong to nobody else
  have disjoint : ∀ id, (id ∈ d.ids cells' ∨ id ∈ pending') → ∀ j, j < k → j ≠ i →
      id ∉ (ino j).ids cells := by
    intro id hid j hj differ
    rcases (sameIds id).mp hid with mine | waiting
    · exact own.apart i hi j hj differ.symm id mine
    · exact own.pendingApart id waiting j hj
  have owned : ∀ id, Owned k (Function.update ino i d) pending' cells' id ↔
      Owned k ino pending cells id := by
    intro id
    constructor
    · rintro (⟨j, hj, mem⟩ | mem)
      · by_cases same : j = i
        · subst same
          rw [Function.update_self] at mem
          rcases (sameIds id).mp (.inl mem) with mine | waiting
          · exact .inl ⟨j, hj, mine⟩
          · exact .inr waiting
        · rw [Function.update_of_ne same, others j hj same] at mem
          exact .inl ⟨j, hj, mem⟩
      · rcases (sameIds id).mp (.inr mem) with mine | waiting
        · exact .inl ⟨i, hi, mine⟩
        · exact .inr waiting
    · have self : (id ∈ (ino i).ids cells ∨ id ∈ pending) →
          Owned k (Function.update ino i d) pending' cells' id := by
        intro h
        rcases (sameIds id).mpr h with mine | waiting
        · exact .inl ⟨i, hi, by rwa [Function.update_self]⟩
        · exact .inr waiting
      rintro (⟨j, hj, mem⟩ | mem)
      · by_cases same : j = i
        · subst same
          exact self (.inl mem)
        · exact .inl ⟨j, hj, by rwa [Function.update_of_ne same, others j hj same]⟩
      · exact self (.inr mem)
  refine ⟨?_, ?_, nodup, ?_, ?_, ?_, ?_⟩
  · intro j hj
    by_cases same : j = i
    · subst same
      rw [Function.update_self]
      exact file
    · rw [Function.update_of_ne same]
      exact (own.file j hj).frame (frame j hj same)
  · intro a ha b hb differ id mem
    by_cases isA : a = i
    · subst isA
      have notB : b ≠ a := Ne.symm differ
      rw [Function.update_self] at mem
      rw [Function.update_of_ne notB, others b hb notB]
      exact disjoint id (.inl mem) b hb notB
    · rw [Function.update_of_ne isA, others a ha isA] at mem
      by_cases isB : b = i
      · subst isB
        rw [Function.update_self]
        exact fun mem' => disjoint id (.inl mem') a ha isA mem
      · rw [Function.update_of_ne isB, others b hb isB]
        exact own.apart a ha b hb differ id mem
  · intro id mem j hj
    by_cases same : j = i
    · subst same
      rw [Function.update_self]
      exact apart id mem
    · rw [Function.update_of_ne same, others j hj same]
      exact disjoint id (.inr mem) j hj same
  · exact fun id h => own.inData id ((owned id).mp h)
  · intro b hb
    rw [bit_frame bitmap hb, owned]
    exact own.marked b hb
  · intro id inData notOwned
    rw [owned] at notOwned
    rw [free id inData notOwned]
    exact own.free id inData notOwned

/-- Blocks before the data bitmap do not matter. -/
theorem frame (own : Owns g k ino pending cells)
    (same : ∀ id, g.bitmapStart ≤ id → cells' id = cells id) : Owns g k ino pending cells' := by
  have inBitmap := g.bitmapStart_le
  have sameIds : ∀ i, i < k → (ino i).ids cells' = (ino i).ids cells := by
    intro i hi
    refine (own.file i hi).ids_frame fun id mem => same id ?_
    exact Nat.le_trans inBitmap (own.inData id (.inl ⟨i, hi, mem⟩)).low
  have owned : ∀ id, Owned k ino pending cells' id ↔ Owned k ino pending cells id := by
    intro id
    refine or_congr (exists_congr fun i => and_congr_right fun hi => ?_) Iff.rfl
    rw [sameIds i hi]
  refine ⟨?_, ?_, own.pendingNodup, ?_, ?_, ?_, ?_⟩
  · intro i hi
    refine (own.file i hi).frame fun id mem => same id ?_
    exact Nat.le_trans inBitmap (own.inData id (.inl ⟨i, hi, mem⟩)).low
  · intro i hi j hj differ id
    rw [sameIds i hi, sameIds j hj]
    exact own.apart i hi j hj differ id
  · intro id mem i hi
    rw [sameIds i hi]
    exact own.pendingApart id mem i hi
  · exact fun id h => own.inData id ((owned id).mp h)
  · intro b hb
    rw [bit_frame (fun id low _ => same id low) hb, owned]
    exact own.marked b hb
  · intro id inData notOwned
    rw [owned] at notOwned
    rw [same id (Nat.le_trans inBitmap inData.low)]
    exact own.free id inData notOwned

/-- A further inode that has no blocks. -/
theorem addInode (own : Owns g k ino pending cells) (type_ : DiskInodeType) :
    Owns g (k + 1) (Function.update ino k (init type_)) pending cells := by
  have old : ∀ i, i < k → Function.update ino k (init type_) i = ino i :=
    fun i hi => Function.update_of_ne (Nat.ne_of_lt hi) _ _
  have new : Function.update ino k (init type_) k = init type_ := Function.update_self _ _ _
  have noIds : ∀ i, i < k + 1 → ∀ id ∈ (Function.update ino k (init type_) i).ids cells, i < k := by
    intro i hi id mem
    by_contra last
    rw [show i = k by omega, new, ids_init] at mem
    simp at mem
  have owned : ∀ id, Owned (k + 1) (Function.update ino k (init type_)) pending cells id ↔
      Owned k ino pending cells id := by
    intro id
    refine or_congr ⟨?_, ?_⟩ Iff.rfl
    · rintro ⟨i, hi, mem⟩
      have hi' := noIds i hi id mem
      exact ⟨i, hi', old i hi' ▸ mem⟩
    · rintro ⟨i, hi, mem⟩
      exact ⟨i, by omega, (old i hi).symm ▸ mem⟩
  refine ⟨?_, ?_, own.pendingNodup, ?_, ?_, ?_, ?_⟩
  · intro i hi
    by_cases last : i = k
    · rw [last, new]
      exact fileOk_init type_ cells
    · rw [old i (by omega)]
      exact own.file i (by omega)
  · intro i hi j hj differ id mem mem'
    have hi' := noIds i hi id mem
    have hj' := noIds j hj id mem'
    rw [old i hi'] at mem
    rw [old j hj'] at mem'
    exact own.apart i hi' j hj' differ id mem mem'
  · intro id mem i hi mem'
    have hi' := noIds i hi id mem'
    rw [old i hi'] at mem'
    exact own.pendingApart id mem i hi' mem'
  · exact fun id h => own.inData id ((owned id).mp h)
  · intro b hb
    rw [owned]
    exact own.marked b hb
  · intro id inData notOwned
    rw [owned] at notOwned
    exact own.free id inData notOwned

/-- Take all blocks away from a file. -/
theorem reset (own : Owns g k ino [] cells) {i : Nat} (hi : i < k) (type_ : DiskInodeType) :
    Owns g k (Function.update ino i (init type_)) ((ino i).ids cells) cells := by
  apply own.replace hi (fileOk_init type_ cells)
  · exact fun _ _ _ _ _ => rfl
  · simp
  · exact (own.file i hi).nodup
  · simp
  · exact fun _ _ _ => rfl
  · exact fun _ _ _ => rfl

/-- Mark a free block and make it pending. -/
theorem take (own : Owns g k ino pending cells) {m : Nat}
    (marks : g.efs.dataBitmap.Marks cells cells' m) (inData : g.InData (g.dataStart + m)) :
    Owns g k ino (pending ++ [g.dataStart + m]) cells' ∧ cells' (g.dataStart + m) = Block.zero ∧
      (∀ i, i < k → (ino i).contents cells' = (ino i).contents cells) ∧
      ∀ id, ¬ (g.bitmapStart ≤ id ∧ id < g.dataStart) → cells' id = cells id := by
  obtain ⟨inRange, clear, -, bits, outside⟩ := marks
  simp only [Geometry.efs_dataBitmap, Bitmap.Within] at inRange outside
  have outside : ∀ id, ¬ (g.bitmapStart ≤ id ∧ id < g.dataStart) → cells' id = cells id := outside
  have data : ∀ id, g.InData id → cells' id = cells id := by
    intro id h
    have low := h.low
    exact outside id (by omega)
  have same : ∀ i, i < k → ∀ id ∈ (ino i).ids cells, cells' id = cells id :=
    fun i hi id mem => data id (own.inData id (.inl ⟨i, hi, mem⟩))
  have sameIds : ∀ i, i < k → (ino i).ids cells' = (ino i).ids cells :=
    fun i hi => (own.file i hi).ids_frame (same i hi)
  have wasFree : ¬ Owned k ino pending cells (g.dataStart + m) := by
    rw [← own.marked m inRange, clear]
    exact Bool.false_ne_true
  have owned : ∀ id, Owned k ino (pending ++ [g.dataStart + m]) cells' id ↔
      Owned k ino pending cells id ∨ id = g.dataStart + m := by
    intro id
    have files : (∃ i, i < k ∧ id ∈ (ino i).ids cells') ↔ ∃ i, i < k ∧ id ∈ (ino i).ids cells :=
      exists_congr fun i => and_congr_right fun hi => by rw [sameIds i hi]
    unfold Owned
    rw [files, List.mem_append, List.mem_singleton, or_assoc]
  refine ⟨⟨?_, ?_, ?_, ?_, ?_, ?_, ?_⟩, ?_, ?_, outside⟩
  · exact fun i hi => (own.file i hi).frame (same i hi)
  · intro i hi j hj differ id
    rw [sameIds i hi, sameIds j hj]
    exact own.apart i hi j hj differ id
  · rw [List.nodup_append]
    refine ⟨own.pendingNodup, by simp, ?_⟩
    intro a ha b hb
    rw [List.mem_singleton] at hb
    rintro rfl
    exact wasFree (.inr (hb ▸ ha))
  · intro id mem i hi
    rw [sameIds i hi]
    rcases List.mem_append.mp mem with mem | mem
    · exact own.pendingApart id mem i hi
    · rw [List.mem_singleton] at mem
      subst mem
      exact fun mem' => wasFree (.inl ⟨i, hi, mem'⟩)
  · intro id h
    rcases (owned id).mp h with old | rfl
    · exact own.inData id old
    · exact inData
  · intro b hb
    have bitEq := bits b (by simpa using hb)
    rw [owned, bitEq, Bool.or_eq_true, own.marked b hb, decide_eq_true_eq]
    refine or_congr Iff.rfl ⟨fun h => by rw [h], fun h => by omega⟩
  · intro id hid notOwned
    rw [owned, not_or] at notOwned
    rw [data id hid]
    exact own.free id hid notOwned.1
  · rw [data _ inData]
    exact own.free _ inData wasFree
  · exact fun i hi => (own.file i hi).contents_frame (same i hi)

/-- Zero a pending block and clear its bit. -/
theorem release {v : Nat} (own : Owns g k ino (v :: pending) cells)
    (clears : g.efs.dataBitmap.Clears (Function.update cells v Block.zero) cells'
      (v - g.dataStart)) :
    Owns g k ino pending cells' ∧
      (∀ i, i < k → (ino i).contents cells' = (ino i).contents cells) ∧
      ∀ id, id < g.bitmapStart → cells' id = cells id := by
  obtain ⟨bits, outside⟩ := clears
  have vIn := own.inData v (.inr List.mem_cons_self)
  have start := g.bitmapStart_le
  have vLow := vIn.low
  simp only [Geometry.efs_dataBitmap, Bitmap.Within] at outside
  have outside : ∀ id, ¬ (g.bitmapStart ≤ id ∧ id < g.dataStart) →
      cells' id = Function.update cells v Block.zero id := outside
  have other : ∀ id, id ≠ v → ¬ (g.bitmapStart ≤ id ∧ id < g.dataStart) → cells' id = cells id := by
    intro id differ h
    rw [outside id h, Function.update_of_ne differ]
  obtain ⟨vFresh, pendingNodup⟩ := List.nodup_cons.mp own.pendingNodup
  have data : ∀ id, g.InData id → id ≠ v → cells' id = cells id := by
    intro id h differ
    have low := h.low
    exact other id differ (by omega)
  have same : ∀ i, i < k → ∀ id ∈ (ino i).ids cells, cells' id = cells id := by
    intro i hi id mem
    refine data id (own.inData id (.inl ⟨i, hi, mem⟩)) ?_
    rintro rfl
    exact own.pendingApart id List.mem_cons_self i hi mem
  have sameIds : ∀ i, i < k → (ino i).ids cells' = (ino i).ids cells :=
    fun i hi => (own.file i hi).ids_frame (same i hi)
  have owned : ∀ id, Owned k ino pending cells' id ↔
      Owned k ino (v :: pending) cells id ∧ id ≠ v := by
    intro id
    have files : (∃ i, i < k ∧ id ∈ (ino i).ids cells') ↔ ∃ i, i < k ∧ id ∈ (ino i).ids cells :=
      exists_congr fun i => and_congr_right fun hi => by rw [sameIds i hi]
    unfold Owned
    rw [files]
    constructor
    · rintro (⟨i, hi, mem⟩ | mem)
      · refine ⟨.inl ⟨i, hi, mem⟩, ?_⟩
        rintro rfl
        exact own.pendingApart id List.mem_cons_self i hi mem
      · refine ⟨.inr (List.mem_cons_of_mem _ mem), ?_⟩
        rintro rfl
        exact vFresh mem
    · rintro ⟨old | mem, differ⟩
      · exact .inl old
      · exact .inr ((List.mem_cons.mp mem).resolve_left differ)
  refine ⟨⟨?_, ?_, pendingNodup, ?_, ?_, ?_, ?_⟩, ?_, ?_⟩
  · exact fun i hi => (own.file i hi).frame (same i hi)
  · intro i hi j hj differ id
    rw [sameIds i hi, sameIds j hj]
    exact own.apart i hi j hj differ id
  · intro id mem i hi
    rw [sameIds i hi]
    exact own.pendingApart id (List.mem_cons_of_mem _ mem) i hi
  · exact fun id h => own.inData id ((owned id).mp h).1
  · intro b hb
    have bitEq := bits b (by simpa using hb)
    have zeroed : ∀ id, g.bitmapStart ≤ id → id < g.dataStart →
        Function.update cells v Block.zero id = cells id := by
      intro id _ high
      rw [Function.update_of_ne (show id ≠ v by omega)]
    have sameBit := bit_frame zeroed hb
    rw [owned, bitEq, sameBit, Bool.and_eq_true, own.marked b hb, decide_eq_true_eq]
    refine and_congr_right fun _ => ?_
    constructor <;> intro h <;> omega
  · intro id hid notOwned
    by_cases isV : id = v
    · rw [isV, outside v (by omega), Function.update_self]
    · rw [data id hid isV]
      exact own.free id hid fun h => notOwned ((owned id).mpr ⟨h, isV⟩)
  · exact fun i hi => (own.file i hi).contents_frame (same i hi)
  · intro id low
    exact other id (by omega) (by omega)

end Owns

end CoreFromDust.EasyFs
