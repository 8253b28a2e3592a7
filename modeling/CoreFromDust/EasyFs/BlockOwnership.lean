import CoreFromDust.EasyFs.Proofs.Capacity
import Mathlib.Data.Set.Card
import Mathlib.Order.CompletePartialOrder

/-!
# Every data block has one owner

In every reachable state the data bitmap marks exactly the blocks that the allocated inodes
reach, no block is reached from two inodes or twice from one, and everything that no file
covers is zero.
-/

namespace CoreFromDust.EasyFs

open CoreFromDust.Lib CoreFromDust.Lib.CellProg DiskInode

/-- The blocks reached from an inode: the pointers in the slots that a file of its size uses. -/
def DiskInode.reached (ino : DiskInode) (cells : Cells) : Set Nat :=
  {id | ∃ p, Slot.Present ino.blockCount p ∧ (ino.ptr cells p).toNat = id}

theorem DiskInode.mem_reached {ino : DiskInode} {cells : Cells} {id : Nat} :
    id ∈ ino.reached cells ↔ id ∈ ino.ids cells := by
  rw [ids, List.mem_map]
  exact exists_congr fun p => and_congr_left fun _ => mem_slots.symm

/-- A file whose pointers are in order reaches `total_blocks` blocks. -/
theorem DiskInode.FileOk.ncard_reached {ino : DiskInode} {cells : Cells} (ok : FileOk ino cells) :
    (ino.reached cells).ncard = (totalBlocks ino.size).toNat := by
  have same : ino.reached cells = ((ino.ids cells).toFinset : Set Nat) := by
    ext id
    rw [mem_reached, List.coe_toFinset]
    rfl
  rw [same, Set.ncard_coe_finset, List.toFinset_card_of_nodup ok.nodup, ok.ids_length]

/-- The inode is marked in the inode bitmap. -/
def Geometry.Allocated (g : Geometry) (cells : Cells) (i : Nat) : Prop :=
  i < g.inodes ∧ g.efs.inodeBitmap.bit cells i = true

/-- The division of the data area among the allocated inodes. -/
structure BlocksOwned (g : Geometry) (cells : Cells) : Prop where
  /-- The bits that are set belong to the blocks that the inodes reach. -/
  marked : ∀ b, b < g.bitmapBlocks * 4096 → (g.efs.dataBitmap.bit cells b = true ↔
    ∃ i, g.Allocated cells i ∧ g.dataStart + b ∈ (g.inodeAt cells i).reached cells)
  inData : ∀ i, g.Allocated cells i → ∀ id ∈ (g.inodeAt cells i).reached cells, g.InData id
  disjoint : ∀ i j, g.Allocated cells i → g.Allocated cells j → i ≠ j →
    Disjoint ((g.inodeAt cells i).reached cells) ((g.inodeAt cells j).reached cells)
  count : ∀ i, g.Allocated cells i → ((g.inodeAt cells i).reached cells).ncard =
    (totalBlocks (g.inodeAt cells i).size).toNat
  freeZero : ∀ id, g.InData id → g.efs.dataBitmap.bit cells (id - g.dataStart) = false →
    cells id = Block.zero
  tailZero : ∀ i, g.Allocated cells i → ∀ p, (g.inodeAt cells i).size.toNat ≤ p →
    p < (g.inodeAt cells i).blockCount * 512 → (g.inodeAt cells i).fileByte cells p = 0

/-- The invariant of the file system divides the data area. -/
theorem FsOk.blocksOwned {g : Geometry} {k : Nat} {cells : Cells} (ok : FsOk g k cells) :
    BlocksOwned g cells := by
  have below : ∀ i, g.Allocated cells i ↔ i < k := by
    intro i
    constructor
    · rintro ⟨inside, bit⟩
      rw [ok.inodeBits i inside] at bit
      exact of_decide_eq_true bit
    · intro hi
      have inside := Nat.lt_of_lt_of_le hi ok.bound
      exact ⟨inside, by rw [ok.inodeBits i inside, decide_eq_true hi]⟩
  have owned : ∀ id, Owned k (g.inodeAt cells) [] cells id ↔
      ∃ i, g.Allocated cells i ∧ id ∈ (g.inodeAt cells i).reached cells := by
    intro id
    rw [Owned, or_iff_left (List.not_mem_nil)]
    exact exists_congr fun i => and_congr (below i).symm mem_reached.symm
  refine ⟨?_, ?_, ?_, ?_, ?_, ?_⟩
  · intro b hb
    rw [ok.own.marked b hb, owned]
  · exact fun i alloc id mem => ok.own.inData id ((owned id).mpr ⟨i, alloc, mem⟩)
  · intro i j hi hj differ
    rw [Set.disjoint_left]
    intro id mem
    rw [mem_reached] at mem ⊢
    exact ok.own.apart i ((below i).mp hi) j ((below j).mp hj) differ id mem
  · exact fun i alloc => (ok.own.file i ((below i).mp alloc)).ncard_reached
  · intro id inData clear
    refine ok.own.free id inData fun isOwned => ?_
    have low := inData.low
    have hasBit := inData.hasBit
    have set := (ok.own.marked (id - g.dataStart) (by omega)).mpr
      (by rwa [Nat.add_sub_cancel' low])
    rw [clear] at set
    exact Bool.noConfusion set
  · exact fun i alloc => (ok.own.file i ((below i).mp alloc)).tail

/-- The blocks are divided among the inodes in every reachable state, and so `clear` returns on
the root and on every file: its assertions and those of `clear_size` and `dealloc` hold. -/
theorem reachable_blocksOwned {g : Geometry} {size : Nat} {efs : EasyFileSystem}
    {created : List (String × Inode)} {s : CacheState Block}
    (reach : Reachable g size efs created s) :
    efs = g.efs ∧ BlocksOwned g s.view ∧
      ∀ file ∈ Inode.root efs :: created.map Prod.snd,
        ∃ s', run (machine size) (file.clear efs) s = some ((), s') ∧ BlocksOwned g s'.view := by
  obtain ⟨entries, inv⟩ := reach.inv
  refine ⟨inv.efsEq, inv.dir.fs.blocksOwned, fun file mem => ?_⟩
  obtain ⟨i, hi, rfl⟩ := inv.inode_eq mem
  have onArray := FsOk.clear_wp (s := ⟨s.view, []⟩) inv.dir.fs inv.idle hi
  obtain ⟨u, s', ran⟩ := inv.returns onArray
  obtain ⟨-, updated⟩ := inv.of_run onArray ran
  rw [inv.efsEq]
  exact ⟨s', ran, updated.ok.blocksOwned⟩

/-- After a first file was created, its name takes one block, which belongs to the root. -/
theorem reachable_blocksOwned_fuse : ∃ file s,
    Reachable fuseGeometry 32768 fuseGeometry.efs [("a", file)] s ∧
      BlocksOwned fuseGeometry s.view ∧ fuseGeometry.Allocated s.view 1 := by
  have blocks := fuseGeometry_dataBlocks
  have large : fuseGeometry.total.toNat ≤ 32768 := by decide
  obtain ⟨s₀, s, file, -, -, reach, -, -⟩ :=
    fuseGeometry.exists_file large (by decide) (by omega) "a" (by decide)
  obtain ⟨entries, inv⟩ := reach.inv
  have len : entries.length = 1 := inv.len
  refine ⟨file, s, reach, (reachable_blocksOwned reach).2.1, by decide, ?_⟩
  rw [inv.dir.fs.inodeBits 1 (by decide), len]
  rfl

end CoreFromDust.EasyFs
