import CoreFromDust.EasyFs.Proofs.Names
import Mathlib.Algebra.Order.BigOperators.Group.Finset

/-!
# How much room there is

Every block of the data area is free or belongs to a file, so the sizes of the files bound the
free blocks from below. In particular a new file system has room for a first file.
-/

namespace CoreFromDust.EasyFs

open CoreFromDust.Lib CoreFromDust.Lib.CellProg DiskInode

/-- Number of blocks of the data area. -/
def Geometry.dataBlocks (g : Geometry) : Nat :=
  min (g.bitmapBlocks * 4096) (g.total.toNat - g.dataStart)

/-- The bits of the free blocks. -/
def Geometry.freeBits (g : Geometry) (cells : Cells) : Finset Nat :=
  (Finset.range (g.bitmapBlocks * 4096)).filter fun b =>
    g.efs.dataBitmap.bit cells b = false ∧ g.dataStart + b < g.total.toNat

/-- The bits of the blocks of a file. -/
def Geometry.fileBits (g : Geometry) (ino : DiskInode) (cells : Cells) : Finset Nat :=
  (ino.ids cells).toFinset.image fun id => id - g.dataStart

namespace Owns

variable {g : Geometry} {k : Nat} {ino : Nat → DiskInode} {cells : Cells}

theorem mem_fileBits (own : Owns g k ino [] cells) {i b : Nat} (hi : i < k) :
    b ∈ g.fileBits (ino i) cells ↔ g.dataStart + b ∈ (ino i).ids cells := by
  rw [Geometry.fileBits, Finset.mem_image]
  constructor
  · rintro ⟨id, mem, rfl⟩
    rw [List.mem_toFinset] at mem
    rwa [Nat.add_sub_cancel' (own.inData id (.inl ⟨i, hi, mem⟩)).low]
  · exact fun mem => ⟨g.dataStart + b, List.mem_toFinset.mpr mem, Nat.add_sub_cancel_left _ _⟩

theorem card_fileBits (own : Owns g k ino [] cells) {i : Nat} (hi : i < k) :
    (g.fileBits (ino i) cells).card = ((ino i).ids cells).length := by
  rw [Geometry.fileBits, Finset.card_image_of_injOn,
    List.toFinset_card_of_nodup (own.file i hi).nodup]
  intro id mem id' mem' same
  rw [Finset.mem_coe, List.mem_toFinset] at mem mem'
  have low := (own.inData id (.inl ⟨i, hi, mem⟩)).low
  have low' := (own.inData id' (.inl ⟨i, hi, mem'⟩)).low
  simp only at same
  omega

/-- A block of the data area is free or belongs to a file. -/
theorem dataBits_eq (own : Owns g k ino [] cells) :
    Finset.range g.dataBlocks =
      g.freeBits cells ∪ (Finset.range k).biUnion fun i => g.fileBits (ino i) cells := by
  ext b
  rw [Finset.mem_union, Finset.mem_biUnion, Finset.mem_range, Geometry.dataBlocks, lt_min_iff,
    Geometry.freeBits, Finset.mem_filter, Finset.mem_range]
  constructor
  · rintro ⟨hasBit, onDevice⟩
    cases bit : g.efs.dataBitmap.bit cells b with
    | false => exact .inl ⟨hasBit, rfl, by omega⟩
    | true =>
        rcases (own.marked b hasBit).mp bit with ⟨i, hi, mem⟩ | mem
        · exact .inr ⟨i, Finset.mem_range.mpr hi, (own.mem_fileBits hi).mpr mem⟩
        · simp at mem
  · rintro (⟨hasBit, -, onDevice⟩ | ⟨i, hi, mem⟩)
    · exact ⟨hasBit, by omega⟩
    · have below := Finset.mem_range.mp hi
      have inData := own.inData _ (.inl ⟨i, below, (own.mem_fileBits below).mp mem⟩)
      have hasBit := inData.hasBit
      have onDevice := inData.onDevice
      omega

/-- A block that belongs to a file is not free, and belongs to no other. -/
theorem bits_disjoint (own : Owns g k ino [] cells) :
    Disjoint (g.freeBits cells) ((Finset.range k).biUnion fun i => g.fileBits (ino i) cells) ∧
      ∀ i ∈ Finset.range k, ∀ j ∈ Finset.range k, i ≠ j →
        Disjoint (g.fileBits (ino i) cells) (g.fileBits (ino j) cells) := by
  constructor
  · rw [Finset.disjoint_left]
    intro b free mem
    obtain ⟨hasBit, clear, -⟩ := Finset.mem_filter.mp free
    obtain ⟨i, hi, mem⟩ := Finset.mem_biUnion.mp mem
    have below := Finset.mem_range.mp hi
    have marked := (own.marked b (Finset.mem_range.mp hasBit)).mpr
      (.inl ⟨i, below, (own.mem_fileBits below).mp mem⟩)
    rw [clear] at marked
    exact Bool.noConfusion marked
  · intro i hi j hj differ
    rw [Finset.disjoint_left]
    intro b mem
    have below := Finset.mem_range.mp hi
    have below' := Finset.mem_range.mp hj
    rw [own.mem_fileBits below] at mem
    rw [own.mem_fileBits below']
    exact own.apart i below j below' differ _ mem

/-- The blocks of the data area, counted by their owners. -/
theorem dataBlocks_eq (own : Owns g k ino [] cells) :
    g.dataBlocks = g.freeBlocks cells + ∑ i ∈ Finset.range k, ((ino i).ids cells).length := by
  obtain ⟨freeApart, apart⟩ := own.bits_disjoint
  calc g.dataBlocks = (Finset.range g.dataBlocks).card := (Finset.card_range _).symm
    _ = g.freeBlocks cells +
        ((Finset.range k).biUnion fun i => g.fileBits (ino i) cells).card := by
        rw [own.dataBits_eq, Finset.card_union_of_disjoint freeApart]
        rfl
    _ = _ := by
        rw [Finset.card_biUnion apart]
        congr 1
        exact Finset.sum_congr rfl fun i hi => own.card_fileBits (Finset.mem_range.mp hi)

end Owns

namespace FsOk

variable {g : Geometry} {k : Nat} {cells : Cells}

/-- The blocks of a file are counted by its size. -/
theorem length_ids (ok : FsOk g k cells) {i : Nat} (hi : i < k) :
    ((g.inodeAt cells i).ids cells).length = blocksFor (((g.file cells i).length + 511) / 512) := by
  rw [(ok.own.file i hi).ids_length, totalBlocks_toNat (ok.own.file i hi).small, Geometry.file,
    length_contents]

/-- What one file takes more, the free blocks lose. -/
theorem freeBlocks_change {cells' : Cells} (ok : FsOk g k cells) (ok' : FsOk g k cells') {i : Nat}
    (hi : i < k) (others : ∀ j, j < k → j ≠ i → g.file cells' j = g.file cells j) :
    g.freeBlocks cells' + blocksFor (((g.file cells' i).length + 511) / 512) =
      g.freeBlocks cells + blocksFor (((g.file cells i).length + 511) / 512) := by
  have before := ok.own.dataBlocks_eq
  have after := ok'.own.dataBlocks_eq
  rw [← Finset.add_sum_erase _ _ (Finset.mem_range.mpr hi), ok.length_ids hi] at before
  rw [← Finset.add_sum_erase _ _ (Finset.mem_range.mpr hi), ok'.length_ids hi] at after
  have rest : ∑ j ∈ (Finset.range k).erase i, ((g.inodeAt cells' j).ids cells').length =
      ∑ j ∈ (Finset.range k).erase i, ((g.inodeAt cells j).ids cells).length := by
    refine Finset.sum_congr rfl fun j mem => ?_
    obtain ⟨differ, below⟩ := Finset.mem_erase.mp mem
    have hj := Finset.mem_range.mp below
    rw [ok'.length_ids hj, ok.length_ids hj, others j hj differ]
  omega

theorem freeInodes_pos (ok : FsOk g k cells) (room : k < g.inodes) : 0 < g.freeInodes cells := by
  refine Finset.card_pos.mpr ⟨k, Finset.mem_filter.mpr ⟨Finset.mem_range.mpr room, ?_⟩⟩
  rw [ok.inodeBits k room]
  simp

end FsOk

section Files

variable {g : Geometry} {size : Nat} {efs : EasyFileSystem} {created : List (String × Inode)}
  {entries : List DirEntry} {s s' : CacheState Block}

namespace FsInv

/-- The inodes below `entries.length + 1` are the root and the files. -/
theorem ofId_mem (inv : FsInv g size efs created entries s) {i : Nat}
    (hi : i < entries.length + 1) :
    Inode.ofId g.efs (UInt32.ofNat i) ∈ Inode.root efs :: created.map Prod.snd := by
  rcases i with - | j
  · rw [inv.efsEq]
    exact List.mem_cons_self
  · have below : j < created.length := by rw [← inv.len]; omega
    have named := inv.inodes j _ (List.getElem?_eq_getElem below)
    rw [← named]
    exact List.mem_cons_of_mem _ (List.mem_map_of_mem (List.getElem_mem below))

/-- What a file takes more, the free blocks lose. -/
theorem freeBlocks_change (inv : FsInv g size efs created entries s)
    (inv' : FsInv g size efs created entries s') {file : Inode} (mem : file ∈ created.map Prod.snd)
    (others : ∀ other ∈ Inode.root efs :: created.map Prod.snd, other ≠ file →
      other.contents s'.view = other.contents s.view) :
    g.freeBlocks s'.view + blocksFor (((file.contents s'.view).length + 511) / 512) =
      g.freeBlocks s.view + blocksFor (((file.contents s.view).length + 511) / 512) := by
  obtain ⟨i, pos, hi, rfl⟩ := inv.file_eq mem
  rw [inv.contents_ofId hi, inv.contents_ofId hi]
  refine inv.dir.fs.freeBlocks_change inv'.dir.fs hi fun j hj differ => ?_
  have same := others _ (inv.ofId_mem hj) fun same => differ (inv.ofId_inj hj hi same)
  rwa [inv.contents_ofId hj, inv.contents_ofId hj] at same

end FsInv

theorem CanWrite.first {file : Inode} {offset : Nat} {a b : List UInt8} {cells : Cells}
    (can : CanWrite g file offset (a ++ b).length cells) :
    CanWrite g file offset a.length cells := by
  have small := can.small
  have blocks := can.blocks
  rw [List.length_append] at small blocks
  refine ⟨by omega, (Nat.sub_le_sub_right (blocksFor_mono ?_) _).trans blocks⟩
  omega

/-- After the first part of a write, there are blocks for the rest. -/
theorem CanWrite.rest {file : Inode} {offset : Nat} {a b : List UInt8}
    (inv : FsInv g size efs created entries s) (inv' : FsInv g size efs created entries s')
    (mem : file ∈ created.map Prod.snd) (can : CanWrite g file offset (a ++ b).length s.view)
    (contents : file.contents s'.view = Spec.write (file.contents s.view) offset a)
    (others : ∀ other ∈ Inode.root efs :: created.map Prod.snd, other ≠ file →
      other.contents s'.view = other.contents s.view) :
    CanWrite g file (offset + a.length) b.length s'.view := by
  have change := inv.freeBlocks_change inv' mem others
  have small := can.small
  have blocks := can.blocks
  have length : (file.contents s'.view).length =
      max (file.contents s.view).length (offset + a.length) := by
    rw [contents, Spec.length_write]
  have whole : max (file.contents s'.view).length (offset + a.length + b.length) =
      max (file.contents s.view).length (offset + (a ++ b).length) := by
    rw [length, List.length_append]
    omega
  refine ⟨by rw [whole]; exact small, ?_⟩
  rw [whole]
  have grows : blocksFor (((file.contents s.view).length + 511) / 512) ≤
      blocksFor (((file.contents s'.view).length + 511) / 512) :=
    blocksFor_mono (by rw [length]; omega)
  unfold blocksNeeded at blocks ⊢
  omega

end Files

/-- The file system that `easy-fs-fuse` packs: a device of `16 * 2048` blocks with one block of
inode bitmap. -/
def fuseGeometry : Geometry := ⟨32768, 1, by decide⟩

theorem fuseGeometry_dataBlocks : fuseGeometry.dataBlocks = 31734 := by decide

/-- A device can be formatted. -/
theorem Geometry.exists_reachable (g : Geometry) {size : Nat} (large : g.total.toNat ≤ size)
    (hasInodes : 0 < g.inodeBlocks.toNat) (device : Cells) :
    ∃ s, Reachable g size g.efs [] s := by
  have rel : CacheRel size ⟨device, []⟩ (CacheState.fresh device) := CacheRel.fresh device
  have idle : Idle g size 15 (⟨device, []⟩ : CellArray Block) := ⟨large, by decide, rfl⟩
  obtain ⟨r, a', s, ran, -, -, rfl, -⟩ := rel.run_of_wp (createFs_wp idle hasInodes)
  exact ⟨s, .start ran⟩

/-- A new file system has room for a file, of any name that fits the entry, and the root
directory takes one block for it. -/
theorem Geometry.exists_file (g : Geometry) {size : Nat} (large : g.total.toNat ≤ size)
    (hasInodes : 0 < g.inodeBlocks.toNat) (hasBlocks : 0 < g.dataBlocks) (name : String)
    (fits : (strBytes name).length ≤ nameLengthLimit + 1) :
    ∃ s₀ s file, Reachable g size g.efs [] s₀ ∧
      run (machine size) ((Inode.root g.efs).create g.efs name) s₀ = some (some file, s) ∧
      Reachable g size g.efs [(name, file)] s ∧ file.contents s.view = [] ∧
      g.dataBlocks ≤ g.freeBlocks s.view + 1 := by
  obtain ⟨s₀, reach⟩ := g.exists_reachable large hasInodes fun _ => Block.zero
  obtain ⟨entries, inv⟩ := reach.inv
  obtain rfl : entries = [] := List.length_eq_zero_iff.mp inv.len
  have root : g.file s₀.view 0 = [] := inv.dir.contents
  have inodes : 1 < g.inodes := by
    unfold Geometry.inodes
    omega
  have free : g.dataBlocks ≤ g.freeBlocks s₀.view := by
    have bound := inv.dir.fs.own.dataBlocks_eq
    rw [List.length_nil, Finset.sum_range_one, inv.dir.fs.length_ids (by simp), root] at bound
    exact bound.le
  have can : CanCreate g s₀.view := by
    refine ⟨inv.dir.fs.freeInodes_pos inodes, ?_, ?_⟩
    · rw [root]
      decide
    · rw [root]
      exact hasBlocks.trans_le free
  have absent : scan name [] = some none := rfl
  obtain ⟨s, ran, inv', empty, -⟩ := inv.create_new absent can (if_pos fits)
  have reach' := reach.create (fun _ => can) ran
  refine ⟨s₀, s, _, reach, ran, reach', empty, ?_⟩
  have bound := inv'.dir.fs.own.dataBlocks_eq
  have file : g.file s.view 1 = [] := by
    rw [← inv'.contents_ofId (by simp)]
    exact empty
  have rootLength : (g.file s.view 0).length = 32 := by
    rw [inv'.dir.contents, length_dirBytes]
    rfl
  rw [List.nil_append, List.length_singleton, Finset.sum_range_succ, Finset.sum_range_one,
    inv'.dir.fs.length_ids (by simp), inv'.dir.fs.length_ids (by simp), file, rootLength] at bound
  exact bound.le

end CoreFromDust.EasyFs
