import CoreFromDust.EasyFs.DataArea

/-!
# How far a file can be written

`DiskInode` reaches 16540 data blocks, and `write_at` does not compare this with the size that is
asked for. With enough free blocks it returns exactly as long as the written range stays within the
reach; an empty buffer passes also where the size, cut to 32 bits, does.
-/

namespace CoreFromDust.EasyFs

open CoreFromDust.Lib CoreFromDust.Lib.CellProg DiskInode

/-! ## Runs that returned have stayed within the reach -/

namespace DiskInode

section Returned

variable {σ : Type} {H : Handler Block σ} {s s' : σ}

theorem entry_returned {b : Block} {i : Nat} {v : UInt32}
    (ran : run H (entry b i) s = some (v, s')) : i < 128 := by
  obtain ⟨_, s₁, checked, -⟩ := run_do_some ran
  rw [← inodeIndirect1Count_eq]
  exact run_check_some checked

theorem getBlockId_returned {d : DiskInode} {k : Nat} {v : UInt32}
    (ran : run H (d.getBlockId k) s = some (v, s')) : k < 16540 := by
  by_contra beyond
  rw [getBlockId, if_neg (by simp only [inodeDirectCount]; omega),
    if_neg (by rw [indirect1Bound_eq]; omega)] at ran
  obtain ⟨id, s₁, outer, -⟩ := run_do_some ran
  obtain ⟨b, s₂, s₃, inner⟩ := run_viewCell_some outer
  have inside := entry_returned inner
  rw [indirect1Bound_eq, inodeIndirect1Count_eq] at inside
  omega

/-- The loop of `write_at` returns only when it has come to its end within the reach. -/
theorem writeLoop_returned {d : DiskInode} {stop fuel start writeSize n : Nat} {buf : List UInt8}
    (ran : run H (d.writeLoop stop buf fuel start writeSize) s = some (n, s'))
    (more : start < stop) :
    n = writeSize + (stop - start) ∧ stop ≤ maxSize := by
  induction fuel generalizing start writeSize s with
  | zero => simp [writeLoop, run] at ran
  | succ fuel ih =>
      obtain ⟨id, s₁, found, rest⟩ := run_do_some ran
      have reach := getBlockId_returned found
      simp only [blockSz] at reach rest
      obtain ⟨_, s₂, -, rest⟩ := run_do_some rest
      split at rest
      · next last =>
        rw [run_pure] at rest
        simp only [Option.some.injEq, Prod.mk.injEq] at rest
        simp only [maxSize]
        omega
      · next before =>
        obtain ⟨count, bound⟩ := ih rest (by omega)
        refine ⟨?_, bound⟩
        omega

theorem writeAt_returned {d : DiskInode} {offset n : Nat} {buf : List UInt8}
    (ran : run H (d.writeAt offset buf) s = some (n, s')) (some : n ≠ 0) :
    offset + n ≤ maxSize := by
  rw [writeAt] at ran
  split at ran
  · rw [run_pure] at ran
    simp only [Option.some.injEq, Prod.mk.injEq] at ran
    exact absurd ran.1.symm some
  · obtain ⟨count, bound⟩ := writeLoop_returned ran (by omega)
    omega

theorem fillDirect_returned {n c c' : Nat} {vs vs' : List UInt32} {d d' : DiskInode}
    (ran : run H (fillDirect n d c vs) s = some ((d', c', vs'), s')) : c' ≤ max c 28 := by
  induction vs generalizing d c with
  | nil =>
      rw [fillDirect] at ran
      split at ran
      · simp [run] at ran
      · rw [run_pure] at ran
        simp only [Option.some.injEq, Prod.mk.injEq] at ran
        omega
  | cons v vs ih =>
      rw [fillDirect] at ran
      split at ran
      · next go =>
        simp only [inodeDirectCount] at go
        have later := ih ran
        omega
      · rw [run_pure] at ran
        simp only [Option.some.injEq, Prod.mk.injEq] at ran
        omega

theorem fillIndirect1_returned {n c c' : Nat} {vs vs' : List UInt32} {b b' : Block}
    (ran : run H (fillIndirect1 n b c vs) s = some ((b', c', vs'), s')) : c' ≤ max c 128 := by
  induction vs generalizing b c with
  | nil =>
      rw [fillIndirect1] at ran
      split at ran
      · simp [run] at ran
      · rw [run_pure] at ran
        simp only [Option.some.injEq, Prod.mk.injEq] at ran
        omega
  | cons v vs ih =>
      rw [fillIndirect1] at ran
      split at ran
      · next go =>
        rw [inodeIndirect1Count_eq] at go
        have later := ih ran
        omega
      · rw [run_pure] at ran
        simp only [Option.some.injEq, Prod.mk.injEq] at ran
        omega

theorem fillEntry_returned {b : Block} {a0 b0 : Nat} {v : UInt32} {u : Unit}
    (ran : run H (fillEntry b a0 b0 v) s = some (u, s')) : a0 < 128 := by
  obtain ⟨id, s₁, first, -⟩ := run_do_some ran
  exact entry_returned first

/-- The loop over the doubly indirect part does not pass its last entry. -/
theorem fillIndirect2_returned {a1 b1 a0 b0 : Nat} {b b' : Block} {vs : List UInt32}
    (inside : b0 < 128)
    (inside1 : b1 < 128) (ran : run H (fillIndirect2 a1 b1 b a0 b0 vs) s = some (b', s')) :
    a1 * 128 + b1 ≤ max (a0 * 128 + b0) 16384 := by
  induction count : vs.length using Nat.strong_induction_on generalizing b a0 b0 vs s with
  | _ n ih =>
      rw [fillIndirect2] at ran
      split at ran
      · simp only [inodeIndirect1Count_eq] at ran
        generalize nextEq : (if b0 + 1 = 128 then (a0 + 1, 0) else (a0, b0 + 1)) = next at ran
        have position : next.1 * 128 + next.2 = a0 * 128 + b0 + 1 ∧ next.2 < 128 := by
          rw [← nextEq]
          split <;> constructor <;> simp only <;> omega
        obtain ⟨further, insideNext⟩ := position
        split at ran
        · split at ran
          · next new data rest =>
            obtain ⟨_, s₁, -, ran⟩ := run_do_some ran
            obtain ⟨_, s₂, filled, ran⟩ := run_do_some ran
            have low := fillEntry_returned filled
            have shorter : rest.length < n := by
              simp only [List.length_cons] at count
              omega
            have bound := ih _ shorter insideNext ran rfl
            omega
          · simp [run] at ran
        · split at ran
          · next data rest =>
            obtain ⟨_, s₂, filled, ran⟩ := run_do_some ran
            have low := fillEntry_returned filled
            have shorter : rest.length < n := by
              simp only [List.length_cons] at count
              omega
            have bound := ih _ shorter insideNext ran rfl
            omega
          · simp [run] at ran
      · omega

theorem increaseIndirect2_returned {d d' : DiskInode} {current total : Nat} {vs : List UInt32}
    (ran : run H (increaseIndirect2 d current total vs) s = some (d', s')) :
    total ≤ max current 16384 := by
  obtain ⟨_, s₁, first, -⟩ := run_do_some ran
  obtain ⟨b, s₂, r, s₃, inner, -⟩ := run_modifyCell_some first
  obtain ⟨b', s₄, filled, -⟩ := run_do_some inner
  rw [inodeIndirect1Count_eq] at filled
  have bound := fillIndirect2_returned (Nat.mod_lt _ (by omega)) (Nat.mod_lt _ (by omega)) filled
  omega

theorem increaseIndirect1_returned {d d' : DiskInode} {current total : Nat} {vs : List UInt32}
    (start : current ≤ 16512)
    (ran : run H (increaseIndirect1 d current total vs) s = some (d', s')) : total ≤ 16512 := by
  obtain ⟨⟨current', vs'⟩, s₁, first, rest⟩ := run_do_some ran
  obtain ⟨b, s₂, ⟨b', c, vs''⟩, s₃, inner, same⟩ := run_modifyCell_some first
  have bound := fillIndirect1_returned inner
  simp only [Prod.mk.injEq] at same
  obtain ⟨rfl, rfl⟩ := same
  simp only [inodeIndirect1Count_eq] at rest
  split at rest
  · split at rest
    · obtain ⟨_, s₄, -, rest⟩ := run_do_some rest
      have grown := increaseIndirect2_returned rest
      omega
    · have grown := increaseIndirect2_returned rest
      omega
  · omega

/-- `increase_size` returns only for sizes within the reach. -/
theorem increaseSize_returned {d d' : DiskInode} {newSize : UInt32} {vs : List UInt32}
    (start : d.dataBlocks.toNat ≤ 16540)
    (ran : run H (d.increaseSize newSize vs) s = some (d', s')) :
    (dataBlocksOf newSize).toNat ≤ 16540 := by
  obtain ⟨⟨d₁, current, vs₁⟩, s₁, first, rest⟩ := run_do_some ran
  have bound := fillDirect_returned first
  simp only [inodeDirectCount] at rest
  have total : { d with size := newSize }.dataBlocks = dataBlocksOf newSize := rfl
  rw [total] at rest
  split at rest
  · split at rest
    · obtain ⟨_, s₂, -, rest⟩ := run_do_some rest
      have grown := increaseIndirect1_returned (by omega) rest
      omega
    · have grown := increaseIndirect1_returned (by omega) rest
      omega
  · omega

end Returned

/-- Number of data blocks of a size whose rounding does not wrap. -/
theorem dataBlocksOf_wide {size : UInt32} (wide : size.toNat ≤ 2 ^ 32 - 512) :
    (dataBlocksOf size).toNat = (size.toNat + 511) / 512 := by
  rw [dataBlocksOf, UInt32.toNat_div, UInt32.toNat_sub, UInt32.toNat_add]
  simp only [UInt32.reduceToNat]
  omega

/-- The rounding of the last sizes wraps to no blocks at all. -/
theorem dataBlocksOf_wraps {size : UInt32} (wraps : 2 ^ 32 - 512 < size.toNat) :
    dataBlocksOf size = 0 := by
  have small := size.toNat_lt
  rw [← UInt32.toNat_inj, dataBlocksOf, UInt32.toNat_div, UInt32.toNat_sub, UInt32.toNat_add]
  simp only [UInt32.reduceToNat]
  omega

theorem totalBlocks_wraps {size : UInt32} (wraps : 2 ^ 32 - 512 < size.toNat) :
    totalBlocks size = 0 := by
  simp [totalBlocks, dataBlocksOf_wraps wraps]

end DiskInode

/-- `increase_size` of an empty inode to a size whose rounding wraps takes no blocks. -/
theorem increaseSize_wraps_eq {efs : EasyFileSystem} {d : DiskInode} {newSize : UInt32}
    (wraps : 2 ^ 32 - 512 < newSize.toNat) (empty : d.size = 0) :
    Inode.increaseSize efs newSize d = pure { d with size := newSize } := by
  have ordered : d.size ≤ newSize := by
    rw [empty]
    exact UInt32.zero_le
  have none : (dataBlocksOf newSize).toNat = 0 := by
    rw [dataBlocksOf_wraps wraps]
    rfl
  have none' : (dataBlocksOf d.size).toNat = 0 := by
    rw [empty]
    rfl
  have needed : d.blocksNumNeeded newSize = pure 0 := by
    simp only [blocksNumNeeded, check, totalBlocks_wraps wraps, empty]
    rfl
  have grown : d.increaseSize newSize [] = pure { d with size := newSize } := by
    simp only [DiskInode.increaseSize, dataBlocks, none, none', fillDirect, Nat.zero_min,
      Nat.lt_irrefl, if_false, gt_iff_lt, Nat.not_lt_zero]
    rfl
  rw [Inode.increaseSize, if_neg (UInt32.not_lt.mpr ordered), needed]
  exact grown

/-- `DiskInode::write_at` of nothing. -/
theorem DiskInode.writeAt_nil (d : DiskInode) (offset : Nat) : d.writeAt offset [] = pure 0 := by
  rw [DiskInode.writeAt, if_pos]
  exact Nat.min_le_left _ _

/-! ## Running out of bits -/

/-- Number of clear bits of a bitmap. -/
def Bitmap.clearBits (bm : Bitmap) (cells : Cells) : Nat :=
  ((Finset.range (bm.blocks * 4096)).filter fun b => bm.bit cells b = false).card

theorem Bitmap.clearBits_le (bm : Bitmap) (cells : Cells) : bm.clearBits cells ≤ bm.blocks * 4096 :=
  (Finset.card_filter_le _ _).trans (Finset.card_range _).le

/-- Marking a bit takes one of the clear ones. -/
theorem Bitmap.Marks.clearBits {bm : Bitmap} {cells cells' : Cells} {m : Nat}
    (marks : bm.Marks cells cells' m) : bm.clearBits cells' + 1 = bm.clearBits cells := by
  have mem : m ∈ (Finset.range (bm.blocks * 4096)).filter fun b => bm.bit cells b = false := by
    rw [Finset.mem_filter, Finset.mem_range]
    exact ⟨marks.inRange, marks.clear⟩
  have erased : ((Finset.range (bm.blocks * 4096)).filter fun b => bm.bit cells' b = false) =
      ((Finset.range (bm.blocks * 4096)).filter fun b => bm.bit cells b = false).erase m := by
    ext b
    rw [Finset.mem_erase, Finset.mem_filter, Finset.mem_filter, Finset.mem_range]
    constructor
    · rintro ⟨inside, clear⟩
      rw [marks.bits b inside, Bool.or_eq_false_iff, decide_eq_false_iff_not] at clear
      exact ⟨clear.2, inside, clear.1⟩
    · rintro ⟨differ, inside, clear⟩
      rw [marks.bits b inside, clear, decide_eq_false differ]
      exact ⟨inside, rfl⟩
  rw [Bitmap.clearBits, erased, Finset.card_erase_of_mem mem]
  exact Nat.sub_add_cancel (Finset.card_pos.mpr ⟨m, mem⟩)

/-- More calls of `alloc_data` than there are clear bits panic. -/
theorem collect_allocData_panics {size cap : Nat} {efs : EasyFileSystem} (l : List Nat)
    {s : CellArray Block} (lock : ∀ id, efs.dataBitmap.Within id → s.Lockable size cap id)
    (few : efs.dataBitmap.clearBits s.cells < l.length) :
    Panics (fsHandler size cap) (collect (fun _ => efs.allocData) l) s := by
  induction l generalizing s with
  | nil => exact absurd few (Nat.not_lt_zero _)
  | cons x l ih =>
      obtain ⟨r, s₁, ran, heldEq, found⟩ := Bitmap.alloc_wp efs.dataBitmap lock
      cases r with
      | none =>
          apply panics_do_first
          exact panics_do_second ⟨none, s₁, ran, panics_do_first (panics_unwrap _ _)⟩
      | some m =>
          have marks : efs.dataBitmap.Marks s.cells s₁.cells m := found
          have taken := marks.clearBits
          have returned : run (fsHandler size cap) efs.allocData s =
              some (UInt32.ofNat m + efs.dataAreaStartBlock, s₁) := by
            rw [EasyFileSystem.allocData, run_do ran]
            rfl
          refine panics_do_second ⟨_, s₁, returned, panics_do_first (ih ?_ ?_)⟩
          · exact fun id within => (lock id within).congr heldEq
          · rw [List.length_cons] at few
            omega

theorem le_blocksFor (n : Nat) : n ≤ blocksFor n := by
  unfold blocksFor
  rw [Nat.add_assoc]
  exact Nat.le_add_right n _

/-! ## The call -/

namespace FsInv

variable {g : Geometry} {size : Nat} {efs : EasyFileSystem} {created : List (String × Inode)}
  {entries : List DirEntry} {s s' : CacheState Block}

/-- The closure of a `modify_disk_inode` that returned has run on the inode, with its block held. -/
theorem modifyDiskInode_returned {α : Type} {f : DiskInode → FsProg (DiskInode × α)} {r : α}
    (inv : FsInv g size efs created entries s) {i : Nat} (hi : i < entries.length + 1)
    (ran : run (machine size) ((Inode.ofId g.efs (UInt32.ofNat i)).modifyDiskInode f) s =
      some (r, s')) :
    ∃ s₁ d s₂, CacheRel size (CellArray.hold ⟨s.view, []⟩ (g.inodeBlock i)) s₁ ∧
      run (machine size) (f (g.inodeAt s.view i)) s₁ = some ((d, r), s₂) := by
  have ok := inv.dir.fs
  have bound := ok.bound
  have narrow := ok.narrow
  rw [FsOk.ofId_eq (show i < g.inodes by omega) (by omega)] at ran
  simp only [Inode.modifyDiskInode, modifyCell, run] at ran
  have lock := ok.lock inv.idle hi
  obtain ⟨s₁, step, rel⟩ := cache_simulates.acquire inv.rel (array_acquire size 15 lock)
  have loaded := cache_simulates.load rel (array_load size 15 (CellArray.hold_holds _ _))
  rw [step, Option.bind_some, loaded, Option.bind_some, run_bind] at ran
  obtain ⟨⟨r', s₂⟩, inner, rest⟩ := Option.bind_eq_some_iff.mp ran
  obtain ⟨s₃, -, rest⟩ := Option.bind_eq_some_iff.mp rest
  obtain ⟨s₄, -, rest⟩ := Option.bind_eq_some_iff.mp rest
  obtain ⟨_, s₅, checked, inner⟩ := run_do_some inner
  have fits := run_check_some checked
  rw [run_check fits] at checked
  simp only [Option.some.injEq, Prod.mk.injEq] at checked
  obtain ⟨⟨d, a⟩, s₆, closure, last⟩ := run_do_some inner
  rw [run_pure] at last
  simp only [Option.some.injEq, Prod.mk.injEq] at last rest
  obtain ⟨rfl, -⟩ := last
  obtain ⟨rfl, -⟩ := rest
  rw [← checked.2] at closure
  exact ⟨s₁, d, s₆, rel, closure⟩

/-- What the two parts of a `write_at` that returned have done. -/
theorem writeAt_parts (inv : FsInv g size efs created entries s) {i : Nat}
    (hi : i < entries.length + 1) {offset n : Nat} {buf : List UInt8}
    (ran : run (machine size) ((Inode.ofId g.efs (UInt32.ofNat i)).writeAt g.efs offset buf) s =
      some (n, s')) :
    ∃ s₁ d s₂ s₃, CacheRel size (CellArray.hold ⟨s.view, []⟩ (g.inodeBlock i)) s₁ ∧
      run (machine size) (Inode.increaseSize g.efs (UInt32.ofNat (offset + buf.length))
        (g.inodeAt s.view i)) s₁ = some (d, s₂) ∧
      run (machine size) (d.writeAt offset buf) s₂ = some (n, s₃) := by
  obtain ⟨m, t, first, rest⟩ := run_do_some ran
  obtain ⟨_, t', -, last⟩ := run_do_some rest
  rw [run_pure] at last
  simp only [Option.some.injEq, Prod.mk.injEq] at last
  obtain ⟨rfl, -⟩ := last
  obtain ⟨s₁, d', s₂, rel, closure⟩ := inv.modifyDiskInode_returned hi first
  obtain ⟨d, s₃, grown, rest⟩ := run_do_some closure
  obtain ⟨k, s₄, written, last⟩ := run_do_some rest
  rw [run_pure] at last
  simp only [Option.some.injEq, Prod.mk.injEq] at last
  obtain ⟨⟨-, rfl⟩, -⟩ := last
  exact ⟨s₁, d, s₃, s₄, rel, grown, written⟩

/-- A size whose rounding wraps asks for almost `2^32` blocks more than a file has that is not
empty. -/
theorem increaseSize_wraps_panics (inv : FsInv g size efs created entries s) {i : Nat}
    (hi : i < entries.length + 1) {newSize : UInt32} (wraps : 2 ^ 32 - 512 < newSize.toNat)
    (nonempty : (g.inodeAt s.view i).size ≠ 0) :
    Panics (fsHandler size 15) (Inode.increaseSize g.efs newSize (g.inodeAt s.view i))
      (CellArray.hold ⟨s.view, []⟩ (g.inodeBlock i)) := by
  have file := inv.dir.fs.own.file i hi
  have small := file.small
  simp only [maxSize] at small
  have ordered : (g.inodeAt s.view i).size ≤ newSize := by
    rw [UInt32.le_iff_toNat_le]
    omega
  have needed : (g.inodeAt s.view i).blocksNumNeeded newSize =
      pure (0 - totalBlocks (g.inodeAt s.view i).size) := by
    simp only [blocksNumNeeded, check, ordered, if_true, totalBlocks_wraps wraps]
    rfl
  have count : 2 ^ 32 - 2 ^ 16 ≤ (0 - totalBlocks (g.inodeAt s.view i).size).toNat := by
    have positive : 0 < (g.inodeAt s.view i).size.toNat := by
      rw [Nat.pos_iff_ne_zero]
      exact fun zero => nonempty (UInt32.toNat_inj.mp zero)
    have narrow := blocksFor_lt file.count_le
    have least := le_blocksFor (g.inodeAt s.view i).blockCount
    have total : (totalBlocks (g.inodeAt s.view i).size).toNat =
        blocksFor (g.inodeAt s.view i).blockCount := totalBlocks_toNat file.small
    rw [UInt32.toNat_sub, total, UInt32.toNat_zero]
    generalize blocksFor (g.inodeAt s.view i).blockCount = blocks at narrow least ⊢
    unfold blockCount at least
    omega
  have few : g.bitmapBlocks * 4096 < 2 ^ 32 - 2 ^ 16 := by
    rw [Geometry.bitmapBlocks, Geometry.dataBitmapBlocks_toNat]
    omega
  rw [Inode.increaseSize, if_neg (UInt32.not_lt.mpr ordered), needed]
  apply panics_do_second
  rw [wp_pure]
  refine panics_do_first (collect_allocData_panics _ (fun id within => ?_) ?_)
  · exact (inv.dir.fs.busy inv.idle hi).lock_bitmap within
  · have bits := Bitmap.clearBits_le g.efs.dataBitmap s.view
    have blocksEq : g.efs.dataBitmap.blocks = g.bitmapBlocks := by rw [g.efs_dataBitmap]
    rw [blocksEq] at bits
    rw [List.length_range, CellArray.hold_cells]
    exact bits.trans_lt (few.trans_le count)

/-- `Inode::increase_size` returns only for a size within the reach, or for one whose rounding wraps
on an empty file. -/
theorem increaseSize_limit (inv : FsInv g size efs created entries s) {i : Nat}
    (hi : i < entries.length + 1) {newSize : UInt32} {d : DiskInode} {s₁ s₂ : CacheState Block}
    (rel : CacheRel size (CellArray.hold ⟨s.view, []⟩ (g.inodeBlock i)) s₁)
    (ran : run (machine size) (Inode.increaseSize g.efs newSize (g.inodeAt s.view i)) s₁ =
      some (d, s₂)) :
    newSize.toNat ≤ maxSize ∨ (2 ^ 32 - 512 < newSize.toNat ∧ (g.inodeAt s.view i).size = 0) := by
  have file := inv.dir.fs.own.file i hi
  have small := file.small
  by_cases wraps : 2 ^ 32 - 512 < newSize.toNat
  · refine .inr ⟨wraps, ?_⟩
    by_contra nonempty
    rw [rel.run_of_panics (inv.increaseSize_wraps_panics hi wraps nonempty)] at ran
    simp at ran
  · left
    by_contra beyond
    have notLess : ¬ newSize < (g.inodeAt s.view i).size := by
      rw [UInt32.lt_iff_toNat_lt]
      omega
    rw [Inode.increaseSize, if_neg notLess] at ran
    obtain ⟨n, s₃, -, ran⟩ := run_do_some ran
    obtain ⟨v, s₄, -, ran⟩ := run_do_some ran
    have reach := increaseSize_returned (by rw [file.dataBlocks_eq]; exact file.count_le) ran
    rw [dataBlocksOf_wide (by omega)] at reach
    simp only [maxSize] at beyond
    omega

/-- `Inode::write_at` of nothing to an empty file, at an offset whose rounding wraps. -/
theorem writeAt_wraps (inv : FsInv g size efs created entries s) {i : Nat}
    (hi : i < entries.length + 1) {offset : Nat} (wraps : 2 ^ 32 - 512 < offset % 2 ^ 32)
    (empty : (g.inodeAt s.view i).size = 0) :
    ∃ s', run (machine size) ((Inode.ofId g.efs (UInt32.ofNat i)).writeAt g.efs offset []) s =
      some (0, s') := by
  have ok := inv.dir.fs
  have bound := ok.bound
  have narrow := ok.narrow
  have large : 2 ^ 32 - 512 < (UInt32.ofNat offset).toNat := by
    rw [UInt32.toNat_ofNat']
    exact wraps
  have fits : i % 4 * 128 + DiskInode.sizeOf ≤ blockSz := by
    simp only [DiskInode.sizeOf, blockSz]
    omega
  have onArray : wp (fsHandler size 15)
      ((Inode.ofId g.efs (UInt32.ofNat i)).writeAt g.efs offset []) (fun n _ => n = 0)
      ⟨s.view, []⟩ := by
    rw [FsOk.ofId_eq (show i < g.inodes by omega) (by omega)]
    simp only [Inode.writeAt, Inode.modifyDiskInode, wp_bind]
    apply wp_modifyCell (ok.lock inv.idle hi)
    simp only [wp_bind, wp_check, fits, true_and]
    have grown : Inode.increaseSize g.efs (UInt32.ofNat offset)
        (DiskInode.ofBlock (s.view (g.inodeBlock i)) (i % 4 * 128)) = _ :=
      increaseSize_wraps_eq large empty
    rw [List.length_nil, Nat.add_zero, grown, wp_pure, DiskInode.writeAt_nil, wp_pure,
      wp_pure, wp_pure]
    refine ⟨rfl, wp_flushAll rfl ?_⟩
    rw [wp_pure]
  obtain ⟨n, a, s', ran, -, rfl⟩ := inv.rel.run_of_wp onArray
  exact ⟨s', ran⟩

/-- A write of nothing depends on the offset only through its low bits. -/
theorem writeAt_nil_mod (file : Inode) (efs : EasyFileSystem) (offset : Nat) :
    file.writeAt efs offset [] = file.writeAt efs (offset % 2 ^ 32) [] := by
  have sizeEq : UInt32.ofNat (offset % 2 ^ 32) = UInt32.ofNat offset := by
    rw [← UInt32.toNat_inj, UInt32.toNat_ofNat', UInt32.toNat_ofNat', Nat.mod_mod]
  simp only [Inode.writeAt, List.length_nil, Nat.add_zero, sizeEq, DiskInode.writeAt_nil]

end FsInv

variable {g : Geometry} {size : Nat} {efs : EasyFileSystem} {created : List (String × Inode)}
  {s : CacheState Block}

/-- In every reachable file system with enough free blocks, `write_at` returns the length of its
buffer if and only if the range ends within the reach of the inode; or the buffer is empty and the
low bits of the offset are within the reach or, for an empty file, wrap when they are rounded up to
blocks. -/
theorem writeAt_returns_iff (reach : Reachable g size efs created s) {file : Inode}
    (mem : file ∈ created.map Prod.snd) (offset : Nat) (buf : List UInt8)
    (enough : blocksNeeded (file.contents s.view).length
      (max (file.contents s.view).length (offset + buf.length)) ≤ g.freeBlocks s.view) :
    (∃ s', run (machine size) (file.writeAt efs offset buf) s = some (buf.length, s')) ↔
      offset + buf.length ≤ maxSize ∨ (buf = [] ∧ (offset % 2 ^ 32 ≤ maxSize ∨
        (2 ^ 32 - 512 < offset % 2 ^ 32 ∧ file.contents s.view = []))) := by
  obtain ⟨entries, inv⟩ := reach.inv
  obtain ⟨i, pos, hi, rfl⟩ := inv.file_eq mem
  have contentsEq := inv.contents_ofId hi s.view
  have small : ((Inode.ofId g.efs (UInt32.ofNat i)).contents s.view).length ≤ maxSize := by
    rw [contentsEq, Geometry.file, length_contents]
    exact (inv.dir.fs.own.file i hi).small
  constructor
  · rintro ⟨s', ran⟩
    rw [inv.efsEq] at ran
    obtain ⟨s₁, d, s₂, s₃, rel, grown, written⟩ := inv.writeAt_parts hi ran
    by_cases empty : buf = []
    · subst empty
      refine .inr ⟨rfl, ?_⟩
      have limit := inv.increaseSize_limit hi rel grown
      rw [List.length_nil, Nat.add_zero, UInt32.toNat_ofNat'] at limit
      refine limit.imp_right fun wraps => ⟨wraps.1, ?_⟩
      rw [contentsEq, ← List.length_eq_zero_iff, Geometry.file, length_contents, wraps.2]
      rfl
    · exact .inl (writeAt_returned written fun none => empty (List.length_eq_zero_iff.mp none))
  · rintro (within | ⟨rfl, low | ⟨wraps, empty⟩⟩)
    · obtain ⟨s', ran, -⟩ := inv.writeAt mem offset buf ⟨max_le small within, enough⟩
      exact ⟨s', ran⟩
    · have can : CanWrite g (Inode.ofId g.efs (UInt32.ofNat i)) (offset % 2 ^ 32)
          ([] : List UInt8).length s.view := by
        refine ⟨max_le small low, (Nat.sub_le_sub_right (blocksFor_mono ?_) _).trans enough⟩
        have less := Nat.mod_le offset (2 ^ 32)
        omega
      obtain ⟨s', ran, -⟩ := inv.writeAt mem (offset % 2 ^ 32) [] can
      rw [FsInv.writeAt_nil_mod]
      exact ⟨s', ran⟩
    · rw [contentsEq, ← List.length_eq_zero_iff, Geometry.file, length_contents] at empty
      rw [inv.efsEq]
      exact inv.writeAt_wraps hi wraps (UInt32.toNat_inj.mp empty)

/-- The last byte that a file of the packed file system can have. -/
theorem writeAt_returns_iff_fuse :
    ∃ efs created s file, Reachable fuseGeometry 32768 efs created s ∧ file ∈ created.map Prod.snd ∧
    ∃ s', run (machine 32768) (file.writeAt efs (maxSize - 1) [7]) s = some (1, s') := by
  obtain ⟨s₀, s, file, -, -, reach, empty, free⟩ := fuseGeometry.exists_file
    (show fuseGeometry.total.toNat ≤ 32768 by decide) (by decide)
    (by rw [fuseGeometry_dataBlocks]; decide) "a" (by decide)
  have mem : file ∈ [("a", file)].map Prod.snd := by simp
  refine ⟨_, _, s, file, reach, mem, ?_⟩
  rw [fuseGeometry_dataBlocks] at free
  have enough : blocksNeeded (file.contents s.view).length
      (max (file.contents s.view).length (maxSize - 1 + 1)) ≤ fuseGeometry.freeBlocks s.view := by
    have needed : blocksNeeded 0 (max 0 (maxSize - 1 + 1)) = 16670 := by decide
    rw [empty, List.length_nil, needed]
    omega
  exact (writeAt_returns_iff reach mem (maxSize - 1) [7] enough).mpr (.inl (by decide))

/-- One byte further, there are blocks enough and the call does not return. -/
theorem writeAt_stops_fuse : ∃ efs created s file, Reachable fuseGeometry 32768 efs created s ∧
    file ∈ created.map Prod.snd ∧
    blocksNeeded (file.contents s.view).length
      (max (file.contents s.view).length (maxSize + 1)) ≤ fuseGeometry.freeBlocks s.view ∧
    ¬ ∃ s', run (machine 32768) (file.writeAt efs maxSize [7]) s = some (1, s') := by
  obtain ⟨s₀, s, file, -, -, reach, empty, free⟩ := fuseGeometry.exists_file
    (show fuseGeometry.total.toNat ≤ 32768 by decide) (by decide)
    (by rw [fuseGeometry_dataBlocks]; decide) "a" (by decide)
  have mem : file ∈ [("a", file)].map Prod.snd := by simp
  rw [fuseGeometry_dataBlocks] at free
  refine ⟨_, _, s, file, reach, mem, ?_, ?_⟩
  · have needed : blocksNeeded 0 (max 0 (maxSize + 1)) = 16672 := by decide
    rw [empty, List.length_nil, needed]
    omega
  · rintro ⟨s', ran⟩
    obtain ⟨entries, inv⟩ := reach.inv
    obtain ⟨i, pos, hi, rfl⟩ := inv.file_eq mem
    obtain ⟨s₁, d, s₂, s₃, -, -, written⟩ := inv.writeAt_parts hi ran
    have bound := writeAt_returned written (by decide)
    omega

end CoreFromDust.EasyFs
