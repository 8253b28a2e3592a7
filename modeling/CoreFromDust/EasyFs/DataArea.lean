import CoreFromDust.EasyFs.Proofs.Capacity

/-!
# Which blocks `alloc_data` hands out

The data bitmap is rounded up to whole blocks of 4096 bits, so it can have bits for blocks that
the file system does not have. Here `create` may be called with any parameters that it accepts, on a
device of any size.
-/

namespace CoreFromDust.EasyFs

open CoreFromDust.Lib CoreFromDust.Lib.CellProg DiskInode EasyFileSystem

/-- Calls of `alloc_data` and `dealloc_data` that returned, from the state `s₀` on, with the ids
that `alloc_data` handed out. -/
inductive DataCalls (size : Nat) (efs : EasyFileSystem) (s₀ : CacheState Block) :
    List UInt32 → CacheState Block → Prop
  | start : DataCalls size efs s₀ [] s₀
  | alloc {ids s id s'} : DataCalls size efs s₀ ids s →
      run (machine size) efs.allocData s = some (id, s') →
      DataCalls size efs s₀ (ids ++ [id]) s'
  | dealloc {ids s id u s'} : DataCalls size efs s₀ ids s →
      run (machine size) (efs.deallocData id) s = some (u, s') →
      DataCalls size efs s₀ ids s'

variable {size : Nat} {efs : EasyFileSystem}

/-! ## What `alloc_data` can return -/

/-- The number of bits of a bitmap that lie on the device. -/
def Bitmap.bitsOnDevice (size : Nat) (bm : Bitmap) : Nat :=
  min bm.blocks (size - bm.startBlockId) * 4096

theorem Bitmap.lt_bitsOnDevice {bm : Bitmap} {m : Nat} (small : m < bm.blocks * 4096)
    (onDevice : bm.startBlockId + m / 4096 < size) : m < bm.bitsOnDevice size := by
  have inBitmap : m / 4096 < bm.blocks := Nat.div_lt_of_lt_mul (by rwa [Nat.mul_comm])
  have both : m / 4096 < min bm.blocks (size - bm.startBlockId) :=
    Nat.lt_min.mpr ⟨inBitmap, Nat.lt_sub_iff_add_lt'.mpr onDevice⟩
  exact (Nat.div_lt_iff_lt_mul (by decide)).mp both

/-- The bit that the loop of `Bitmap::alloc` returns is one of the bitmap, in a block of the
device. -/
theorem Bitmap.allocLoop_returned (bm : Bitmap) {remaining blockId m : Nat}
    {s s' : CacheState Block} (inRange : CacheState.InRange size s)
    (ran : run (machine size) (bm.allocLoop remaining blockId) s = some (some m, s')) :
    m < (blockId + remaining) * 4096 ∧ bm.startBlockId + m / 4096 < size := by
  induction remaining generalizing blockId s with
  | zero =>
      have returned : some ((none : Option Nat), s) = some (some m, s') := ran
      simp at returned
  | succ remaining ih =>
      obtain ⟨pos, s₁, first, rest⟩ := run_do_some ran
      have onDevice := inRange.modifyCell first
      obtain ⟨b, s₂, r, s₃, inner, same⟩ := run_modifyCell_some first
      cases pos with
      | none =>
          have next : run (machine size) (bm.allocLoop remaining (blockId + 1)) s₁ =
            some (some m, s') := rest
          obtain ⟨later, found⟩ := ih (inRange.run first) next
          rw [Nat.add_assoc, Nat.add_comm 1] at later
          exact ⟨later, found⟩
      | some bit =>
          have returned : some (some bit, s₁) = some (some m, s') := rest
          simp only [Option.some.injEq, Prod.mk.injEq] at returned
          obtain ⟨rfl, -⟩ := returned
          cases found : Bitmap.allocIn b with
          | none =>
              rw [found] at inner
              have returned : some ((b, (none : Option Nat)), s₂) = some (r, s₃) := inner
              simp only [Option.some.injEq, Prod.mk.injEq] at returned
              rw [← returned.1] at same
              simp at same
          | some marked =>
              obtain ⟨b', n⟩ := marked
              obtain ⟨small, -⟩ := Bitmap.allocIn_some found
              rw [found] at inner
              have returned :
                  some ((b', some (blockId * blockBits + n)), s₂) = some (r, s₃) := inner
              simp only [Option.some.injEq, Prod.mk.injEq] at returned
              rw [← returned.1] at same
              simp only [Option.some.injEq, blockBits, blockSz, Nat.reduceMul] at same
              have block : bit / 4096 = blockId := by omega
              rw [block, Nat.add_comm bm.startBlockId]
              exact ⟨by omega, onDevice⟩

/-- `Bitmap::alloc` returns a bit that lies on the device. -/
theorem Bitmap.alloc_returned {bm : Bitmap} {s s' : CacheState Block} {m : Nat}
    (inRange : CacheState.InRange size s)
    (ran : run (machine size) bm.alloc s = some (some m, s')) : m < bm.bitsOnDevice size := by
  obtain ⟨below, onDevice⟩ := bm.allocLoop_returned inRange ran
  rw [Nat.zero_add] at below
  exact lt_bitsOnDevice below onDevice

/-- A bitmap with more blocks hands out the same bit, as long as the first ones have a clear one. -/
theorem Bitmap.allocLoop_more {σ : Type} {H : Handler Block σ} {bm wide : Bitmap}
    (start : wide.startBlockId = bm.startBlockId) (more : Nat)
    {remaining blockId m : Nat} {s s' : σ}
    (ran : run H (bm.allocLoop remaining blockId) s = some (some m, s')) :
    run H (wide.allocLoop (remaining + more) blockId) s = some (some m, s') := by
  induction remaining generalizing blockId s with
  | zero =>
      have returned : some ((none : Option Nat), s) = some (some m, s') := ran
      simp at returned
  | succ remaining ih =>
      obtain ⟨pos, s₁, first, rest⟩ := run_do_some ran
      rw [← start] at first
      rw [Nat.succ_add, allocLoop, run_do first]
      cases pos with
      | none => exact ih rest
      | some bit => exact rest

/-- The value that was unwrapped. -/
theorem run_unwrap_some {α γ σ : Type} {H : Handler Block σ} {o : Option α} {f : α → FsProg γ}
    {s s' : σ} {c : γ} (ran : run H (unwrap o >>= f) s = some (c, s')) :
    ∃ a, o = some a ∧ run H (f a) s = some (c, s') := by
  cases o with
  | none => exact absurd ran (by simp [unwrap, run, Bind.bind, CellProg.bind])
  | some a => exact ⟨a, rfl, ran⟩

/-- `alloc_data` returns the id of a bit that lies on the device. -/
theorem allocData_returned {s s' : CacheState Block} {id : UInt32}
    (inRange : CacheState.InRange size s)
    (ran : run (machine size) efs.allocData s = some (id, s')) :
    ∃ m, m < efs.dataBitmap.bitsOnDevice size ∧ id = UInt32.ofNat m + efs.dataAreaStartBlock := by
  obtain ⟨found, s₁, first, rest⟩ := run_do_some ran
  obtain ⟨m, rfl, rest⟩ := run_unwrap_some rest
  have returned : some (UInt32.ofNat m + efs.dataAreaStartBlock, s₁) = some (id, s') := rest
  simp only [Option.some.injEq, Prod.mk.injEq] at returned
  exact ⟨m, Bitmap.alloc_returned inRange first, returned.1.symm⟩

/-- The file system with a data bitmap of so many blocks. -/
def EasyFileSystem.withBitmapBlocks (efs : EasyFileSystem) (blocks : Nat) : EasyFileSystem :=
  { efs with dataBitmap := { efs.dataBitmap with blocks := blocks } }

namespace DataCalls

variable {s₀ s : CacheState Block} {ids : List UInt32}

theorem inRange (calls : DataCalls size efs s₀ ids s) (start : CacheState.InRange size s₀) :
    CacheState.InRange size s := by
  induction calls with
  | start => exact start
  | alloc _ ran ih => exact ih.run ran
  | dealloc _ ran ih => exact ih.run ran

/-- Every id that was handed out belongs to a bit on the device. -/
theorem returned (calls : DataCalls size efs s₀ ids s) (start : CacheState.InRange size s₀) :
    ∀ id ∈ ids, ∃ m, m < efs.dataBitmap.bitsOnDevice size ∧
      id = UInt32.ofNat m + efs.dataAreaStartBlock := by
  induction calls with
  | start => simp
  | alloc before ran ih =>
      intro id mem
      rcases List.mem_append.mp mem with old | last
      · exact ih id old
      · rw [List.mem_singleton.mp last]
        exact allocData_returned (before.inRange start) ran
  | dealloc _ _ ih => exact ih

/-- What is handed out from the first blocks of the bitmap is handed out from the whole bitmap. -/
theorem widen {blocks : Nat} (le : blocks ≤ efs.dataBitmap.blocks)
    (calls : DataCalls size (efs.withBitmapBlocks blocks) s₀ ids s) :
    DataCalls size efs s₀ ids s := by
  induction calls with
  | start => exact .start
  | alloc before ran ih =>
      refine ih.alloc ?_
      obtain ⟨found, s₁, first, rest⟩ := run_do_some ran
      obtain ⟨m, rfl, rest⟩ := run_unwrap_some rest
      have narrow :
          run (machine size) ((efs.withBitmapBlocks blocks).dataBitmap.allocLoop blocks 0) _ =
        some (some m, s₁) := first
      have same : efs.dataBitmap.startBlockId =
        (efs.withBitmapBlocks blocks).dataBitmap.startBlockId := rfl
      have wide := Bitmap.allocLoop_more same (efs.dataBitmap.blocks - blocks) narrow
      rw [Nat.add_sub_cancel' le] at wide
      rw [allocData, Bitmap.alloc, run_do wide]
      exact rest
  | dealloc before ran ih => exact ih.dealloc ran

/-- While a bit of the bitmap is clear, calls of `alloc_data` reach it in the end: each of them
takes the least clear bit. -/
theorem exists_bit (lock : efs.dataBitmap.startBlockId + efs.dataBitmap.blocks ≤ size)
    {m : Nat} (hm : m < efs.dataBitmap.blocks * 4096) {k : Nat} (hk : k ≤ m)
    (calls : DataCalls size efs s₀ ids s) (rel : CacheRel size ⟨s.view, []⟩ s)
    (clear : efs.dataBitmap.bit s.view m = false)
    (earlier : ∀ n, n < k → efs.dataBitmap.bit s.view n = true) :
    ∃ ids' s', DataCalls size efs s₀ ids' s' ∧
      UInt32.ofNat m + efs.dataAreaStartBlock ∈ ids' := by
  induction left : m - k using Nat.strong_induction_on generalizing k ids s with
  | _ left' ih =>
      have lockable : ∀ id, efs.dataBitmap.Within id →
          (⟨s.view, []⟩ : CellArray Block).Lockable size 15 id := by
        intro id within
        have high := within.2
        exact ⟨by omega, by simp, by simp⟩
      have onArray : wp (fsHandler size 15) efs.allocData
          (fun id a => a.held = [] ∧ ∃ n, id = UInt32.ofNat n + efs.dataAreaStartBlock ∧
            efs.dataBitmap.Marks s.view a.cells n) ⟨s.view, []⟩ := by
        rw [allocData, wp_bind]
        refine wp_mono (Bitmap.alloc_wp _ lockable) ?_
        rintro r a ⟨held, found⟩
        cases r with
        | none =>
            have set := found.2 m hm
            rw [clear] at set
            exact Bool.noConfusion set
        | some n =>
            simp only [wp_bind, wp_unwrap_some, wp_pure]
            exact ⟨held, n, rfl, found⟩
      obtain ⟨id, a, s', ran, rel', held, n, rfl, marks⟩ := rel.run_of_wp onArray
      rw [← rel'.view_eq] at marks
      have calls' := calls.alloc ran
      have le : n ≤ m := by
        by_contra above
        have set := marks.least m (by omega)
        rw [clear] at set
        exact Bool.noConfusion set
      have ge : k ≤ n := by
        by_contra below
        have set := earlier n (by omega)
        rw [marks.clear] at set
        exact Bool.noConfusion set
      by_cases last : n = m
      · subst last
        exact ⟨_, s', calls', by simp⟩
      · refine ih (m - (n + 1)) (by omega) (k := n + 1) (by omega) calls' (rel'.idle held) ?_ ?_ rfl
        · rw [marks.bits m hm, clear, decide_eq_false (Ne.symm last)]
          rfl
        · intro b hb
          rw [marks.bits b (by omega), Bool.or_eq_true, decide_eq_true_eq]
          by_cases same : b = n
          · exact .inr same
          · exact .inl (marks.least b (by omega))

end DataCalls

/-! ## The bitmap that `create` leaves -/

/-- Bits behind a patch are not changed by it. -/
theorem Block.bit_patch (b : Block) {off len n : Nat} (f : Nat → UInt8)
    (behind : off + len ≤ 8 * (n / 64)) : (b.patch off len f).bit n = b.bit n := by
  rw [Block.bit, Block.u64, Block.leValue_patch_disjoint b 8 off len _ f (.inr behind), Block.bit,
    Block.u64]

/-- A super block has only its own bytes. -/
theorem SuperBlock.bit_toBlock (sb : SuperBlock) (b : Block) :
    (sb.toBlock b).bit 4095 = b.bit 4095 := by
  have behind : ∀ off, off ≤ 20 → off + 4 ≤ 8 * (4095 / 64) := by omega
  simp only [SuperBlock.toBlock, Block.setU32]
  rw [Block.bit_patch _ _ (behind 20 (by decide)), Block.bit_patch _ _ (behind 16 (by decide)),
    Block.bit_patch _ _ (behind 12 (by decide)), Block.bit_patch _ _ (behind 8 (by decide)),
    Block.bit_patch _ _ (behind 4 (by decide)), Block.bit_patch _ _ (behind 0 (by decide))]

/-- `alloc_inode` when the first block of the inode bitmap is zero. -/
theorem allocInode_first (efs : EasyFileSystem) {size cap : Nat} {s : CellArray Block}
    (lock : s.Lockable size cap efs.inodeBitmap.startBlockId) (some : 0 < efs.inodeBitmap.blocks)
    (zero : s.cells efs.inodeBitmap.startBlockId = Block.zero) :
    wp (fsHandler size cap) efs.allocInode (fun v s' => v = 0 ∧ s'.held = s.held ∧
      ∃ b : Block, s'.cells = Function.update s.cells efs.inodeBitmap.startBlockId b ∧
        b.bit 4095 = false) s := by
  obtain ⟨n, hn⟩ := Nat.exists_eq_succ_of_ne_zero some.ne'
  simp only [allocInode, Bitmap.alloc, hn, Bitmap.allocLoop, wp_bind, Nat.zero_add]
  apply wp_modifyCell lock
  rw [zero]
  cases found : Bitmap.allocIn Block.zero with
  | none =>
      have set := Bitmap.allocIn_none found (n := 0) (by decide)
      simp at set
  | some marked =>
      obtain ⟨b, m⟩ := marked
      obtain ⟨-, -, least, bits⟩ := Bitmap.allocIn_some found
      have first : m = 0 := by
        by_contra later
        have set := least 0 (by omega)
        simp at set
      subst first
      simp only [wp_pure, wp_unwrap_some, CellArray.hold_held, CellArray.hold_cells, true_and]
      refine ⟨rfl, b, rfl, ?_⟩
      rw [bits 4095]
      simp

/-- What the parameters of a call of `create` that returned satisfy. -/
structure Accepted (size : Nat) (total inodeBlocks : UInt32) : Prop where
  large : total.toNat ≤ size
  bitmap : 1 < size
  hasInodes : 0 < inodeBlocks.toNat
  root : (1 + inodeBlocks).toNat < size

theorem rootPos (total inodeBlocks : UInt32) :
    (layout total inodeBlocks).getDiskInodePos 0 = (1 + inodeBlocks, 0) :=
  Prod.ext (UInt32.add_zero _) rfl

/-- A call of `create` that returned. -/
theorem create_accepted {total inodeBlocks : UInt32} {device : Cells} {s : CacheState Block}
    (ran : run (machine size) (EasyFileSystem.create total inodeBlocks) (.fresh device) =
      some (efs, s)) : Accepted size total inodeBlocks ∧ efs = layout total inodeBlocks := by
  have start := CacheState.inRange_fresh size device
  simp only [EasyFileSystem.create, rootPos] at ran
  obtain ⟨u₁, s₁, zeroing, ran⟩ := run_do_some ran
  obtain ⟨u₂, s₂, super, ran⟩ := run_do_some ran
  obtain ⟨root, s₃, inode, ran⟩ := run_do_some ran
  obtain ⟨u₄, s₄, checked, ran⟩ := run_do_some ran
  obtain ⟨u₅, s₅, rootInit, ran⟩ := run_do_some ran
  obtain ⟨u₆, s₆, flushed, ran⟩ := run_do_some ran
  have inRange₁ := start.run zeroing
  have inRange₂ := inRange₁.run super
  have inRange₄ := (inRange₂.run inode).run checked
  obtain ⟨found, s₇, first, rest⟩ := run_do_some inode
  obtain ⟨m, rfl, -⟩ := run_unwrap_some rest
  have onDevice := Bitmap.alloc_returned inRange₂ first
  have hasBlock : 0 < min inodeBlocks.toNat (size - 1) :=
    Nat.pos_of_mul_pos_right ((Nat.zero_le m).trans_lt onDevice)
  have returned : some (layout total inodeBlocks, s₆) = some (efs, s) := ran
  simp only [Option.some.injEq, Prod.mk.injEq] at returned
  refine ⟨⟨?_, by omega, by omega, inRange₄.modifyCell rootInit⟩, returned.1.symm⟩
  have below := zeroBlocks_inRange (List.range total.toNat) start zeroing
  by_contra larger
  have last := below (total.toNat - 1) (List.mem_range.mpr (by omega))
  omega

section Created

variable {total inodeBlocks : UInt32} {device : Cells} {s : CacheState Block}

/-- `create` leaves the last bit of a block clear when it was, or when the block is one of the file
system. -/
theorem create_lastBits_wp {s : CellArray Block} (ok : Accepted size total inodeBlocks)
    (first : 1 < total.toNat ∨ s.cells 1 = Block.zero) (held : s.held = []) {cap : Nat}
    (room : 0 < cap) :
    wp (fsHandler size cap) (EasyFileSystem.create total inodeBlocks)
      (fun efs s' => s'.held = [] ∧ efs = layout total inodeBlocks ∧
        ∀ id, id < total.toNat ∨ (s.cells id).bit 4095 = false →
          (s'.cells id).bit 4095 = false) s := by
  simp only [EasyFileSystem.create, rootPos, wp_bind]
  refine wp_mono (zeroAll_wp ok.large room held) ?_
  rintro - s₁ ⟨held₁, zero, still⟩
  have clear₁ : ∀ id, id < total.toNat ∨ (s.cells id).bit 4095 = false →
      (s₁.cells id).bit 4095 = false := by
    intro id was
    rcases Nat.lt_or_ge id total.toNat with below | above
    · rw [zero id below, Block.bit_zero]
    · rw [still id above]
      exact was.resolve_left (Nat.not_lt.mpr above)
  have zero₁ : s₁.cells 1 = Block.zero := by
    rcases Nat.lt_or_ge 1 total.toNat with below | above
    · exact zero 1 below
    · rw [still 1 above]
      exact first.resolve_left (Nat.not_lt.mpr above)
  have device : 0 < size := (Nat.zero_lt_one).trans ok.bitmap
  apply wp_modifyCell (.of_held_nil held₁ room device)
  simp only [wp_pure, CellArray.hold_held, CellArray.hold_cells, true_and]
  generalize superEq : Function.update s₁.cells 0 _ = cells₂
  have zero₂ : cells₂ 1 = Block.zero := by
    rw [← superEq, Function.update_of_ne (by decide)]
    exact zero₁
  have clear₂ : ∀ id, id < total.toNat ∨ (s.cells id).bit 4095 = false →
      (cells₂ id).bit 4095 = false := by
    intro id was
    rw [← superEq]
    by_cases isSuper : id = 0
    · subst isSuper
      rw [Function.update_self, SuperBlock.bit_toBlock]
      exact clear₁ 0 was
    · rw [Function.update_of_ne isSuper]
      exact clear₁ id was
  refine wp_mono (allocInode_first (layout total inodeBlocks)
    (.of_held_nil held₁ room ok.bitmap) ok.hasInodes zero₂) ?_
  rintro v s₃ ⟨rfl, held₃, b, cells₃, bit⟩
  rw [wp_check]
  refine ⟨rfl, ?_⟩
  rw [initInodeAt]
  apply wp_modifyCell (.of_held_nil (held₃.trans held₁) room ok.root)
  have fits : 0 + DiskInode.sizeOf ≤ blockSz := by decide
  simp only [wp_bind, wp_check, fits, wp_pure, true_and, CellArray.hold_held, CellArray.hold_cells]
  have clear₃ : ∀ id, id < total.toNat ∨ (s.cells id).bit 4095 = false →
      (s₃.cells id).bit 4095 = false := by
    intro id was
    have marked : s₃.cells = Function.update cells₂ 1 b := cells₃
    rw [marked]
    by_cases isBitmap : id = 1
    · rw [isBitmap, Function.update_self, bit]
    · rw [Function.update_of_ne isBitmap]
      exact clear₂ id was
  refine wp_flushAll (held₃.trans held₁) ⟨held₃.trans held₁, fun id was => ?_⟩
  simp only
  by_cases root : id = (1 + inodeBlocks).toNat
  · subst root
    rw [Function.update_self, DiskInode.toBlock, Block.bit_patch _ _ (by decide)]
    exact clear₃ _ was
  · rw [Function.update_of_ne root]
    exact clear₃ id was

/-- `create` returns for all parameters that are accepted. -/
theorem Accepted.exists_run (ok : Accepted size total inodeBlocks) (device : Cells)
    (first : 1 < total.toNat ∨ device 1 = Block.zero) :
    ∃ efs s, run (machine size) (EasyFileSystem.create total inodeBlocks) (.fresh device) =
      some (efs, s) := by
  have rel : CacheRel size ⟨device, []⟩ (CacheState.fresh device) := CacheRel.fresh device
  obtain ⟨efs, -, s, ran, -⟩ := rel.run_of_wp (create_lastBits_wp ok first rfl (by decide))
  exact ⟨efs, s, ran⟩

/-- What `create` leaves behind when it returns. -/
theorem create_returned (accepted : run (machine size)
      (EasyFileSystem.create total inodeBlocks) (.fresh device) = some (efs, s))
    (first : 1 < total.toNat ∨ device 1 = Block.zero) :
    CacheRel size ⟨s.view, []⟩ s ∧
      ∀ id, id < total.toNat ∨ (device id).bit 4095 = false → (s.view id).bit 4095 = false := by
  have rel : CacheRel size ⟨device, []⟩ (CacheState.fresh device) := CacheRel.fresh device
  obtain ⟨r, a, t, ran, rel', held, -, clear⟩ := rel.run_of_wp
    (create_lastBits_wp (create_accepted accepted).1 first rfl (by decide))
  rw [accepted] at ran
  simp only [Option.some.injEq, Prod.mk.injEq] at ran
  obtain ⟨-, rfl⟩ := ran
  rw [← rel'.view_eq] at clear
  exact ⟨rel'.idle held, clear⟩

end Created

/-! ## The layout -/

section Layout

variable (size : Nat) (total inodeBlocks : UInt32)

/-- The bits of the data bitmap that lie on the device stand for blocks of the data area: they are
not more than the blocks from `data_area_start_block` to `total_blocks`. When the bitmap starts
behind the device there are none. -/
def BitmapFits : Prop :=
  (layout total inodeBlocks).dataBitmap.bitsOnDevice size ≤
    total.toNat - (layout total inodeBlocks).dataAreaStartBlock.toNat

instance : Decidable (BitmapFits size total inodeBlocks) := inferInstanceAs (Decidable (_ ≤ _))

theorem dataBitmapBlocks_small : 4096 * (dataBitmapBlocks total inodeBlocks).toNat < 2 ^ 32 := by
  rw [Geometry.dataBitmapBlocks_toNat]
  omega

variable {size total inodeBlocks}

/-- Where the arithmetic of `create` does not wrap, the bitmap fits when it is not rounded up. -/
theorem bitmapFits_iff (g : Geometry) (large : g.total.toNat ≤ size) :
    BitmapFits size g.total g.inodeBlocks ↔
      4097 * g.bitmapBlocks ≤ (dataTotalBlocks g.total g.inodeBlocks).toNat := by
  have bitmap : (layout g.total g.inodeBlocks).dataBitmap = ⟨g.bitmapStart, g.bitmapBlocks⟩ :=
    g.efs_dataBitmap
  have area : (layout g.total g.inodeBlocks).dataAreaStartBlock.toNat = g.dataStart :=
    g.efs_dataStart
  have le := g.dataStart_le
  have all : min g.bitmapBlocks (size - g.bitmapStart) = g.bitmapBlocks := by
    apply Nat.min_eq_left
    unfold Geometry.dataStart at le
    omega
  rw [BitmapFits, Bitmap.bitsOnDevice, bitmap, area, all, g.dataTotalBlocks_toNat]
  unfold Geometry.dataStart at le ⊢
  omega

/-- The ids of the bits of a bitmap that fits. -/
theorem id_onDevice (fits : BitmapFits size total inodeBlocks) {m : Nat}
    (hm : m < (layout total inodeBlocks).dataBitmap.bitsOnDevice size) :
    (layout total inodeBlocks).dataAreaStartBlock ≤
        UInt32.ofNat m + (layout total inodeBlocks).dataAreaStartBlock ∧
      UInt32.ofNat m + (layout total inodeBlocks).dataAreaStartBlock < total := by
  have small := total.toNat_lt
  unfold BitmapFits at fits
  rw [UInt32.le_iff_toNat_le, UInt32.lt_iff_toNat_lt, UInt32.toNat_add, UInt32.toNat_ofNat']
  omega

/-- The last bit on the device of a bitmap that does not fit. -/
theorem last_outside (more : ¬ BitmapFits size total inodeBlocks) :
    ¬ ((layout total inodeBlocks).dataAreaStartBlock ≤
        UInt32.ofNat ((layout total inodeBlocks).dataBitmap.bitsOnDevice size - 1) +
          (layout total inodeBlocks).dataAreaStartBlock ∧
      UInt32.ofNat ((layout total inodeBlocks).dataBitmap.bitsOnDevice size - 1) +
          (layout total inodeBlocks).dataAreaStartBlock < total) := by
  have small := total.toNat_lt
  have start := (layout total inodeBlocks).dataAreaStartBlock.toNat_lt
  have narrow := dataBitmapBlocks_small total inodeBlocks
  have bits : (layout total inodeBlocks).dataBitmap.bitsOnDevice size ≤
      (dataBitmapBlocks total inodeBlocks).toNat * 4096 :=
    Nat.mul_le_mul_right _ (Nat.min_le_left _ _)
  unfold BitmapFits at more
  rw [UInt32.le_iff_toNat_le, UInt32.lt_iff_toNat_lt, UInt32.toNat_add, UInt32.toNat_ofNat']
  omega

end Layout

/-! ## The blocks that are handed out -/

/-- In every sequence of calls, `alloc_data` hands out blocks of the data area. -/
def DataOnDevice (size : Nat) (total : UInt32) (efs : EasyFileSystem)
    (s : CacheState Block) : Prop :=
  ∀ ids s', DataCalls size efs s ids s' → ∀ id ∈ ids, efs.dataAreaStartBlock ≤ id ∧ id < total

variable {total inodeBlocks : UInt32} {device : Cells} {s : CacheState Block}

theorem dataOnDevice_of_fits (accepted : run (machine size)
      (EasyFileSystem.create total inodeBlocks) (.fresh device) = some (efs, s))
    (fits : BitmapFits size total inodeBlocks) : DataOnDevice size total efs s := by
  intro ids s' calls id mem
  have start := (CacheState.inRange_fresh size device).run accepted
  obtain ⟨m, hm, rfl⟩ := calls.returned start id mem
  obtain ⟨-, rfl⟩ := create_accepted accepted
  exact id_onDevice fits hm

/-- When the bitmap does not fit, and the last bits of its blocks on the device are clear, some
sequence of calls hands out the last bit on the device. -/
theorem exists_outside (more : ¬ BitmapFits size total inodeBlocks)
    (rel : CacheRel size ⟨s.view, []⟩ s)
    (clear : ∀ id, (layout total inodeBlocks).dataBitmap.Within id → id < size →
      (s.view id).bit 4095 = false) :
    ∃ ids s', DataCalls size (layout total inodeBlocks) s ids s' ∧
      ∃ id ∈ ids, ¬ ((layout total inodeBlocks).dataAreaStartBlock ≤ id ∧ id < total) := by
  generalize isEfs : layout total inodeBlocks = efs at clear
  -- the blocks of the bitmap that lie on the device
  obtain ⟨blocks, isBlocks⟩ : ∃ blocks,
      blocks = min efs.dataBitmap.blocks (size - efs.dataBitmap.startBlockId) := ⟨_, rfl⟩
  have bits : efs.dataBitmap.bitsOnDevice size = blocks * 4096 := by rw [isBlocks]; rfl
  have some : 0 < blocks * 4096 := by
    rw [BitmapFits, isEfs, bits] at more
    omega
  have last : blocks * 4096 - 1 < (efs.withBitmapBlocks blocks).dataBitmap.blocks * 4096 :=
    Nat.sub_one_lt some.ne'
  have onDevice : (efs.withBitmapBlocks blocks).dataBitmap.startBlockId +
      (efs.withBitmapBlocks blocks).dataBitmap.blocks ≤ size := by
    simp only [EasyFileSystem.withBitmapBlocks]
    omega
  have lastClear :
      (efs.withBitmapBlocks blocks).dataBitmap.bit s.view (blocks * 4096 - 1) = false := by
    have isLast : (blocks * 4096 - 1) % 4096 = 4095 := by omega
    rw [Bitmap.bit, isLast]
    simp only [EasyFileSystem.withBitmapBlocks]
    refine clear _ ⟨Nat.le_add_right _ _, ?_⟩ ?_
    · omega
    · omega
  obtain ⟨ids, s', calls, mem⟩ :=
    DataCalls.exists_bit onDevice last (Nat.zero_le _) .start rel lastClear (by omega)
  have le : blocks ≤ efs.dataBitmap.blocks := by omega
  refine ⟨ids, s', calls.widen le, _, mem, ?_⟩
  have outside := last_outside more
  rw [isEfs, bits] at outside
  exact outside

/-- For all parameters that `create` accepts, on devices of any size: `alloc_data` hands out blocks
of the data area in all sequences of calls, whatever the device had on it, if and only if the bits
of the data bitmap that lie on the device are not more than the blocks of the data area. Where the
arithmetic of `create` does not wrap, it does so for each content of the device if and only if the
bitmap is not rounded up. -/
theorem allocData_onDevice_iff (accepted : run (machine size)
      (EasyFileSystem.create total inodeBlocks) (.fresh device) = some (efs, s)) :
    ((∀ device efs s, run (machine size) (EasyFileSystem.create total inodeBlocks) (.fresh device) =
        some (efs, s) → DataOnDevice size total efs s) ↔ BitmapFits size total inodeBlocks) ∧
      (1 + 1025 * inodeBlocks.toNat ≤ total.toNat →
        (DataOnDevice size total efs s ↔ 4097 * (dataBitmapBlocks total inodeBlocks).toNat ≤
          (dataTotalBlocks total inodeBlocks).toNat)) := by
  obtain ⟨ok, isLayout⟩ := create_accepted accepted
  refine ⟨⟨fun holds => ?_, fun fits _ _ _ accepted => dataOnDevice_of_fits accepted fits⟩,
    fun exact => (Iff.intro (fun holds => ?_) (dataOnDevice_of_fits accepted)).trans
      (bitmapFits_iff ⟨total, inodeBlocks, exact⟩ ok.large)⟩
  · -- a device without a set bit
    by_contra more
    obtain ⟨efs, s, ran⟩ := ok.exists_run (fun _ => Block.zero) (.inr rfl)
    obtain ⟨rel, clear⟩ := create_returned ran (.inr rfl)
    obtain ⟨-, rfl⟩ := create_accepted ran
    obtain ⟨ids, s', calls, id, mem, outside⟩ :=
      exists_outside more rel fun id _ _ => clear id (.inr (Block.bit_zero _))
    exact outside (holds _ _ _ ran ids s' calls id mem)
  · by_contra more
    have hasInodes := ok.hasInodes
    have first : 1 < total.toNat := by omega
    obtain ⟨rel, clear⟩ := create_returned accepted (.inl first)
    subst isLayout
    let g : Geometry := ⟨total, inodeBlocks, exact⟩
    have bitmap : (layout total inodeBlocks).dataBitmap = ⟨g.bitmapStart, g.bitmapBlocks⟩ :=
      g.efs_dataBitmap
    obtain ⟨ids, s', calls, id, mem, outside⟩ := exists_outside more rel fun id within _ => by
      -- the bitmap lies in front of the data area
      rw [bitmap] at within
      exact clear id (.inl (within.2.trans_le g.dataStart_le))
    exact outside (holds ids s' calls id mem)

/-- A device of 8192 blocks, of which the file system has 5123: they are filled exactly by the data
bitmap and the data area. -/
theorem allocData_onDevice_iff_full : ∃ efs s,
    run (machine 8192) (EasyFileSystem.create 5123 1) (.fresh fun _ => Block.zero) = some (efs, s) ∧
      DataOnDevice 8192 5123 efs s := by
  have ok : Accepted 8192 5123 1 := ⟨by decide, by decide, by decide, by decide⟩
  obtain ⟨efs, s, ran⟩ := ok.exists_run (fun _ => Block.zero) (.inr rfl)
  exact ⟨efs, s, ran, ((allocData_onDevice_iff ran).2 (by decide)).mpr (by decide)⟩

/-- On the device that `easy-fs-fuse` formats, the bitmap has bits for more blocks than there
are, and `alloc_data` comes to hand one of them out. -/
theorem allocData_outside_fuse : ∃ efs s ids s',
    run (machine (UInt32.toNat 32768)) (EasyFileSystem.create 32768 1)
      (.fresh fun _ => Block.zero) = some (efs, s) ∧
      DataCalls (UInt32.toNat 32768) efs s ids s' ∧
      ∃ id ∈ ids, ¬ (efs.dataAreaStartBlock ≤ id ∧ id < 32768) := by
  have ok : Accepted (UInt32.toNat 32768) 32768 1 := ⟨by decide, by decide, by decide, by decide⟩
  obtain ⟨efs, s, ran⟩ := ok.exists_run (fun _ => Block.zero) (.inr rfl)
  obtain ⟨rel, clear⟩ := create_returned ran (.inr rfl)
  obtain ⟨-, rfl⟩ := create_accepted ran
  have more : ¬ BitmapFits (UInt32.toNat 32768) 32768 1 := by decide
  obtain ⟨ids, s', calls, outside⟩ :=
    exists_outside more rel fun id _ _ => clear id (.inr (Block.bit_zero _))
  exact ⟨_, s, ids, s', ran, calls, outside⟩

end CoreFromDust.EasyFs
