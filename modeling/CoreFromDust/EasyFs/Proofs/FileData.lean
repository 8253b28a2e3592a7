import CoreFromDust.EasyFs.Proofs.IncreaseSize

/-!
# The data of a file

`fileByte` is byte `p` of a file as its pointer tree says. `read_at` returns these bytes and
`write_at` changes exactly those it is given; both go block by block. `clear_size` returns the
ids in all slots of the file.
-/

namespace CoreFromDust.EasyFs

open CoreFromDust.Lib CoreFromDust.Lib.CellProg Slot

namespace DiskInode

variable {size cap : Nat}

/-- The id of data block `k`. -/
def blockOf (ino : DiskInode) (cells : Cells) (k : Nat) : Nat := (ino.ptr cells (dataSlot k)).toNat

/-- Byte `p` of a file. -/
def fileByte (ino : DiskInode) (cells : Cells) (p : Nat) : UInt8 :=
  (cells (ino.blockOf cells (p / 512))).byte (p % 512)

/-- `get_block_id` reads the slot of the data block. -/
theorem getBlockId_wp (ino : DiskInode) {n k : Nat} (hk : k < n) (small : n ≤ 16540)
    (s : CellArray Block)
    (index : ∀ p ∈ slots n, p.isIndex = true → s.Lockable size cap (ino.ptr s.cells p).toNat) :
    wp (fsHandler size cap) (ino.getBlockId k)
      (fun r s' => r = ino.ptr s.cells (dataSlot k) ∧ s' = s) s := by
  have present : ∀ p, Present n p → p.isIndex = true →
      s.Lockable size cap (ino.ptr s.cells p).toNat := fun p h => index p (mem_slots.mpr h)
  unfold getBlockId dataSlot
  simp only [inodeDirectCount, indirect1Bound_eq, inodeIndirect1Count_eq]
  split_ifs with direct single
  · simp [Vector.getElem?_eq_getElem (show k < inodeDirectCount from direct), ptr]
  · apply wp_viewCell (present .indirect1 (by simp only [Present]; omega) rfl)
    have inside : k - 28 < 128 := by omega
    simp [entry, inodeIndirect1Count_eq, inside, ptr]
  · have outer : (k - 156) / 128 < 128 := by omega
    have inner : (k - 156) % 128 < 128 := by omega
    simp only [wp_bind]
    apply wp_viewCell (present .indirect2 (by simp only [Present]; omega) rfl)
    simp only [entry, inodeIndirect1Count_eq, wp_bind, wp_check, outer, wp_pure, true_and,
      CellArray.hold_held, CellArray.hold_cells]
    apply wp_viewCell (present (.sub ((k - 156) / 128)) (by simp only [Present]; omega) rfl)
    simp [inner, ptr]

/-! ## Reading -/

theorem slice_eq (ino : DiskInode) (cells : Cells) {start len : Nat}
    (fits : start % 512 + len ≤ 512) :
    slice (cells (ino.blockOf cells (start / 512))) (start % 512) len =
      (List.range' start len).map (ino.fileByte cells) := by
  unfold slice
  rw [List.range'_eq_map_range, List.map_map]
  apply List.map_congr_left
  intro i hi
  have hi : i < len := List.mem_range.mp hi
  rw [Function.comp_apply, fileByte, show (start + i) / 512 = start / 512 by omega,
    show (start + i) % 512 = start % 512 + i by omega]

@[simp] theorem length_spliceAt {buf : List UInt8} {pos : Nat} {src : List UInt8}
    (fits : pos + src.length ≤ buf.length) : (spliceAt buf pos src).length = buf.length := by
  simp only [spliceAt, List.length_append, List.length_take, List.length_drop]
  omega

/-- Two adjacent copies into a buffer are one. -/
theorem spliceAt_spliceAt {buf : List UInt8} {pos : Nat} (xs ys : List UInt8)
    (fits : pos + xs.length ≤ buf.length) :
    spliceAt (spliceAt buf pos xs) (pos + xs.length) ys = spliceAt buf pos (xs ++ ys) := by
  have lenTake : (buf.take pos).length = pos := by
    rw [List.length_take]
    omega
  have prefixLen : (buf.take pos ++ xs).length = pos + xs.length := by
    rw [List.length_append, lenTake]
  unfold spliceAt
  rw [List.take_left' prefixLen, List.append_assoc (buf.take pos ++ xs), List.drop_append]
  rw [List.drop_eq_nil_of_le (by omega), List.nil_append, prefixLen, List.drop_drop,
    List.length_append, ← List.append_assoc, ← List.append_assoc]
  congr 2
  omega

/-- The loop of `read_at` copies the bytes from `start` to `stop`. -/
theorem readLoop_wp (ino : DiskInode) (stop : Nat) {n : Nat} (small : n ≤ 16540)
    (inFile : stop ≤ n * 512)
    (s : CellArray Block) (index : ∀ p ∈ slots n, s.Lockable size cap (ino.ptr s.cells p).toNat)
    (fuel start readSize : Nat) (buf : List UInt8) (more : start < stop)
    (enough : stop - start ≤ fuel) (fits : readSize + (stop - start) ≤ buf.length) :
    wp (fsHandler size cap) (readLoop ino stop fuel start (start / 512) readSize buf)
      (fun r s' => s' = s ∧ r = (readSize + (stop - start), spliceAt buf readSize
        ((List.range' start (stop - start)).map (ino.fileByte s.cells)))) s := by
  induction fuel generalizing start readSize buf with
  | zero => omega
  | succ fuel ih =>
      have inBlock : start % 512 + (min ((start / 512 + 1) * 512) stop - start) ≤ 512 := by omega
      have room : readSize + (min ((start / 512 + 1) * 512) stop - start) ≤ buf.length := by omega
      have hk : start / 512 < n := by omega
      simp only [readLoop, blockSz, wp_bind, wp_check, room, true_and]
      refine wp_mono (getBlockId_wp ino hk small s fun p hp _ => index p hp) ?_
      rintro r s' ⟨rfl, rfl⟩
      apply wp_viewCell (index _ (mem_slots.mpr (present_dataSlot hk)))
      have bytes := slice_eq ino s'.cells inBlock
      unfold blockOf at bytes
      simp only [wp_bind, wp_check, inBlock, wp_pure, true_and, CellArray.hold_held,
        CellArray.hold_cells, bytes]
      split_ifs with last
      · rw [wp_pure, last]
        exact ⟨rfl, rfl⟩
      · generalize stopEq : min ((start / 512 + 1) * 512) stop = mid at *
        have next : mid / 512 = start / 512 + 1 := by omega
        have rest := ih mid (readSize + (mid - start)) (spliceAt buf readSize
          ((List.range' start (mid - start)).map (ino.fileByte s'.cells))) (by omega) (by omega)
          (by rw [length_spliceAt (by simpa using room)]; omega)
        rw [next] at rest
        refine wp_mono rest ?_
        rintro r s'' ⟨rfl, rfl⟩
        refine ⟨rfl, Prod.ext (by simp only; omega) ?_⟩
        have merged := spliceAt_spliceAt
          ((List.range' start (mid - start)).map (ino.fileByte s''.cells))
          ((List.range' mid (stop - mid)).map (ino.fileByte s''.cells)) (by simpa using room)
        simp only [List.length_map, List.length_range'] at merged
        simp only [merged, ← List.map_append]
        congr 2
        rw [show stop - start = (mid - start) + (stop - mid) by omega, ← List.range'_append_1,
          show start + (mid - start) = mid by omega]

/-- `read_at` copies the bytes of the file from `offset` on to the start of the buffer. -/
theorem readAt_wp (ino : DiskInode) {n : Nat} (small : n ≤ 16540)
    (inFile : ino.size.toNat ≤ n * 512) (s : CellArray Block)
    (index : ∀ p ∈ slots n, s.Lockable size cap (ino.ptr s.cells p).toNat)
    (offset : Nat) (buf : List UInt8) :
    wp (fsHandler size cap) (ino.readAt offset buf)
      (fun r s' => s' = s ∧ r = (min buf.length (ino.size.toNat - offset), spliceAt buf 0
        ((List.range' offset (min buf.length (ino.size.toNat - offset))).map
          (ino.fileByte s.cells)))) s := by
  simp only [readAt]
  split_ifs with past
  · rw [wp_pure, show min buf.length (ino.size.toNat - offset) = 0 by omega]
    simp [spliceAt]
  · have ran := readLoop_wp ino (min (offset + buf.length) ino.size.toNat) small
      (by omega) s index (min (offset + buf.length) ino.size.toNat - offset) offset 0 buf (by omega)
      (Nat.le_refl _) (by omega)
    refine wp_mono ran ?_
    rintro r s' ⟨rfl, rfl⟩
    rw [show min (offset + buf.length) ino.size.toNat - offset =
      min buf.length (ino.size.toNat - offset) by omega, Nat.zero_add]
    exact ⟨rfl, rfl⟩

/-! ## Writing -/

/-- Writing to the blocks of a file's data leaves its pointers alone. -/
theorem ptr_of_frame {ino : DiskInode} {cells cells' : Cells} {n : Nat}
    (tree : TreeOk (ino, cells) (slots n))
    (frame : ∀ id, (∀ k, k < n → ino.blockOf cells k ≠ id) → cells' id = cells id) :
    ∀ p ∈ slots n, ino.ptr cells' p = ino.ptr cells p := by
  apply TreeOk.ptr_congr tree.closed
  intro p hp isIndex
  apply frame
  intro k hk same
  have absurd := tree.inj (mem_slots.mpr (present_dataSlot hk)) hp same
  rw [← absurd, isIndex_dataSlot] at isIndex
  exact Bool.noConfusion isIndex

theorem blockOf_inj {ino : DiskInode} {cells : Cells} {n : Nat}
    (tree : TreeOk (ino, cells) (slots n)) {j k : Nat} (hj : j < n) (hk : k < n)
    (same : ino.blockOf cells j = ino.blockOf cells k) : j = k :=
  dataSlot_inj (tree.inj (mem_slots.mpr (present_dataSlot hj)) (mem_slots.mpr (present_dataSlot hk))
    same)

/-- What `write_at` does to the disk: the bytes from `start` to `stop` become `f`, all other
bytes of the file and all other blocks stay. -/
structure Writes (ino : DiskInode) (n : Nat) (cells cells' : Cells) (start stop : Nat)
    (f : Nat → UInt8) : Prop where
  bytes : ∀ p, p < n * 512 → ino.fileByte cells' p =
    if start ≤ p ∧ p < stop then f p else ino.fileByte cells p
  frame : ∀ id, (∀ k, k < n → ino.blockOf cells k ≠ id) → cells' id = cells id

/-- Overwriting a part of one data block. -/
theorem writes_patch {ino : DiskInode} {cells : Cells} {n : Nat}
    (tree : TreeOk (ino, cells) (slots n)) {start : Nat} (stop : Nat) (more : start < stop)
    (hk : start / 512 < n) (inBlock : stop ≤ (start / 512 + 1) * 512) (f : Nat → UInt8) :
    ino.Writes n cells (Function.update cells (ino.blockOf cells (start / 512))
      ((cells (ino.blockOf cells (start / 512))).patch (start % 512) (stop - start)
        fun i => f (start + i))) start stop f := by
  have frame : ∀ id, (∀ k, k < n → ino.blockOf cells k ≠ id) →
      Function.update cells (ino.blockOf cells (start / 512))
        ((cells (ino.blockOf cells (start / 512))).patch (start % 512) (stop - start)
          fun i => f (start + i)) id = cells id :=
    fun id other => Function.update_of_ne (other _ hk).symm _ _
  refine ⟨?_, frame⟩
  intro p hp
  have pos : p / 512 < n := by omega
  have samePtr := ptr_of_frame tree frame _ (mem_slots.mpr (present_dataSlot pos))
  have sameBlock : ino.blockOf (Function.update cells (ino.blockOf cells (start / 512))
      ((cells (ino.blockOf cells (start / 512))).patch (start % 512) (stop - start)
        fun i => f (start + i))) (p / 512) = ino.blockOf cells (p / 512) :=
    congrArg UInt32.toNat samePtr
  rw [fileByte, sameBlock, fileByte]
  by_cases same : p / 512 = start / 512
  · rw [same, Function.update_self, Block.byte_patch _ _ _ _ (by omega)]
    by_cases inside : start ≤ p ∧ p < stop
    · rw [if_pos (by omega), if_pos inside, show start + (p % 512 - start % 512) = p by omega]
    · rw [if_neg (by omega), if_neg inside]
  · rw [Function.update_of_ne (fun h => same (blockOf_inj tree pos hk h)), if_neg (by omega)]

/-- Two adjacent writes are one. -/
theorem Writes.trans {ino : DiskInode} {cells cells₁ cells₂ : Cells} {n start mid stop : Nat}
    {f : Nat → UInt8} (tree : TreeOk (ino, cells) (slots n)) (le : start ≤ mid) (le' : mid ≤ stop)
    (first : ino.Writes n cells cells₁ start mid f)
    (second : ino.Writes n cells₁ cells₂ mid stop f) : ino.Writes n cells cells₂ start stop f := by
  refine ⟨?_, ?_⟩
  · intro p hp
    rw [second.bytes p hp, first.bytes p hp]
    split_ifs <;> first | rfl | omega
  · intro id other
    rw [second.frame id, first.frame id other]
    intro k hk
    have same := ptr_of_frame tree first.frame _ (mem_slots.mpr (present_dataSlot hk))
    rw [blockOf, same]
    exact other k hk

/-- A write keeps the pointer tree. -/
theorem Writes.tree {ino : DiskInode} {cells cells' : Cells} {n start stop : Nat}
    {f : Nat → UInt8} (tree : TreeOk (ino, cells) (slots n))
    (writes : ino.Writes n cells cells' start stop f) : TreeOk (ino, cells') (slots n) := by
  refine ⟨?_, tree.closed⟩
  have same := ptr_of_frame tree writes.frame
  have ids : (slots n).map (fun p => (ino.ptr cells' p).toNat) =
      (slots n).map fun p => (ino.ptr cells p).toNat :=
    List.map_congr_left fun p hp => by rw [same p hp]
  simp only [ids]
  exact tree.distinct

/-- The loop of `write_at` writes the bytes from `start` to `stop`. -/
theorem writeLoop_wp (ino : DiskInode) (stop offset : Nat) {n : Nat} (small : n ≤ 16540)
    (inFile : stop ≤ n * 512) (buf : List UInt8) (fits : stop ≤ offset + buf.length)
    (fuel start : Nat) (s : CellArray Block) (tree : TreeOk (ino, s.cells) (slots n))
    (index : ∀ p ∈ slots n, s.Lockable size cap (ino.ptr s.cells p).toNat)
    (le : offset ≤ start) (more : start < stop) (enough : stop - start ≤ fuel) :
    wp (fsHandler size cap) (writeLoop ino stop buf fuel start (start - offset))
      (fun r s' => s'.held = s.held ∧ r = stop - offset ∧
        ino.Writes n s.cells s'.cells start stop fun p => buf.getD (p - offset) 0) s := by
  induction fuel generalizing start s with
  | zero => omega
  | succ fuel ih =>
      have inBlock : start % 512 + (min ((start / 512 + 1) * 512) stop - start) ≤ 512 := by omega
      have room : start - offset + (min ((start / 512 + 1) * 512) stop - start) ≤ buf.length := by
        omega
      have hk : start / 512 < n := by omega
      simp only [writeLoop, blockSz, wp_bind]
      refine wp_mono (getBlockId_wp ino hk small s fun p hp _ => index p hp) ?_
      rintro r s' ⟨rfl, rfl⟩
      apply wp_modifyCell (index _ (mem_slots.mpr (present_dataSlot hk)))
      simp only [wp_bind, wp_check, room, inBlock, wp_pure, true_and, CellArray.hold_held,
        CellArray.hold_cells]
      generalize stopEq : min ((start / 512 + 1) * 512) stop = mid at *
      have writes := writes_patch tree mid (by omega) hk (by omega)
        fun p => buf.getD (p - offset) 0
      have source : (fun i => buf.getD (start - offset + i) 0) =
          fun i => buf.getD (start + i - offset) 0 := by
        funext i
        rw [show start + i - offset = start - offset + i by omega]
      rw [source]
      unfold blockOf at writes
      generalize Function.update s'.cells _ _ = cells₁ at writes ⊢
      split_ifs with last
      · rw [wp_pure]
        subst last
        exact ⟨rfl, by omega, writes⟩
      · rw [show start - offset + (mid - start) = mid - offset by omega]
        have same := ptr_of_frame tree writes.frame
        refine wp_mono (ih mid ⟨cells₁, s'.held⟩ (writes.tree tree) ?_ (by omega) (by omega)
          (by omega)) ?_
        · intro p hp
          rw [same p hp]
          exact (index p hp).congr rfl
        · rintro r s'' ⟨heldEq, rfl, rest⟩
          exact ⟨heldEq, rfl, writes.trans tree (by omega) (by omega) rest⟩

/-- `write_at` within the size of the file. -/
theorem writeAt_wp (ino : DiskInode) {n : Nat} (small : n ≤ 16540)
    (inFile : ino.size.toNat ≤ n * 512) (s : CellArray Block)
    (tree : TreeOk (ino, s.cells) (slots n))
    (index : ∀ p ∈ slots n, s.Lockable size cap (ino.ptr s.cells p).toNat)
    (offset : Nat) (buf : List UInt8) (within : offset + buf.length ≤ ino.size.toNat) :
    wp (fsHandler size cap) (ino.writeAt offset buf)
      (fun r s' => s'.held = s.held ∧ r = buf.length ∧
        ino.Writes n s.cells s'.cells offset (offset + buf.length)
          fun p => buf.getD (p - offset) 0) s := by
  simp only [writeAt, Nat.min_eq_left within]
  split_ifs with empty
  · rw [wp_pure, show buf.length = 0 by omega]
    refine ⟨rfl, rfl, ?_, fun _ _ => rfl⟩
    intro p _
    rw [if_neg (by omega)]
  · have ran := writeLoop_wp ino (offset + buf.length) offset small (by omega)
      buf (Nat.le_refl _) (offset + buf.length - offset) offset s tree index (Nat.le_refl _)
      (by omega) (Nat.le_refl _)
    rw [Nat.sub_self] at ran
    refine wp_mono ran ?_
    rintro r s' ⟨heldEq, rfl, writes⟩
    exact ⟨heldEq, by omega, writes⟩

/-! ## Clearing -/

theorem collect_eq {α β γ : Type} {body : γ → CellProg β α} {f : γ → α} {l : List γ}
    (h : ∀ x ∈ l, body x = .ret (f x)) : collect body l = .ret (l.map f) := by
  induction l with
  | nil => rfl
  | cons x l ih =>
      rw [collect, h x List.mem_cons_self, ih fun y hy => h y (List.mem_cons_of_mem _ hy)]
      rfl

/-- The loop over the doubly indirect part collects the ids of the slots from `l` to `L`. -/
theorem clearIndirect2_wp (ino : DiskInode) {L : Nat} (small : L ≤ 16384) (s : CellArray Block)
    (sub : ∀ a, a * 128 < L → s.Lockable size cap (ino.ptr s.cells (.sub a)).toNat)
    (fuel l : Nat) (v : List UInt32) (curBlocks : Nat) (le : l ≤ L) (enough : L - l ≤ fuel) :
    wp (fsHandler size cap) (clearIndirect2 (s.cells ino.indirect2.toNat) (L / 128) (L % 128) fuel
        (l / 128) (l % 128) v curBlocks)
      (fun r s' => s' = s ∧
        r = (v ++ (tailFrom l L).map (ino.ptr s.cells), curBlocks + (L - l))) s := by
  induction fuel generalizing l v curBlocks with
  | zero =>
      have same : l = L := by omega
      subst same
      rw [clearIndirect2, if_neg (by omega), wp_pure]
      simp
  | succ fuel ih =>
      by_cases stop : l = L
      · subst stop
        rw [clearIndirect2, if_neg (by omega), wp_pure]
        simp
      · have go : l < L := by omega
        have ha : l / 128 < 128 := by omega
        have hb : l % 128 < 128 := by omega
        have next : (if l % 128 + 1 = inodeIndirect1Count then (l / 128 + 1, 0)
            else (l / 128, l % 128 + 1)) = ((l + 1) / 128, (l + 1) % 128) := by
          rw [inodeIndirect1Count_eq]
          split <;> simp only [Prod.mk.injEq] <;> omega
        rw [clearIndirect2, if_pos (by omega)]
        simp only [entry, inodeIndirect1Count_eq, wp_bind, wp_check, ha, wp_pure, true_and]
        have lock := sub (l / 128) (by omega)
        apply wp_viewCell lock
        simp only [wp_bind, wp_check, hb, wp_pure, true_and, CellArray.hold_held,
          CellArray.hold_cells]
        rw [inodeIndirect1Count_eq] at next
        simp only [next]
        refine wp_mono (ih (l + 1) _ _ (by omega) (by omega)) ?_
        rintro r s' ⟨rfl, rfl⟩
        refine ⟨rfl, ?_⟩
        rw [tailFrom_cons go, show curBlocks + 1 + (L - (l + 1)) = curBlocks + (L - l) by omega]
        by_cases first : l % 128 = 0
        · simp [tailSlots, first, ptr]
        · simp [tailSlots, first, ptr]

theorem ptr_direct (ino : DiskInode) (cells : Cells) {k : Nat} (h : k ≤ 28) :
    ((List.range' 0 k).map .direct).map (ino.ptr cells) = ino.direct.toList.take k := by
  apply List.ext_getElem
  · simp only [List.length_map, List.length_range', List.length_take, Vector.length_toList,
      inodeDirectCount]
    omega
  · intro i h₁ h₂
    simp only [List.length_map, List.length_range'] at h₁
    have inside : i < inodeDirectCount := Nat.lt_of_lt_of_le h₁ h
    simp [ptr, Vector.getElem?_eq_getElem inside]

/-- `clear_size` collects the ids in all slots of the file and resets the inode. -/
theorem clearSize_wp (ino : DiskInode) {n : Nat} (count : ino.dataBlocks.toNat = n)
    (small : n ≤ 16540) (s : CellArray Block) (tree : TreeOk (ino, s.cells) (slots n))
    (index : ∀ p ∈ slots n, Usable size cap s (ino.ptr s.cells p).toNat) :
    wp (fsHandler size cap) ino.clearSize
      (fun r s' => s' = s ∧ r = (init ino.type_, (slots n).map (ino.ptr s.cells))) s := by
  have inUse : ∀ p, Present n p → Usable size cap s (ino.ptr s.cells p).toNat :=
    fun p present => index p (mem_slots.mpr present)
  simp only [clearSize, count, inodeDirectCount, inodeIndirect1Count_eq, gt_iff_lt]
  by_cases direct : n ≤ 28
  · rw [if_neg (by omega), wp_pure, slots, slotsFrom_direct (Nat.zero_le n) direct,
      Nat.min_eq_right direct, Nat.sub_zero, ptr_direct ino _ direct]
    exact ⟨rfl, rfl⟩
  · rw [if_pos (by omega), Nat.min_eq_left (show 28 ≤ n by omega),
      ← ptr_direct ino s.cells (Nat.le_refl 28), slots,
      ← slotsFrom_append (Nat.zero_le 28) (show 28 ≤ n by omega),
      slotsFrom_direct (Nat.zero_le 28) (Nat.le_refl 28), slotsFrom_indirect_start (by omega)]
    simp only [wp_bind]
    apply wp_viewCell (inUse .indirect1 (by simp only [Present]; omega)).lock
    have entries : ∀ i ∈ List.range (min (n - 28) 128),
        entry (s.cells ino.indirect1.toNat) i = .ret (ino.ptr s.cells (.entry1 i)) := by
      intro i hi
      have inside : i < 128 := by
        have := List.mem_range.mp hi
        omega
      simp [entry, check, inodeIndirect1Count_eq, inside, ptr]
      rfl
    simp only [ptr] at entries
    simp only [ptr, collect_eq entries, wp_ret, true_and, CellArray.hold_held, CellArray.hold_cells]
    have listEq : (List.range (min (n - 28) 128)).map
        (fun i => (s.cells ino.indirect1.toNat).u32 (4 * i)) =
        ((List.range' 0 (min (n - 28) 128 - 0)).map .entry1).map (ino.ptr s.cells) := by
      rw [List.map_map, Nat.sub_zero, ← List.range_eq_range']
      rfl
    rw [listEq]
    by_cases single : n ≤ 156
    · rw [if_neg (by omega), wp_pure]
      refine ⟨rfl, ?_⟩
      simp [indirectFrom, show ¬ 128 < n - 28 by omega, show n - 28 - 128 = 0 by omega, ptr]
    · rw [if_pos (by omega)]
      simp only [wp_bind]
      apply wp_viewCell (inUse .indirect2 (by simp only [Present]; omega)).lock
      have sub : ∀ a, a * 128 < n - 28 - 128 → (s.hold ino.indirect2.toNat).Lockable size cap
          (ino.ptr (s.hold ino.indirect2.toNat).cells (.sub a)).toNat := by
        intro a ha
        have present : Present n (.sub a) := by
          simp only [Present]
          omega
        have present2 : Present n .indirect2 := by
          simp only [Present]
          omega
        refine (inUse _ present).lock_hold fun same => ?_
        have absurd := tree.inj (mem_slots.mpr present) (mem_slots.mpr present2) same
        simp at absurd
      have ran := clearIndirect2_wp ino (L := n - 28 - 128) (by omega) (s.hold ino.indirect2.toNat)
        sub (n - 28 - 128) 0
      simp only [Nat.zero_div, Nat.zero_mod] at ran
      refine wp_mono (ran _ _ (Nat.zero_le _) (by omega)) ?_
      rintro r s' ⟨rfl, rfl⟩
      simp only [wp_check, wp_pure, CellArray.hold_held, CellArray.hold_cells, true_and,
        Nat.zero_add, Nat.sub_zero]
      simp [indirectFrom, show 128 < n - 28 by omega, ptr]

end DiskInode

end CoreFromDust.EasyFs
