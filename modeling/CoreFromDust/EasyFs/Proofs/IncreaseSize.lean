import CoreFromDust.EasyFs.Proofs.PointerTree

/-!
# Growing a file

`increase_size` walks the three levels of pointers in three separate loops. Together they
fill exactly the slots `slotsFrom m n`, in that order, with the block ids they are given:
its effect on the inode and the disk is `assign`.
-/

namespace CoreFromDust.EasyFs

open CoreFromDust.Lib CoreFromDust.Lib.CellProg Slot

namespace DiskInode

variable {size cap : Nat}

/-! ## The slots of one level -/

/-- The slots that data block `l` of the doubly indirect part adds, without `indirect2`. -/
def tailSlots (l : Nat) : List Slot :=
  (if l % 128 = 0 then [.sub (l / 128)] else []) ++ [.entry2 (l / 128) (l % 128)]

/-- The slots of the data blocks from `k` to `l` of the doubly indirect part. -/
def tailFrom (k l : Nat) : List Slot := (List.range' k (l - k)).flatMap tailSlots

theorem newSlots_direct {k : Nat} (h : k < 28) : newSlots k = [.direct k] := by
  simp [newSlots, indexSlots, dataSlot, h, show k ≠ 28 by omega, show k ≠ 156 by omega,
    show ¬ 156 ≤ k by omega]

theorem newSlots_entry1 {k : Nat} (low : 28 < k) (high : k < 156) :
    newSlots k = [.entry1 (k - 28)] := by
  simp [newSlots, indexSlots, dataSlot, high, show ¬ k < 28 by omega, show k ≠ 28 by omega,
    show k ≠ 156 by omega, show ¬ 156 ≤ k by omega]

theorem newSlots_tail {k : Nat} (low : 156 < k) : newSlots k = tailSlots (k - 156) := by
  simp [newSlots, indexSlots, dataSlot, tailSlots, show ¬ k < 28 by omega, show k ≠ 28 by omega,
    show ¬ k < 156 by omega, show k ≠ 156 by omega, show 156 ≤ k by omega]

theorem tailFrom_cons {k l : Nat} (h : k < l) :
    tailFrom k l = tailSlots k ++ tailFrom (k + 1) l := by
  unfold tailFrom
  rw [show l - k = (l - (k + 1)) + 1 by omega, List.range'_succ, List.flatMap_cons]

@[simp] theorem tailFrom_self (k : Nat) : tailFrom k k = [] := by
  simp [tailFrom]

theorem slotsFrom_direct {m n : Nat} (mn : m ≤ n) (h : n ≤ 28) :
    slotsFrom m n = (List.range' m (n - m)).map .direct := by
  induction n, mn using Nat.le_induction with
  | base => simp
  | succ n mn ih =>
      rw [← slotsFrom_append mn (Nat.le_succ n), slotsFrom_succ, newSlots_direct (by omega),
        ih (by omega), show n + 1 - m = (n - m) + 1 by omega, List.range'_1_concat,
        List.map_append, show m + (n - m) = n by omega]
      rfl

theorem slotsFrom_entry1 {m n : Nat} (low : 28 < m) (mn : m ≤ n) (h : n ≤ 156) :
    slotsFrom m n = (List.range' (m - 28) (n - m)).map .entry1 := by
  induction n, mn using Nat.le_induction with
  | base => simp
  | succ n mn ih =>
      rw [← slotsFrom_append mn (Nat.le_succ n), slotsFrom_succ,
        newSlots_entry1 (by omega) (by omega), ih (by omega),
        show n + 1 - m = (n - m) + 1 by omega, List.range'_1_concat,
        List.map_append, show m - 28 + (n - m) = n - 28 by omega]
      rfl

theorem slotsFrom_indirect1 {n : Nat} (low : 28 < n) (h : n ≤ 156) :
    slotsFrom 28 n = .indirect1 :: (List.range' 0 (n - 28)).map .entry1 := by
  rw [slotsFrom_cons low, slotsFrom_entry1 (by omega) low h,
    show n - 28 = (n - (28 + 1)) + 1 by omega, List.range'_succ]
  rfl

theorem slotsFrom_tail {m n : Nat} (low : 156 < m) (mn : m ≤ n) :
    slotsFrom m n = tailFrom (m - 156) (n - 156) := by
  induction d : n - m generalizing m with
  | zero =>
      rw [show m = n by omega]
      simp
  | succ d ih =>
      rw [slotsFrom_cons (by omega), newSlots_tail low, ih (by omega) (by omega) (by omega),
        tailFrom_cons (show m - 156 < n - 156 by omega),
        show m + 1 - 156 = m - 156 + 1 by omega]

theorem slotsFrom_indirect2 {n : Nat} (low : 156 < n) :
    slotsFrom 156 n = .indirect2 :: tailFrom 0 (n - 156) := by
  rw [slotsFrom_cons low, slotsFrom_tail (by omega) low,
    tailFrom_cons (show 0 < n - 156 by omega)]
  rfl

/-- The slots of the data blocks from `c` to `n` after the direct part, without `indirect1`. -/
def indirectFrom (c n : Nat) : List Slot :=
  (List.range' c (min n 128 - c)).map .entry1 ++
    ((if c ≤ 128 ∧ 128 < n then [.indirect2] else []) ++ tailFrom (c - 128) (n - 128))

theorem slotsFrom_indirect {m n : Nat} (low : 28 < m) (mn : m ≤ n) :
    slotsFrom m n = indirectFrom (m - 28) (n - 28) := by
  unfold indirectFrom
  by_cases within : n ≤ 156
  · rw [slotsFrom_entry1 low mn within, if_neg (by omega),
      show min (n - 28) 128 - (m - 28) = n - m by omega,
      show m - 28 - 128 = 0 by omega, show n - 28 - 128 = 0 by omega]
    simp
  · by_cases beyond : 156 < m
    · rw [slotsFrom_tail beyond mn, if_neg (by omega),
        show min (n - 28) 128 - (m - 28) = 0 by omega, Nat.sub_sub, Nat.sub_sub]
      simp
    · rw [← slotsFrom_append (show m ≤ 156 by omega) (show 156 ≤ n by omega),
        slotsFrom_entry1 low (by omega) (by omega), slotsFrom_indirect2 (by omega),
        if_pos (by omega), show min (n - 28) 128 - (m - 28) = 156 - m by omega,
        show m - 28 - 128 = 0 by omega, Nat.sub_sub]
      simp

theorem slotsFrom_indirect_start {n : Nat} (low : 28 < n) :
    slotsFrom 28 n = .indirect1 :: indirectFrom 0 (n - 28) := by
  unfold indirectFrom
  by_cases within : n ≤ 156
  · rw [slotsFrom_indirect1 low within, if_neg (by omega),
      show min (n - 28) 128 - 0 = n - 28 by omega, show n - 28 - 128 = 0 by omega]
    simp
  · rw [← slotsFrom_append (show 28 ≤ 156 by omega) (show 156 ≤ n by omega),
      slotsFrom_indirect1 (by omega) (by omega), slotsFrom_indirect2 (by omega),
      if_pos (by omega), show min (n - 28) 128 - 0 = 128 by omega, Nat.sub_sub]
    simp

/-! ## The loops -/

theorem fillDirect_eq (cells : Cells) (rest : List UInt32) {n : Nat} (ws : List UInt32)
    (ino : DiskInode) (c : Nat) (h : ws.length = min n 28 - c) :
    fillDirect n ino c (ws ++ rest) =
        .ret ((assign (ino, cells) (((List.range' c ws.length).map .direct).zip ws)).1,
          max c (min n 28), rest) ∧
      (assign (ino, cells) (((List.range' c ws.length).map .direct).zip ws)).2 = cells ∧
      (assign (ino, cells) (((List.range' c ws.length).map .direct).zip ws)).1.indirect2 =
        ino.indirect2 := by
  induction ws generalizing ino c with
  | nil =>
      have stop : ¬ c < min n inodeDirectCount := by
        simp only [List.length_nil, inodeDirectCount] at h ⊢
        omega
      have count : max c (min n 28) = c := by
        simp only [List.length_nil] at h
        omega
      refine ⟨?_, rfl, rfl⟩
      rw [count]
      cases rest <;> simp [fillDirect, stop, assign] <;> rfl
  | cons w ws ih =>
      simp only [List.length_cons] at h
      have go : c < min n inodeDirectCount := by
        simp only [inodeDirectCount]
        omega
      have count : max c (min n 28) = max (c + 1) (min n 28) := by omega
      have rest := ih { ino with direct := ino.direct.setIfInBounds c w } (c + 1) (by omega)
      simp only [List.cons_append, fillDirect, go, if_true, List.length_cons, List.range'_succ,
        List.map_cons, List.zip_cons_cons, assign, setPtr, count]
      exact rest

/-- Consecutive entries of an index block written from position `c` on. -/
def setAll (b : Block) (c : Nat) : List UInt32 → Block
  | [] => b
  | w :: ws => setAll (b.setU32 (4 * c) w) (c + 1) ws

theorem fillIndirect1_eq (rest : List UInt32) {n : Nat} (ws : List UInt32) (b : Block) (c : Nat)
    (h : ws.length = min n 128 - c) :
    fillIndirect1 n b c (ws ++ rest) = .ret (setAll b c ws, max c (min n 128), rest) := by
  induction ws generalizing b c with
  | nil =>
      have stop : ¬ c < min n inodeIndirect1Count := by
        simp only [List.length_nil, inodeIndirect1Count_eq] at h ⊢
        omega
      have count : max c (min n 128) = c := by
        simp only [List.length_nil] at h
        omega
      rw [count]
      cases rest <;> simp [fillIndirect1, stop, setAll] <;> rfl
  | cons w ws ih =>
      simp only [List.length_cons] at h
      have go : c < min n inodeIndirect1Count := by
        simp only [inodeIndirect1Count_eq]
        omega
      have count : max c (min n 128) = max (c + 1) (min n 128) := by omega
      simp only [List.cons_append, fillIndirect1, go, if_true, setAll, count]
      exact ih _ _ (by omega)

theorem assign_entry1 (ino : DiskInode) (ws : List UInt32) (cells : Cells) (c : Nat) :
    assign (ino, cells) (((List.range' c ws.length).map .entry1).zip ws) =
      (ino, Function.update cells ino.indirect1.toNat
        (setAll (cells ino.indirect1.toNat) c ws)) := by
  induction ws generalizing cells c with
  | nil => simp [assign, setAll]
  | cons w ws ih =>
      simp only [List.length_cons, List.range'_succ, List.map_cons, List.zip_cons_cons, assign,
        setPtr, setEntry]
      rw [ih]
      simp [setAll]

theorem fillEntry_wp {b2 : Block} {a0 b0 : Nat} (new : UInt32) {s : CellArray Block}
    (ha : a0 < 128) (hb : b0 < 128) (lock : s.Lockable size cap (b2.u32 (4 * a0)).toNat) :
    wp (fsHandler size cap) (fillEntry b2 a0 b0 new)
      (fun _ s' => s' = ⟨setEntry s.cells (b2.u32 (4 * a0)) b0 new, s.held⟩) s := by
  simp only [fillEntry, entry, inodeIndirect1Count_eq, wp_bind, wp_check, ha, wp_pure, true_and]
  apply wp_modifyCell lock
  simp [hb, setEntry]

/-- Writing an entry of another block while the second-level block is held in memory. -/
theorem setEntry_update_comm (cells : Cells) {i2 : Nat} {id : UInt32} (b2 : Block) (i : Nat)
    (v : UInt32) (differ : id.toNat ≠ i2) :
    Function.update (setEntry cells id i v) i2 b2 =
    setEntry (Function.update cells i2 b2) id i v := by
  unfold setEntry
  rw [Function.update_of_ne differ, Function.update_comm differ.symm]

/-- The loop over the doubly indirect part fills the slots of the data blocks from `l` to `L`.
The second-level block is held and its contents are in memory, so on the disk they count as
`b2`. -/
theorem fillIndirect2_wp (ino : DiskInode) {L l : Nat} (le : l ≤ L) (small : L ≤ 16384)
    (vs : List UInt32) (b2 : Block) (s : CellArray Block)
    (len : (tailFrom l L).length = vs.length) (held : ino.indirect2.toNat ∈ s.held)
    (fresh : ∀ v ∈ vs, s.Lockable size cap v.toNat)
    (current : l < L → l % 128 ≠ 0 → s.Lockable size cap (b2.u32 (4 * (l / 128))).toNat) :
    wp (fsHandler size cap) (fillIndirect2 (L / 128) (L % 128) b2 (l / 128) (l % 128) vs)
      (fun b2' s' => s'.held = s.held ∧
        (ino, Function.update s'.cells ino.indirect2.toNat b2') =
          assign (ino, Function.update s.cells ino.indirect2.toNat b2)
          ((tailFrom l L).zip vs)) s := by
  induction d : L - l generalizing l vs b2 s with
  | zero =>
      have same : l = L := by omega
      subst same
      rw [fillIndirect2, if_neg (by omega), wp_pure]
      simp [assign]
  | succ d ih =>
      have go : l < L := by omega
      have ha : l / 128 < 128 := by omega
      have hb : l % 128 < 128 := by omega
      have next : (if l % 128 + 1 = inodeIndirect1Count then (l / 128 + 1, 0)
          else (l / 128, l % 128 + 1)) = ((l + 1) / 128, (l + 1) % 128) := by
        rw [inodeIndirect1Count_eq]
        split <;> simp only [Prod.mk.injEq] <;> omega
      rw [fillIndirect2, if_pos (by omega)]
      simp only [next]
      rw [tailFrom_cons go] at len ⊢
      have notSelf : ∀ {id : Nat}, s.Lockable size cap id → id ≠ ino.indirect2.toNat := by
        rintro id lock rfl
        exact lock.notHeld held
      by_cases first : l % 128 = 0
      · -- the first entry of a new sub block
        simp only [tailSlots, first, if_true, List.cons_append, List.nil_append,
          List.length_cons] at len ⊢
        obtain ⟨new, tail, rfl⟩ := List.exists_cons_of_length_eq_add_one len.symm
        rw [List.length_cons, Nat.add_right_cancel_iff] at len
        obtain ⟨data, rest, rfl⟩ := List.exists_cons_of_length_eq_add_one len.symm
        have newLock := fresh new List.mem_cons_self
        have entryIs : (b2.setU32 (4 * (l / 128)) new).u32 (4 * (l / 128)) = new := by
          rw [Block.u32_setU32 _ _ _ _ ha, if_pos rfl]
        simp only [wp_bind, wp_check, inodeIndirect1Count_eq, ha, true_and]
        refine wp_mono (fillEntry_wp data ha (by omega) (by rw [entryIs]; exact newLock)) ?_
        rintro - s' rfl
        refine wp_mono (ih (by omega) rest _ _ (by simpa using len) held
          (fun v hv => (fresh v (by simp [hv])).congr rfl) ?_ (by omega)) ?_
        · intro _ inside
          rw [show (l + 1) / 128 = l / 128 by omega, entryIs]
          exact newLock.congr rfl
        · rintro b2' s'' ⟨heldEq, effect⟩
          refine ⟨heldEq, effect.trans ?_⟩
          simp only [List.zip_cons_cons, assign, setPtr, ptr, entryIs]
          rw [setEntry_update_comm _ _ _ _ (notSelf newLock)]
          simp [setEntry, entryIs]
      · -- a further entry of the sub block that entry `l / 128` names
        simp only [tailSlots, first, if_false, List.nil_append, List.cons_append,
          List.length_cons] at len ⊢
        obtain ⟨data, rest, rfl⟩ := List.exists_cons_of_length_eq_add_one len.symm
        have lock := current go first
        simp only [wp_bind]
        refine wp_mono (fillEntry_wp data ha hb lock) ?_
        rintro - s' rfl
        refine wp_mono (ih (by omega) rest _ _ (by simpa using len) held
          (fun v hv => (fresh v (by simp [hv])).congr rfl) ?_ (by omega)) ?_
        · intro _ inside
          rw [show (l + 1) / 128 = l / 128 by omega]
          exact lock.congr rfl
        · rintro b2' s'' ⟨heldEq, effect⟩
          refine ⟨heldEq, effect.trans ?_⟩
          simp only [List.zip_cons_cons, assign, setPtr, ptr, Function.update_self]
          rw [setEntry_update_comm _ _ _ _ (notSelf lock)]

/-! ## The parts of `increase_size` -/

theorem increaseIndirect2_wp (ino : DiskInode) {L l : Nat} (le : l ≤ L) (small : L ≤ 16384)
    (vs : List UInt32) (s : CellArray Block) (len : (tailFrom l L).length = vs.length)
    (lock : s.Lockable size cap ino.indirect2.toNat)
    (fresh : ∀ v ∈ vs, (s.hold ino.indirect2.toNat).Lockable size cap v.toNat)
    (current : l < L → l % 128 ≠ 0 → (s.hold ino.indirect2.toNat).Lockable size cap
      (ino.ptr s.cells (.sub (l / 128))).toNat) :
    wp (fsHandler size cap) (increaseIndirect2 ino l L vs)
      (fun r s' => s'.held = s.held ∧
        (r, s'.cells) = assign (ino, s.cells) ((tailFrom l L).zip vs)) s := by
  simp only [increaseIndirect2, inodeIndirect1Count_eq, wp_bind, wp_pure]
  apply wp_modifyCell lock
  simp only [wp_bind, wp_pure]
  refine wp_mono (fillIndirect2_wp ino le small vs (s.cells ino.indirect2.toNat) _ len
    (s.hold_holds _) fresh current) ?_
  rintro b2 s' ⟨heldEq, effect⟩
  refine ⟨heldEq, trivial, ?_⟩
  rw [effect]
  simp

/-- The block exists, is not held, and two more blocks may be held. -/
structure Usable (size cap : Nat) (s : CellArray Block) (id : Nat) : Prop where
  inRange : id < size
  notHeld : id ∉ s.held
  room : s.held.length + 1 < cap

theorem Usable.lock {s : CellArray Block} {id : Nat} (h : Usable size cap s id) :
    s.Lockable size cap id :=
  ⟨h.inRange, h.notHeld, by have := h.room; omega⟩

theorem Usable.congr {s s' : CellArray Block} {id : Nat} (h : Usable size cap s id)
    (same : s'.held = s.held) : Usable size cap s' id :=
  ⟨h.inRange, same ▸ h.notHeld, same ▸ h.room⟩

/-- A usable block stays lockable while another one is held. -/
theorem Usable.lock_hold {s : CellArray Block} {id other : Nat} (h : Usable size cap s id)
    (differ : id ≠ other) : (s.hold other).Lockable size cap id := by
  refine ⟨h.inRange, ?_, ?_⟩
  · simp [differ, h.notHeld]
  · simpa using h.room

theorem increaseIndirect1_wp (ino : DiskInode) {c n : Nat} (le : c ≤ n) (small : n ≤ 16512)
    (vs : List UInt32) (s : CellArray Block) (len : (indirectFrom c n).length = vs.length)
    (lock1 : Usable size cap s ino.indirect1.toNat)
    (fresh : ∀ v ∈ vs, Usable size cap s v.toNat)
    (distinct : (vs.map UInt32.toNat).Nodup)
    (lock2 : Usable size cap s ino.indirect2.toNat)
    (old2 : 128 < c → ∀ v ∈ vs, v.toNat ≠ ino.indirect2.toNat)
    (sub : 128 < c → c < n → (c - 128) % 128 ≠ 0 →
      (ino.ptr s.cells (.sub ((c - 128) / 128))).toNat ≠ ino.indirect2.toNat ∧
      Usable size cap s (ino.ptr s.cells (.sub ((c - 128) / 128))).toNat) :
    wp (fsHandler size cap) (increaseIndirect1 ino c n vs)
      (fun r s' => s'.held = s.held ∧
        (r, s'.cells) = assign (ino, s.cells) ((indirectFrom c n).zip vs)) s := by
  -- the ids for the singly indirect part come first
  obtain ⟨ws, rest, rfl, wsLen⟩ : ∃ ws rest, vs = ws ++ rest ∧ ws.length = min n 128 - c := by
    refine ⟨vs.take (min n 128 - c), vs.drop (min n 128 - c), by simp, ?_⟩
    rw [List.length_take, ← len, indirectFrom, List.length_append, List.length_map,
      List.length_range']
    omega
  have restLen : ((if c ≤ 128 ∧ 128 < n then [Slot.indirect2] else []) ++
      tailFrom (c - 128) (n - 128)).length = rest.length := by
    simp only [indirectFrom, List.length_append, List.length_map, List.length_range',
      wsLen] at len ⊢
    omega
  have split : (indirectFrom c n).zip (ws ++ rest) =
      ((List.range' c ws.length).map .entry1).zip ws ++
        ((if c ≤ 128 ∧ 128 < n then [Slot.indirect2] else []) ++
          tailFrom (c - 128) (n - 128)).zip rest := by
    rw [indirectFrom, ← wsLen, List.zip_append (by simp)]
  rw [split, assign_append, assign_entry1]
  simp only [increaseIndirect1, inodeIndirect1Count_eq, wp_bind]
  apply wp_modifyCell lock1.lock
  simp only [fillIndirect1_eq rest ws _ c wsLen, wp_ret, CellArray.hold_held,
    CellArray.hold_cells, true_and]
  generalize cellsEq : Function.update s.cells ino.indirect1.toNat
    (setAll (s.cells ino.indirect1.toNat) c ws) = cells₁
  have after : ∀ {id}, Usable size cap s id → Usable size cap ⟨cells₁, s.held⟩ id :=
    fun h => h.congr rfl
  have restFresh : ∀ v ∈ rest, Usable size cap ⟨cells₁, s.held⟩ v.toNat :=
    fun v hv => after (fresh v (List.mem_append_right _ hv))
  by_cases beyond : 128 < n
  · by_cases old : 128 < c
    · -- all slots are in the doubly indirect part
      have none : ws = [] := List.length_eq_zero_iff.mp (by omega)
      subst none
      have same : cells₁ = s.cells := by
        rw [← cellsEq]
        simp [setAll]
      subst same
      have apart := old2 old
      simp only [gt_iff_lt, beyond, if_true, show max c (min n 128) = c by omega,
        show c ≠ 128 by omega, if_false, show ¬ c ≤ 128 by omega, false_and,
        List.nil_append] at restLen ⊢
      refine increaseIndirect2_wp ino (by omega) (by omega) rest ⟨s.cells, s.held⟩ restLen
        (after lock2).lock (fun v hv => (restFresh v hv).lock_hold (apart v hv)) ?_
      intro more inside
      obtain ⟨differ, usable⟩ := sub old (by omega) inside
      exact (after usable).lock_hold differ
    · -- the doubly indirect part starts here
      simp only [gt_iff_lt, beyond, if_true, show max c (min n 128) = 128 by omega,
        show c ≤ 128 by omega, and_self, Nat.sub_self, show c - 128 = 0 by omega,
        List.cons_append, List.nil_append, List.length_cons] at restLen ⊢
      obtain ⟨new, rest, rfl⟩ := List.exists_cons_of_length_eq_add_one restLen.symm
      simp only [takeNext, wp_bind, wp_pure, List.zip_cons_cons, assign, setPtr]
      have newUsable := restFresh new List.mem_cons_self
      have newApart : ∀ v ∈ rest, v.toNat ≠ new.toNat := by
        rw [List.map_append, List.map_cons] at distinct
        have cut := (List.nodup_cons.mp (List.nodup_append.mp distinct).2.1).1
        intro v hv same
        exact cut (List.mem_map.mpr ⟨v, hv, same⟩)
      refine increaseIndirect2_wp { ino with indirect2 := new } (by omega) (by omega) rest
        ⟨cells₁, s.held⟩ (by simpa using restLen) newUsable.lock ?_ (by omega)
      intro v hv
      exact (restFresh v (List.mem_cons_of_mem _ hv)).lock_hold (newApart v hv)
  · -- the file has no doubly indirect part, but block `indirect2` is opened all the same
    simp only [gt_iff_lt, beyond, if_false, show max c (min n 128) = n by omega, and_false,
      show c - 128 = 0 by omega, show n - 128 = 0 by omega, tailFrom_self, List.append_nil,
      List.length_nil] at restLen ⊢
    have none : rest = [] := List.length_eq_zero_iff.mp restLen.symm
    subst none
    have ran := increaseIndirect2_wp ino (Nat.le_refl n) (by omega) [] ⟨cells₁, s.held⟩ (by simp)
      (after lock2).lock (by simp) (by omega)
    simpa using ran

theorem ptr_with_size (ino : DiskInode) (newSize : UInt32) (cells : Cells) (slot : Slot) :
    { ino with size := newSize }.ptr cells slot = ino.ptr cells slot := by
  cases slot <;> rfl

/-- `increase_size` fills the slots of the data blocks from `m` to `n` in turn. -/
theorem increaseSize_wp (ino : DiskInode) (newSize : UInt32) {m n : Nat}
    (before : ino.dataBlocks.toNat = m) (after : (dataBlocksOf newSize).toNat = n)
    (mn : m ≤ n) (small : n ≤ 16540) (vs : List UInt32) (s : CellArray Block)
    (len : (slotsFrom m n).length = vs.length)
    (fresh : ∀ v ∈ vs, Usable size cap s v.toNat) (distinct : (vs.map UInt32.toNat).Nodup)
    (index : ∀ p ∈ slots m, p.isIndex = true → Usable size cap s (ino.ptr s.cells p).toNat)
    (tree : TreeOk (ino, s.cells) (slots m))
    (apart : ∀ v ∈ vs, v.toNat ∉ (slots m).map fun p => (ino.ptr s.cells p).toNat)
    (opened : m ≤ 156 → Usable size cap s ino.indirect2.toNat) :
    wp (fsHandler size cap) (ino.increaseSize newSize vs)
      (fun r s' => s'.held = s.held ∧
        (r, s'.cells) = assign ({ ino with size := newSize }, s.cells) ((slotsFrom m n).zip vs))
      s := by
  have after' : { ino with size := newSize }.dataBlocks.toNat = n := after
  obtain ⟨ws, rest, rfl, wsLen⟩ : ∃ ws rest, vs = ws ++ rest ∧ ws.length = min n 28 - m := by
    refine ⟨vs.take (min n 28 - m), vs.drop (min n 28 - m), by simp, ?_⟩
    rw [List.length_take, ← len]
    by_cases direct : m ≤ min n 28
    · rw [← slotsFrom_append direct (Nat.min_le_left n 28),
        slotsFrom_direct direct (Nat.min_le_right n 28), List.length_append, List.length_map,
        List.length_range']
      omega
    · omega
  obtain ⟨filled, frame, keep⟩ := fillDirect_eq s.cells rest ws { ino with size := newSize } m wsLen
  simp only [increaseSize, after', before, wp_bind, filled, wp_ret, gt_iff_lt, inodeDirectCount]
  by_cases direct : n ≤ 28
  · rw [if_neg (by omega), wp_pure]
    have slotsEq := slotsFrom_direct mn direct
    rw [show min n 28 - m = n - m by omega] at wsLen
    have none : rest = [] := by
      apply List.length_eq_zero_iff.mp
      rw [slotsEq, List.length_map, List.length_range', List.length_append] at len
      omega
    subst none
    rw [slotsEq, ← wsLen, List.append_nil]
    exact ⟨rfl, Prod.ext rfl frame.symm⟩
  · rw [if_pos (by omega)]
    by_cases start : m ≤ 28
    · -- the singly indirect part starts here
      rw [show max m (min n 28) = 28 by omega, if_pos rfl]
      rw [show min n 28 - m = 28 - m by omega] at wsLen
      have slotsEq : slotsFrom m n = (List.range' m ws.length).map .direct ++
          .indirect1 :: indirectFrom 0 (n - 28) := by
        rw [← slotsFrom_append start (by omega), slotsFrom_direct start (Nat.le_refl 28),
          slotsFrom_indirect_start (by omega), wsLen]
      rw [slotsEq] at len ⊢
      rw [List.zip_append (by simp), assign_append]
      generalize assign ({ ino with size := newSize }, s.cells)
        (((List.range' m ws.length).map .direct).zip ws) = t at frame keep ⊢
      obtain ⟨ino₁, cells₁⟩ := t
      simp only at frame keep ⊢
      subst frame
      simp only [List.length_append, List.length_map, List.length_range', List.length_cons] at len
      replace len : (indirectFrom 0 (n - 28)).length + 1 = rest.length := by omega
      obtain ⟨new, rest, rfl⟩ := List.exists_cons_of_length_eq_add_one len.symm
      simp only [takeNext, wp_bind, wp_pure, List.zip_cons_cons, assign, setPtr, Nat.sub_self]
      rw [List.map_append, List.map_cons] at distinct
      have distinctRest := (List.nodup_append.mp distinct).2.1
      refine increaseIndirect1_wp { ino₁ with indirect1 := new } (Nat.zero_le _) (by omega) rest
        s (by simpa using len) (fresh new (by simp)) (fun v hv => fresh v (by simp [hv]))
        (List.nodup_cons.mp distinctRest).2 ?_ (by omega) (by omega)
      simp only [keep]
      exact opened (by omega)
    · have none : ws = [] := List.length_eq_zero_iff.mp (by omega)
      subst none
      rw [slotsFrom_indirect (by omega) mn] at len ⊢
      simp only [show max m (min n 28) = m by omega, show m ≠ 28 by omega, if_false,
        List.length_nil, List.range'_zero, List.map_nil, List.zip_nil_left, assign,
        List.nil_append] at *
      have inUse : ∀ p, Present m p → p.isIndex = true →
          Usable size cap s (ino.ptr s.cells p).toNat :=
        fun p present => index p (mem_slots.mpr present)
      refine increaseIndirect1_wp { ino with size := newSize } (by omega) (by omega) rest s len
        (inUse .indirect1 (by simp only [Present]; omega) rfl) fresh distinct ?_ ?_ ?_
      · by_cases single : m ≤ 156
        · exact opened single
        · exact inUse .indirect2 (by simp only [Present]; omega) rfl
      · intro double v hv same
        refine apart v hv (List.mem_map.mpr ⟨.indirect2, mem_slots.mpr ?_, same.symm⟩)
        simp only [Present]
        omega
      · intro double more inside
        rw [ptr_with_size]
        have present : Present m (.sub ((m - 28 - 128) / 128)) := by
          simp only [Present]
          omega
        refine ⟨?_, inUse _ present rfl⟩
        intro same
        have present2 : Present m .indirect2 := by
          simp only [Present]
          omega
        have absurd := tree.inj (mem_slots.mpr present) (mem_slots.mpr present2) same
        simp at absurd

end DiskInode

end CoreFromDust.EasyFs
