import CoreFromDust.EasyFs.Proofs.Invariant
import CoreFromDust.EasyFs.Reachable
import Mathlib.Order.Bounds.Basic
import Mathlib.Data.Finset.Insert

/-!
# A bitmap is a finite set of ids

`marked` is the set that a bitmap stands for. On the block cache, whatever it holds, `alloc` inserts
the least id that is free and `dealloc` removes its argument, which has to be there; so after any
calls the set is what was handed out and not taken back.
-/

namespace CoreFromDust.EasyFs

open CoreFromDust.Lib CoreFromDust.Lib.CellProg

/-! ## Blocks from their bits -/

namespace Block

/-- The bytes of a block are those of its words. -/
theorem byte_eq_u64 (b : Block) (i : Nat) :
    b.byte i = leByte (b.u64 (8 * (i / 8))).toNat (i % 8) := by
  have small : (leValue 8 fun j => b.byte (8 * (i / 8) + j)) < 2 ^ 64 := leValue_lt 8 _
  rw [u64, UInt64.toNat_ofNat', Nat.mod_eq_of_lt small, leByte_leValue _ (by omega),
    Nat.div_add_mod]

/-- Two blocks with the same bits are the same. -/
theorem ext_bit {b b' : Block} (same : ∀ n, n < 4096 → b.bit n = b'.bit n) : b = b' := by
  have words : ∀ w, w < 64 → b.u64 (8 * w) = b'.u64 (8 * w) := by
    intro w hw
    apply UInt64.toNat_inj.mp
    apply Nat.eq_of_testBit_eq
    intro i
    by_cases hi : i < 64
    · have bits := same (64 * w + i) (by omega)
      rwa [bit, bit, show (64 * w + i) / 64 = w by omega,
        show (64 * w + i) % 64 = i by omega] at bits
    · have large : 2 ^ 64 ≤ 2 ^ i := Nat.pow_le_pow_right (by decide) (by omega)
      rw [Nat.testBit_lt_two_pow (Nat.lt_of_lt_of_le (UInt64.toNat_lt _) large),
        Nat.testBit_lt_two_pow (Nat.lt_of_lt_of_le (UInt64.toNat_lt _) large)]
  apply Vector.ext
  intro i hi
  have below : i < 512 := hi
  have bytes : b.byte i = b'.byte i := by
    rw [byte_eq_u64, byte_eq_u64, words _ (by omega)]
  rwa [byte, byte, dif_pos hi, dif_pos hi] at bytes

end Block

namespace Bitmap

/-- The blocks of a bitmap from their bits. -/
theorem block_eq (bm : Bitmap) {cells cells' : Cells}
    (same : ∀ n, n < bm.blocks * 4096 → bm.bit cells' n = bm.bit cells n) {id : Nat}
    (within : bm.Within id) : cells' id = cells id := by
  obtain ⟨low, high⟩ := within
  apply Block.ext_bit
  intro n hn
  have bits := same ((id - bm.startBlockId) * 4096 + n) (by omega)
  rwa [bit, bit, show ((id - bm.startBlockId) * 4096 + n) / 4096 = id - bm.startBlockId by omega,
    show ((id - bm.startBlockId) * 4096 + n) % 4096 = n by omega, Nat.add_sub_cancel' low] at bits

/-! ## Deallocation on the array -/

section Array

variable {size cap : Nat}

/-- `dealloc` uses one block, that of its argument. -/
theorem dealloc_eq (bm : Bitmap) (m : Nat) :
    bm.dealloc m = (Bitmap.mk (bm.startBlockId + m / 4096) 1).dealloc (m % 4096) := by
  have block : m % 4096 / 4096 = 0 := by omega
  simp only [dealloc, decomposition, blockBits, blockSz, Nat.reduceMul, Nat.mod_mod, block,
    Nat.add_zero]
  rfl

/-- `Bitmap::dealloc` of a set bit, be it one of the bitmap or not, clears it. -/
theorem dealloc_wp_any (bm : Bitmap) {s : CellArray Block} {m : Nat}
    (lock : s.Lockable size cap (bm.startBlockId + m / 4096)) (marked : bm.bit s.cells m = true) :
    wp (fsHandler size cap) (bm.dealloc m)
      (fun _ s' => s'.held = s.held ∧
        (∀ n, bm.bit s'.cells n = (bm.bit s.cells n && decide (n ≠ m))) ∧
        ∀ id, id ≠ bm.startBlockId + m / 4096 → s'.cells id = s.cells id) s := by
  have below : m % 4096 < 1 * 4096 := by omega
  rw [dealloc_eq]
  refine wp_mono (dealloc_wp ⟨bm.startBlockId + m / 4096, 1⟩ below ?_ ?_) ?_
  · intro id within
    have only : id = bm.startBlockId + m / 4096 := by
      have low := within.1
      have high := within.2
      simp only at low high
      omega
    rwa [only]
  · rw [bit] at marked ⊢
    rwa [show m % 4096 / 4096 = 0 by omega, Nat.add_zero, Nat.mod_mod]
  · rintro - s' ⟨held, bits, frame⟩
    have others : ∀ id, id ≠ bm.startBlockId + m / 4096 → s'.cells id = s.cells id := by
      intro id other
      apply frame
      rintro ⟨low, high⟩
      simp only at low high
      omega
    refine ⟨held, fun n => ?_, others⟩
    by_cases sameBlock : n / 4096 = m / 4096
    · have inBlock := bits (n % 4096) (show n % 4096 < 1 * 4096 by omega)
      rw [bit, bit, show n % 4096 / 4096 = 0 by omega, Nat.add_zero, Nat.mod_mod] at inBlock
      rw [bit, bit, sameBlock, inBlock]
      congr 1
      exact decide_eq_decide.mpr (by omega)
    · rw [bit, bit, others _ (by omega),
        decide_eq_true (show n ≠ m by rintro rfl; exact sameBlock rfl), Bool.and_true]

/-- `Bitmap::dealloc` of a clear bit panics. -/
theorem dealloc_panics (bm : Bitmap) {s : CellArray Block} {m : Nat}
    (lock : s.Lockable size cap (bm.startBlockId + m / 4096)) (clear : bm.bit s.cells m = false) :
    Panics (fsHandler size cap) (bm.dealloc m) s := by
  have inner : m % 4096 % 64 < 64 := by omega
  simp only [dealloc, decomposition, blockBits, blockSz, Nat.reduceMul]
  apply panics_modifyCell lock
  apply panics_do_first
  apply panics_check
  rw [and_shiftLeft_pos _ inner]
  have isClear : ((s.cells (bm.startBlockId + m / 4096)).u64 (8 * (m % 4096 / 64))).toNat.testBit
      (m % 4096 % 64) = false := clear
  rw [isClear]
  exact Bool.noConfusion

end Array

/-! ## The set of a bitmap -/

/-- The ids that are marked in a bitmap. -/
def marked (bm : Bitmap) (cells : Cells) : Finset Nat :=
  (Finset.range bm.maximum).filter fun n => bm.bit cells n = true

theorem mem_marked {bm : Bitmap} {cells : Cells} {n : Nat} :
    n ∈ bm.marked cells ↔ n < bm.blocks * 4096 ∧ bm.bit cells n = true := by
  simp only [marked, Finset.mem_filter, Finset.mem_range, maximum, blockBits,
    blockSz, Nat.reduceMul]

/-- All bits are set. -/
theorem marked_full {bm : Bitmap} {cells : Cells} :
    bm.marked cells = Finset.range bm.maximum ↔
      ∀ n, n < bm.blocks * 4096 → bm.bit cells n = true := by
  rw [marked, Finset.filter_eq_self]
  simp only [Finset.mem_range, maximum, blockBits, blockSz, Nat.reduceMul]

namespace Marks

variable {bm : Bitmap} {cells cells' : Cells} {m : Nat}

theorem isLeast (h : bm.Marks cells cells' m) :
    IsLeast {n | n < bm.maximum ∧ n ∉ bm.marked cells} m := by
  constructor
  · refine ⟨h.inRange, fun mem => ?_⟩
    have set := (mem_marked.mp mem).2
    rw [h.clear] at set
    exact Bool.noConfusion set
  · rintro n ⟨inRange, free⟩
    by_contra below
    exact free (mem_marked.mpr ⟨inRange, h.least n (Nat.lt_of_not_le below)⟩)

theorem marked_eq (h : bm.Marks cells cells' m) :
    bm.marked cells' = insert m (bm.marked cells) := by
  ext n
  rw [Finset.mem_insert, mem_marked, mem_marked]
  constructor
  · rintro ⟨inRange, set⟩
    rw [h.bits n inRange, Bool.or_eq_true, decide_eq_true_eq] at set
    exact set.symm.imp_right fun old => ⟨inRange, old⟩
  · rintro (rfl | ⟨inRange, set⟩)
    · exact ⟨h.inRange, by simp [h.bits n h.inRange]⟩
    · exact ⟨inRange, by simp [h.bits n inRange, set]⟩

end Marks

/-- Removing a bit from the set. -/
theorem marked_erase {bm : Bitmap} {cells cells' : Cells} {m : Nat}
    (bits : ∀ n, bm.bit cells' n = (bm.bit cells n && decide (n ≠ m))) :
    bm.marked cells' = (bm.marked cells).erase m := by
  ext n
  rw [Finset.mem_erase, mem_marked, mem_marked, bits, Bool.and_eq_true, decide_eq_true_eq]
  tauto

/-! ## Calls on the block cache -/

section Calls

variable {size : Nat} {bm : Bitmap} {a : CellArray Block} {s s' : CacheState Block}

/-- The blocks of the bitmap can be used: the device has them, nobody holds one of them, and the
cache has room. -/
structure Usable (size : Nat) (bm : Bitmap) (a : CellArray Block) : Prop where
  onDevice : bm.startBlockId + bm.blocks ≤ size
  notHeld : ∀ id ∈ a.held, ¬ bm.Within id
  room : a.held.length < 15

theorem Usable.lock (usable : bm.Usable size a) {id : Nat} (within : bm.Within id) :
    a.Lockable size 15 id := by
  have onDevice := usable.onDevice
  have high := within.2
  exact ⟨by omega, fun mem => usable.notHeld id mem within, usable.room⟩

theorem Usable.congr {a' : CellArray Block} (usable : bm.Usable size a) (same : a'.held = a.held) :
    bm.Usable size a' :=
  ⟨usable.onDevice, same ▸ usable.notHeld, same ▸ usable.room⟩

theorem Usable.lock_bit (usable : bm.Usable size a) {m : Nat} (hm : m < bm.blocks * 4096) :
    a.Lockable size 15 (bm.startBlockId + m / 4096) :=
  usable.lock ⟨by omega, by omega⟩

/-- `Bitmap::alloc` through the cache. -/
theorem alloc_runs (rel : CacheRel size a s) (usable : bm.Usable size a) :
    ∃ r a' s', run (machine size) bm.alloc s = some (r, s') ∧ CacheRel size a' s' ∧
      a'.held = a.held ∧ match r with
        | some m => bm.Marks s.view s'.view m
        | none => s'.view = s.view ∧ bm.marked s.view = Finset.range bm.maximum := by
  obtain ⟨r, a', s', ran, rel', held, post⟩ :=
    rel.run_of_wp (alloc_wp bm fun id within => usable.lock within)
  refine ⟨r, a', s', ran, rel', held, ?_⟩
  rw [← rel.view_eq, ← rel'.view_eq] at post
  cases r with
  | none => exact ⟨post.1, marked_full.mpr post.2⟩
  | some m => exact post

/-- `Bitmap::dealloc` of a set bit through the cache. -/
theorem dealloc_runs (rel : CacheRel size a s) {m : Nat}
    (lock : a.Lockable size 15 (bm.startBlockId + m / 4096)) (set : bm.bit s.view m = true) :
    ∃ a' s', run (machine size) (bm.dealloc m) s = some ((), s') ∧ CacheRel size a' s' ∧
      a'.held = a.held ∧ (∀ n, bm.bit s'.view n = (bm.bit s.view n && decide (n ≠ m))) ∧
      ∀ id, id ≠ bm.startBlockId + m / 4096 → s'.view id = s.view id := by
  rw [rel.view_eq] at set ⊢
  obtain ⟨⟨⟩, a', s', ran, rel', held, post⟩ := rel.run_of_wp (dealloc_wp_any bm lock set)
  refine ⟨a', s', ran, rel', held, ?_⟩
  rwa [rel'.view_eq]

/-- A block that a command of the cache took was free. -/
theorem lockable_of_acquire (rel : CacheRel size a s) (room : a.held.length < 15) {id : Nat}
    (step : (machine size).acquire id s = some s') : a.Lockable size 15 id := by
  have inRange : CacheState.InRange size s := fun p hp => (rel.entries p hp).2.2
  refine ⟨(inRange.acquire step).1, fun held => ?_, room⟩
  rw [rel.held] at held
  obtain ⟨addr, mem, same⟩ := List.mem_map.mp held
  have entry := rel.entry_of_handle mem
  rw [same] at entry
  obtain ⟨s₁, got, rest⟩ := Option.bind_eq_some_iff.mp step
  unfold CacheState.getBlockCache at got
  cases found : s.queue.find? fun pair => pair.1 == id with
  | none =>
      have no := List.find?_eq_none.mp found _ entry
      simp at no
  | some pair =>
      have hit : pair.1 = id := by simpa using List.find?_some found
      have which := rel.id_inj (List.mem_of_find?_eq_some found) entry hit
      rw [found] at got
      simp only [Option.some.injEq] at got
      subst got
      -- the handle that was given out is one of those that are held, so the lock is taken
      simp [which, mem] at rest

/-- A call of `dealloc` that returned, of whatever bit. -/
theorem dealloc_returned (rel : CacheRel size a s) (room : a.held.length < 15) {m : Nat} {u : Unit}
    (ran : run (machine size) (bm.dealloc m) s = some (u, s')) :
    ∃ a', CacheRel size a' s' ∧ a'.held = a.held ∧
      ∀ n, bm.bit s'.view n = (bm.bit s.view n && decide (n ≠ m)) := by
  obtain ⟨s₁, step, -⟩ := Option.bind_eq_some_iff.mp ran
  have lock : a.Lockable size 15 (bm.startBlockId + m / 4096) := lockable_of_acquire rel room step
  cases bit : bm.bit s.view m with
  | false =>
      rw [rel.view_eq] at bit
      rw [rel.run_of_panics (dealloc_panics bm lock bit)] at ran
      simp at ran
  | true =>
      obtain ⟨a', s₂, ran', rel', held, bits, -⟩ := dealloc_runs rel lock bit
      rw [ran] at ran'
      simp only [Option.some.injEq, Prod.mk.injEq] at ran'
      obtain ⟨-, rfl⟩ := ran'
      exact ⟨a', rel', held, bits⟩

/-- `dealloc` undoes `alloc`: all blocks are as they were. -/
theorem dealloc_undoes (rel : CacheRel size a s) (usable : bm.Usable size a) {m : Nat}
    (ran : run (machine size) bm.alloc s = some (some m, s')) :
    ∃ s'', run (machine size) (bm.dealloc m) s' = some ((), s'') ∧ s''.view = s.view := by
  obtain ⟨r, a', s₁, ran', rel', held, marks⟩ := alloc_runs rel usable
  rw [ran] at ran'
  simp only [Option.some.injEq, Prod.mk.injEq] at ran'
  obtain ⟨rfl, rfl⟩ := ran'
  have set : bm.bit s'.view m = true := by simp [marks.bits m marks.inRange]
  obtain ⟨-, s'', ran'', -, -, bits, frame⟩ :=
    dealloc_runs rel' ((usable.congr held).lock_bit marks.inRange) set
  refine ⟨s'', ran'', funext fun id => ?_⟩
  by_cases within : bm.Within id
  · refine bm.block_eq (fun n hn => ?_) within
    rw [bits, marks.bits n hn]
    by_cases same : n = m
    · simp [same, marks.clear]
    · simp [same]
  · have inRange := marks.inRange
    have other : id ≠ bm.startBlockId + m / 4096 := by
      rintro rfl
      exact within ⟨by omega, by omega⟩
    rw [frame id other, marks.frame id within]

end Calls

end Bitmap

/-! ## Sequences of calls -/

/-- A call of a bitmap that returned. -/
inductive BitmapEvent where
  | allocated (bit : Nat)
  | full
  | deallocated (bit : Nat)
  deriving DecidableEq

/-- The calls of `alloc` and `dealloc` that returned from `s₀` on, the latest first. -/
inductive BitmapCalls (size : Nat) (bm : Bitmap) (s₀ : CacheState Block) :
    List BitmapEvent → CacheState Block → Prop
  | start : BitmapCalls size bm s₀ [] s₀
  | alloc {log s r s'} : BitmapCalls size bm s₀ log s →
      run (machine size) bm.alloc s = some (r, s') →
      BitmapCalls size bm s₀ ((r.elim .full .allocated) :: log) s'
  | dealloc {log s m u s'} : BitmapCalls size bm s₀ log s →
      run (machine size) (bm.dealloc m) s = some (u, s') →
      BitmapCalls size bm s₀ (.deallocated m :: log) s'

/-- The bit was returned by `alloc` and not deallocated since. -/
def Outstanding (log : List BitmapEvent) (n : Nat) : Prop :=
  ∃ later earlier, log = later ++ .allocated n :: earlier ∧ .deallocated n ∉ later

theorem not_outstanding_nil (n : Nat) : ¬ Outstanding [] n := by
  rintro ⟨later, earlier, split, -⟩
  simp at split

/-- What one more call makes of the bits that are out. -/
theorem outstanding_cons (event : BitmapEvent) (log : List BitmapEvent) (n : Nat) :
    Outstanding (event :: log) n ↔
      event = .allocated n ∨ event ≠ .deallocated n ∧ Outstanding log n := by
  constructor
  · rintro ⟨later, earlier, split, kept⟩
    cases later with
    | nil =>
        rw [List.nil_append, List.cons.injEq] at split
        exact .inl split.1
    | cons first later =>
        rw [List.cons_append, List.cons.injEq] at split
        rw [List.mem_cons, not_or] at kept
        exact .inr ⟨fun same => kept.1 (same.symm.trans split.1), later, earlier, split.2, kept.2⟩
  · rintro (rfl | ⟨other, later, earlier, rfl, kept⟩)
    · exact ⟨[], log, rfl, List.not_mem_nil⟩
    · refine ⟨event :: later, earlier, rfl, ?_⟩
      rw [List.mem_cons, not_or]
      exact ⟨Ne.symm other, kept⟩

namespace BitmapCalls

variable {size : Nat} {bm : Bitmap} {a : CellArray Block} {s₀ s : CacheState Block}
  {log : List BitmapEvent}

/-- The set of the bitmap after any calls. -/
theorem marked (calls : BitmapCalls size bm s₀ log s) (rel : CacheRel size a s₀)
    (usable : bm.Usable size a) :
    (∃ a', CacheRel size a' s ∧ a'.held = a.held) ∧
      ∀ n, n ∈ bm.marked s.view ↔
        Outstanding log n ∨ n ∈ bm.marked s₀.view ∧ .deallocated n ∉ log := by
  induction calls with
  | start =>
      refine ⟨⟨a, rel, rfl⟩, fun n => ?_⟩
      simp [not_outstanding_nil]
  | @alloc log s r s' _ ran ih =>
      obtain ⟨⟨a₁, rel₁, held₁⟩, set⟩ := ih
      obtain ⟨r', a₂, s₂, ran', rel₂, held₂, post⟩ := Bitmap.alloc_runs rel₁ (usable.congr held₁)
      rw [ran] at ran'
      simp only [Option.some.injEq, Prod.mk.injEq] at ran'
      obtain ⟨rfl, rfl⟩ := ran'
      refine ⟨⟨a₂, rel₂, held₂.trans held₁⟩, fun n => ?_⟩
      cases r with
      | none => simp [outstanding_cons, post.1, set]
      | some m =>
          rw [post.marked_eq, Finset.mem_insert, set, outstanding_cons]
          simp [eq_comm, or_assoc]
  | @dealloc log s m u s' _ ran ih =>
      obtain ⟨⟨a₁, rel₁, held₁⟩, set⟩ := ih
      have room : a₁.held.length < 15 := by rw [held₁]; exact usable.room
      obtain ⟨a₂, rel₂, held₂, bits⟩ := Bitmap.dealloc_returned rel₁ room ran
      refine ⟨⟨a₂, rel₂, held₂.trans held₁⟩, fun n => ?_⟩
      rw [Bitmap.marked_erase bits, Finset.mem_erase, set, outstanding_cons]
      simp only [reduceCtorEq, false_or, ne_eq, BitmapEvent.deallocated.injEq,
        List.mem_cons, not_or]
      tauto

end BitmapCalls

/-- On every state of the block cache: `alloc` inserts the least id that is free and finds none
exactly when all are marked; `dealloc` removes a marked id, panics on any other, and undoes `alloc`;
and after all sequences of calls the marked ids are those handed out and not taken back since,
beside the ones that were marked at first and are untouched. -/
theorem bitmap_leastFree {size : Nat} {bm : Bitmap} {a : CellArray Block} {s : CacheState Block}
    (rel : CacheRel size a s) (usable : bm.Usable size a) :
    (∃ r s', run (machine size) bm.alloc s = some (r, s') ∧
      (r = none ↔ bm.marked s.view = Finset.range bm.maximum) ∧
      (r = none → s'.view = s.view) ∧
      ∀ m, r = some m → IsLeast {n | n < bm.maximum ∧ n ∉ bm.marked s.view} m ∧
        bm.marked s'.view = insert m (bm.marked s.view) ∧
        (∀ id, ¬ bm.Within id → s'.view id = s.view id) ∧
        ∃ s'', run (machine size) (bm.dealloc m) s' = some ((), s'') ∧ s''.view = s.view) ∧
    (∀ m, m < bm.maximum →
      (m ∈ bm.marked s.view → ∃ s', run (machine size) (bm.dealloc m) s = some ((), s') ∧
        bm.marked s'.view = (bm.marked s.view).erase m ∧
        ∀ id, ¬ bm.Within id → s'.view id = s.view id) ∧
      (m ∉ bm.marked s.view → Panics (machine size) (bm.dealloc m) s)) ∧
    ∀ log s', BitmapCalls size bm s log s' → ∀ n, n ∈ bm.marked s'.view ↔
      Outstanding log n ∨ n ∈ bm.marked s.view ∧ .deallocated n ∉ log := by
  refine ⟨?_, ?_, fun log s' calls => (calls.marked rel usable).2⟩
  · obtain ⟨r, a', s', ran, rel', held, post⟩ := Bitmap.alloc_runs rel usable
    refine ⟨r, s', ran, ?_⟩
    cases r with
    | none => exact ⟨⟨fun _ => post.2, fun _ => rfl⟩, fun _ => post.1, by simp⟩
    | some m =>
        refine ⟨⟨by simp, fun full => ?_⟩, by simp, ?_⟩
        · have free := post.isLeast.1
          rw [full, Set.mem_ofPred_eq, Finset.mem_range] at free
          exact absurd free.1 free.2
        · rintro _ ⟨⟩
          exact ⟨post.isLeast, post.marked_eq, post.frame, Bitmap.dealloc_undoes rel usable ran⟩
  · intro m inRange
    have lock := usable.lock_bit inRange
    constructor
    · intro mem
      obtain ⟨a', s', ran, -, -, bits, frame⟩ :=
        Bitmap.dealloc_runs rel lock (Bitmap.mem_marked.mp mem).2
      refine ⟨s', ran, Bitmap.marked_erase bits, fun id outside => frame id ?_⟩
      rintro rfl
      have below : m < bm.blocks * 4096 := inRange
      exact outside ⟨by omega, by omega⟩
    · intro free
      have clear : bm.bit a.cells m = false := by
        rw [← rel.view_eq]
        by_contra set
        exact free (Bitmap.mem_marked.mpr ⟨inRange, by simpa using set⟩)
      exact (Bitmap.dealloc_panics bm lock clear).simulates cache_simulates rel

/-- A bitmap of two blocks on an empty device: a bit that is taken back is given out again before
those that have never been given out. -/
theorem bitmap_leastFree_again : ∃ s₁ s₂ s₃ s₄,
    run (machine 4) (Bitmap.alloc ⟨1, 2⟩) (.fresh fun _ => Block.zero) = some (some 0, s₁) ∧
      run (machine 4) (Bitmap.alloc ⟨1, 2⟩) s₁ = some (some 1, s₂) ∧
      run (machine 4) (Bitmap.dealloc ⟨1, 2⟩ 0) s₂ = some ((), s₃) ∧
      run (machine 4) (Bitmap.alloc ⟨1, 2⟩) s₃ = some (some 0, s₄) := by
  have usable : ∀ a : CellArray Block, a.held = [] → (Bitmap.mk 1 2).Usable 4 a :=
    fun a held => ⟨by decide, by simp [held], by simp [held]⟩
  -- the bits are counted as in a set of which the least missing one is known
  have alloc : ∀ a s m (set : Finset Nat), CacheRel 4 a s → a.held = [] →
      Bitmap.marked ⟨1, 2⟩ s.view = set → m < 8192 → m ∉ set → (∀ n < m, n ∈ set) →
      ∃ a' s', run (machine 4) (Bitmap.alloc ⟨1, 2⟩) s = some (some m, s') ∧ CacheRel 4 a' s' ∧
        a'.held = [] ∧ Bitmap.marked ⟨1, 2⟩ s'.view = insert m set := by
    rintro a s m _ rel held rfl inRange free least
    obtain ⟨⟨r, s', ran, full, -, allocated⟩, -⟩ := bitmap_leastFree rel (usable a held)
    obtain ⟨⟨a', rel', held'⟩, -⟩ := (BitmapCalls.alloc .start ran).marked rel (usable a held)
    cases r with
    | none =>
        rw [full.mp rfl] at free
        exact absurd (Finset.mem_range.mpr inRange) free
    | some m' =>
        obtain ⟨isLeast, marked, -⟩ := allocated m' rfl
        obtain rfl : m' = m := by
          apply Nat.le_antisymm (isLeast.2 ⟨inRange, free⟩)
          exact Nat.le_of_not_lt fun less => isLeast.1.2 (least m' less)
        exact ⟨a', s', ran, rel', held'.trans held, marked⟩
  have start : CacheRel 4 ⟨fun _ => Block.zero, []⟩ (.fresh fun _ => Block.zero) :=
    CacheRel.fresh fun _ => Block.zero
  have empty : Bitmap.marked ⟨1, 2⟩ (CacheState.fresh fun _ => Block.zero).view = ∅ := by
    rw [start.view_eq]
    apply Finset.eq_empty_of_forall_notMem
    intro n
    rw [Bitmap.mem_marked]
    simp [Bitmap.bit]
  obtain ⟨a₁, s₁, ran₁, rel₁, held₁, marked₁⟩ :=
    alloc _ _ 0 _ start rfl empty (by decide) (by simp) (by simp)
  obtain ⟨a₂, s₂, ran₂, rel₂, held₂, marked₂⟩ :=
    alloc _ _ 1 _ rel₁ held₁ marked₁ (by decide) (by simp) (by simp)
  obtain ⟨-, dealloc, -⟩ := bitmap_leastFree rel₂ (usable a₂ held₂)
  obtain ⟨s₃, ran₃, marked₃, -⟩ := (dealloc 0 (by decide)).1 (by simp [marked₂])
  obtain ⟨⟨a₃, rel₃, held₃⟩, -⟩ :=
    (BitmapCalls.dealloc .start ran₃).marked rel₂ (usable a₂ held₂)
  obtain ⟨a₄, s₄, ran₄, -⟩ := alloc _ _ 0 _ rel₃ (held₃.trans held₂) marked₃ (by decide)
    (by simp) (by simp)
  exact ⟨s₁, s₂, s₃, s₄, ran₁, ran₂, ran₃, ran₄⟩

end CoreFromDust.EasyFs
