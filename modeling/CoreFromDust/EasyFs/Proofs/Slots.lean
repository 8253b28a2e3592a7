import CoreFromDust.EasyFs.Layout
import Mathlib.Data.List.Nodup
import Mathlib.Data.List.Range

/-!
# The pointer slots of a disk inode

A file of `n` data blocks uses the `slots n`: the places in the inode and in its index blocks
that hold a block id. `newSlots k` are those that data block `k` adds, in the order in which
`increase_size` fills them; the last of them, `dataSlot k`, is the place where `get_block_id`
looks for data block `k`.
-/

namespace CoreFromDust.EasyFs

/-- A place that holds a block id. -/
inductive Slot where
  /-- `direct[i]` -/
  | direct (i : Nat)
  | indirect1
  /-- entry `j` of the block `indirect1` -/
  | entry1 (j : Nat)
  | indirect2
  /-- entry `a` of the block `indirect2` -/
  | sub (a : Nat)
  /-- entry `b` of the block that `sub a` names -/
  | entry2 (a b : Nat)
  deriving DecidableEq, Repr

namespace Slot

/-- The slot that names the index block a slot lies in, with the entry number; `none` for the
fields of the inode. -/
def parent : Slot → Option (Slot × Nat)
  | direct _ => none
  | indirect1 => none
  | indirect2 => none
  | entry1 j => some (indirect1, j)
  | sub a => some (indirect2, a)
  | entry2 a b => some (sub a, b)

/-- The slots that name index blocks. -/
def isIndex : Slot → Bool
  | indirect1 | indirect2 | sub _ => true
  | direct _ | entry1 _ | entry2 _ _ => false

/-- The slot is used by a file of `n` data blocks. -/
def Present (n : Nat) : Slot → Prop
  | direct i => i < n ∧ i < 28
  | indirect1 => 28 < n
  | entry1 j => j + 28 < n ∧ j < 128
  | indirect2 => 156 < n
  | sub a => a * 128 + 156 < n
  | entry2 a b => a * 128 + b + 156 < n ∧ b < 128

instance (n : Nat) (s : Slot) : Decidable (Present n s) := by
  cases s <;> unfold Present <;> infer_instance

theorem parent_isIndex {s p : Slot} {i : Nat} (h : s.parent = some (p, i)) :
    p.isIndex = true := by
  cases s <;> simp only [parent, Option.some.injEq, Prod.mk.injEq, reduceCtorEq] at h <;>
    obtain ⟨rfl, rfl⟩ := h <;> rfl

/-- Two slots at the same place are the same. -/
theorem parent_inj {s t p : Slot} {i : Nat} (hs : s.parent = some (p, i))
    (ht : t.parent = some (p, i)) : s = t := by
  cases s <;> cases t <;> grind [parent]

theorem present_mono {m n : Nat} (le : m ≤ n) {s : Slot} (h : Present m s) : Present n s := by
  cases s <;> simp only [Present] at h ⊢ <;> omega

end Slot

open Slot

/-- The slot of data block `k`. -/
def dataSlot (k : Nat) : Slot :=
  if k < 28 then .direct k
  else if k < 156 then .entry1 (k - 28)
  else .entry2 ((k - 156) / 128) ((k - 156) % 128)

/-- The slots of the index blocks that data block `k` is the first to need. -/
def indexSlots (k : Nat) : List Slot :=
  (if k = 28 then [.indirect1] else []) ++ (if k = 156 then [.indirect2] else []) ++
    (if 156 ≤ k ∧ (k - 156) % 128 = 0 then [.sub ((k - 156) / 128)] else [])

/-- The slots that data block `k` adds to a file. -/
def newSlots (k : Nat) : List Slot := indexSlots k ++ [dataSlot k]

/-- The slots that the data blocks from `m` up to `n` add to a file. -/
def slotsFrom (m n : Nat) : List Slot := (List.range' m (n - m)).flatMap newSlots

/-- The slots of a file of `n` data blocks. -/
def slots (n : Nat) : List Slot := slotsFrom 0 n

/-- Number of blocks of a file of `n` data blocks, index blocks included. -/
def blocksFor (n : Nat) : Nat :=
  n + (if 28 < n then 1 else 0) + (if 156 < n then 1 + (n - 156 + 127) / 128 else 0)

theorem slotsFrom_append {l m n : Nat} (lm : l ≤ m) (mn : m ≤ n) :
    slotsFrom l m ++ slotsFrom m n = slotsFrom l n := by
  unfold slotsFrom
  rw [← List.flatMap_append]
  congr 1
  rw [show n - l = m - l + (n - m) by omega, ← List.range'_append_1,
    show l + (m - l) = m by omega]

theorem slots_append {m n : Nat} (mn : m ≤ n) : slots m ++ slotsFrom m n = slots n :=
  slotsFrom_append (Nat.zero_le m) mn

@[simp] theorem slotsFrom_self (n : Nat) : slotsFrom n n = [] := by
  simp [slotsFrom]

theorem slotsFrom_succ (n : Nat) : slotsFrom n (n + 1) = newSlots n := by
  simp [slotsFrom]

theorem slots_succ (n : Nat) : slots (n + 1) = slots n ++ newSlots n := by
  rw [← slotsFrom_succ, slots_append (Nat.le_succ n)]

theorem slotsFrom_cons {m n : Nat} (h : m < n) :
    slotsFrom m n = newSlots m ++ slotsFrom (m + 1) n := by
  rw [← slotsFrom_append (Nat.le_succ m) h, slotsFrom_succ]

theorem mem_indexSlots {k : Nat} {s : Slot} : s ∈ indexSlots k ↔
    (k = 28 ∧ s = .indirect1) ∨ (k = 156 ∧ s = .indirect2) ∨
      ((156 ≤ k ∧ (k - 156) % 128 = 0) ∧ s = .sub ((k - 156) / 128)) := by
  unfold indexSlots
  simp only [List.mem_append, List.mem_ite_nil_right, List.mem_singleton, or_assoc]

theorem eq_dataSlot {k : Nat} {s : Slot} : s = dataSlot k ↔
    (k < 28 ∧ s = .direct k) ∨ ((28 ≤ k ∧ k < 156) ∧ s = .entry1 (k - 28)) ∨
      (156 ≤ k ∧ s = .entry2 ((k - 156) / 128) ((k - 156) % 128)) := by
  unfold dataSlot
  rcases Nat.lt_or_ge k 28 with low | low
  · have notMiddle : ¬ 28 ≤ k := by omega
    have notHigh : ¬ 156 ≤ k := by omega
    simp only [low, notMiddle, notHigh, if_true, true_and, false_and, or_false]
  · have notLow : ¬ k < 28 := by omega
    rcases Nat.lt_or_ge k 156 with middle | high
    · have notHigh : ¬ 156 ≤ k := by omega
      simp only [notLow, low, middle, notHigh, if_true, if_false, true_and, false_and, false_or,
        or_false]
    · have notMiddle : ¬ k < 156 := by omega
      simp only [notLow, notMiddle, high, if_false, true_and, false_and, and_false, false_or]

/-- Data block `n` adds exactly the slots that a file of `n + 1` data blocks has more. -/
theorem mem_newSlots {n : Nat} {s : Slot} :
    s ∈ newSlots n ↔ Present (n + 1) s ∧ ¬ Present n s := by
  rw [newSlots, List.mem_append, List.mem_singleton, mem_indexSlots, eq_dataSlot]
  cases s with
  | direct i =>
      simp only [Present, reduceCtorEq, direct.injEq, and_false, false_or, or_false]
      omega
  | indirect1 =>
      simp only [Present, reduceCtorEq, and_true, and_false, or_false]
      omega
  | entry1 j =>
      simp only [Present, reduceCtorEq, entry1.injEq, and_false, false_or, or_false]
      omega
  | indirect2 =>
      simp only [Present, reduceCtorEq, and_true, and_false, false_or, or_false]
      omega
  | sub a =>
      simp only [Present, reduceCtorEq, sub.injEq, and_false, false_or, or_false]
      omega
  | entry2 a b =>
      simp only [Present, reduceCtorEq, entry2.injEq, and_false, false_or]
      omega

theorem mem_slots {n : Nat} {s : Slot} : s ∈ slots n ↔ Present n s := by
  induction n with
  | zero => cases s <;> simp [slots, Present]
  | succ n ih =>
      rw [slots_succ, List.mem_append, ih, mem_newSlots]
      constructor
      · rintro (old | new)
        · exact present_mono (Nat.le_succ n) old
        · exact new.1
      · intro present
        by_cases old : Present n s
        · exact .inl old
        · exact .inr ⟨present, old⟩

theorem isIndex_dataSlot (k : Nat) : (dataSlot k).isIndex = false := by
  unfold dataSlot
  split_ifs <;> rfl

theorem length_newSlots (n : Nat) : (newSlots n).length = (if n = 28 then 1 else 0) +
    (if n = 156 then 1 else 0) + (if 156 ≤ n ∧ (n - 156) % 128 = 0 then 1 else 0) + 1 := by
  simp only [newSlots, indexSlots, List.length_append, apply_ite List.length, List.length_singleton,
    List.length_nil]

theorem length_slots (n : Nat) : (slots n).length = blocksFor n := by
  induction n with
  | zero => simp [slots, blocksFor]
  | succ n ih =>
      rw [slots_succ, List.length_append, ih, length_newSlots]
      unfold blocksFor
      split_ifs <;> omega

theorem length_slotsFrom {m n : Nat} (mn : m ≤ n) :
    (slotsFrom m n).length = blocksFor n - blocksFor m := by
  have whole := congrArg List.length (slots_append mn)
  rw [List.length_append, length_slots, length_slots] at whole
  omega

theorem blocksFor_mono {m n : Nat} (mn : m ≤ n) : blocksFor m ≤ blocksFor n := by
  have whole := congrArg List.length (slots_append mn)
  rw [List.length_append, length_slots, length_slots] at whole
  omega

theorem present_dataSlot {n k : Nat} (h : k < n) : Present n (dataSlot k) := by
  unfold dataSlot
  split_ifs <;> simp only [Present] <;> omega

theorem dataSlot_inj {j k : Nat} (h : dataSlot j = dataSlot k) : j = k := by
  unfold dataSlot at h
  split_ifs at h <;> simp at h <;> omega

/-- A slot that is not an index slot belongs to a data block. -/
theorem exists_dataSlot {n : Nat} {s : Slot} (present : Present n s) (h : s.isIndex = false) :
    ∃ k, k < n ∧ s = dataSlot k := by
  cases s with
  | direct i =>
      simp only [Present] at present
      exact ⟨i, by omega, by simp [dataSlot, present.2]⟩
  | entry1 j =>
      simp only [Present] at present
      refine ⟨j + 28, by omega, ?_⟩
      simp [dataSlot, show j + 28 < 156 by omega]
  | entry2 a b =>
      simp only [Present] at present
      refine ⟨a * 128 + b + 156, by omega, ?_⟩
      simp only [dataSlot, show ¬ a * 128 + b + 156 < 28 by omega,
        show ¬ a * 128 + b + 156 < 156 by omega, if_false, Slot.entry2.injEq]
      omega
  | indirect1 => simp [isIndex] at h
  | indirect2 => simp [isIndex] at h
  | sub a => simp [isIndex] at h

end CoreFromDust.EasyFs
