import Mathlib.Data.List.Basic

/-!
# Files as byte strings

What the operations on a file mean: a file is a string of bytes.
-/

namespace CoreFromDust.EasyFs.Spec

/-- Zero-extend a file to at least `size` bytes. -/
def extend (old : List UInt8) (size : Nat) : List UInt8 :=
  old ++ List.replicate (size - old.length) 0

/-- Write a buffer at an offset, after extending the file far enough. -/
def write (old : List UInt8) (offset : Nat) (buf : List UInt8) : List UInt8 :=
  let file := extend old (offset + buf.length)
  file.take offset ++ buf ++ file.drop (offset + buf.length)

/-- The bytes that a read of up to `len` bytes from an offset on returns. -/
def read (file : List UInt8) (offset len : Nat) : List UInt8 := (file.drop offset).take len

theorem length_extend (old : List UInt8) (size : Nat) :
    (extend old size).length = max old.length size := by
  simp only [extend, List.length_append, List.length_replicate]
  omega

theorem length_read (file : List UInt8) (offset len : Nat) :
    (read file offset len).length = min len (file.length - offset) := by
  simp [read]

/-- Appending is writing at the end. -/
theorem write_end (old buf : List UInt8) : write old old.length buf = old ++ buf := by
  have len : (extend old (old.length + buf.length)).length = old.length + buf.length := by
    rw [length_extend]
    omega
  simp only [write]
  rw [List.drop_eq_nil_of_le (by omega), extend, List.take_left, List.append_nil]

section Pieces

variable (file a b : List UInt8) (offset n m : Nat)

theorem length_write : (write file offset a).length = max file.length (offset + a.length) := by
  have extended := length_extend file (offset + a.length)
  simp only [write, List.length_append, List.length_take, List.length_drop, extended]
  omega

/-- A byte of a file after a write. -/
theorem getElem?_write (p : Nat) : (write file offset a)[p]? =
    if p < offset then (extend file (offset + a.length))[p]?
    else if p < offset + a.length then a[p - offset]?
    else (extend file (offset + a.length))[p]? := by
  have extended := length_extend file (offset + a.length)
  have before : ((extend file (offset + a.length)).take offset).length = offset := by
    rw [List.length_take]
    omega
  simp only [write]
  split_ifs with low high
  · rw [List.getElem?_append_left (by rw [List.length_append, before]; omega),
      List.getElem?_append_left (by omega), List.getElem?_take_of_lt low]
  · rw [List.getElem?_append_left (by rw [List.length_append, before]; omega),
      List.getElem?_append_right (by omega), before]
  · rw [List.getElem?_append_right (by rw [List.length_append, before]; omega),
      List.getElem?_drop, List.length_append, before]
    congr 1
    omega

theorem getElem?_extend (size p : Nat) : (extend file size)[p]? =
    if p < file.length then file[p]? else if p < size then some 0 else none := by
  rw [extend]
  split_ifs with inside grown
  · rw [List.getElem?_append_left inside]
  · rw [List.getElem?_append_right (by omega), List.getElem?_replicate, if_pos (by omega)]
  · rw [List.getElem?_append_right (by omega), List.getElem?_replicate, if_neg (by omega)]

/-- Writing nothing within a file changes nothing. -/
theorem write_nil (inside : offset ≤ file.length) : write file offset [] = file := by
  simp only [write, extend, List.length_nil, Nat.add_zero, Nat.sub_eq_zero_of_le inside,
    List.replicate_zero, List.append_nil, List.take_append_drop]

/-- Two writes after each other are one write. -/
theorem write_append : write (write file offset a) (offset + a.length) b =
    write file offset (a ++ b) := by
  apply List.ext_getElem?
  intro p
  simp only [getElem?_write, getElem?_extend, length_write, List.length_append]
  split_ifs <;> first
    | rfl
    | omega
    | (rw [List.getElem?_append_left (by omega)])
    | (rw [List.getElem?_append_right (by omega)]; congr 1; omega)

/-- Two reads after each other are one read. -/
theorem read_append : read file offset (n + m) =
    read file offset n ++ read file (offset + (read file offset n).length) m := by
  rw [length_read]
  simp only [read]
  rw [List.take_add, List.drop_drop]
  congr 1
  rcases Nat.le_total n (file.length - offset) with full | short
  · rw [Nat.min_eq_left full]
  · rw [Nat.min_eq_right short, List.drop_eq_nil_of_le (by omega),
      List.drop_eq_nil_of_le (by omega)]

end Pieces

end CoreFromDust.EasyFs.Spec
