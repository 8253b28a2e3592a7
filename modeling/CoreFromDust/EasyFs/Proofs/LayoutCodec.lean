import CoreFromDust.EasyFs.Layout

/-!
# On-disk structures round trip

Storing a super block, a disk inode or a directory entry and reading it back gives the value
that was stored, and storing an inode leaves the other inodes of its block alone.
-/

namespace CoreFromDust.EasyFs

open CoreFromDust.Lib

theorem SuperBlock.ofBlock_toBlock (sb : SuperBlock) (b : Block) :
    SuperBlock.ofBlock (sb.toBlock b) = sb := by
  simp (disch := omega) only [ofBlock, toBlock, Block.u32_setU32_self, Block.u32_setU32_other]

namespace DiskInode

/-- A `u32` field at position `k` of a stored inode. -/
theorem u32_toBlock (ino : DiskInode) (b : Block) {off k : Nat} {v : UInt32}
    (fits : off + 128 ≤ 512) (inside : k + 4 ≤ 125)
    (h : ∀ i, i < 4 → ino.byteAt (k + i) = leByte v.toNat i) :
    (ino.toBlock b off).u32 (off + k) = v := by
  have small := v.toNat_lt
  rw [Block.u32, toBlock,
    Block.leValue_patch_inside b 4 off 125 (off + k) _ (by omega) (by omega) (by omega),
    Nat.add_sub_cancel_left, leValue_congr 4 h, leValue_leByte,
    Nat.mod_eq_of_lt (by norm_num; omega), UInt32.ofNat_toNat]

/-- Reading back a stored inode. -/
theorem ofBlock_toBlock (ino : DiskInode) (b : Block) {off : Nat} (fits : off + 128 ≤ 512) :
    ofBlock (ino.toBlock b off) off = ino := by
  have size : (ino.toBlock b off).u32 off = ino.size :=
    u32_toBlock ino b fits (k := 0) (by omega) (fun i hi => by simp [byteAt, hi])
  have direct : ∀ i (hi : i < 28), (ino.toBlock b off).u32 (off + 4 + 4 * i) = ino.direct[i] := by
    intro i hi
    rw [Nat.add_assoc]
    refine u32_toBlock ino b fits (by omega) (fun j hj => ?_)
    have high : ¬ 4 + 4 * i + j < 4 := by omega
    have low : 4 + 4 * i + j < 116 := by omega
    have index : (4 + 4 * i + j - 4) / 4 = i := by omega
    have position : (4 + 4 * i + j - 4) % 4 = j := by omega
    simp [byteAt, high, low, index, position, hi]
  have indirect1 : (ino.toBlock b off).u32 (off + 116) = ino.indirect1 := by
    refine u32_toBlock ino b fits (by omega) (fun j hj => ?_)
    have low : 116 + j < 120 := by omega
    simp [byteAt, low, show ¬ 116 + j < 4 by omega]
  have indirect2 : (ino.toBlock b off).u32 (off + 120) = ino.indirect2 := by
    refine u32_toBlock ino b fits (by omega) (fun j hj => ?_)
    have low : 120 + j < 124 := by omega
    simp [byteAt, low, show ¬ 120 + j < 4 by omega, show ¬ 120 + j < 116 by omega]
  have typeByte : (ino.toBlock b off).byte (off + 124) = ino.byteAt 124 := by
    rw [toBlock, Block.byte_patch _ _ _ _ (by omega), if_pos (by omega), Nat.add_sub_cancel_left]
  cases ino with
  | mk size' direct' indirect1' indirect2' type' =>
    simp only [ofBlock, DiskInode.mk.injEq]
    refine ⟨size, ?_, indirect1, indirect2, ?_⟩
    · apply Vector.ext
      intro i hi
      rw [Vector.getElem_ofFn]
      exact direct i hi
    · rw [typeByte]
      cases type' <;> simp [byteAt]

/-- An inode outside the overwritten part of a block is not changed. -/
theorem ofBlock_patch_disjoint (b : Block) {off len off' : Nat} (f : Nat → UInt8)
    (h : off' + 125 ≤ off ∨ off + len ≤ off') :
    ofBlock (b.patch off len f) off' = ofBlock b off' := by
  have field : ∀ k, k + 4 ≤ 125 → (b.patch off len f).u32 (off' + k) = b.u32 (off' + k) :=
    fun k hk => Block.u32_patch_disjoint b off len (off' + k) f (by omega)
  have typeByte : (b.patch off len f).byte (off' + 124) = b.byte (off' + 124) := by
    by_cases inBlock : off' + 124 < 512
    · rw [Block.byte_patch _ _ _ _ inBlock, if_neg (by omega)]
    · rw [Block.byte_of_ge _ (by omega), Block.byte_of_ge _ (by omega)]
  simp only [ofBlock, DiskInode.mk.injEq]
  refine ⟨field 0 (by omega), ?_, field 116 (by omega), field 120 (by omega), by rw [typeByte]⟩
  apply Vector.ext
  intro i hi
  have hi : i < 28 := hi
  rw [Vector.getElem_ofFn, Vector.getElem_ofFn, Nat.add_assoc]
  exact field (4 + 4 * i) (by omega)

/-- Storing an inode leaves the inodes at the other slots of the block alone. -/
theorem ofBlock_toBlock_other (ino : DiskInode) (b : Block) {i j : Nat} (differ : i ≠ j) :
    ofBlock (ino.toBlock b (i * 128)) (j * 128) = ofBlock b (j * 128) :=
  ofBlock_patch_disjoint b ino.byteAt (by omega)

end DiskInode

namespace DirEntry

@[simp] theorem length_asBytes (d : DirEntry) : d.asBytes.length = 32 := by
  simp [asBytes]

/-- Reading back the bytes of an entry. -/
theorem ofBytes_asBytes (d : DirEntry) : ofBytes d.asBytes = d := by
  cases d with
  | mk name inodeNumber =>
    simp only [ofBytes, DirEntry.mk.injEq]
    constructor
    · apply Vector.ext
      intro i hi
      rw [Vector.getElem_ofFn]
      simp [asBytes, List.getD_eq_getElem?_getD, List.getElem?_append, hi]
    · have bytes : ∀ i, i < 4 → (asBytes ⟨name, inodeNumber⟩).getD (nameLengthLimit + 1 + i) 0 =
          leByte inodeNumber.toNat i := by
        intro i hi
        simp [asBytes, List.getD_eq_getElem?_getD, hi]
      have small := inodeNumber.toNat_lt
      rw [leValue_congr 4 bytes, leValue_leByte, Nat.mod_eq_of_lt (by norm_num; omega),
        UInt32.ofNat_toNat]

end DirEntry

theorem fromUtf8_strBytes (name : String) : fromUtf8 (strBytes name) = some name := by
  have bytes : (⟨(strBytes name).toArray⟩ : ByteArray) = name.toByteArray := by
    simp [strBytes]
  rw [fromUtf8, bytes, String.fromUTF8?, dif_pos name.isValidUTF8]
  rfl

namespace DirEntry

/-- The bytes of the name field of a new entry: the name, padded with zeros. -/
theorem new_name {name : String} {n : UInt32} {d : DirEntry} (h : new name n = some d) :
    (strBytes name).length ≤ 28 ∧ d.inodeNumber = n ∧
      d.name.toList = strBytes name ++ List.replicate (28 - (strBytes name).length) 0 := by
  unfold new at h
  split at h
  · next fits =>
    simp only [Option.some.injEq] at h
    subst h
    refine ⟨fits, rfl, ?_⟩
    apply List.ext_getElem
    · simp only [Vector.length_toList, List.length_append, List.length_replicate,
        nameLengthLimit] at fits ⊢
      omega
    · intro i h₁ h₂
      simp only [Vector.getElem_toList, Vector.getElem_ofFn, List.getElem_append,
        List.getElem_replicate, List.getD_eq_getElem?_getD]
      split
      · next inside => simp [inside]
      · next outside => simp [List.getElem?_eq_none (Nat.not_lt.mp outside)]
  · simp at h

/-- A name of at most 27 bytes without NUL is decoded to itself. -/
theorem getName_new {name : String} {n : UInt32} {d : DirEntry} (h : new name n = some d)
    (short : (strBytes name).length ≤ 27) (noNul : (0 : UInt8) ∉ strBytes name) :
    d.getName = some name := by
  obtain ⟨-, -, bytes⟩ := new_name h
  have position : d.name.toList.findIdx? (· == 0) = some (strBytes name).length := by
    rw [bytes, List.findIdx?_append]
    have none : (strBytes name).findIdx? (· == 0) = none := by
      rw [List.findIdx?_eq_none_iff]
      intro x hx
      simp only [beq_eq_false_iff_ne, ne_eq]
      rintro rfl
      exact noNul hx
    have pad : 28 - (strBytes name).length = (27 - (strBytes name).length) + 1 := by omega
    simp [none, pad, List.replicate_succ, List.findIdx?_cons]
  have body : d.name.toList.take (strBytes name).length = strBytes name := by
    rw [bytes, List.take_left']
    rfl
  rw [getName, position, Option.bind_some, body, fromUtf8_strBytes]

/-- A name that fills the field leaves no NUL, and decoding it panics. -/
theorem getName_new_full {name : String} {n : UInt32} {d : DirEntry} (h : new name n = some d)
    (full : (strBytes name).length = 28) (noNul : (0 : UInt8) ∉ strBytes name) :
    d.getName = none := by
  obtain ⟨-, -, bytes⟩ := new_name h
  have position : d.name.toList.findIdx? (· == 0) = none := by
    rw [bytes, full, List.findIdx?_eq_none_iff]
    intro x hx
    simp only [Nat.sub_self, List.replicate_zero, List.append_nil] at hx
    simp only [beq_eq_false_iff_ne, ne_eq]
    rintro rfl
    exact noNul hx
  rw [getName, position]
  rfl

end DirEntry

end CoreFromDust.EasyFs
