import CoreFromDust.EasyFs.FileContents
import CoreFromDust.Os.Fs.Inode

/-!
# Buffers in pieces

A user buffer reaches an open file in slices, one for each page. Reading into the slices and
writing from them is one call of the `Inode` on their concatenation, and `read_all` reads the rest
of the file.
-/

namespace CoreFromDust.Os.Fs

open CoreFromDust.Lib CoreFromDust.Lib.CellProg CoreFromDust.EasyFs DiskInode

namespace OSInode

variable {g : Geometry} {size : Nat} {efs : EasyFileSystem} {created : List (String × Inode)}
  {entries : List DirEntry} {s : CacheState Block}

/-! ## Writing -/

/-- The loop of `write` writes the concatenation of the slices. -/
theorem writeLoop_run (inv : FsInv g size efs created entries s) (self : OSInode)
    (mem : self.inode ∈ created.map Prod.snd) (total : Nat) (slices : List (List UInt8))
    (moves : slices ≠ [] ∨ self.offset ≤ (self.inode.contents s.view).length)
    (can : CanWrite g self.inode self.offset slices.flatten.length s.view) :
    ∃ s', run (machine size) (writeLoop efs self total slices) s =
        some ((total + slices.flatten.length, self.advance slices.flatten.length), s') ∧
      FsInv g size efs created entries s' ∧
      self.inode.contents s'.view =
        Spec.write (self.inode.contents s.view) self.offset slices.flatten ∧
      ∀ other ∈ Inode.root efs :: created.map Prod.snd, other ≠ self.inode →
        other.contents s'.view = other.contents s.view := by
  induction slices generalizing self total s with
  | nil =>
      have inside := moves.resolve_left fun h => h rfl
      refine ⟨s, rfl, inv, ?_, fun _ _ _ => rfl⟩
      rw [List.flatten_nil, Spec.write_nil _ _ inside]
  | cons slice rest ih =>
      rw [List.flatten_cons] at can ⊢
      obtain ⟨s₁, ran, inv₁, contents, others⟩ := inv.writeAt mem self.offset slice can.first
      have can₁ := can.rest inv inv₁ mem contents others
      have inside : self.offset + slice.length ≤ (self.inode.contents s₁.view).length := by
        rw [contents, Spec.length_write]
        exact Nat.le_max_right _ _
      obtain ⟨s', ran', inv', contents', others'⟩ := ih inv₁ (self.advance slice.length) mem
        (total + slice.length) (.inr inside) can₁
      refine ⟨s', ?_, inv', ?_, ?_⟩
      · rw [writeLoop, run_do ran, run_do (run_check rfl), ran', List.length_append]
        simp only [advance, Nat.add_assoc]
      · rw [← Spec.write_append, ← contents]
        exact contents'
      · intro other member differ
        rw [others' other member differ, others other member differ]

/-! ## Reading -/

/-- Filling two buffers, when the second one is used only after the first one is full. -/
theorem spliceAt_append {a b got got' : List UInt8} (fits : got.length ≤ a.length)
    (full : got.length = a.length ∨ got' = []) :
    spliceAt (a ++ b) 0 (got ++ got') = spliceAt a 0 got ++ spliceAt b 0 got' := by
  simp only [spliceAt, List.take_zero, List.nil_append, Nat.zero_add, List.append_assoc]
  congr 1
  rcases full with full | rfl
  · rw [List.length_append, full, List.drop_length_add_append, List.drop_length, List.nil_append]
  · rw [List.append_nil, List.drop_append_of_le_length fits]
    rfl

/-- A read that does not fill its buffer has come to the end of the file. -/
theorem read_full_or_nil (file : List UInt8) (offset n m : Nat) :
    (Spec.read file offset n).length = n ∨
      Spec.read file (offset + (Spec.read file offset n).length) m = [] := by
  rcases Nat.le_total n (file.length - offset) with full | short
  · exact .inl (by rw [Spec.length_read, Nat.min_eq_left full])
  · right
    rw [← List.length_eq_zero_iff, Spec.length_read, Spec.length_read]
    omega

/-- The loop of `read` reads into the concatenation of the slices. -/
theorem readLoop_run (inv : FsInv g size efs created entries s) (self : OSInode)
    (mem : self.inode ∈ created.map Prod.snd) (total : Nat) (slices : List (List UInt8))
    (nonempty : ∀ slice ∈ slices, slice ≠ []) {got : List UInt8}
    (reads : Spec.read (self.inode.contents s.view) self.offset slices.flatten.length = got) :
    ∃ filled s', run (machine size) (readLoop self total slices) s =
        some ((total + got.length, filled, self.advance got.length), s') ∧
      FsInv g size efs created entries s' ∧ s'.view = s.view ∧
      filled.flatten = spliceAt slices.flatten 0 got ∧
      filled.map List.length = slices.map List.length := by
  induction slices generalizing self total s got with
  | nil =>
      subst reads
      exact ⟨[], s, rfl, inv, rfl, rfl, rfl⟩
  | cons slice rest ih =>
      obtain ⟨s₁, ran, viewEq, inv₁⟩ := inv.readAt (List.mem_cons_of_mem _ mem) self.offset slice
      rw [List.flatten_cons, List.length_append, Spec.read_append] at reads
      have full := read_full_or_nil (self.inode.contents s.view) self.offset slice.length
        rest.flatten.length
      have fits : (Spec.read (self.inode.contents s.view) self.offset slice.length).length ≤
          slice.length := by
        rw [Spec.length_read]
        exact Nat.min_le_left _ _
      generalize Spec.read (self.inode.contents s.view) self.offset slice.length = first
        at ran reads full fits
      generalize reads₂ : Spec.read (self.inode.contents s.view) (self.offset + first.length)
        rest.flatten.length = second at reads full
      subst reads
      rw [List.flatten_cons, spliceAt_append fits full]
      by_cases empty : first.length = 0
      · -- nothing was read into a slice that has room, so nothing is left in the file
        have room : slice.length ≠ 0 := by
          rw [Ne, List.length_eq_zero_iff]
          exact nonempty slice List.mem_cons_self
        have ended : second = [] := full.resolve_left (by omega)
        obtain rfl := List.length_eq_zero_iff.mp empty
        refine ⟨spliceAt slice 0 [] :: rest, s₁, ?_, inv₁, viewEq, ?_, ?_⟩
        · rw [readLoop, run_do ran, ended]
          rfl
        · rw [ended, List.flatten_cons]
          rfl
        · rw [List.map_cons, List.map_cons, length_spliceAt (by simp)]
      · have reads₁ : Spec.read (self.inode.contents s₁.view) (self.offset + first.length)
            rest.flatten.length = second := by
          rw [viewEq]
          exact reads₂
        obtain ⟨filled, s', ran', inv', viewEq', flat, lengths⟩ := ih inv₁
          (self.advance first.length) mem (total + first.length)
          (fun other member => nonempty other (List.mem_cons_of_mem _ member)) reads₁
        refine ⟨spliceAt slice 0 first :: filled, s', ?_, inv', viewEq'.trans viewEq, ?_, ?_⟩
        · rw [readLoop, run_do ran]
          simp only [empty, if_false]
          rw [run_do ran', run_pure, List.length_append]
          simp only [advance, Nat.add_assoc]
        · rw [List.flatten_cons, flat]
        · rw [List.map_cons, List.map_cons, lengths, length_spliceAt (by omega)]

/-- The loop of `read_all` reads the rest of the file. -/
theorem readAllLoop_run (inv : FsInv g size efs created entries s) (self : OSInode)
    (mem : self.inode ∈ created.map Prod.snd) (fuel : Nat) (buffer v : List UInt8)
    (room : buffer.length = 512)
    (enough : (self.inode.contents s.view).length - self.offset < fuel) :
    ∃ s', run (machine size) (readAllLoop fuel self buffer v) s =
        some ((v ++ (self.inode.contents s.view).drop self.offset,
          { self with offset := max self.offset (self.inode.contents s.view).length }), s') ∧
      FsInv g size efs created entries s' ∧ s'.view = s.view := by
  induction fuel generalizing self s buffer v with
  | zero => omega
  | succ fuel ih =>
      obtain ⟨s₁, ran, viewEq, inv₁⟩ := inv.readAt (List.mem_cons_of_mem _ mem) self.offset buffer
      rw [room] at ran
      have length := Spec.length_read (self.inode.contents s.view) self.offset 512
      have split : Spec.read (self.inode.contents s.view) self.offset 512 ++
          (self.inode.contents s.view).drop
            (self.offset + (Spec.read (self.inode.contents s.view) self.offset 512).length) =
            (self.inode.contents s.view).drop self.offset := by
        rw [← List.drop_drop]
        exact List.prefix_iff_eq_append.mp (List.take_prefix 512 _)
      generalize Spec.read (self.inode.contents s.view) self.offset 512 = got at ran length split
      by_cases empty : got.length = 0
      · refine ⟨s₁, ?_, inv₁, viewEq⟩
        rw [readAllLoop, run_do ran]
        simp only [empty, if_true]
        rw [List.drop_eq_nil_of_le (by omega), List.append_nil,
          Nat.max_eq_left (by omega)]
        rfl
      · have filled : (spliceAt buffer 0 got).length = 512 := by
          rw [length_spliceAt (by omega), room]
        have taken : (spliceAt buffer 0 got).take got.length = got := by
          rw [spliceAt, List.take_zero, List.nil_append, List.take_left]
        obtain ⟨s', ran', inv', viewEq'⟩ := ih inv₁ (self.advance got.length) mem
          (spliceAt buffer 0 got) (v ++ got) filled (by rw [viewEq]; simp only [advance]; omega)
        refine ⟨s', ?_, inv', viewEq'.trans viewEq⟩
        rw [readAllLoop, run_do ran]
        simp only [empty, if_false]
        rw [taken, ran', viewEq, List.append_assoc]
        simp only [advance, split]
        rw [show max (self.offset + got.length) (self.inode.contents s.view).length =
          max self.offset (self.inode.contents s.view).length by omega]

end OSInode

/-- On the files of a reachable state, `write` and `read` do with the slices of a buffer what one
call of the inode does with their concatenation, and `read_all` reads the rest of the file. -/
theorem osInode_split_invariant {g : Geometry} {size : Nat} {efs : EasyFileSystem}
    {created : List (String × Inode)} {s : CacheState Block}
    (reach : Reachable g size efs created s) (self : OSInode)
    (mem : self.inode ∈ created.map Prod.snd) :
    (∀ slices, slices ≠ [] →
      CanWrite g self.inode self.offset slices.flatten.length s.view →
      ∃ n s₁ s₂, run (machine size) (self.write efs slices) s =
          some ((n, { self with offset := self.offset + n }), s₁) ∧
        run (machine size) (self.inode.writeAt efs self.offset slices.flatten) s = some (n, s₂) ∧
        n = slices.flatten.length ∧
        self.inode.contents s₁.view = self.inode.contents s₂.view ∧
        OthersKept efs created self.inode s s₁ ∧ OthersKept efs created self.inode s s₂) ∧
    (∀ slices, (∀ slice ∈ slices, slice ≠ []) →
      ∃ n filled s₁ s₂, run (machine size) (self.read slices) s =
          some ((n, filled, { self with offset := self.offset + n }), s₁) ∧
        run (machine size) (self.inode.readAt self.offset slices.flatten) s =
          some ((n, filled.flatten), s₂) ∧
        filled.map List.length = slices.map List.length ∧ s₁.view = s.view ∧ s₂.view = s.view) ∧
    ∃ rounds, ∀ fuel, rounds ≤ fuel → ∃ s', run (machine size) (self.readAll fuel) s =
        some (((self.inode.contents s.view).drop self.offset,
          { self with offset := max self.offset (self.inode.contents s.view).length }), s') ∧
      s'.view = s.view := by
  obtain ⟨entries, inv⟩ := reach.inv
  refine ⟨fun slices some can => ?_, fun slices nonempty => ?_,
    (self.inode.contents s.view).length - self.offset + 1, fun fuel enough => ?_⟩
  · obtain ⟨s₁, ran, -, contents, others⟩ := self.writeLoop_run inv mem 0 slices (.inl some) can
    obtain ⟨s₂, ran', -, contents', others'⟩ := inv.writeAt mem self.offset slices.flatten can
    rw [Nat.zero_add] at ran
    exact ⟨_, s₁, s₂, ran, ran', rfl, contents.trans contents'.symm, others, others'⟩
  · obtain ⟨filled, s₁, ran, -, viewEq, flat, lengths⟩ :=
      self.readLoop_run inv mem 0 slices nonempty rfl
    obtain ⟨s₂, ran', viewEq', -⟩ :=
      inv.readAt (List.mem_cons_of_mem _ mem) self.offset slices.flatten
    rw [Nat.zero_add] at ran
    rw [← flat] at ran'
    exact ⟨_, filled, s₁, s₂, ran, ran', lengths, viewEq, viewEq'⟩
  · obtain ⟨s', ran, -, viewEq⟩ :=
      self.readAllLoop_run inv mem fuel _ [] List.length_replicate (by omega)
    exact ⟨s', ran, viewEq⟩

/-- A file of the file system that `easy-fs-fuse` packs, written past its end in two pieces. -/
theorem osInode_split_invariant_fuse : ∃ file s s₁ s₂,
    Reachable fuseGeometry 32768 fuseGeometry.efs [("a", file)] s ∧
      run (machine 32768) (OSInode.write ⟨true, true, 2, file⟩ fuseGeometry.efs [[7], [8, 9]]) s =
        some ((3, ⟨true, true, 5, file⟩), s₁) ∧
      run (machine 32768) (file.writeAt fuseGeometry.efs 2 [7, 8, 9]) s = some (3, s₂) ∧
      file.contents s₁.view = file.contents s₂.view := by
  have blocks := fuseGeometry_dataBlocks
  have large : fuseGeometry.total.toNat ≤ 32768 := by decide
  obtain ⟨s₀, s, file, -, -, reach, empty, free⟩ :=
    fuseGeometry.exists_file large (by decide) (by omega) "a" (by decide)
  have can : CanWrite fuseGeometry file 2 [[(7 : UInt8)], [8, 9]].flatten.length s.view := by
    refine ⟨by rw [empty]; decide, ?_⟩
    rw [empty]
    have needed : blocksNeeded ([] : List UInt8).length
        (max ([] : List UInt8).length (2 + [[(7 : UInt8)], [8, 9]].flatten.length)) = 1 := by decide
    omega
  obtain ⟨writes, -, -⟩ := osInode_split_invariant reach ⟨true, true, 2, file⟩ (by simp)
  obtain ⟨n, s₁, s₂, ran, ran', len, same, -, -⟩ := writes [[7], [8, 9]] (by simp) can
  obtain rfl : n = 3 := len
  exact ⟨file, s, s₁, s₂, reach, ran, ran', same⟩

end CoreFromDust.Os.Fs
