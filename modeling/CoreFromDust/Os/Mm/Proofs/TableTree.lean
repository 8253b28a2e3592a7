import CoreFromDust.Lib.LinkTree
import CoreFromDust.Os.Mm.PageTable

/-!
# The tables of a page table form a tree

The valid entries of the tables of the first two levels are links to tables. `TableTree` says
that they form a tree of the frames of the page table, and that an entry of the last level that
is not valid is empty. Writes to an entry of the last level and the creation of a missing table
keep it, and neither touches another entry.
-/

namespace CoreFromDust.Os.Mm

/-- The table that an entry links to. -/
def Memory.next (m : Memory) (ppn index : Nat) : Option Nat :=
  if index < 512 ∧ (m.pte ppn index).isValid then some (m.pte ppn index).ppn else none

/-- The indices of a path are those of a table. -/
def Indices (path : List Nat) : Prop := ∀ index ∈ path, index < 512

/-- The links below the root form a tree of the given frames. -/
structure TableTree (m : Memory) (root : Nat) (frames : List Nat) : Prop where
  tree : Lib.Tree m.next root 2
  mem : ∀ ppn, Lib.Reaches m.next root 2 ppn → ppn ∈ frames
  nodup : frames.Nodup
  clean : ∀ path table index, path.length = 2 → Lib.walk m.next root path = some table →
    index < 512 → (m.pte table index).isValid = true ∨ m.pte table index = .empty

section Entries

variable {m m' : Memory} {ppn root index : Nat} {path frames : List Nat}

theorem next_congr (same : ∀ offset < 4096, m'.bytes ppn offset = m.bytes ppn offset)
    (index : Nat) :
    m'.next ppn index = m.next ppn index := by
  unfold Memory.next
  by_cases small : index < 512
  · rw [Memory.pte, Memory.pte, Memory.word_congr small same]
  · simp [small]

/-- The loop of `find_pte` follows the links. -/
theorem findPteFrom_concat (indices : Indices path) :
    PageTable.findPteFrom m ppn (path ++ [index]) =
      (Lib.walk m.next ppn path).map fun table => (table, index) := by
  induction path generalizing ppn with
  | nil => rfl
  | cons first path ih =>
      have small : first < 512 := indices first List.mem_cons_self
      have rest : Indices path := fun i mem => indices i (List.mem_cons_of_mem _ mem)
      have unfolded : PageTable.findPteFrom m ppn (first :: path ++ [index]) =
          if (m.pte ppn first).isValid then
            PageTable.findPteFrom m (m.pte ppn first).ppn (path ++ [index]) else none := by
        cases path <;> rfl
      rw [unfolded, Lib.walk, Memory.next]
      by_cases valid : (m.pte ppn first).isValid = true
      · rw [if_pos valid, if_pos ⟨small, valid⟩, Option.bind_some, ih rest]
      · rw [if_neg valid, if_neg fun both => valid both.2, Option.bind_none, Option.map_none]

/-- Trees of frames that keep their bytes stay. -/
theorem TableTree.congr (tree : TableTree m root frames)
    (same : ∀ ppn ∈ frames, ∀ offset < 4096, m'.bytes ppn offset = m.bytes ppn offset) :
    TableTree m' root frames := by
  have links : ∀ node, Lib.Reaches m.next root (2 - 1) node →
      ∀ i, m'.next node i = m.next node i := by
    rintro node ⟨path, short, found⟩ i
    exact next_congr (same node (tree.mem node ⟨path, by omega, found⟩)) i
  refine ⟨tree.tree.congr links, ?_, tree.nodup, ?_⟩
  · rintro ppn ⟨path, short, found⟩
    rw [Lib.walk_congr links short] at found
    exact tree.mem ppn ⟨path, short, found⟩
  · intro path table index leaf found small
    rw [Lib.walk_congr links (by omega)] at found
    have bytes := same table (tree.mem table ⟨path, by omega, found⟩)
    rw [Memory.pte, Memory.word_congr small bytes]
    exact tree.clean path table index leaf found small

theorem TableTree.walk_congr (tree : TableTree m root frames)
    (same : ∀ ppn ∈ frames, ∀ offset < 4096, m'.bytes ppn offset = m.bytes ppn offset)
    (short : path.length ≤ 2) : Lib.walk m'.next root path = Lib.walk m.next root path := by
  refine Lib.walk_congr ?_ short
  rintro node ⟨path', short', found⟩ i
  exact next_congr (same node (tree.mem node ⟨path', by omega, found⟩)) i

end Entries

/-! ## An entry of the last level -/

section Leaf

variable {m : Memory} {root table index value : Nat} {path frames : List Nat}

/-- A write to a table of the last level changes no link. -/
theorem TableTree.next_setWord (tree : TableTree m root frames)
    (found : Lib.walk m.next root path = some table) (leaf : path.length = 2) (small : index < 512)
    {node : Nat} (above : Lib.Reaches m.next root (2 - 1) node) (i : Nat) :
    (m.setWord table index value).next node i = m.next node i := by
  have differ : node ≠ table := by
    rintro rfl
    exact tree.tree.leaf_not_above found leaf (by decide) above
  exact next_congr (fun offset bound => m.bytes_setWord_other small differ bound) i

theorem TableTree.walk_setWord (tree : TableTree m root frames)
    (found : Lib.walk m.next root path = some table) (leaf : path.length = 2) (small : index < 512)
    {path' : List Nat} (short : path'.length ≤ 2) :
    Lib.walk (m.setWord table index value).next root path' = Lib.walk m.next root path' :=
  Lib.walk_congr (fun _ above i => tree.next_setWord found leaf small above i) short

theorem TableTree.setWord (tree : TableTree m root frames)
    (found : Lib.walk m.next root path = some table) (leaf : path.length = 2) (small : index < 512)
    (word : value < 2 ^ 64)
    (clean : (⟨value⟩ : PageTableEntry).isValid = true ∨ (⟨value⟩ : PageTableEntry) = .empty) :
    TableTree (m.setWord table index value) root frames := by
  refine ⟨tree.tree.congr fun _ above i => tree.next_setWord found leaf small above i, ?_,
    tree.nodup, ?_⟩
  · rintro ppn ⟨path', short, found'⟩
    rw [tree.walk_setWord found leaf small short] at found'
    exact tree.mem ppn ⟨path', short, found'⟩
  · intro path' table' index' leaf' found' small'
    rw [tree.walk_setWord found leaf small (by omega)] at found'
    by_cases here : table' = table ∧ index' = index
    · obtain ⟨rfl, rfl⟩ := here
      rw [Memory.pte, Memory.word_setWord _ word]
      exact clean
    · rw [Memory.pte, Memory.word_setWord_other _ _ small small' (not_and_or.mp here)]
      exact tree.clean path' table' index' leaf' found' small'

end Leaf

/-! ## A new table -/

section Link

variable {l root parent index fresh : Nat} {s s' : Phys} {path frames : List Nat}

/-- The entries of a new table are empty. -/
theorem Phys.Allocated.pte_fresh (alloc : Phys.Allocated l fresh s s')
    (inUse : ∀ ppn ∈ frames, s.InUse l ppn) (mem : parent ∈ frames) (small : index < 512) {i : Nat}
    (inTable : i < 512) (pte : PageTableEntry) :
    (s'.setPte parent index pte).mem.pte fresh i = .empty := by
  have differ : fresh ≠ parent := by
    rintro rfl
    exact alloc.fresh (inUse fresh mem)
  simp only [Phys.setPte, Memory.pte, PageTableEntry.empty, PageTableEntry.mk.injEq]
  rw [Memory.word_setWord_other _ i small inTable (.inl differ), alloc.mem,
    Memory.word_fill_zero _ inTable]

/-- The entries of the other tables stay. -/
theorem Phys.Allocated.pte_old (alloc : Phys.Allocated l fresh s s')
    (inUse : ∀ ppn ∈ frames, s.InUse l ppn) (small : index < 512) {table i : Nat}
    (mem : table ∈ frames) (inTable : i < 512)
    (apart : table ≠ parent ∨ i ≠ index) (pte : PageTableEntry) :
    (s'.setPte parent index pte).mem.pte table i = s.mem.pte table i := by
  have differ : table ≠ fresh := by
    rintro rfl
    exact alloc.fresh (inUse table mem)
  simp only [Phys.setPte, Memory.pte, PageTableEntry.mk.injEq]
  rw [Memory.word_setWord_other _ i small inTable apart, alloc.mem]
  exact Memory.word_congr inTable fun offset bound => s.mem.bytes_fill_other _ differ bound

/-- The links after a missing table has been created. -/
theorem TableTree.linked (tree : TableTree s.mem root frames)
    (inUse : ∀ ppn ∈ frames, s.InUse l ppn) (alloc : Phys.Allocated l fresh s s')
    (found : Lib.walk s.mem.next root path = some parent) (above : path.length < 2)
    (small : index < 512) (free : s.mem.next parent index = none) :
    Lib.Linked s.mem.next (s'.setPte parent index (.new fresh PTEFlags.v)).mem.next
      root 2 path parent index fresh := by
  have freshSmall := (((alloc.inUse fresh).mpr (.inr rfl)).lt alloc.ok).2.2
  have parentMem := tree.mem parent ⟨path, by omega, found⟩
  have entry : (s'.setPte parent index (.new fresh PTEFlags.v)).mem.pte parent index =
      .new fresh PTEFlags.v := by
    simp only [Phys.setPte, Memory.pte, Memory.word_setWord _
      (PageTableEntry.new_bits_lt PTEFlags.v freshSmall)]
  refine ⟨found, above, free, ?_, ?_, ?_, ?_⟩
  · intro reached
    exact alloc.fresh (inUse fresh (tree.mem fresh reached))
  · have valid : (PageTableEntry.new fresh PTEFlags.v).isValid = true :=
      PageTableEntry.isValid_new 0 freshSmall
    rw [Memory.next, entry, if_pos ⟨small, valid⟩, PageTableEntry.ppn_new _ freshSmall]
  · intro i
    by_cases inTable : i < 512
    · rw [Memory.next, alloc.pte_fresh inUse parentMem small inTable,
        if_neg (by simp [PageTableEntry.not_isValid_empty])]
    · simp [Memory.next, inTable]
  · intro node i reached apart
    by_cases inTable : i < 512
    · rw [Memory.next, Memory.next, alloc.pte_old inUse small (tree.mem node reached) inTable apart]
    · simp [Memory.next, inTable]

theorem TableTree.link (tree : TableTree s.mem root frames)
    (inUse : ∀ ppn ∈ frames, s.InUse l ppn) (alloc : Phys.Allocated l fresh s s')
    (small : index < 512)
    (linked : Lib.Linked s.mem.next (s'.setPte parent index (.new fresh PTEFlags.v)).mem.next root 2
      path parent index fresh) :
    TableTree (s'.setPte parent index (.new fresh PTEFlags.v)).mem root (frames ++ [fresh]) := by
  have above := linked.above
  have parentMem := tree.mem parent ⟨path, by omega, linked.found⟩
  refine ⟨linked.tree tree.tree, ?_, ?_, ?_⟩
  · intro ppn reached
    rcases linked.reaches tree.tree reached with old | rfl
    · exact List.mem_append_left _ (tree.mem ppn old)
    · exact List.mem_append_right _ List.mem_cons_self
  · refine List.nodup_append.mpr ⟨tree.nodup, List.nodup_singleton _, ?_⟩
    rintro ppn mem other isFresh rfl
    rw [List.mem_singleton] at isFresh
    subst isFresh
    exact alloc.fresh (inUse ppn mem)
  · intro path' table i leaf found inTable
    rw [linked.walk_eq tree.tree (by omega)] at found
    split at found
    · rw [Option.some.injEq] at found
      subst found
      exact .inr (alloc.pte_fresh inUse parentMem small inTable _)
    · have differ : table ≠ parent := by
        rintro rfl
        have same := tree.tree path' path table (by omega) (by omega) found linked.found
        subst same
        omega
      have mem := tree.mem table ⟨path', by omega, found⟩
      rw [alloc.pte_old inUse small mem inTable (.inl differ)]
      exact tree.clean path' table i leaf found inTable

end Link

end CoreFromDust.Os.Mm
