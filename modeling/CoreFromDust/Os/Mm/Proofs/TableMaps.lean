import CoreFromDust.Os.Mm.Proofs.FrameUse
import CoreFromDust.Os.Mm.Proofs.TableTree

/-!
# What `map` and `unmap` do

The entry of a page is found over the tables of the first two levels. `findPteCreate` adds the
tables that are missing and leaves every valid entry as it is; `map` and `unmap` then change the
entry of one page.
-/

namespace CoreFromDust.Os.Mm

/-! ## The path of a page -/

/-- The indices of a page in the tables of the first two levels. -/
def upper (vpn : Nat) : List Nat := [vpn / 2 ^ 18 % 512, vpn / 2 ^ 9 % 512]

/-- The index of a page in its table of the last level. -/
def lower (vpn : Nat) : Nat := vpn % 512

theorem lower_lt (vpn : Nat) : lower vpn < 512 := Nat.mod_lt _ (by decide)

theorem upper_length (vpn : Nat) : (upper vpn).length = 2 := rfl

theorem indices_upper (vpn : Nat) : Indices (upper vpn) := by
  intro index mem
  simp only [upper, List.mem_cons, List.not_mem_nil, or_false] at mem
  rcases mem with rfl | rfl
  · exact Nat.mod_lt _ (by decide)
  · exact Nat.mod_lt _ (by decide)

/-- A page is determined by its indices. -/
theorem eq_of_indexes {vpn vpn' : Nat} (small : vpn < 2 ^ 27) (small' : vpn' < 2 ^ 27)
    (sameUpper : upper vpn = upper vpn') (sameLower : lower vpn = lower vpn') : vpn = vpn' := by
  simp only [upper, lower, List.cons.injEq, and_true] at sameUpper sameLower
  omega

/-- The valid entry at an index of the table at the end of a path. -/
def Memory.leaf (m : Memory) (root : Nat) (path : List Nat) (index : Nat) : Option PageTableEntry :=
  ((Lib.walk m.next root path).map fun table => m.pte table index).filter PageTableEntry.isValid

namespace PageTable

variable {t : PageTable} {m : Memory} {vpn : Nat}

theorem findPte_eq : t.findPte m vpn =
    (Lib.walk m.next t.rootPpn (upper vpn)).map fun table => (table, lower vpn) :=
  findPteFrom_concat (indices_upper vpn)

theorem translate_eq : t.translate m vpn =
    (Lib.walk m.next t.rootPpn (upper vpn)).map fun table => m.pte table (lower vpn) := by
  rw [translate, findPte_eq, Option.map_map]
  rfl

theorem lookup_eq : t.lookup m vpn = m.leaf t.rootPpn (upper vpn) (lower vpn) := by
  rw [lookup, translate_eq, Memory.leaf]

end PageTable

/-! ## Missing tables -/

section Create

variable {l root table index : Nat} {s s' : Phys} {path frames : List Nat}

/-- What `find_pte_create` does to the tables of a page table. -/
structure Grown (l root : Nat) (s s' : Phys) (frames frames' : List Nat) : Prop where
  changes : Changes l s s' frames frames'
  tree : TableTree s'.mem root frames'
  leaf : ∀ path index, path.length = 2 → index < 512 →
    s'.mem.leaf root path index = s.mem.leaf root path index

theorem Grown.trans {s'' : Phys} {frames' frames'' : List Nat}
    (first : Grown l root s s' frames frames')
    (second : Grown l root s' s'' frames' frames'') : Grown l root s s'' frames frames'' where
  changes := first.changes.trans second.changes
  tree := second.tree
  leaf := fun path index leaf small =>
    (second.leaf path index leaf small).trans (first.leaf path index leaf small)

theorem Grown.refl (ok : s.Ok l) (tree : TableTree s.mem root frames)
    (inUse : ∀ ppn ∈ frames, s.InUse l ppn) : Grown l root s s frames frames :=
  ⟨.refl ok inUse, tree, fun _ _ _ _ => rfl⟩

/-- The tables after a missing one has been created. -/
theorem Grown.link {fresh : Nat} (tree : TableTree s.mem root frames)
    (inUse : ∀ ppn ∈ frames, s.InUse l ppn) (alloc : Phys.Allocated l fresh s s')
    (found : Lib.walk s.mem.next root path = some table) (above : path.length < 2)
    (small : index < 512) (free : s.mem.next table index = none) :
    Grown l root s (s'.setPte table index (.new fresh PTEFlags.v)) frames (frames ++ [fresh]) := by
  have linked := tree.linked inUse alloc found above small free
  have mem := tree.mem table ⟨path, by omega, found⟩
  have allocated := Changes.alloc alloc inUse
  refine ⟨allocated.trans (.setPte allocated.ok (fun _ own => allocated.mem_inUse own)
    (List.mem_append_left _ mem) small _), tree.link inUse alloc small linked, ?_⟩
  intro path' i isLeaf inTable
  unfold Memory.leaf
  rw [linked.walk_eq tree.tree (by omega)]
  split
  · next isNew =>
    -- the new table has no valid entry, and there was no table before
    subst isNew
    rw [Lib.walk_concat, found, Option.bind_some, free, Option.map_none, Option.map_some,
      alloc.pte_fresh inUse mem small inTable]
    rfl
  · cases found' : Lib.walk s.mem.next root path' with
    | none => simp only [Option.map_none]
    | some table' =>
        have differ : table' ≠ table := by
          rintro rfl
          have same := tree.tree path' path table' (by omega) (by omega) found' found
          subst same
          omega
        have mem' := tree.mem table' ⟨path', by omega, found'⟩
        rw [Option.map_some, Option.map_some, alloc.pte_old inUse small mem' inTable (.inl differ)]

/-- The number of frames that can still be allocated. -/
def Phys.freeFrames (s : Phys) : Nat :=
  s.allocator.recycled.length + (s.allocator.endPpn - s.allocator.current)

/-- The number of tables that are missing on the way to an entry. -/
def missingTables (m : Memory) (ppn : Nat) : List Nat → Nat
  | [] => 0
  | [_] => 0
  | index :: idxs =>
      if (m.pte ppn index).isValid then missingTables m (m.pte ppn index).ppn idxs else idxs.length

theorem frameAlloc_isSome (ok : s.Ok l) : s.frameAlloc.isSome ↔ 0 < s.freeFrames := by
  rw [← Option.ne_none_iff_isSome, Ne, Phys.frameAlloc_eq_none, ← List.length_eq_zero_iff,
    Phys.freeFrames]
  have le := ok.le
  omega

theorem freeFrames_alloc {ppn : Nat} (ok : s.Ok l) (h : s.frameAlloc = some (ppn, s')) :
    s'.freeFrames + 1 = s.freeFrames := by
  have le := ok.le
  unfold Phys.frameAlloc StackFrameAllocator.alloc at h
  unfold Phys.freeFrames
  split at h
  · next first rest recycled =>
    simp only [Option.map_some, Option.some.injEq, Prod.mk.injEq] at h
    obtain ⟨-, rfl⟩ := h
    simp only [recycled, List.length_cons]
    omega
  · next recycled =>
    split at h
    · simp at h
    · simp only [Option.map_some, Option.some.injEq, Prod.mk.injEq] at h
      obtain ⟨-, rfl⟩ := h
      simp only [recycled, List.length_nil]
      omega

/-- The loop of `find_pte_create` for a path of at least one more link. -/
theorem findPteCreateFrom_cons (s : Phys) (frames : List Nat) (ppn first : Nat) (rest : List Nat)
    (index : Nat) : PageTable.findPteCreateFrom s frames ppn (first :: rest ++ [index]) =
      if (s.mem.pte ppn first).isValid then
        PageTable.findPteCreateFrom s frames (s.mem.pte ppn first).ppn (rest ++ [index])
      else
        s.frameAlloc.bind fun (frame, s) =>
          let s := s.setPte ppn first (.new frame PTEFlags.v)
          PageTable.findPteCreateFrom s (frames ++ [frame]) (s.mem.pte ppn first).ppn
            (rest ++ [index]) := by
  cases rest <;> rfl

theorem missingTables_cons (m : Memory) (ppn first : Nat) (rest : List Nat) (index : Nat) :
    missingTables m ppn (first :: rest ++ [index]) =
      if (m.pte ppn first).isValid then missingTables m (m.pte ppn first).ppn (rest ++ [index])
      else rest.length + 1 := by
  cases rest <;> simp [missingTables]

theorem next_eq_none {m : Memory} {ppn : Nat} (invalid : ¬ (m.pte ppn index).isValid = true) :
    m.next ppn index = none := by
  rw [Memory.next, if_neg fun both => invalid both.2]

theorem next_eq_some {m : Memory} {ppn : Nat} (small : index < 512)
    (valid : (m.pte ppn index).isValid = true) : m.next ppn index = some (m.pte ppn index).ppn := by
  rw [Memory.next, if_pos ⟨small, valid⟩]

theorem pte_setPte (s : Phys) (table index : Nat) (pte : PageTableEntry)
    (small : pte.bits < 2 ^ 64) :
    (s.setPte table index pte).mem.pte table index = pte := by
  simp only [Phys.setPte, Memory.pte, Memory.word_setWord _ small]

theorem Phys.Allocated.small {fresh : Nat} (alloc : Phys.Allocated l fresh s s') : fresh < 2 ^ 44 :=
  (((alloc.inUse fresh).mpr (.inr rfl)).lt alloc.ok).2.2

/-- The entry of a new table leads to it. -/
theorem ppn_setPte_new {fresh : Nat} (alloc : Phys.Allocated l fresh s s') (table index : Nat) :
    ((s'.setPte table index (.new fresh PTEFlags.v)).mem.pte table index).ppn = fresh := by
  rw [pte_setPte _ _ _ _ (PageTableEntry.new_bits_lt _ alloc.small),
    PageTableEntry.ppn_new _ alloc.small]

/-- When it returns, the loop of `find_pte_create` has found the table of the last level. -/
theorem findPteCreateFrom_grown {rest : List Nat} {ppn : Nat} {frames' : List Nat}
    {place : Nat × Nat} (ok : s.Ok l) (tree : TableTree s.mem root frames)
    (inUse : ∀ ppn ∈ frames, s.InUse l ppn) (found : Lib.walk s.mem.next root path = some ppn)
    (deep : path.length + rest.length = 2) (indices : Indices rest)
    (h : PageTable.findPteCreateFrom s frames ppn (rest ++ [index]) = some (s', frames', place)) :
    Grown l root s s' frames frames' ∧
      Lib.walk s'.mem.next root (path ++ rest) = some place.1 ∧ place.2 = index := by
  induction rest generalizing s frames ppn path with
  | nil =>
      simp only [List.nil_append, PageTable.findPteCreateFrom, Option.some.injEq,
        Prod.mk.injEq] at h
      obtain ⟨rfl, rfl, rfl⟩ := h
      exact ⟨.refl ok tree inUse, by rwa [List.append_nil], rfl⟩
  | cons first rest ih =>
      have small : first < 512 := indices first List.mem_cons_self
      have indices' : Indices rest := fun i mem => indices i (List.mem_cons_of_mem _ mem)
      rw [List.length_cons] at deep
      have deep' : (path ++ [first]).length + rest.length = 2 := by
        rw [List.length_append, List.length_singleton]
        omega
      rw [List.append_cons]
      rw [findPteCreateFrom_cons] at h
      split at h
      · next valid =>
        have further :
            Lib.walk s.mem.next root (path ++ [first]) = some (s.mem.pte ppn first).ppn := by
          rw [Lib.walk_concat, found, Option.bind_some, next_eq_some small valid]
        exact ih ok tree inUse further deep' indices' h
      · next invalid =>
        obtain ⟨⟨fresh, allocated⟩, isAlloc, h⟩ := Option.bind_eq_some_iff.mp h
        have alloc := Phys.frameAlloc_spec ok isAlloc
        have free := next_eq_none invalid
        have grown := Grown.link tree inUse alloc found (by omega) small free
        have linked := tree.linked inUse alloc found (by omega) small free
        simp only [ppn_setPte_new alloc] at h
        have further := linked.walk_new tree.tree
        obtain ⟨grown', last, isIndex⟩ := ih grown.changes.ok grown.tree
          (fun _ mem => grown.changes.mem_inUse mem) further deep' indices' h
        exact ⟨grown.trans grown', last, isIndex⟩

/-- The loop of `find_pte_create` panics exactly when there are not enough frames. -/
theorem findPteCreateFrom_eq_none {rest : List Nat} {ppn : Nat} (ok : s.Ok l)
    (tree : TableTree s.mem root frames) (inUse : ∀ ppn ∈ frames, s.InUse l ppn)
    (found : Lib.walk s.mem.next root path = some ppn) (deep : path.length + rest.length = 2)
    (indices : Indices rest) :
    PageTable.findPteCreateFrom s frames ppn (rest ++ [index]) = none ↔
      s.freeFrames < missingTables s.mem ppn (rest ++ [index]) := by
  induction rest generalizing s frames ppn path with
  | nil => simp [PageTable.findPteCreateFrom, missingTables]
  | cons first rest ih =>
      have small : first < 512 := indices first List.mem_cons_self
      have indices' : Indices rest := fun i mem => indices i (List.mem_cons_of_mem _ mem)
      rw [List.length_cons] at deep
      have deep' : (path ++ [first]).length + rest.length = 2 := by
        rw [List.length_append, List.length_singleton]
        omega
      rw [findPteCreateFrom_cons, missingTables_cons]
      split
      · next valid =>
        have further :
            Lib.walk s.mem.next root (path ++ [first]) = some (s.mem.pte ppn first).ppn := by
          rw [Lib.walk_concat, found, Option.bind_some, next_eq_some small valid]
        exact ih ok tree inUse further deep' indices'
      · next invalid =>
        cases isAlloc : s.frameAlloc with
        | none =>
            have none : ¬ 0 < s.freeFrames := by
              rw [← frameAlloc_isSome ok, isAlloc]
              simp
            rw [Option.bind_none]
            simp only [true_iff]
            omega
        | some result =>
            obtain ⟨fresh, allocated⟩ := result
            have alloc := Phys.frameAlloc_spec ok isAlloc
            have free := next_eq_none invalid
            have grown := Grown.link tree inUse alloc found (by omega) small free
            have linked := tree.linked inUse alloc found (by omega) small free
            have further := linked.walk_new tree.tree
            have count := freeFrames_alloc ok isAlloc
            rw [Option.bind_some]
            simp only [ppn_setPte_new alloc]
            rw [ih grown.changes.ok grown.tree
              (fun _ mem => grown.changes.mem_inUse mem) further deep' indices']
            -- a new table has no entries
            have remaining :
                missingTables (allocated.setPte ppn first (.new fresh PTEFlags.v)).mem fresh
                (rest ++ [index]) = rest.length := by
              cases rest with
              | nil => rfl
              | cons second rest =>
                  have noLink := linked.noLinks second
                  have inTable : second < 512 := indices' second List.mem_cons_self
                  rw [missingTables_cons, if_neg, List.length_cons]
                  intro valid
                  rw [next_eq_some inTable valid] at noLink
                  exact absurd noLink (by simp)
            rw [remaining]
            change allocated.freeFrames < rest.length ↔ _
            omega

end Create

/-! ## The entry of a page -/

namespace PageTable

variable {l vpn ppn : Nat} {s s' : Phys} {t t' : PageTable} {flags : UInt8}

/-- The frames of a page table are its tables, and they are in use. -/
structure Owned (l : Nat) (s : Phys) (t : PageTable) : Prop where
  ok : s.Ok l
  tree : TableTree s.mem t.rootPpn t.frames
  inUse : ∀ ppn ∈ t.frames, s.InUse l ppn

/-- A page table in memory has changed at most in the entry of one page. -/
structure Updated (l vpn : Nat) (entry : Option PageTableEntry) (s s' : Phys) (t t' : PageTable) :
    Prop where
  rootPpn : t'.rootPpn = t.rootPpn
  changes : Changes l s s' t.frames t'.frames
  tree : TableTree s'.mem t'.rootPpn t'.frames
  entry : t'.lookup s'.mem vpn = entry
  other : ∀ vpn' < 2 ^ 27, vpn' ≠ vpn → t'.lookup s'.mem vpn' = t.lookup s.mem vpn'

theorem Updated.owned {entry : Option PageTableEntry} (updated : Updated l vpn entry s s' t t') :
    t'.Owned l s' :=
  ⟨updated.changes.ok, updated.tree, fun _ mem => updated.changes.mem_inUse mem⟩

theorem Owned.root_mem (owned : t.Owned l s) : t.rootPpn ∈ t.frames :=
  owned.tree.mem _ ⟨[], by simp, rfl⟩

/-- The entries of a page table depend on the bytes of its tables. -/
theorem Owned.translate_congr (owned : t.Owned l s) {m : Memory}
    (same : ∀ ppn ∈ t.frames, SameFrame s.mem m ppn) (vpn : Nat) :
    t.translate m vpn = t.translate s.mem vpn := by
  rw [translate_eq, translate_eq, owned.tree.walk_congr same (by simp [upper_length])]
  cases found : Lib.walk s.mem.next t.rootPpn (upper vpn) with
  | none => simp only [Option.map_none]
  | some table =>
      have mem := owned.tree.mem table ⟨upper vpn, by simp [upper_length], found⟩
      rw [Option.map_some, Option.map_some, Memory.pte, Memory.pte,
        Memory.word_congr (lower_lt vpn) (same table mem)]

theorem Owned.congr (owned : t.Owned l s) (ok : s'.Ok l) (inUse : ∀ ppn ∈ t.frames, s'.InUse l ppn)
    (same : ∀ ppn ∈ t.frames, SameFrame s.mem s'.mem ppn) : t.Owned l s' :=
  ⟨ok, owned.tree.congr same, inUse⟩

/-- An entry that is not valid is empty. -/
theorem Owned.translate_clean (owned : t.Owned l s) {pte : PageTableEntry}
    (found : t.translate s.mem vpn = some pte) : pte.isValid = true ∨ pte = .empty := by
  rw [translate_eq] at found
  obtain ⟨table, walk, rfl⟩ := Option.map_eq_some_iff.mp found
  exact owned.tree.clean (upper vpn) table (lower vpn) (upper_length vpn) walk (lower_lt vpn)

theorem new_spec (ok : s.Ok l) (h : new s = some (s', t)) :
    t.Owned l s' ∧ Changes l s s' [] t.frames ∧ ∀ vpn, t.translate s'.mem vpn = none := by
  obtain ⟨⟨frame, allocated⟩, isAlloc, h⟩ := Option.map_eq_some_iff.mp h
  obtain ⟨rfl, rfl⟩ := Prod.mk.inj h
  have alloc := Phys.frameAlloc_spec ok isAlloc
  have changes : Changes l s allocated [] [frame] := Changes.alloc alloc (by simp)
  have noLinks : ∀ index, allocated.mem.next frame index = none := by
    intro index
    by_cases small : index < 512
    · refine next_eq_none ?_
      rw [alloc.mem, Memory.pte, Memory.word_fill_zero _ small]
      simp [PageTableEntry.isValid, PageTableEntry.flags]
    · simp [Memory.next, small]
  have paths : ∀ path ppn, Lib.walk allocated.mem.next frame path = some ppn →
      path = [] ∧ ppn = frame := by
    intro path ppn found
    cases path with
    | nil => exact ⟨rfl, (Option.some.inj found).symm⟩
    | cons index path =>
        rw [Lib.walk, noLinks, Option.bind_none] at found
        exact absurd found (by simp)
  refine ⟨⟨alloc.ok, ⟨?_, ?_, List.nodup_singleton _, ?_⟩, fun _ mem => changes.mem_inUse mem⟩,
    changes, ?_⟩
  · intro path path' ppn _ _ found found'
    rw [(paths path ppn found).1, (paths path' ppn found').1]
  · rintro ppn ⟨path, -, found⟩
    exact List.mem_singleton.mpr (paths path ppn found).2
  · intro path table index leaf found
    rw [(paths path table found).1] at leaf
    exact absurd leaf (by simp)
  · intro vpn
    rw [translate_eq, upper, Lib.walk, noLinks]
    rfl

/-- `find_pte_create` finds the table of the page. -/
theorem findPteCreate_spec (owned : t.Owned l s) {place : Nat × Nat}
    (h : t.findPteCreate s vpn = some (s', t', place)) :
    t'.rootPpn = t.rootPpn ∧ Grown l t.rootPpn s s' t.frames t'.frames ∧
      Lib.walk s'.mem.next t.rootPpn (upper vpn) = some place.1 ∧ place.2 = lower vpn := by
  obtain ⟨⟨grownPhys, frames, found⟩, isFound, h⟩ := Option.map_eq_some_iff.mp h
  simp only [Prod.mk.injEq] at h
  obtain ⟨rfl, rfl, rfl⟩ := h
  have start : Lib.walk s.mem.next t.rootPpn [] = some t.rootPpn := rfl
  exact ⟨rfl, findPteCreateFrom_grown owned.ok owned.tree owned.inUse start (by simp)
    (indices_upper vpn) isFound⟩

theorem findPteCreate_eq_none (owned : t.Owned l s) : t.findPteCreate s vpn = none ↔
    s.freeFrames < missingTables s.mem t.rootPpn (indexes vpn) := by
  have start : Lib.walk s.mem.next t.rootPpn [] = some t.rootPpn := rfl
  rw [findPteCreate, Option.map_eq_none_iff]
  exact findPteCreateFrom_eq_none owned.ok owned.tree owned.inUse start (by simp [upper_length])
    (indices_upper vpn)

/-- Writing the entry of a page whose table exists. -/
theorem updated_setPte (owned : t.Owned l s) {table : Nat} (small : vpn < 2 ^ 27)
    (found : Lib.walk s.mem.next t.rootPpn (upper vpn) = some table) (pte : PageTableEntry)
    (bits : pte.bits < 2 ^ 64) (clean : pte.isValid = true ∨ pte = .empty) :
    Updated l vpn ((some pte).filter PageTableEntry.isValid) s
    (s.setPte table (lower vpn) pte) t t := by
  have index := lower_lt vpn
  have mem := owned.tree.mem table ⟨upper vpn, by simp [upper_length], found⟩
  have walks : ∀ path : List Nat, path.length ≤ 2 →
      Lib.walk (s.setPte table (lower vpn) pte).mem.next t.rootPpn path =
        Lib.walk s.mem.next t.rootPpn path :=
    fun path short => owned.tree.walk_setWord found (upper_length vpn) index short
  refine ⟨rfl, .setPte owned.ok owned.inUse mem index pte,
    owned.tree.setWord found (upper_length vpn) index bits clean, ?_, ?_⟩
  · rw [lookup_eq, Memory.leaf, walks _ (by simp [upper_length]), found, Option.map_some,
      pte_setPte _ _ _ _ bits]
  · intro vpn' small' differ
    rw [lookup_eq, lookup_eq, Memory.leaf, Memory.leaf, walks _ (by simp [upper_length])]
    cases found' : Lib.walk s.mem.next t.rootPpn (upper vpn') with
    | none => simp only [Option.map_none]
    | some table' =>
        have apart : table' ≠ table ∨ lower vpn' ≠ lower vpn := by
          by_contra both
          rw [not_or, not_not, not_not] at both
          obtain ⟨rfl, sameLower⟩ := both
          have sameUpper :=
            owned.tree.tree _ _ table' (by simp [upper_length]) (by simp [upper_length])
            found' found
          exact differ (eq_of_indexes small' small sameUpper sameLower)
        have same : (s.setPte table (lower vpn) pte).mem.pte table' (lower vpn') =
            s.mem.pte table' (lower vpn') := by
          simp only [Phys.setPte, Memory.pte, PageTableEntry.mk.injEq]
          exact Memory.word_setWord_other _ _ index (lower_lt vpn') apart
        rw [Option.map_some, Option.map_some, same]

/-- `map` sets the entry of a page that has no valid one. -/
theorem map_spec (owned : t.Owned l s) (small : vpn < 2 ^ 27) (smallPpn : ppn < 2 ^ 44)
    (h : t.map s vpn ppn flags = some (s', t')) :
    t.lookup s.mem vpn = none ∧
      Updated l vpn (some (.new ppn (flags ||| PTEFlags.v))) s s' t t' := by
  obtain ⟨⟨grownPhys, grownTable, place⟩, found, h⟩ := Option.bind_eq_some_iff.mp h
  obtain ⟨sameRoot, grown, walk, isLower⟩ := findPteCreate_spec owned found
  simp only at h
  split at h
  · simp at h
  · next free =>
    obtain ⟨rfl, rfl⟩ := Prod.mk.inj (Option.some.inj h)
    have grownOwned : grownTable.Owned l grownPhys := by
      refine ⟨grown.changes.ok, ?_, fun _ mem => grown.changes.mem_inUse mem⟩
      rw [sameRoot]
      exact grown.tree
    have leaf :=
      fun vpn' => grown.leaf (upper vpn') (lower vpn') (upper_length vpn') (lower_lt vpn')
    rw [isLower] at free ⊢
    rw [← sameRoot] at walk
    have written := updated_setPte grownOwned small walk (.new ppn (flags ||| PTEFlags.v))
      (PageTableEntry.new_bits_lt _ smallPpn) (.inl (PageTableEntry.isValid_new flags smallPpn))
    rw [Option.filter_some_pos (PageTableEntry.isValid_new flags smallPpn)] at written
    refine ⟨?_, written.rootPpn.trans sameRoot, grown.changes.trans written.changes, written.tree,
      written.entry, ?_⟩
    · rw [lookup_eq, ← leaf, Memory.leaf, ← sameRoot, walk, Option.map_some,
        Option.filter_some_neg (by simpa using free)]
    · intro vpn' small' differ
      rw [written.other vpn' small' differ, lookup_eq, lookup_eq, sameRoot, leaf]

/-- `map` panics exactly when the page is mapped or the frames do not suffice for its tables. -/
theorem map_eq_none (owned : t.Owned l s) : t.map s vpn ppn flags = none ↔
    t.Maps s.mem vpn ∨ s.freeFrames < missingTables s.mem t.rootPpn (indexes vpn) := by
  rw [map, Maps, ← findPteCreate_eq_none owned]
  cases found : t.findPteCreate s vpn with
  | none => simp
  | some result =>
      obtain ⟨grownPhys, grownTable, place⟩ := result
      obtain ⟨sameRoot, grown, walk, isLower⟩ := findPteCreate_spec owned found
      have leaf := grown.leaf (upper vpn) (lower vpn) (upper_length vpn) (lower_lt vpn)
      have isLeaf : t.lookup s.mem vpn =
          (some (grownPhys.mem.pte place.1 (lower vpn))).filter PageTableEntry.isValid := by
        rw [lookup_eq, ← leaf, Memory.leaf, walk, Option.map_some]
      simp only [Option.bind_some, isLower, isLeaf, reduceCtorEq, or_false]
      by_cases valid : (grownPhys.mem.pte place.1 (lower vpn)).isValid = true
      · simp [valid]
      · simp [valid]

/-- `unmap` clears the entry of a mapped page. -/
theorem unmap_spec (owned : t.Owned l s) (small : vpn < 2 ^ 27) (h : t.unmap s vpn = some s') :
    t.Maps s.mem vpn ∧ Updated l vpn none s s' t t := by
  obtain ⟨place, found, h⟩ := Option.bind_eq_some_iff.mp h
  rw [findPte_eq] at found
  obtain ⟨table, walk, rfl⟩ := Option.map_eq_some_iff.mp found
  split at h
  · next valid =>
    obtain rfl := Option.some.inj h
    have written :=
      updated_setPte owned small walk .empty (by simp [PageTableEntry.empty]) (.inr rfl)
    refine ⟨?_, written⟩
    rw [Maps, lookup_eq, Memory.leaf, walk, Option.map_some, Option.filter_some_pos valid,
      Option.isSome_some]
  · simp at h

/-- `unmap` panics exactly when the page is not mapped. -/
theorem unmap_eq_none : t.unmap s vpn = none ↔ ¬ t.Maps s.mem vpn := by
  rw [unmap, Maps, lookup, translate]
  cases found : t.findPte s.mem vpn with
  | none => simp
  | some place =>
      by_cases valid : (s.mem.pte place.1 place.2).isValid = true
      · simp [valid]
      · simp [valid]

/-- The token names the root table. -/
theorem rootPpn_fromToken (small : t.rootPpn < 2 ^ 44) :
    (fromToken t.token).rootPpn = t.rootPpn := by
  have joined := Nat.shiftLeft_add_eq_or_of_lt (i := 60) (b := t.rootPpn) (by omega) 8
  rw [Nat.shiftLeft_eq] at joined
  simp only [fromToken, token, ← joined, physPageNum]
  omega

end PageTable

end CoreFromDust.Os.Mm
