import Mathlib.Data.List.Induction

/-!
# Trees of linked nodes

Nodes hold links to other nodes, one for each index: `next node i`. `walk` follows a path of
indices. `Tree next root depth` says that no two paths of at most `depth` indices from `root`
lead to the same node. A change of links that no such path uses leaves the walks as they are,
and a link from a node of the tree to a fresh node adds one path.
-/

namespace CoreFromDust.Lib

variable {α ι : Type}

/-- Follow a path of links. -/
def walk (next : α → ι → Option α) : α → List ι → Option α
  | node, [] => some node
  | node, i :: path => (next node i).bind fun child => walk next child path

/-- Different paths of at most `depth` links lead to different nodes. -/
def Tree (next : α → ι → Option α) (root : α) (depth : Nat) : Prop :=
  ∀ path path' node, path.length ≤ depth → path'.length ≤ depth →
    walk next root path = some node → walk next root path' = some node → path = path'

/-- The nodes of the tree. -/
def Reaches (next : α → ι → Option α) (root : α) (depth : Nat) (node : α) : Prop :=
  ∃ path : List ι, path.length ≤ depth ∧ walk next root path = some node

section Walk

variable {next next' : α → ι → Option α} {root node parent fresh : α} {path : List ι} {index : ι}
  {depth : Nat}

theorem walk_append (next : α → ι → Option α) (root : α) (path rest : List ι) :
    walk next root (path ++ rest) = (walk next root path).bind fun node => walk next node rest := by
  induction path generalizing root with
  | nil => rfl
  | cons i path ih =>
      simp only [List.cons_append, walk, Option.bind_assoc]
      exact Option.bind_congr fun child _ => ih child

theorem walk_concat (next : α → ι → Option α) (root : α) (path : List ι) (i : ι) :
    walk next root (path ++ [i]) = (walk next root path).bind fun node => next node i := by
  rw [walk_append]
  refine Option.bind_congr fun node _ => ?_
  simp only [walk, Option.bind_fun_some]

/-- Links that no node above the leaves holds do not matter. -/
theorem walk_congr
    (same : ∀ node, Reaches next root (depth - 1) node → ∀ i, next' node i = next node i)
    (short : path.length ≤ depth) : walk next' root path = walk next root path := by
  induction path using List.reverseRecOn with
  | nil => rfl
  | append_singleton path i ih =>
      rw [List.length_append, List.length_singleton] at short
      rw [walk_concat, walk_concat, ih (by omega)]
      refine Option.bind_congr fun node found => ?_
      exact same node ⟨path, by omega, found⟩ i

theorem Tree.congr (tree : Tree next root depth)
    (same : ∀ node, Reaches next root (depth - 1) node → ∀ i, next' node i = next node i) :
    Tree next' root depth := by
  intro path path' node short short' found found'
  rw [walk_congr same short] at found
  rw [walk_congr same short'] at found'
  exact tree path path' node short short' found found'

/-- A leaf of the tree is not one of the nodes above the leaves. -/
theorem Tree.leaf_not_above (tree : Tree next root depth) (found : walk next root path = some node)
    (leaf : path.length = depth) (above : 0 < depth) : ¬ Reaches next root (depth - 1) node := by
  rintro ⟨path', short, found'⟩
  have same := tree path path' node (by omega) (by omega) found found'
  subst same
  omega

/-- `next'` has one more link, from a node of the tree to a fresh node without links. -/
structure Linked (next next' : α → ι → Option α) (root : α) (depth : Nat) (path : List ι)
    (parent : α) (index : ι) (fresh : α) : Prop where
  found : walk next root path = some parent
  above : path.length < depth
  free : next parent index = none
  isFresh : ¬ Reaches next root depth fresh
  link : next' parent index = some fresh
  noLinks : ∀ i, next' fresh i = none
  other : ∀ node i, Reaches next root depth node → node ≠ parent ∨ i ≠ index →
    next' node i = next node i

/-- A new link adds one path. -/
theorem Linked.walk_eq [DecidableEq ι]
    (linked : Linked next next' root depth path parent index fresh)
    (tree : Tree next root depth) {path' : List ι} (short : path'.length ≤ depth) :
    walk next' root path' =
      if path' = path ++ [index] then some fresh else walk next root path' := by
  induction path' using List.reverseRecOn with
  | nil => simp [walk]
  | append_singleton path' i ih =>
      rw [List.length_append, List.length_singleton] at short
      rw [walk_concat, ih (by omega)]
      by_cases below : path' = path ++ [index]
      · -- below the fresh node there is nothing, before and after
        subst below
        rw [if_pos rfl, Option.bind_some, linked.noLinks, if_neg (by simp),
          walk_concat, walk_concat, linked.found, Option.bind_some, linked.free, Option.bind_none]
      · rw [if_neg below]
        cases found : walk next root path' with
        | none =>
            have differ : path' ++ [i] ≠ path ++ [index] := by
              intro same
              obtain ⟨rfl, -⟩ := List.append_singleton_inj.mp same
              rw [linked.found] at found
              exact absurd found (by simp)
            rw [if_neg differ, walk_concat, found, Option.bind_none, Option.bind_none]
        | some node =>
            rw [Option.bind_some, walk_concat, found, Option.bind_some]
            by_cases here : path' ++ [i] = path ++ [index]
            · obtain ⟨rfl, rfl⟩ := List.append_singleton_inj.mp here
              rw [linked.found, Option.some.injEq] at found
              subst found
              rw [if_pos rfl, linked.link]
            · rw [if_neg here]
              refine linked.other node i ⟨path', by omega, found⟩ ?_
              by_contra both
              rw [not_or, not_not, not_not] at both
              obtain ⟨rfl, rfl⟩ := both
              have := linked.above
              exact here (by rw [tree path' path node (by omega) (by omega) found linked.found])

theorem Linked.walk_new [DecidableEq ι]
    (linked : Linked next next' root depth path parent index fresh) (tree : Tree next root depth) :
    walk next' root (path ++ [index]) = some fresh := by
  have short : (path ++ [index]).length ≤ depth := by
    rw [List.length_append, List.length_singleton]
    exact linked.above
  rw [linked.walk_eq tree short, if_pos rfl]

theorem Linked.tree [DecidableEq ι]
    (linked : Linked next next' root depth path parent index fresh)
    (tree : Tree next root depth) : Tree next' root depth := by
  intro one two node short short' found found'
  rw [linked.walk_eq tree short] at found
  rw [linked.walk_eq tree short'] at found'
  split at found
  · next first =>
    split at found'
    · next second => rw [first, second]
    · rw [Option.some.injEq] at found
      subst found
      exact absurd ⟨two, short', found'⟩ linked.isFresh
  · split at found'
    · rw [Option.some.injEq] at found'
      subst found'
      exact absurd ⟨one, short, found⟩ linked.isFresh
    · exact tree one two node short short' found found'

/-- The fresh node is the only new one. -/
theorem Linked.reaches [DecidableEq ι]
    (linked : Linked next next' root depth path parent index fresh) (tree : Tree next root depth)
    (reached : Reaches next' root depth node) : Reaches next root depth node ∨ node = fresh := by
  obtain ⟨path', short, found⟩ := reached
  rw [linked.walk_eq tree short] at found
  split at found
  · rw [Option.some.injEq] at found
    exact .inr found.symm
  · exact .inl ⟨path', short, found⟩

end Walk

end CoreFromDust.Lib
