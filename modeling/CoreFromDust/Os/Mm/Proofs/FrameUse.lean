import CoreFromDust.Os.Mm.PageTable

/-!
# What an operation does to frames

An operation works on frames that it owns: it allocates some, frees some and writes to them.
`Changes l s s' own own'` says that it owned the frames `own` before and owns `own'` now, and that
the frames that are in use by others are as they were.
-/

namespace CoreFromDust.Os.Mm

/-- The frame has the same bytes in both memories. -/
def SameFrame (m m' : Memory) (ppn : Nat) : Prop :=
  ∀ offset < 4096, m'.bytes ppn offset = m.bytes ppn offset

theorem SameFrame.trans {m m' m'' : Memory} {ppn : Nat} (first : SameFrame m m' ppn)
    (second : SameFrame m' m'' ppn) : SameFrame m m'' ppn :=
  fun offset bound => (second offset bound).trans (first offset bound)

/-- An operation that owns `own` takes the memory from `s` to `s'` and owns `own'` afterwards. -/
structure Changes (l : Nat) (s s' : Phys) (own own' : List Nat) : Prop where
  ok : s'.Ok l
  endPpn : s'.allocator.endPpn = s.allocator.endPpn
  inUse : ∀ ppn, s'.InUse l ppn ↔ s.InUse l ppn ∧ ppn ∉ own ∨ ppn ∈ own'
  fresh : ∀ ppn ∈ own', ppn ∈ own ∨ ¬ s.InUse l ppn
  other : ∀ ppn, s.InUse l ppn → ppn ∉ own → SameFrame s.mem s'.mem ppn

namespace Changes

variable {l : Nat} {s s' s'' : Phys} {own own' own'' : List Nat} {ppn : Nat}

theorem refl (ok : s.Ok l) (inUse : ∀ ppn ∈ own, s.InUse l ppn) : Changes l s s own own where
  ok := ok
  endPpn := rfl
  inUse := by
    intro ppn
    constructor
    · intro used
      by_cases mem : ppn ∈ own
      · exact .inr mem
      · exact .inl ⟨used, mem⟩
    · rintro (⟨used, -⟩ | mem)
      · exact used
      · exact inUse ppn mem
  fresh := fun _ mem => .inl mem
  other := fun _ _ _ _ _ => rfl

/-- A frame that others use is not owned afterwards either. -/
theorem not_mem (changes : Changes l s s' own own') (used : s.InUse l ppn) (notOwn : ppn ∉ own) :
    ppn ∉ own' := by
  intro mem
  rcases changes.fresh ppn mem with old | free
  · exact notOwn old
  · exact free used

theorem trans (first : Changes l s s' own own') (second : Changes l s' s'' own' own'') :
    Changes l s s'' own own'' where
  ok := second.ok
  endPpn := second.endPpn.trans first.endPpn
  inUse := by
    intro ppn
    rw [second.inUse, first.inUse]
    constructor
    · rintro (⟨⟨used, notOwn⟩ | mem, notOwn'⟩ | mem)
      · exact .inl ⟨used, notOwn⟩
      · exact absurd mem notOwn'
      · exact .inr mem
    · rintro (⟨used, notOwn⟩ | mem)
      · exact .inl ⟨.inl ⟨used, notOwn⟩, first.not_mem used notOwn⟩
      · exact .inr mem
  fresh := by
    intro ppn mem
    rcases second.fresh ppn mem with old | free
    · exact first.fresh ppn old
    · by_cases notOwn : ppn ∈ own
      · exact .inl notOwn
      · exact .inr fun used => free ((first.inUse ppn).mpr (.inl ⟨used, notOwn⟩))
  other := by
    intro ppn used notOwn
    refine (first.other ppn used notOwn).trans (second.other ppn ?_ (first.not_mem used notOwn))
    exact (first.inUse ppn).mpr (.inl ⟨used, notOwn⟩)

theorem mem_inUse (changes : Changes l s s' own own') (mem : ppn ∈ own') : s'.InUse l ppn :=
  (changes.inUse ppn).mpr (.inr mem)

/-- The owned frames may be listed in another order. -/
theorem congr (changes : Changes l s s' own own') {list list' : List Nat}
    (same : ∀ ppn, ppn ∈ list ↔ ppn ∈ own) (same' : ∀ ppn, ppn ∈ list' ↔ ppn ∈ own') :
    Changes l s s' list list' where
  ok := changes.ok
  endPpn := changes.endPpn
  inUse := fun ppn => by rw [changes.inUse, same, same']
  fresh := fun ppn mem => by
    rw [same]
    exact changes.fresh ppn ((same' ppn).mp mem)
  other := fun ppn used notOwn => changes.other ppn used (by rwa [← same])

/-- An operation that owns more frames does not touch them. -/
theorem frame (changes : Changes l s s' own own') {rest : List Nat}
    (inUse : ∀ ppn ∈ rest, s.InUse l ppn) (disjoint : ∀ ppn ∈ rest, ppn ∉ own) :
    Changes l s s' (rest ++ own) (rest ++ own') where
  ok := changes.ok
  endPpn := changes.endPpn
  inUse := by
    intro ppn
    rw [changes.inUse, List.mem_append, List.mem_append]
    constructor
    · rintro (⟨used, notOwn⟩ | mem)
      · by_cases isRest : ppn ∈ rest
        · exact .inr (.inl isRest)
        · exact .inl ⟨used, not_or.mpr ⟨isRest, notOwn⟩⟩
      · exact .inr (.inr mem)
    · rintro (⟨used, notOwn⟩ | isRest | mem)
      · exact .inl ⟨used, (not_or.mp notOwn).2⟩
      · exact .inl ⟨inUse ppn isRest, disjoint ppn isRest⟩
      · exact .inr mem
  fresh := by
    intro ppn mem
    rcases List.mem_append.mp mem with isRest | mem
    · exact .inl (List.mem_append_left _ isRest)
    · exact (changes.fresh ppn mem).imp_left (List.mem_append_right _)
  other := fun ppn used notOwn =>
    changes.other ppn used fun mem => notOwn (List.mem_append_right _ mem)

/-- A frame is allocated. -/
theorem alloc (alloc : Phys.Allocated l ppn s s') (inUse : ∀ ppn ∈ own, s.InUse l ppn) :
    Changes l s s' own (own ++ [ppn]) where
  ok := alloc.ok
  endPpn := alloc.endPpn
  inUse := by
    intro other
    rw [alloc.inUse, List.mem_append, List.mem_singleton]
    constructor
    · rintro (used | rfl)
      · by_cases mem : other ∈ own
        · exact .inr (.inl mem)
        · exact .inl ⟨used, mem⟩
      · exact .inr (.inr rfl)
    · rintro (⟨used, -⟩ | mem | rfl)
      · exact .inl used
      · exact .inl (inUse other mem)
      · exact .inr rfl
  fresh := by
    intro other mem
    rcases List.mem_append.mp mem with old | new
    · exact .inl old
    · rw [List.mem_singleton] at new
      subst new
      exact .inr alloc.fresh
  other := by
    intro other used _ offset bound
    rw [alloc.mem, Memory.bytes_fill_other]
    · rintro rfl
      exact alloc.fresh used
    · exact bound

/-- A frame is freed. -/
theorem free (freed : Phys.Freed l ppn s s') (inUse : ∀ ppn ∈ own', s.InUse l ppn)
    (notOwn : ppn ∉ own') : Changes l s s' (ppn :: own') own' where
  ok := freed.ok
  endPpn := freed.endPpn
  inUse := by
    intro other
    rw [freed.inUse, List.mem_cons, not_or]
    constructor
    · rintro ⟨used, differ⟩
      by_cases mem : other ∈ own'
      · exact .inr mem
      · exact .inl ⟨used, differ, mem⟩
    · rintro (⟨used, differ, -⟩ | mem)
      · exact ⟨used, differ⟩
      · refine ⟨inUse other mem, ?_⟩
        rintro rfl
        exact notOwn mem
  fresh := fun _ mem => .inl (List.mem_cons_of_mem _ mem)
  other := fun other _ _ _ _ => by rw [freed.mem]

/-- Only the bytes of owned frames change. -/
theorem write (ok : s.Ok l) (inUse : ∀ ppn ∈ own, s.InUse l ppn) {mem : Memory}
    (other : ∀ ppn, s.InUse l ppn → ppn ∉ own → SameFrame s.mem mem ppn) :
    Changes l s { s with mem := mem } own own where
  ok := ⟨ok.stack, ok.le, ok.small⟩
  endPpn := rfl
  inUse := (refl ok inUse).inUse
  fresh := fun _ mem => .inl mem
  other := other

/-- An entry of an owned table changes. -/
theorem setPte (ok : s.Ok l) (inUse : ∀ ppn ∈ own, s.InUse l ppn) (mem : ppn ∈ own) {index : Nat}
    (small : index < 512) (pte : PageTableEntry) :
    Changes l s (s.setPte ppn index pte) own own := by
  refine write ok inUse fun other used notOwn offset bound => ?_
  refine s.mem.bytes_setWord_other small ?_ bound
  rintro rfl
  exact notOwn mem

end Changes

end CoreFromDust.Os.Mm
