import CoreFromDust.Os.Mm.PageTable

/-!
# User buffers

Embedding of `translated_byte_buffer` of `os/src/mm/page_table.rs`. The loop need not end, so it
takes fuel; a slice is a range of the bytes of a frame.
-/

namespace CoreFromDust.Os.Mm

/-- How a loop ends, or that the fuel did not suffice. -/
inductive Outcome (α : Type) where
  | returned (value : α)
  | panicked
  | running
  deriving DecidableEq, Repr

/-- The bytes of a frame from `start` to `stop`. -/
structure Slice where
  ppn : Nat
  start : Nat
  stop : Nat
  deriving DecidableEq, Repr

/-- The `end_va` of one iteration of `translated_byte_buffer`. -/
def sliceEndVa (start stop : Nat) : Nat := min ((floor (virtAddr start) + 1) * 4096) (virtAddr stop)

/-- The end of the slice within its page. -/
def sliceStop (start stop : Nat) : Nat :=
  if pageOffset (sliceEndVa start stop) = 0 then 4096 else pageOffset (sliceEndVa start stop)

/-- The loop of `translated_byte_buffer`, with the slices that have been pushed. -/
def byteBufferLoop (t : PageTable) (m : Memory) (stop : Nat) :
    Nat → Nat → List Slice → Outcome (List Slice)
  | 0, _, _ => .running
  | fuel + 1, start, v =>
      if start < stop then
        match t.translate m (floor (virtAddr start)) with
        | none => .panicked
        | some pte =>
            if pageOffset (virtAddr start) ≤ sliceStop start stop then
              byteBufferLoop t m stop fuel (usizeOfVirtAddr (sliceEndVa start stop))
                (v ++ [⟨pte.ppn, pageOffset (virtAddr start), sliceStop start stop⟩])
            else .panicked
      else .returned v

/-- `translated_byte_buffer`. -/
def translatedByteBuffer (m : Memory) (token ptr len fuel : Nat) : Outcome (List Slice) :=
  byteBufferLoop (.fromToken token) m ((ptr + len) % 2 ^ 64) fuel ptr []

/-- A piece of a user buffer: the bytes of a page from one offset to another. -/
structure Piece where
  vpn : Nat
  start : Nat
  stop : Nat
  deriving DecidableEq, Repr

/-- The pieces into which the loop cuts the addresses from `start` to `stop`; they depend on the
addresses only. -/
inductive Visits (stop : Nat) : Nat → Piece → Prop
  | here {start} : start < stop →
      Visits stop start ⟨floor (virtAddr start), pageOffset (virtAddr start), sliceStop start stop⟩
  | next {start piece} : start < stop →
      Visits stop (usizeOfVirtAddr (sliceEndVa start stop)) piece → Visits stop start piece

section Loop

variable {t : PageTable} {m : Memory} {stop fuel start : Nat} {v result : List Slice}

theorem Visits.cases_lt {piece : Piece} (visits : Visits stop start piece) : start < stop := by
  cases visits with
  | here below => exact below
  | next below _ => exact below

/-- When the loop returns, it has pushed one slice for each piece, in the frame of its page. -/
theorem byteBufferLoop_spec (h : byteBufferLoop t m stop fuel start v = .returned result) :
    ∃ new, result = v ++ new ∧
      (∀ slice ∈ new, ∃ vpn pte, Visits stop start ⟨vpn, slice.start, slice.stop⟩ ∧
        t.translate m vpn = some pte ∧ slice.ppn = pte.ppn) ∧
      ∀ piece, Visits stop start piece → ∃ pte, t.translate m piece.vpn = some pte ∧
        ⟨pte.ppn, piece.start, piece.stop⟩ ∈ new := by
  induction fuel generalizing start v with
  | zero => exact absurd h (by simp [byteBufferLoop])
  | succ fuel ih =>
      rw [byteBufferLoop] at h
      split at h
      · next below =>
        split at h
        · exact absurd h (by simp)
        · next pte found =>
          split at h
          · obtain ⟨new, isResult, slices, pieces⟩ := ih h
            refine ⟨⟨pte.ppn, pageOffset (virtAddr start), sliceStop start stop⟩ :: new, ?_, ?_, ?_⟩
            · rw [isResult, List.append_assoc]
              rfl
            · intro slice mem
              rcases List.mem_cons.mp mem with rfl | mem
              · exact ⟨_, pte, .here below, found, rfl⟩
              · obtain ⟨vpn, pte', visits, found', isPpn⟩ := slices slice mem
                exact ⟨vpn, pte', .next below visits, found', isPpn⟩
            · intro piece visits
              cases visits with
              | here _ => exact ⟨pte, found, List.mem_cons_self⟩
              | next _ later =>
                  obtain ⟨pte', found', mem⟩ := pieces piece later
                  exact ⟨pte', found', List.mem_cons_of_mem _ mem⟩
          · exact absurd h (by simp)
      · next atEnd =>
        rw [Outcome.returned.injEq] at h
        refine ⟨[], by simp [h], by simp, ?_⟩
        intro piece visits
        exact absurd visits.cases_lt atEnd

end Loop

end CoreFromDust.Os.Mm
