import CoreFromDust.Os.Mm.UserFrames

/-!
# The end of translated_byte_buffer

The loop of `translated_byte_buffer` compares 64-bit addresses, but goes on from a masked end. When
the end of the buffer has bits above the 39th and its low 39 bits name a low address, the loop
reaches that low address and stays there: it pushes slices for ever, unless a page on the way has
no translation. In all other cases it ends.
-/

namespace CoreFromDust.Os.Mm

theorem virtAddr_lt (v : Nat) : virtAddr v < 2 ^ 39 := Nat.mod_lt _ (by decide)

theorem virtAddr_of_lt {v : Nat} (small : v < 2 ^ 39) : virtAddr v = v := Nat.mod_eq_of_lt small

theorem usizeOfVirtAddr_low {va : Nat} (low : va < 2 ^ 38) : usizeOfVirtAddr va = va := by
  rw [usizeOfVirtAddr, if_neg (by omega)]

/-- The sign of a high address is extended. -/
theorem usizeOfVirtAddr_high {va : Nat} (high : 2 ^ 38 ≤ va) (small : va < 2 ^ 39) :
    usizeOfVirtAddr va = 2 ^ 64 - 2 ^ 39 + va := by
  have joined := Nat.shiftLeft_add_eq_or_of_lt (i := 39) (b := va) small (2 ^ 25 - 1)
  rw [Nat.shiftLeft_eq] at joined
  rw [usizeOfVirtAddr, if_pos high, Nat.or_comm]
  exact joined.symm

theorem sliceEndVa_le (start stop : Nat) : sliceEndVa start stop ≤ virtAddr stop :=
  Nat.min_le_right _ _

theorem sliceEndVa_le_next (start stop : Nat) :
    sliceEndVa start stop ≤ (floor (virtAddr start) + 1) * 4096 := Nat.min_le_left _ _

theorem sliceEndVa_cases (start stop : Nat) :
    sliceEndVa start stop = virtAddr stop ∨
      sliceEndVa start stop = (floor (virtAddr start) + 1) * 4096 ∧
        sliceEndVa start stop < virtAddr stop := by
  unfold sliceEndVa
  omega

section Loop

variable {t : PageTable} {m : Memory} {stop start fuel : Nat} {v v' : List Slice}

/-- The loop ends: it returns or panics after finitely many iterations. -/
def BufferEnds (t : PageTable) (m : Memory) (stop start : Nat) : Prop :=
  ∃ fuel, byteBufferLoop t m stop fuel start [] ≠ .running

/-- Whether the loop is done does not depend on the slices it has pushed. -/
theorem byteBufferLoop_running_iff (v v' : List Slice) :
    byteBufferLoop t m stop fuel start v = .running ↔
    byteBufferLoop t m stop fuel start v' = .running := by
  induction fuel generalizing start v v' with
  | zero => simp [byteBufferLoop]
  | succ fuel ih =>
      rw [byteBufferLoop, byteBufferLoop]
      split
      · split
        · rfl
        · split
          · exact ih _ _
          · rfl
      · simp

theorem BufferEnds.of_le (atEnd : stop ≤ start) : BufferEnds t m stop start := by
  refine ⟨1, ?_⟩
  rw [byteBufferLoop, if_neg (by omega)]
  simp

/-- The loop ends at the `unwrap` of a missing translation. -/
theorem BufferEnds.of_missing (missing : t.translate m (floor (virtAddr start)) = none) :
    BufferEnds t m stop start := by
  refine ⟨1, ?_⟩
  rw [byteBufferLoop, missing]
  split <;> simp

/-- The loop ends at a slice that ends before it starts. -/
theorem BufferEnds.of_reversed (reversed : sliceStop start stop < pageOffset (virtAddr start)) :
    BufferEnds t m stop start := by
  refine ⟨1, ?_⟩
  rw [byteBufferLoop]
  split
  · split
    · simp
    · rw [if_neg (by omega)]
      simp
  · simp

/-- After an iteration the loop ends when it ends from the next start on. -/
theorem bufferEnds_next_iff (below : start < stop)
    (found : (t.translate m (floor (virtAddr start))).isSome)
    (forward : pageOffset (virtAddr start) ≤ sliceStop start stop) :
    BufferEnds t m stop start ↔ BufferEnds t m stop (usizeOfVirtAddr (sliceEndVa start stop)) := by
  obtain ⟨pte, found⟩ := Option.isSome_iff_exists.mp found
  have iteration : ∀ fuel, byteBufferLoop t m stop (fuel + 1) start [] = .running ↔
      byteBufferLoop t m stop fuel (usizeOfVirtAddr (sliceEndVa start stop)) [] = .running := by
    intro fuel
    rw [byteBufferLoop, if_pos below, found]
    simp only [if_pos forward]
    exact byteBufferLoop_running_iff _ _
  constructor
  · rintro ⟨fuel, done⟩
    cases fuel with
    | zero => exact absurd rfl done
    | succ fuel => exact ⟨fuel, fun running => done ((iteration fuel).mpr running)⟩
  · rintro ⟨fuel, done⟩
    exact ⟨fuel + 1, fun running => done ((iteration fuel).mp running)⟩

/-- The loop ends when it ends from the next start on, whatever the iteration does. -/
theorem BufferEnds.of_next
    (next : start < stop → BufferEnds t m stop (usizeOfVirtAddr (sliceEndVa start stop))) :
    BufferEnds t m stop start := by
  by_cases below : start < stop
  · cases found : t.translate m (floor (virtAddr start)) with
    | none => exact .of_missing found
    | some pte =>
        rcases Nat.lt_or_ge (sliceStop start stop)
          (pageOffset (virtAddr start)) with reversed | forward
        · exact .of_reversed reversed
        · exact (bufferEnds_next_iff below (by rw [found]; rfl) forward).mpr (next below)
  · exact .of_le (Nat.le_of_not_lt below)

/-! ## Buffers that end -/

/-- Below the 39th bit each iteration comes closer to the end, or jumps over it. -/
theorem bufferEnds_of_small (small : stop < 2 ^ 39) : BufferEnds t m stop start := by
  induction distance : stop - start using Nat.strong_induction_on generalizing start with
  | _ n ih =>
      refine .of_next fun below => ?_
      have isStart := virtAddr_of_lt (Nat.lt_trans below small)
      have isStop := virtAddr_of_lt small
      have further : start < sliceEndVa start stop := by
        rw [sliceEndVa, isStart, isStop, floor]
        omega
      have bounded := sliceEndVa_le start stop
      rcases Nat.lt_or_ge (sliceEndVa start stop) (2 ^ 38) with low | high
      · rw [usizeOfVirtAddr_low low]
        exact ih _ (by omega) rfl
      · rw [usizeOfVirtAddr_high high (by omega)]
        exact .of_le (by omega)

/-- The sign extension of a high end is not below the end itself. -/
theorem le_usizeOfVirtAddr_virtAddr (word : stop < 2 ^ 64) (high : 2 ^ 38 ≤ virtAddr stop) :
    stop ≤ usizeOfVirtAddr (virtAddr stop) := by
  rw [usizeOfVirtAddr_high high (virtAddr_lt stop), virtAddr]
  omega

theorem virtAddr_usizeOfVirtAddr {va : Nat} (small : va < 2 ^ 39) :
    virtAddr (usizeOfVirtAddr va) = va := by
  rcases Nat.lt_or_ge va (2 ^ 38) with low | high
  · rw [usizeOfVirtAddr_low low, virtAddr_of_lt small]
  · rw [usizeOfVirtAddr_high high small, virtAddr]
    omega

/-- When the low bits of the end name a high address, the masked start comes closer to the masked
end, and the iteration that reaches it jumps over the end. -/
theorem bufferEnds_of_high (word : stop < 2 ^ 64) (high : 2 ^ 38 ≤ virtAddr stop) :
    BufferEnds t m stop start := by
  induction distance : virtAddr stop - virtAddr start using Nat.strong_induction_on
    generalizing start with
  | _ n ih =>
      refine .of_next fun _ => ?_
      rcases sliceEndVa_cases start stop with isEnd | ⟨isNext, inside⟩
      · rw [isEnd]
        exact .of_le (le_usizeOfVirtAddr_virtAddr word high)
      · have masked := virtAddr_usizeOfVirtAddr (Nat.lt_trans inside (virtAddr_lt stop))
        have further : virtAddr start < sliceEndVa start stop := by
          rw [isNext, floor]
          omega
        exact ih _ (by omega) rfl

/-! ## Buffers that do not end -/

/-- At the masked end of a buffer that reaches above the 39th bit the loop stays where it is. -/
theorem not_bufferEnds_at_end (above : 2 ^ 39 ≤ stop) (low : virtAddr stop < 2 ^ 38)
    (found : (t.translate m (floor (virtAddr stop))).isSome) :
    ¬ BufferEnds t m stop (virtAddr stop) := by
  obtain ⟨pte, found⟩ := Option.isSome_iff_exists.mp found
  have masked : virtAddr (virtAddr stop) = virtAddr stop := virtAddr_of_lt (virtAddr_lt stop)
  have isEnd : sliceEndVa (virtAddr stop) stop = virtAddr stop := by
    rw [sliceEndVa, masked, floor]
    omega
  have forward : pageOffset (virtAddr stop) ≤ sliceStop (virtAddr stop) stop := by
    rw [sliceStop, isEnd]
    split <;> omega
  have stays : ∀ fuel v, byteBufferLoop t m stop fuel (virtAddr stop) v = .running := by
    intro fuel
    induction fuel with
    | zero => exact fun v => rfl
    | succ fuel ih =>
        intro v
        rw [byteBufferLoop, if_pos (by omega), masked, found]
        simp only [if_pos forward, isEnd, usizeOfVirtAddr_low low]
        exact ih _
  rintro ⟨fuel, done⟩
  exact done (stays fuel [])

/-- From a start that is not above the masked end, the loop walks over all pages up to it. -/
theorem bufferEnds_walk_iff (above : 2 ^ 39 ≤ stop) (low : virtAddr stop < 2 ^ 38)
    (upTo : start ≤ virtAddr stop) :
    BufferEnds t m stop start ↔
      ∃ vpn, floor start ≤ vpn ∧ vpn ≤ floor (virtAddr stop) ∧ t.translate m vpn = none := by
  induction distance : virtAddr stop - start using Nat.strong_induction_on generalizing start with
  | _ n ih =>
      have isStart : virtAddr start = start := virtAddr_of_lt (by omega)
      have samePage : floor (virtAddr start) = floor start := by rw [isStart]
      have order : floor start ≤ floor (virtAddr stop) := Nat.div_le_div_right upTo
      cases found : t.translate m (floor start) with
      | none =>
          refine ⟨fun _ => ⟨_, Nat.le_refl _, order, found⟩, fun _ => .of_missing ?_⟩
          rw [samePage, found]
      | some pte =>
          have isFound : (t.translate m (floor (virtAddr start))).isSome := by
            rw [samePage, found]; rfl
          rcases Nat.eq_or_lt_of_le upTo with isEnd | inside
          · -- at the end only the page of the end is left
            rw [samePage, isEnd] at isFound
            constructor
            · intro ends
              rw [isEnd] at ends
              exact absurd ends (not_bufferEnds_at_end above low isFound)
            · rintro ⟨vpn, lower, upper, missing⟩
              rw [← isEnd] at upper
              rw [Nat.le_antisymm upper lower, found] at missing
              exact absurd missing (by simp)
          · have next_le := sliceEndVa_le start stop
            have further : start < sliceEndVa start stop := by
              rw [sliceEndVa, isStart, floor]
              omega
            have forward : pageOffset (virtAddr start) ≤ sliceStop start stop := by
              have page := sliceEndVa_le_next start stop
              rw [isStart, floor] at page
              rw [isStart, sliceStop, pageOffset, pageOffset]
              split <;> omega
            rw [bufferEnds_next_iff (by omega) isFound forward,
              usizeOfVirtAddr_low (by omega), ih _ (by omega) next_le rfl]
            have nextPage : floor start ≤ floor (sliceEndVa start stop) ∧
                floor (sliceEndVa start stop) ≤ floor start + 1 := by
              have page := sliceEndVa_le_next start stop
              rw [isStart] at page
              unfold floor at page ⊢
              omega
            constructor
            · rintro ⟨vpn, lower, upper, missing⟩
              exact ⟨vpn, by omega, upper, missing⟩
            · rintro ⟨vpn, lower, upper, missing⟩
              refine ⟨vpn, ?_, upper, missing⟩
              have other : vpn ≠ floor start := by
                rintro rfl
                rw [found] at missing
                exact absurd missing (by simp)
              omega

/-- The buffers for which the loop pushes slices for ever: the end has bits above the 39th and its
low 39 bits name a low address, the pages of the start and of that address and all pages between
them have translations, and when the start is not on an earlier page than that address the first
slice does not end before it starts. -/
structure EndlessBuffer (t : PageTable) (m : Memory) (start stop : Nat) : Prop where
  nonempty : start < stop
  above : 2 ^ 39 ≤ stop
  low : virtAddr stop < 2 ^ 38
  onStart : (t.translate m (floor (virtAddr start))).isSome
  onEnd : (t.translate m (floor (virtAddr stop))).isSome
  between : ∀ vpn, floor (virtAddr start) ≤ vpn → vpn ≤ floor (virtAddr stop) →
    (t.translate m vpn).isSome
  forward : floor (virtAddr stop) ≤ floor (virtAddr start) → pageOffset (virtAddr stop) = 0 ∨
    pageOffset (virtAddr start) ≤ pageOffset (virtAddr stop)

/-- The first slice does not end before it starts exactly when the condition on the offsets
holds. -/
theorem pageOffset_le_sliceStop_iff : pageOffset (virtAddr start) ≤ sliceStop start stop ↔
    (floor (virtAddr stop) ≤ floor (virtAddr start) → pageOffset (virtAddr stop) = 0 ∨
      pageOffset (virtAddr start) ≤ pageOffset (virtAddr stop)) := by
  unfold sliceStop sliceEndVa pageOffset floor
  split <;> omega

/-- The loop ends exactly for the buffers that are not endless. -/
theorem bufferEnds_iff (word : stop < 2 ^ 64) :
    BufferEnds t m stop start ↔ ¬ EndlessBuffer t m start stop := by
  by_cases nonempty : start < stop
  swap
  · exact ⟨fun _ endless => nonempty endless.nonempty, fun _ => .of_le (Nat.le_of_not_lt nonempty)⟩
  by_cases above : 2 ^ 39 ≤ stop
  swap
  · exact ⟨fun _ endless => above endless.above,
      fun _ => bufferEnds_of_small (Nat.lt_of_not_le above)⟩
  by_cases low : virtAddr stop < 2 ^ 38
  swap
  · exact ⟨fun _ endless => low endless.low,
      fun _ => bufferEnds_of_high word (Nat.le_of_not_lt low)⟩
  cases found : t.translate m (floor (virtAddr start)) with
  | none =>
      refine ⟨fun _ endless => ?_, fun _ => .of_missing found⟩
      exact absurd endless.onStart (by rw [found]; simp)
  | some pte =>
      by_cases forward : pageOffset (virtAddr start) ≤ sliceStop start stop
      swap
      · refine ⟨fun _ endless => ?_, fun _ => .of_reversed (Nat.lt_of_not_le forward)⟩
        exact forward (pageOffset_le_sliceStop_iff.mpr endless.forward)
      have next_le := sliceEndVa_le start stop
      rw [bufferEnds_next_iff nonempty (by rw [found]; rfl) forward, usizeOfVirtAddr_low (by omega),
        bufferEnds_walk_iff above low next_le]
      -- the next start lies on the page of the start, on the next page or on the page of the end
      have nextPage : floor (sliceEndVa start stop) =
            min (floor (virtAddr start) + 1) (floor (virtAddr stop)) := by
        unfold sliceEndVa floor
        omega
      constructor
      · rintro ⟨vpn, lower, upper, missing⟩ endless
        have present : (t.translate m vpn).isSome := by
          rcases Nat.lt_or_ge vpn (floor (virtAddr start)) with before | after
          · rw [show vpn = floor (virtAddr stop) by omega]
            exact endless.onEnd
          · exact endless.between vpn after upper
        rw [missing] at present
        exact absurd present (by simp)
      · intro notEndless
        by_contra allFound
        have present : ∀ vpn, floor (sliceEndVa start stop) ≤ vpn → vpn ≤ floor (virtAddr stop) →
            (t.translate m vpn).isSome := by
          intro vpn lower upper
          rw [Option.isSome_iff_ne_none]
          exact fun missing => allFound ⟨vpn, lower, upper, missing⟩
        refine notEndless ⟨nonempty, above, low, by rw [found]; rfl,
          present _ (by omega) (Nat.le_refl _), ?_, pageOffset_le_sliceStop_iff.mp forward⟩
        intro vpn lower upper
        rcases Nat.eq_or_lt_of_le lower with isStart | later
        · rw [← isStart, found]
          rfl
        · exact present vpn (by omega) upper

end Loop

/-- For every page table and every buffer whose end is a `usize`, `translated_byte_buffer` ends
exactly when the buffer is not endless. -/
theorem translatedByteBuffer_ends_iff (m : Memory) (token ptr len : Nat)
    (word : ptr + len < 2 ^ 64) :
    (∃ fuel, translatedByteBuffer m token ptr len fuel ≠ .running) ↔
      ¬ EndlessBuffer (.fromToken token) m ptr (ptr + len) := by
  have stop : (ptr + len) % 2 ^ 64 = ptr + len := Nat.mod_eq_of_lt word
  simp only [translatedByteBuffer, stop]
  exact bufferEnds_iff word

/-- A buffer on the stack of the main thread ends. -/
theorem translatedByteBuffer_ends_stack : ∃ booted k set,
    Machine.boot (fun _ => 0) tinyLayout = some booted ∧
    booted.steps tinyLayout mainThreadRun = some k ∧ k.live (.user 0) = some set ∧
    0x12ffe + 4 < 2 ^ 64 ∧
    ∃ fuel, translatedByteBuffer k.phys.mem set.pageTable.token 0x12ffe 4 fuel ≠ .running := by
  have present : mainThread.isSome = true := by decide +kernel
  obtain ⟨⟨k, set⟩, isMain⟩ := Option.isSome_iff_exists.mp present
  obtain ⟨booted, boot, run, isLive⟩ := mainThread_eq_some isMain
  refine ⟨booted, k, set, boot, run, isLive, by decide, ?_⟩
  exact (translatedByteBuffer_ends_iff k.phys.mem set.pageTable.token 0x12ffe 4 (by decide)).mpr
    fun endless => absurd endless.above (by decide)

/-- The buffer from the code of the main thread to the address `2 ^ 39`: the masked end is the
address 0, whose page is in the same last table as the code. -/
theorem translatedByteBuffer_runs_forever : ∃ booted k set,
    Machine.boot (fun _ => 0) tinyLayout = some booted ∧
    booted.steps tinyLayout mainThreadRun = some k ∧ k.live (.user 0) = some set ∧
    0x10000 + (2 ^ 39 - 0x10000) < 2 ^ 64 ∧
    ¬ ∃ fuel, translatedByteBuffer k.phys.mem set.pageTable.token 0x10000 (2 ^ 39 - 0x10000) fuel ≠
      .running := by
  have present : (mainThread.map fun main =>
      (((PageTable.fromToken main.2.pageTable.token).translate main.1.phys.mem 16).isSome,
        ((PageTable.fromToken main.2.pageTable.token).translate main.1.phys.mem 0).isSome)) =
      some (true, true) := by decide +kernel
  obtain ⟨⟨k, set⟩, isMain, found⟩ := Option.map_eq_some_iff.mp present
  obtain ⟨onStart, onEnd⟩ := Prod.mk.inj found
  obtain ⟨booted, boot, run, isLive⟩ := mainThread_eq_some isMain
  have stop : (0x10000 + (2 ^ 39 - 0x10000)) % 2 ^ 64 = 2 ^ 39 := by decide
  refine ⟨booted, k, set, boot, run, isLive, by decide, ?_⟩
  simp only [translatedByteBuffer, stop]
  have endless : EndlessBuffer (.fromToken set.pageTable.token) k.phys.mem 0x10000 (2 ^ 39) :=
    { nonempty := by decide
      above := by decide
      low := by decide
      onStart := onStart
      onEnd := onEnd
      between := by
        intro vpn lower upper
        have isStart : floor (virtAddr 0x10000) = 16 := by decide
        have isEnd : floor (virtAddr (2 ^ 39)) = 0 := by decide
        omega
      forward := by decide }
  exact fun ends => (bufferEnds_iff (by decide)).mp ends endless

end CoreFromDust.Os.Mm
