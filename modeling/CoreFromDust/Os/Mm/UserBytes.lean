import CoreFromDust.Os.Mm.BufferEnds

/-!
# The bytes of user buffers

Embedding of `UserBuffer` and `UserBufferIterator` of `os/src/mm/page_table.rs` on the slices of
physical memory that `translated_byte_buffer` returns. For a buffer below `2 ^ 38` on mapped pages
the iterator passes the physical addresses of the bytes of the buffer in order, and then nothing.
-/

namespace CoreFromDust.Os.Mm

/-- The physical byte that the processor accesses at a virtual address. An address must extend the
sign of its low 39 bits, and the entry of its page must be valid. -/
def PageTable.byteAt (t : PageTable) (m : Memory) (va : Nat) : Option Nat :=
  if usizeOfVirtAddr (virtAddr va) = va then
    (t.lookup m (floor (virtAddr va))).map fun pte => pte.ppn * 4096 + pageOffset va
  else none

/-! ## The iterator -/

/-- The length of a slice. -/
def Slice.len (slice : Slice) : Nat := slice.stop - slice.start

/-- The physical address of a byte of a slice. -/
def Slice.address (slice : Slice) (index : Nat) : Nat := slice.ppn * 4096 + slice.start + index

/-- `UserBuffer`. -/
structure UserBuffer where
  buffers : List Slice
  deriving DecidableEq, Repr

/-- `UserBuffer::len`. -/
def UserBuffer.len (buf : UserBuffer) : Nat := (buf.buffers.map Slice.len).sum

/-- `UserBufferIterator`. -/
structure UserBufferIterator where
  buffers : List Slice
  currentBuffer : Nat
  currentIdx : Nat
  deriving DecidableEq, Repr

/-- `UserBuffer::into_iter`. -/
def UserBuffer.intoIter (buf : UserBuffer) : UserBufferIterator := ⟨buf.buffers, 0, 0⟩

namespace UserBufferIterator

/-- `UserBufferIterator::next`: the physical address that the pointer refers to. The index into an
empty slice panics. -/
def next (it : UserBufferIterator) : Option (Option Nat × UserBufferIterator) :=
  match it.buffers[it.currentBuffer]? with
  | none => some (none, it)
  | some buffer =>
      if it.currentIdx < buffer.len then
        some (some (buffer.address it.currentIdx),
          if it.currentIdx + 1 = buffer.len then
            { it with currentBuffer := it.currentBuffer + 1, currentIdx := 0 }
          else { it with currentIdx := it.currentIdx + 1 })
      else none

/-- The results of the first calls of `next`. -/
def results (it : UserBufferIterator) : Nat → Option (List (Option Nat))
  | 0 => some []
  | n + 1 => it.next.bind fun (item, it) => (it.results n).map (item :: ·)

end UserBufferIterator

/-- The physical addresses of the bytes of a slice. -/
def Slice.addresses (slice : Slice) : List Nat := (List.range slice.len).map slice.address

namespace UserBufferIterator

/-- The addresses that `next` has not returned yet. -/
def rest (it : UserBufferIterator) : List Nat :=
  match it.buffers.drop it.currentBuffer with
  | [] => []
  | slice :: later => slice.addresses.drop it.currentIdx ++ later.flatMap Slice.addresses

/-- No slice is empty, and the iterator is inside of a slice or after the last one. -/
structure Inside (it : UserBufferIterator) : Prop where
  nonempty : ∀ slice ∈ it.buffers, 0 < slice.len
  inside : ∀ slice, it.buffers[it.currentBuffer]? = some slice → it.currentIdx < slice.len

variable {it : UserBufferIterator}

/-- At the start of a slice all bytes of the later slices are left. -/
theorem rest_start (buffers : List Slice) (i : Nat) :
    rest ⟨buffers, i, 0⟩ = (buffers.drop i).flatMap Slice.addresses := by
  simp only [rest]
  cases buffers.drop i with
  | nil => rfl
  | cons slice later => simp only [List.drop_zero, List.flatMap_cons]

/-- `next` returns the first of the addresses that are left. -/
theorem Inside.next (inside : it.Inside) :
    ∃ it', it.next = some (it.rest.head?, it') ∧ it'.Inside ∧ it'.rest = it.rest.tail := by
  obtain ⟨buffers, i, j⟩ := it
  rcases Nat.lt_or_ge i buffers.length with within | beyond
  · have current : buffers[i]? = some buffers[i] := List.getElem?_eq_getElem within
    have split : buffers.drop i = buffers[i] :: buffers.drop (i + 1) :=
      List.drop_eq_getElem_cons within
    have bound : j < buffers[i].len := inside.inside _ current
    have size : buffers[i].addresses.length = buffers[i].len := by simp [Slice.addresses]
    have byte : buffers[i].addresses.drop j =
        buffers[i].address j :: buffers[i].addresses.drop (j + 1) := by
      rw [List.drop_eq_getElem_cons (by rw [size]; exact bound)]
      simp [Slice.addresses]
    have left : rest ⟨buffers, i, j⟩ = buffers[i].address j ::
        (buffers[i].addresses.drop (j + 1) ++ (buffers.drop (i + 1)).flatMap Slice.addresses) := by
      simp only [rest, split, byte, List.cons_append]
    rw [left, UserBufferIterator.next]
    simp only [current, if_pos bound, List.head?_cons, List.tail_cons]
    refine ⟨_, rfl, ?_, ?_⟩
    · split
      · refine ⟨inside.nonempty, fun slice isSlice => ?_⟩
        exact inside.nonempty slice (List.mem_of_getElem? isSlice)
      · refine ⟨inside.nonempty, fun slice isSlice => ?_⟩
        have same : buffers[i] = slice := Option.some.inj (current.symm.trans isSlice)
        change j + 1 < slice.len
        rw [← same]
        omega
    · split
      · next last =>
        rw [rest_start, List.drop_eq_nil_of_le (by omega : buffers[i].addresses.length ≤ j + 1),
          List.nil_append]
      · simp only [rest, split]
  · have nothing : buffers[i]? = none := List.getElem?_eq_none beyond
    have left : rest ⟨buffers, i, j⟩ = [] := by
      simp only [rest, List.drop_eq_nil_of_le beyond]
    refine ⟨⟨buffers, i, j⟩, ?_, inside, by rw [left]; rfl⟩
    rw [left, UserBufferIterator.next]
    simp only [nothing, List.head?_nil]

/-- The iterator returns the addresses that are left in order, and then nothing for ever. -/
theorem Inside.results (inside : it.Inside) (n : Nat) :
    it.results n = some ((List.range n).map fun k => it.rest[k]?) := by
  induction n generalizing it with
  | zero => rfl
  | succ n ih =>
      obtain ⟨it', isNext, inside', isRest⟩ := inside.next
      rw [UserBufferIterator.results, isNext]
      simp only [Option.bind_some, ih inside', Option.map_some, isRest, List.range_succ_eq_map,
        List.map_cons, List.map_map, List.head?_eq_getElem?, Option.some.injEq, List.cons.injEq,
        true_and]
      refine List.map_congr_left fun k _ => ?_
      simp only [Function.comp_apply, Nat.succ_eq_add_one, List.getElem?_tail]

end UserBufferIterator

/-! ## The slices -/

section Bytes

variable {t : PageTable} {m : Memory} {stop : Nat}

/-- The processor and the loop agree on the frame of a low address. -/
theorem byteAt_of_low {va : Nat} (low : va < 2 ^ 38) {pte : PageTableEntry}
    (found : t.lookup m (floor va) = some pte) :
    t.byteAt m va = some (pte.ppn * 4096 + pageOffset va) := by
  have isVa : virtAddr va = va := virtAddr_of_lt (by omega)
  rw [PageTable.byteAt, isVa, if_pos (usizeOfVirtAddr_low low), found]
  rfl

/-- The bytes of one slice. -/
theorem addresses_eq {vpn a b : Nat} {pte : PageTableEntry} (low : vpn * 4096 + b ≤ 2 ^ 38)
    (bound : b ≤ 4096) (found : t.lookup m vpn = some pte) :
    (Slice.addresses ⟨pte.ppn, a, b⟩).map some =
      (List.range' (vpn * 4096 + a) (b - a)).map (t.byteAt m) := by
  rw [List.range'_eq_map_range, Slice.addresses, List.map_map, List.map_map]
  refine List.map_congr_left fun k mem => ?_
  have small : k < b - a := List.mem_range.mp mem
  have page : floor (vpn * 4096 + a + k) = vpn := by
    unfold floor
    omega
  simp only [Function.comp_apply, Slice.address]
  rw [byteAt_of_low (by omega) (by rw [page]; exact found), pageOffset, Option.some.injEq]
  omega

/-- The number of bytes up to the end of the page or to the end of the buffer. -/
def pageRest (start stop : Nat) : Nat := min (4096 - start % 4096) (stop - start)

/-- The slices of the addresses from `start` to `stop`, cut at the ends of the pages. -/
inductive PageSlices (t : PageTable) (m : Memory) (stop : Nat) : Nat → List Slice → Prop
  | done : PageSlices t m stop stop []
  | page {start pte later} : start < stop → t.lookup m (floor (virtAddr start)) = some pte →
      PageSlices t m stop (start + pageRest start stop) later →
      PageSlices t m stop start
        (⟨pte.ppn, start % 4096, start % 4096 + pageRest start stop⟩ :: later)

theorem canonical_iff {va : Nat} :
    usizeOfVirtAddr (virtAddr va) = va ↔ va < 2 ^ 38 ∨ 2 ^ 64 - 2 ^ 38 ≤ va ∧ va < 2 ^ 64 := by
  have small := virtAddr_lt va
  rcases Nat.lt_or_ge (virtAddr va) (2 ^ 38) with low | high
  · rw [usizeOfVirtAddr_low low]
    unfold virtAddr at *
    omega
  · rw [usizeOfVirtAddr_high high small]
    unfold virtAddr at *
    omega

/-- One iteration of the loop over bytes at canonical addresses. The next one starts behind the
slice, or the sign extension of the end is above the end. -/
theorem sliceEndVa_canonical {start : Nat} (word : stop < 2 ^ 64) (below : start < stop)
    (canonical : ∀ va, start ≤ va → va < stop → usizeOfVirtAddr (virtAddr va) = va) :
    pageOffset (virtAddr start) = start % 4096 ∧
      sliceStop start stop = start % 4096 + pageRest start stop ∧
      (usizeOfVirtAddr (sliceEndVa start stop) = start + pageRest start stop ∨
        start + pageRest start stop = stop ∧ stop ≤ usizeOfVirtAddr (sliceEndVa start stop)) := by
  have first := canonical_iff.mp (canonical start (Nat.le_refl _) below)
  have last := canonical_iff.mp (canonical (stop - 1) (by omega) (by omega))
  have offset : pageOffset (virtAddr start) = start % 4096 := by
    unfold pageOffset virtAddr
    omega
  have oneHalf : start < 2 ^ 38 → stop ≤ 2 ^ 38 := by
    intro low
    by_contra beyond
    have middle := canonical_iff.mp (canonical (2 ^ 38) (by omega) (by omega))
    omega
  have isEnd : sliceEndVa start stop = virtAddr start + pageRest start stop := by
    unfold sliceEndVa pageRest floor virtAddr
    omega
  have positive : 0 < pageRest start stop ∧ pageRest start stop ≤ 4096 - start % 4096 ∧
      pageRest start stop ≤ stop - start := by
    unfold pageRest
    omega
  refine ⟨offset, ?_, ?_⟩
  · have inPage : virtAddr start % 4096 = start % 4096 := offset
    rw [sliceStop, isEnd]
    unfold pageOffset
    split <;> omega
  · rw [isEnd]
    rcases first with low | ⟨high, -⟩
    · have bound := oneHalf low
      have isStart : virtAddr start = start := virtAddr_of_lt (by omega)
      rw [isStart]
      rcases Nat.lt_or_ge (start + pageRest start stop) (2 ^ 38) with lowEnd | highEnd
      · exact .inl (usizeOfVirtAddr_low lowEnd)
      · rw [usizeOfVirtAddr_high highEnd (by omega)]
        omega
    · have isStart : virtAddr start = start - (2 ^ 64 - 2 ^ 39) := by
        unfold virtAddr
        omega
      left
      rw [usizeOfVirtAddr_high (by omega) (by omega)]
      omega

/-- Over bytes at canonical addresses on mapped pages, the loop returns the slices of their
pages. -/
theorem byteBufferLoop_canonical (word : stop < 2 ^ 64) {start fuel : Nat} (upTo : start ≤ stop)
    (enough : stop - start < fuel)
    (canonical : ∀ va, start ≤ va → va < stop → usizeOfVirtAddr (virtAddr va) = va)
    (mapped : ∀ va, start ≤ va → va < stop → t.Maps m (floor (virtAddr va))) (v : List Slice) :
    ∃ new, byteBufferLoop t m stop fuel start v = .returned (v ++ new) ∧
      PageSlices t m stop start new := by
  induction fuel generalizing start v with
  | zero => omega
  | succ fuel ih =>
      rw [byteBufferLoop]
      rcases Nat.lt_or_ge start stop with below | atEnd
      · obtain ⟨pte, found⟩ := Option.isSome_iff_exists.mp (mapped start (Nat.le_refl _) below)
        have translated := (Option.filter_eq_some_iff.mp found).1
        obtain ⟨offset, isStop, next⟩ := sliceEndVa_canonical word below canonical
        have forward : start % 4096 ≤ start % 4096 + pageRest start stop := Nat.le_add_right _ _
        have positive : 0 < pageRest start stop ∧ pageRest start stop ≤ stop - start := by
          unfold pageRest
          omega
        rw [if_pos below, translated, offset, isStop]
        simp only [if_pos forward]
        let slice : Slice := ⟨pte.ppn, start % 4096, start % 4096 + pageRest start stop⟩
        have later : ∃ new,
            byteBufferLoop t m stop fuel (usizeOfVirtAddr (sliceEndVa start stop)) (v ++ [slice]) =
              .returned (v ++ [slice] ++ new) ∧
            PageSlices t m stop (start + pageRest start stop) new := by
          rcases next with next | ⟨last, beyond⟩
          · rw [next]
            exact ih (by omega) (by omega) (fun va lower upper => canonical va (by omega) upper)
              (fun va lower upper => mapped va (by omega) upper) _
          · refine ⟨[], ?_, by rw [last]; exact .done⟩
            cases fuel with
            | zero => omega
            | succ fuel => rw [byteBufferLoop, if_neg (by omega), List.append_nil]
        obtain ⟨new, returned, slices⟩ := later
        refine ⟨slice :: new, ?_, .page below found slices⟩
        rw [returned, List.append_assoc, List.singleton_append]
      · rw [if_neg (by omega)]
        have atStop : start = stop := by omega
        exact ⟨[], by rw [List.append_nil], by rw [atStop]; exact .done⟩

/-- The addresses of the slices are those of the bytes from `start` to `stop`. -/
theorem PageSlices.addresses {start : Nat} {slices : List Slice}
    (cut : PageSlices t m stop start slices) (low : stop ≤ 2 ^ 38) :
    (∀ slice ∈ slices, slice.start < slice.stop ∧ slice.stop ≤ 4096) ∧
      (slices.flatMap Slice.addresses).map some =
        (List.range' start (stop - start)).map (t.byteAt m) := by
  induction cut with
  | done => simp
  | @page start pte later below found _ ih =>
      obtain ⟨inPages, addresses⟩ := ih
      have bounds : 0 < pageRest start stop ∧ pageRest start stop ≤ stop - start ∧
          start % 4096 + pageRest start stop ≤ 4096 := by
        unfold pageRest
        omega
      have isStart : virtAddr start = start := virtAddr_of_lt (by omega)
      have offset : floor start * 4096 + start % 4096 = start := by
        unfold floor
        omega
      rw [isStart] at found
      refine ⟨?_, ?_⟩
      · intro slice mem
        rcases List.mem_cons.mp mem with rfl | mem
        · exact ⟨Nat.lt_add_of_pos_right bounds.1, bounds.2.2⟩
        · exact inPages slice mem
      · have first : (Slice.addresses ⟨pte.ppn, start % 4096,
            start % 4096 + pageRest start stop⟩).map some =
            (List.range' start (pageRest start stop)).map (t.byteAt m) := by
          rw [addresses_eq (by omega) bounds.2.2 found, offset, Nat.add_sub_cancel_left]
        have length :
            stop - start = pageRest start stop + (stop - (start + pageRest start stop)) := by
          omega
        rw [List.flatMap_cons, List.map_append, addresses, first, ← List.map_append, length,
          List.range'_append_1]

/-- Below `2 ^ 38`, on mapped pages, the loop pushes slices that are not empty and whose addresses
are those of the bytes from `start` to `stop`. -/
theorem byteBufferLoop_addresses (low : stop ≤ 2 ^ 38) {start fuel : Nat} (upTo : start ≤ stop)
    (enough : stop - start < fuel)
    (mapped : ∀ va, start ≤ va → va < stop → t.Maps m (floor va)) (v : List Slice) :
    ∃ new, byteBufferLoop t m stop fuel start v = .returned (v ++ new) ∧
      (∀ slice ∈ new, slice.start < slice.stop ∧ slice.stop ≤ 4096) ∧
      (new.flatMap Slice.addresses).map some =
        (List.range' start (stop - start)).map (t.byteAt m) := by
  obtain ⟨new, returned, cut⟩ := byteBufferLoop_canonical (by omega) upTo enough
    (fun va _ upper => canonical_iff.mpr (.inl (by omega)))
    (fun va lower upper => by
      rw [virtAddr_of_lt (by omega)]
      exact mapped va lower upper) v
  exact ⟨new, returned, cut.addresses low⟩

/-- More fuel does not change what the loop returns. -/
theorem byteBufferLoop_mono {start fuel more : Nat} {v result : List Slice}
    (returned : byteBufferLoop t m stop fuel start v = .returned result) (enough : fuel ≤ more) :
    byteBufferLoop t m stop more start v = .returned result := by
  induction fuel generalizing start v more with
  | zero => exact absurd returned (by simp [byteBufferLoop])
  | succ fuel ih =>
      obtain ⟨more, rfl⟩ := Nat.exists_eq_add_one_of_ne_zero (by omega : more ≠ 0)
      rw [byteBufferLoop] at returned ⊢
      split at returned
      · next below =>
        rw [if_pos below]
        split at returned
        · exact absurd returned (by simp)
        · next pte found =>
          split at returned
          · next forward =>
            simp only [if_pos forward]
            exact ih returned (by omega)
          · exact absurd returned (by simp)
      · next atEnd =>
        rw [if_neg atEnd]
        exact returned

end Bytes

theorem length_flatMap_addresses (slices : List Slice) :
    (slices.flatMap Slice.addresses).length = UserBuffer.len ⟨slices⟩ := by
  rw [List.length_flatMap, UserBuffer.len]
  simp [Slice.addresses]

/-- For a buffer below `2 ^ 38` on pages with valid entries, `translated_byte_buffer` returns slices
that are not empty and have `len` bytes in all, and the iterator over them passes the physical
addresses of the bytes `ptr`, …, `ptr + len - 1`, and then returns `None` for ever. -/
theorem translatedByteBuffer_bytes (m : Memory) (token ptr len : Nat) (low : ptr + len ≤ 2 ^ 38)
    (mapped : ∀ va, ptr ≤ va → va < ptr + len → (PageTable.fromToken token).Maps m (floor va)) :
    ∃ slices, (∀ fuel, len < fuel → translatedByteBuffer m token ptr len fuel = .returned slices) ∧
      (∀ slice ∈ slices, 0 < slice.len ∧ slice.stop ≤ 4096) ∧
      UserBuffer.len ⟨slices⟩ = len ∧
      (∀ k < len, ((PageTable.fromToken token).byteAt m (ptr + k)).isSome) ∧
      ∀ n, (UserBuffer.intoIter ⟨slices⟩).results n = some ((List.range n).map fun k =>
        if k < len then (PageTable.fromToken token).byteAt m (ptr + k) else none) := by
  have isStop : (ptr + len) % 2 ^ 64 = ptr + len := Nat.mod_eq_of_lt (by omega)
  obtain ⟨slices, returned, nonempty, addresses⟩ := byteBufferLoop_addresses low (by omega)
    (show ptr + len - ptr < len + 1 by omega) mapped []
  rw [List.nil_append] at returned
  rw [show ptr + len - ptr = len by omega] at addresses
  have positive : ∀ slice ∈ slices, 0 < slice.len := by
    intro slice mem
    have := (nonempty slice mem).1
    unfold Slice.len
    omega
  -- the address at each index, and none after the last
  have address : ∀ k : Nat, ((slices.flatMap Slice.addresses)[k]?).map some =
      if k < len then some ((PageTable.fromToken token).byteAt m (ptr + k)) else none := by
    intro k
    rw [← List.getElem?_map, addresses, List.getElem?_map]
    split
    · next small => rw [List.getElem?_range' (by simpa using small), Nat.one_mul, Option.map_some]
    · next beyond =>
        rw [List.getElem?_eq_none (by simpa using Nat.le_of_not_lt beyond), Option.map_none]
  refine ⟨slices, fun fuel enough => ?_,
    fun slice mem => ⟨positive slice mem, (nonempty slice mem).2⟩,
    ?_, fun k small => ?_, fun n => ?_⟩
  · rw [translatedByteBuffer, isStop]
    exact byteBufferLoop_mono returned enough
  · have length := congrArg List.length addresses
    rw [List.length_map, List.length_map, length_flatMap_addresses, List.length_range'] at length
    exact length
  · have byte := address k
    rw [if_pos small] at byte
    obtain ⟨pa, _, isByte⟩ := Option.map_eq_some_iff.mp byte
    rw [← isByte]
    rfl
  · have inside : (UserBuffer.intoIter ⟨slices⟩).Inside :=
      ⟨positive, fun slice first => positive slice (List.mem_of_getElem? first)⟩
    have all : (UserBuffer.intoIter ⟨slices⟩).rest = slices.flatMap Slice.addresses :=
      UserBufferIterator.rest_start slices 0
    rw [inside.results, all, Option.some.injEq]
    refine List.map_congr_left fun k _ => ?_
    have byte := address k
    split
    · next small =>
      rw [if_pos small] at byte
      obtain ⟨pa, isPa, isByte⟩ := Option.map_eq_some_iff.mp byte
      rw [isPa, isByte]
    · next beyond =>
      rw [if_neg beyond] at byte
      exact Option.map_eq_none_iff.mp byte

/-- A buffer on the stack of the main thread that crosses a page. -/
theorem translatedByteBuffer_bytes_stack : ∃ booted k set,
    Machine.boot (fun _ => 0) tinyLayout = some booted ∧
    booted.steps tinyLayout mainThreadRun = some k ∧ k.live (.user 0) = some set ∧
    ∃ slices, translatedByteBuffer k.phys.mem set.pageTable.token 0x12ffe 4 5 = .returned slices ∧
      UserBuffer.len ⟨slices⟩ = 4 := by
  have present : (mainThread.map fun main =>
      (((PageTable.fromToken main.2.pageTable.token).lookup main.1.phys.mem 0x12).isSome,
        ((PageTable.fromToken main.2.pageTable.token).lookup main.1.phys.mem 0x13).isSome)) =
      some (true, true) := by decide +kernel
  obtain ⟨⟨k, set⟩, isMain, found⟩ := Option.map_eq_some_iff.mp present
  obtain ⟨onFirst, onSecond⟩ := Prod.mk.inj found
  obtain ⟨booted, boot, run, isLive⟩ := mainThread_eq_some isMain
  have mapped : ∀ va, 0x12ffe ≤ va → va < 0x12ffe + 4 →
      (PageTable.fromToken set.pageTable.token).Maps k.phys.mem (floor va) := by
    intro va lower upper
    have page : floor va = 0x12 ∨ floor va = 0x13 := by
      unfold floor
      omega
    rcases page with page | page
    · rw [page]
      exact onFirst
    · rw [page]
      exact onSecond
  obtain ⟨slices, returned, _, length, _⟩ := translatedByteBuffer_bytes k.phys.mem
    set.pageTable.token 0x12ffe 4 (by decide) mapped
  exact ⟨booted, k, set, boot, run, isLive, slices, returned 5 (by decide), length⟩

end CoreFromDust.Os.Mm
