import Mathlib.Data.List.GetD
import CoreFromDust.Lib.Window
import CoreFromDust.Os.Fs.Pipe

/-!
# Ring buffers and user buffers

The ring buffer of a pipe holds a window of its array; `write_byte` appends to it and `read_byte`
takes its first byte. The iterator over a `UserBuffer` passes the bytes of the slices in order.
-/

namespace CoreFromDust.Os.Fs

/-! ## The ring buffer -/

namespace PipeRingBuffer

/-- `head == tail` means that the buffer is full or empty, as `status` says. -/
structure Ok (ring : PipeRingBuffer) : Prop where
  same : ring.status ≠ .normal → ring.head = ring.tail
  differ : ring.status = .normal → ring.head ≠ ring.tail

/-- The bytes that have been written and not read, the oldest first. -/
def contents (ring : PipeRingBuffer) : List UInt8 :=
  Lib.window (fun i => ring.arr[Fin.ofNat 32 i]) 32 ring.head ring.availableRead

variable {ring : PipeRingBuffer}

theorem ok_new : new.Ok := ⟨fun _ => rfl, by simp [new]⟩

theorem contents_length : ring.contents.length = ring.availableRead := Lib.window_length

theorem availableRead_le : ring.availableRead ≤ 32 := by
  have tail := ring.tail.isLt
  have head := ring.head.isLt
  unfold availableRead
  split
  · omega
  · split
    · omega
    · next notLess =>
      rw [Fin.lt_def] at notLess
      omega

theorem Ok.availableWrite_eq (ok : ring.Ok) : ring.availableWrite = 32 - ring.availableRead := by
  unfold availableWrite
  split
  · next full =>
    have same := ok.same (by simp [full])
    unfold availableRead
    rw [if_neg (by simp [full]), same, if_neg (Fin.lt_irrefl _)]
    omega
  · rfl

/-- The next byte goes to the cell after the contents. -/
theorem Ok.tail_eq (ok : ring.Ok) : ring.tail.val = (ring.head.val + ring.availableRead) % 32 := by
  have tail := ring.tail.isLt
  have head := ring.head.isLt
  unfold availableRead
  split
  · next empty =>
    rw [ok.same (by simp [empty])]
    omega
  · split
    · next less =>
      rw [Fin.lt_def] at less
      omega
    · next notLess =>
      rw [Fin.lt_def] at notLess
      omega

theorem next_val (i : Fin 32) : (i + 1).val = (i.val + 1) % 32 := rfl

/-- The fields of the buffer determine how much it holds. -/
theorem availableRead_eq {available : Nat} (notEmpty : ring.status ≠ .empty) (pos : 0 < available)
    (le : available ≤ 32) (tail : ring.tail.val = (ring.head.val + available) % 32) :
    ring.availableRead = available := by
  have head := ring.head.isLt
  unfold availableRead
  rw [if_neg notEmpty]
  split
  · next less =>
    rw [Fin.lt_def] at less
    omega
  · next notLess =>
    rw [Fin.lt_def] at notLess
    omega

/-- `write_byte` when there is room. -/
theorem Ok.writeByte (ok : ring.Ok) (room : ring.availableRead < 32) (byte : UInt8) :
    (ring.writeByte byte).Ok ∧ (ring.writeByte byte).contents = ring.contents ++ [byte] := by
  have tail := ok.tail_eq
  have head := ring.head.isLt
  have available : (ring.writeByte byte).availableRead = ring.availableRead + 1 := by
    refine availableRead_eq ?_ (by omega) (by omega) ?_
    · simp only [PipeRingBuffer.writeByte]
      split <;> simp
    · change (ring.tail + 1).val = _
      rw [next_val, tail]
      change _ = (ring.head.val + (ring.availableRead + 1)) % 32
      omega
  refine ⟨⟨?_, ?_⟩, ?_⟩
  · simp only [PipeRingBuffer.writeByte]
    split
    · next meet => exact fun _ => meet.symm
    · simp
  · simp only [PipeRingBuffer.writeByte]
    split
    · simp
    · next apart => exact fun _ meet => apart meet.symm
  · unfold contents
    rw [available]
    change Lib.window _ 32 ring.head _ = _
    rw [Lib.window_push (fun i => ring.arr[Fin.ofNat 32 i]) room, ← tail]
    · simp [PipeRingBuffer.writeByte]
    · intro i small apart
      rw [← tail] at apart
      simp [PipeRingBuffer.writeByte, Nat.mod_eq_of_lt small, apart.symm]

/-- `read_byte` when there is something to read. -/
theorem Ok.readByte (ok : ring.Ok) (available : 0 < ring.availableRead) :
    ring.readByte.2.Ok ∧ ring.contents = ring.readByte.1 :: ring.readByte.2.contents := by
  have tail := ok.tail_eq
  have head := ring.head.isLt
  have le := ring.availableRead_le
  have one : ring.readByte.2.availableRead = ring.availableRead - 1 := by
    by_cases last : ring.availableRead = 1
    · have meet : ring.head + 1 = ring.tail := by
        apply Fin.ext
        rw [next_val, tail, last]
      rw [last]
      simp [PipeRingBuffer.readByte, availableRead, meet]
    · have apart : ring.head + 1 ≠ ring.tail := by
        intro meet
        have value := congrArg Fin.val meet
        rw [next_val, tail] at value
        omega
      refine availableRead_eq ?_ (by omega) (by omega) ?_
      · simp [PipeRingBuffer.readByte, apart]
      · change ring.tail.val = ((ring.head + 1).val + _) % 32
        rw [next_val, tail]
        omega
  refine ⟨⟨?_, ?_⟩, ?_⟩
  · simp only [PipeRingBuffer.readByte]
    split
    · next meet => exact fun _ => meet
    · simp
  · simp only [PipeRingBuffer.readByte]
    split
    · simp
    · next apart => exact fun _ => apart
  · unfold contents
    obtain ⟨n, isSucc⟩ := Nat.exists_eq_succ_of_ne_zero (Nat.ne_of_gt available)
    rw [one, isSucc, Lib.window_pop head]
    congr 1
    simp [PipeRingBuffer.readByte]

end PipeRingBuffer

/-! ## User buffers -/

namespace UserBufferIterator

/-- The bytes before the position of the iterator. -/
def done (it : UserBufferIterator) : List UInt8 :=
  (it.buffers.take it.currentBuffer).flatten ++
    (it.buffers.getD it.currentBuffer []).take it.currentIdx

/-- The bytes from the position of the iterator on. -/
def rest (it : UserBufferIterator) : List UInt8 :=
  (it.buffers.getD it.currentBuffer []).drop it.currentIdx ++
    (it.buffers.drop (it.currentBuffer + 1)).flatten

/-- The position is inside a slice or at the end. -/
def Inside (it : UserBufferIterator) : Prop :=
  ∀ buffer, it.buffers[it.currentBuffer]? = some buffer → it.currentIdx < buffer.length

variable {it it' : UserBufferIterator} {place : Nat × Nat}

theorem done_append_rest (it : UserBufferIterator) : it.done ++ it.rest = it.buffers.flatten := by
  have middle :
      (it.buffers.getD it.currentBuffer []) ++ (it.buffers.drop (it.currentBuffer + 1)).flatten =
      (it.buffers.drop it.currentBuffer).flatten := by
    by_cases inside : it.currentBuffer < it.buffers.length
    · rw [List.drop_eq_getElem_cons inside, List.flatten_cons, List.getD_eq_getElem _ _ inside]
    · rw [List.getD_eq_default _ _ (by omega), List.drop_eq_nil_of_le (by omega),
        List.drop_eq_nil_of_le (by omega)]
      rfl
  rw [done, rest, List.append_assoc, ← List.append_assoc (List.take _ _),
    List.take_append_drop, middle, ← List.flatten_append, List.take_append_drop]

/-- The parts of a buffer around the current slice. -/
theorem done_mk (before after : List (List UInt8)) (buffer : List UInt8) (i : Nat) :
    done ⟨before ++ buffer :: after, before.length, i⟩ = before.flatten ++ buffer.take i := by
  simp [done]

theorem rest_mk (before after : List (List UInt8)) (buffer : List UInt8) (i : Nat) :
    rest ⟨before ++ buffer :: after, before.length, i⟩ = buffer.drop i ++ after.flatten := by
  simp [rest]

/-- The position behind a slice. -/
theorem append_cons_getElem? (before after : List (List UInt8)) (buffer : List UInt8) (i : Nat) :
    (before ++ buffer :: after)[before.length + 1 + i]? = after[i]? := by
  rw [List.getElem?_append_right (by omega), Nat.add_assoc, Nat.add_sub_cancel_left,
    Nat.add_comm 1 i, List.getElem?_cons_succ]

theorem done_next (before after : List (List UInt8)) (buffer : List UInt8) :
    done ⟨before ++ buffer :: after, before.length + 1, 0⟩ = before.flatten ++ buffer := by
  have slices : (before ++ buffer :: after).take (before.length + 1) = before ++ [buffer] := by
    rw [List.append_cons]
    exact List.take_left' (by simp)
  rw [done, slices, List.take_zero, List.append_nil, List.flatten_append, List.flatten_singleton]

theorem rest_next (before after : List (List UInt8)) (buffer : List UInt8) :
    rest ⟨before ++ buffer :: after, before.length + 1, 0⟩ = after.flatten := by
  have slices : (before ++ buffer :: after).drop (before.length + 1 + 1) = after.drop 1 := by
    rw [List.append_cons, ← List.drop_drop]
    congr 1
    exact List.drop_left' (by simp)
  rw [rest, slices, List.drop_zero, List.getD_eq_getElem?_getD]
  have current := append_cons_getElem? before after buffer 0
  rw [Nat.add_zero] at current
  rw [current]
  cases after <;> simp

theorem store_mk (before after : List (List UInt8)) (buffer : List UInt8) (j i c : Nat)
    (byte : UInt8) :
    store ⟨before ++ buffer :: after, c, j⟩ (before.length, i) byte =
      ⟨before ++ buffer.set i byte :: after, c, j⟩ := by
  simp [store]

theorem next_none (h : it.next = some (none, it')) : it.rest = [] := by
  unfold next at h
  split at h
  · next absent =>
    have beyond := List.getElem?_eq_none_iff.mp absent
    rw [rest, List.getD_eq_default _ _ beyond, List.drop_nil, List.drop_eq_nil_of_le (by omega)]
    rfl
  · split at h <;> simp at h

/-- The iterator does not panic inside of slices. -/
theorem Inside.next (inside : it.Inside) : it.next.isSome := by
  unfold UserBufferIterator.next
  split
  · rfl
  · next buffer found =>
    rw [if_pos (inside buffer found)]
    rfl

/-- A byte of the buffer: what the iterator has passed, and what is left. -/
structure Passed (it it' : UserBufferIterator) (place : Nat × Nat) : Prop where
  buffers : it'.buffers = it.buffers
  done : it'.done = it.done ++ [it.load place]
  rest : it.rest = it.load place :: it'.rest
  stored : ∀ byte, (it'.store place byte).done = it.done ++ [byte] ∧
    (it'.store place byte).rest = it'.rest
  inside : (∀ slice ∈ it.buffers, slice ≠ []) → it'.Inside
  storedInside : ∀ byte, (∀ slice ∈ (it'.store place byte).buffers, slice ≠ []) →
    (it'.store place byte).Inside
  storedSlices : ∀ byte, (∀ slice ∈ it.buffers, slice ≠ []) →
    ∀ slice ∈ (it'.store place byte).buffers, slice ≠ []

theorem exists_split {buffers : List (List UInt8)} {c : Nat} {buffer : List UInt8}
    (found : buffers[c]? = some buffer) :
    ∃ before after, buffers = before ++ buffer :: after ∧ c = before.length := by
  obtain ⟨below, rfl⟩ := List.getElem?_eq_some_iff.mp found
  refine ⟨buffers.take c, buffers.drop (c + 1), ?_, ?_⟩
  · rw [List.getElem_cons_drop, List.take_append_drop]
  · rw [List.length_take, Nat.min_eq_left (Nat.le_of_lt below)]

theorem passed (h : it.next = some (some place, it')) : Passed it it' place := by
  obtain ⟨buffers, c, i⟩ := it
  unfold next at h
  split at h
  · simp at h
  · next buffer found =>
    split at h
    · next below =>
      obtain ⟨before, after, rfl, rfl⟩ := exists_split found
      simp only at below
      simp only [Option.some.injEq, Prod.mk.injEq] at h
      obtain ⟨rfl, rfl⟩ := h
      have load : load ⟨before ++ buffer :: after, before.length, i⟩ (before.length, i) =
          buffer[i] := by
        simp [load, below]
      have written : ∀ byte,
          buffer.set i byte = buffer.take i ++ byte :: buffer.drop (i + 1) := fun byte => by
        rw [List.set_eq_take_append_cons_drop, if_pos below]
      have kept : ∀ byte, (∀ slice ∈ before ++ buffer :: after, slice ≠ []) →
          ∀ slice ∈ before ++ buffer.set i byte :: after, slice ≠ [] := by
        intro byte nonempty slice isSlice
        simp only [List.mem_append, List.mem_cons] at isSlice nonempty
        rcases isSlice with isBefore | rfl | isAfter
        · exact nonempty slice (.inl isBefore)
        · exact List.ne_nil_of_length_pos (by rw [List.length_set]; omega)
        · exact nonempty slice (.inr (.inr isAfter))
      have first := List.drop_eq_getElem_cons below
      have upTo := List.take_append_getElem below
      split
      · next last =>
        simp only [last, List.drop_length, List.take_length] at written first upTo
        refine ⟨rfl, ?_, ?_, fun byte => ⟨?_, ?_⟩, fun nonempty => ?_, fun byte => ?_,
          fun byte nonempty => by rw [store_mk]; exact kept byte nonempty⟩
        · rw [done_next, done_mk, load, List.append_assoc, upTo]
        · rw [rest_next, rest_mk, load, first]
          rfl
        · rw [store_mk, done_next, done_mk, written, List.append_assoc]
        · rw [store_mk, rest_next, rest_next]
        · intro slice isSlice
          exact List.length_pos_of_ne_nil (nonempty slice (List.mem_of_getElem? isSlice))
        · rw [store_mk]
          intro nonempty slice isSlice
          have isLater : after[0]? = some slice := by
            rw [← append_cons_getElem? before after (buffer.set i byte) 0]
            exact isSlice
          exact List.length_pos_of_ne_nil (nonempty slice (by simp [List.mem_of_getElem? isLater]))
      · next more =>
        refine ⟨rfl, ?_, ?_, fun byte => ⟨?_, ?_⟩, fun nonempty => ?_, fun byte => ?_,
          fun byte nonempty => by rw [store_mk]; exact kept byte nonempty⟩
        · rw [done_mk, done_mk, load, List.append_assoc, upTo]
        · rw [rest_mk, rest_mk, load, first]
          rfl
        · have prefixTaken : (buffer.set i byte).take (i + 1) = buffer.take i ++ [byte] := by
            rw [written, List.append_cons]
            exact List.take_left' (by simp; omega)
          rw [store_mk, done_mk, done_mk, List.append_assoc, prefixTaken]
        · rw [store_mk, rest_mk, rest_mk, List.drop_set_of_lt (Nat.lt_succ_self i)]
        · intro slice isSlice
          obtain rfl : buffer = slice := by simpa using isSlice
          change i + 1 < buffer.length
          omega
        · rw [store_mk]
          intro _ slice isSlice
          obtain rfl : buffer.set i byte = slice := by simpa using isSlice
          change i + 1 < _
          rw [List.length_set]
          omega
    · simp at h

end UserBufferIterator

end CoreFromDust.Os.Fs
