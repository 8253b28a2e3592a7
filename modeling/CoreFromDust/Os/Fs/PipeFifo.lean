import CoreFromDust.Os.Fs.Proofs.PipeBuffers

/-!
# Pipes are lossless

The bytes that were written to a pipe are those that were read from it, followed by those that the
ring buffer holds. This holds for every order of the steps of any number of readers and writers.
A `write` returns when all of its buffer has been written, and a `read` returns less than it was
asked for only at the end of the data.
-/

namespace CoreFromDust.Os.Fs

/-! ## Calls -/

/-- The variables of a call: it has moved the bytes before the position of its iterator. -/
structure Call.Ok (call : Call) : Prop where
  want : call.want = call.iter.buffers.flatten.length
  moved : call.moved = call.iter.done
  already : call.already = call.moved.length
  inside : (∀ slice ∈ call.iter.buffers, slice ≠ []) → call.iter.Inside

theorem Call.Ok.start (kind : CallKind) (buf : UserBuffer) : (Call.start kind buf).Ok where
  want := by simp [Call.start, UserBuffer.len, UserBuffer.intoIter, List.length_flatten]
  moved := by simp [Call.start, UserBuffer.intoIter, UserBufferIterator.done]
  already := rfl
  inside := fun nonempty slice isSlice =>
    List.length_pos_of_ne_nil (nonempty slice (List.mem_of_getElem? isSlice))

variable {call : Call} {it : UserBufferIterator} {place : Nat × Nat}

theorem Call.Ok.want_eq (ok : call.Ok) : call.want = call.already + call.iter.rest.length := by
  rw [ok.want, ← call.iter.done_append_rest, List.length_append, ok.already, ok.moved]

/-- The iterator is at its end when everything has been moved. -/
theorem Call.Ok.rest_eq_nil (ok : call.Ok) : call.iter.rest = [] ↔ call.already = call.want := by
  rw [ok.want_eq, ← List.length_eq_zero_iff]
  omega

theorem Call.Ok.moved_eq (ok : call.Ok) (all : call.already = call.want) :
    call.moved = call.iter.buffers.flatten := by
  rw [ok.moved, ← call.iter.done_append_rest, ok.rest_eq_nil.mpr all, List.append_nil]

/-- What a call has moved is at the start of its buffer. -/
theorem Call.Ok.take_buffers (ok : call.Ok) :
    call.iter.buffers.flatten.take call.already = call.moved := by
  rw [ok.already, ← call.iter.done_append_rest, ok.moved, List.take_left]

/-- A byte of the buffer has been written to the pipe. -/
theorem Call.Ok.sent (ok : call.Ok) (passed : UserBufferIterator.Passed call.iter it place) :
    (call.move it (call.iter.load place)).Ok where
  want := by rw [Call.move, passed.buffers, ok.want]
  moved := by simp only [Call.move, passed.done, ok.moved]
  already := by simp only [Call.move, List.length_append, List.length_singleton, ok.already]
  inside := by
    intro nonempty
    change ∀ slice ∈ it.buffers, _ at nonempty
    rw [passed.buffers] at nonempty
    exact passed.inside nonempty

/-- A byte of the pipe has been stored in the buffer. -/
theorem Call.Ok.received (ok : call.Ok) (passed : UserBufferIterator.Passed call.iter it place)
    (byte : UInt8) : (call.move (it.store place byte) byte).Ok := by
  obtain ⟨done, rest⟩ := passed.stored byte
  refine ⟨?_, ?_, ?_, passed.storedInside byte⟩
  · simp only [Call.move]
    rw [ok.want, ← call.iter.done_append_rest, ← (it.store place byte).done_append_rest, done, rest,
      passed.rest]
    simp
  · simp only [Call.move, done, ok.moved]
  · simp only [Call.move, List.length_append, List.length_singleton, ok.already]

/-! ## Batches -/

/-- What an inner loop does to a call: `new` are the bytes that it moved. -/
structure Batch.Moved (b b' : Batch) (result : Option Nat) (new : List UInt8) : Prop where
  ring : b'.ring.Ok
  call : b'.call.Ok
  kind : b'.call.kind = b.call.kind
  want : b'.call.want = b.call.want
  log : b'.log = b.log ++ new
  moved : b'.call.moved = b.call.moved ++ new
  /-- it returns when the whole buffer has been moved -/
  returned : ∀ value, result = some value → value = b'.call.want ∧ b'.call.already = b'.call.want

theorem Batch.Moved.refl {b : Batch} {result : Option Nat} (ring : b.ring.Ok) (call : b.call.Ok)
    (returned : ∀ value, result = some value → value = b.call.want ∧ b.call.already = b.call.want) :
    Batch.Moved b b result [] :=
  ⟨ring, call, rfl, rfl, by simp, by simp, returned⟩

/-- The first byte of a batch. -/
theorem Batch.Moved.cons {b b' : Batch} {ring : PipeRingBuffer} {byte : UInt8} {result : Option Nat}
    {new : List UInt8}
    (later : Batch.Moved ⟨ring, b.call.move it byte, b.log ++ [byte]⟩ b' result new) :
    Batch.Moved b b' result (byte :: new) where
  ring := later.ring
  call := later.call
  kind := later.kind
  want := later.want
  log := by rw [later.log, List.append_assoc]; rfl
  moved := by rw [later.moved, Call.move, List.append_assoc]; rfl
  returned := later.returned

variable {b b' : Batch} {result : Option Nat}

/-- The inner loop of `Pipe::read` takes bytes from the front of the ring buffer. -/
theorem readBatch_spec {n : Nat} (ring : b.ring.Ok) (ok : b.call.Ok) (le : n ≤ b.ring.availableRead)
    (h : readBatch n b = some (b', result)) :
    ∃ new, Batch.Moved b b' result new ∧ b.ring.contents = new ++ b'.ring.contents := by
  induction n generalizing b with
  | zero =>
      obtain ⟨rfl, rfl⟩ := Prod.mk.inj (Option.some.inj h)
      exact ⟨[], .refl ring ok (by simp), rfl⟩
  | succ n ih =>
      obtain ⟨⟨place, it⟩, isNext, h⟩ := Option.bind_eq_some_iff.mp h
      cases place with
      | none =>
          obtain ⟨rfl, rfl⟩ := Prod.mk.inj (Option.some.inj h)
          have all := ok.rest_eq_nil.mp (UserBufferIterator.next_none isNext)
          refine ⟨[], .refl ring ok ?_, rfl⟩
          rintro value isValue
          obtain rfl := Option.some.inj isValue
          exact ⟨all, all⟩
      | some place =>
          have passed := UserBufferIterator.passed isNext
          obtain ⟨ring', contents⟩ := ring.readByte (by omega)
          have ok' := ok.received passed b.ring.readByte.1
          have size := congrArg List.length contents
          rw [List.length_cons, PipeRingBuffer.contents_length,
            PipeRingBuffer.contents_length] at size
          simp only at h
          split at h
          · next all =>
            obtain ⟨rfl, rfl⟩ := Prod.mk.inj (Option.some.inj h)
            refine ⟨[b.ring.readByte.1], .cons (.refl ring' ok' ?_), contents⟩
            rintro value isValue
            obtain rfl := Option.some.inj isValue
            exact ⟨rfl, all⟩
          · obtain ⟨new, moved, later⟩ :=
              ih (b := ⟨b.ring.readByte.2, _, _⟩) ring' ok' (by simp only; omega) h
            exact ⟨_, .cons moved, by rw [contents, later]; rfl⟩

/-- The inner loop of `Pipe::write` appends bytes to the ring buffer. -/
theorem writeBatch_spec {n : Nat} (ring : b.ring.Ok) (ok : b.call.Ok)
    (le : n + b.ring.availableRead ≤ 32) (h : writeBatch n b = some (b', result)) :
    ∃ new, Batch.Moved b b' result new ∧ b'.ring.contents = b.ring.contents ++ new ∧
      b'.call.iter.buffers = b.call.iter.buffers := by
  induction n generalizing b with
  | zero =>
      obtain ⟨rfl, rfl⟩ := Prod.mk.inj (Option.some.inj h)
      exact ⟨[], .refl ring ok (by simp), by simp, rfl⟩
  | succ n ih =>
      obtain ⟨⟨place, it⟩, isNext, h⟩ := Option.bind_eq_some_iff.mp h
      cases place with
      | none =>
          obtain ⟨rfl, rfl⟩ := Prod.mk.inj (Option.some.inj h)
          have all := ok.rest_eq_nil.mp (UserBufferIterator.next_none isNext)
          refine ⟨[], .refl ring ok ?_, by simp, rfl⟩
          rintro value isValue
          obtain rfl := Option.some.inj isValue
          exact ⟨all, all⟩
      | some place =>
          have passed := UserBufferIterator.passed isNext
          obtain ⟨ring', contents⟩ := ring.writeByte (by omega) (b.call.iter.load place)
          have ok' := ok.sent passed
          have size := congrArg List.length contents
          rw [List.length_append, List.length_singleton, PipeRingBuffer.contents_length,
            PipeRingBuffer.contents_length] at size
          simp only at h
          split at h
          · next all =>
            obtain ⟨rfl, rfl⟩ := Prod.mk.inj (Option.some.inj h)
            refine ⟨[b.call.iter.load place], .cons (.refl ring' ok' ?_), contents,
              passed.buffers⟩
            rintro value isValue
            obtain rfl := Option.some.inj isValue
            exact ⟨rfl, all⟩
          · obtain ⟨new, moved, later, buffers⟩ :=
              ih (b := ⟨b.ring.writeByte _, _, _⟩) ring' ok' (by simp only; omega) h
            exact ⟨_, .cons moved, by rw [later, contents]; simp,
              buffers.trans passed.buffers⟩

/-- Buffers without empty slices are read and written without a panic. -/
theorem readBatch_isSome {n : Nat} (ok : b.call.Ok)
    (nonempty : ∀ slice ∈ b.call.iter.buffers, slice ≠ []) :
    (readBatch n b).isSome := by
  induction n generalizing b with
  | zero => rfl
  | succ n ih =>
      obtain ⟨⟨place, it⟩, isNext⟩ := Option.isSome_iff_exists.mp (ok.inside nonempty).next
      cases place with
      | none => simp [readBatch, isNext]
      | some place =>
          have passed := UserBufferIterator.passed isNext
          simp only [readBatch, isNext, Option.bind_some]
          split
          · rfl
          · exact ih (ok.received passed _) (passed.storedSlices _ nonempty)

theorem writeBatch_isSome {n : Nat} (ok : b.call.Ok)
    (nonempty : ∀ slice ∈ b.call.iter.buffers, slice ≠ []) :
    (writeBatch n b).isSome := by
  induction n generalizing b with
  | zero => rfl
  | succ n ih =>
      obtain ⟨⟨place, it⟩, isNext⟩ := Option.isSome_iff_exists.mp (ok.inside nonempty).next
      cases place with
      | none => simp [writeBatch, isNext]
      | some place =>
          have passed := UserBufferIterator.passed isNext
          simp only [writeBatch, isNext, Option.bind_some]
          split
          · rfl
          · refine ih (ok.sent passed) ?_
            simp only [Call.move, passed.buffers]
            exact nonempty

/-! ## References to the write end -/

/-- The thread is in a call of `write`. -/
def Writing (calls : Nat → Option Call) (t : Nat) : Prop :=
  ∃ call, calls t = some call ∧ call.kind = .write

/-- There is a reference to the write end for each entry of a file table and each call of
`write`. -/
def Ends (calls : Nat → Option Call) (fds strong : Nat) : Prop :=
  ∃ writers : List Nat, writers.Nodup ∧ (∀ t, t ∈ writers ↔ Writing calls t) ∧
  fds + writers.length ≤ strong

section Ends

variable {calls calls' : Nat → Option Call} {fds strong t : Nat}

theorem Ends.same (ends : Ends calls fds strong) (same : ∀ u, Writing calls' u ↔ Writing calls u) :
    Ends calls' fds strong := by
  obtain ⟨writers, nodup, mem, le⟩ := ends
  exact ⟨writers, nodup, fun u => (mem u).trans (same u).symm, le⟩

theorem Ends.add (ends : Ends calls fds strong) (isNew : ¬ Writing calls t)
    (added : ∀ u, Writing calls' u ↔ u = t ∨ Writing calls u) : Ends calls' fds (strong + 1) := by
  obtain ⟨writers, nodup, mem, le⟩ := ends
  refine ⟨t :: writers, List.nodup_cons.mpr ⟨fun isMem => isNew ((mem t).mp isMem), nodup⟩,
    fun u => ?_, ?_⟩
  · rw [List.mem_cons, mem, added]
  · rw [List.length_cons]
    omega

theorem Ends.drop (ends : Ends calls fds strong) (writing : Writing calls t)
    (removed : ∀ u, Writing calls' u ↔ u ≠ t ∧ Writing calls u) : Ends calls' fds (strong - 1) := by
  obtain ⟨writers, nodup, mem, le⟩ := ends
  have isMem := (mem t).mpr writing
  refine ⟨writers.erase t, nodup.erase t, fun u => ?_, ?_⟩
  · rw [nodup.mem_erase_iff, mem, removed]
  · have size := List.length_erase_of_mem isMem
    have pos := List.length_pos_of_mem isMem
    omega

/-- Without a reference nobody can write. -/
theorem Ends.closed (ends : Ends calls fds 0) : fds = 0 ∧ ∀ t, ¬ Writing calls t := by
  obtain ⟨writers, -, mem, le⟩ := ends
  have empty : writers = [] := List.length_eq_zero_iff.mp (by omega)
  refine ⟨by omega, fun t writing => ?_⟩
  rw [← mem, empty] at writing
  exact absurd writing List.not_mem_nil

/-- What a thread does concerns its own call. -/
theorem writing_update {new : Option Call} (u : Nat) :
    Writing (Function.update calls t new) u ↔
      (u = t ∧ ∃ call, new = some call ∧ call.kind = .write) ∨ (u ≠ t ∧ Writing calls u) := by
  by_cases same : u = t
  · subst same
    simp [Writing]
  · simp [Writing, same]

end Ends

/-! ## Runs -/

/-- The invariant of a pipe. -/
structure PipeState.Inv (s : PipeState) : Prop where
  ring : s.ring.Ok
  fifo : s.accepted = s.delivered ++ s.ring.contents
  call : ∀ t call, s.calls t = some call → call.Ok
  ends : Ends s.calls s.fds s.strong

/-- What one iteration of a call does. -/
inductive Iteration (s : PipeState) (t : Nat) (call : Call) : PipeState → Option Nat → Prop
  | atEnd : call.kind = .read → s.ring.contents = [] → s.strong = 0 →
      Iteration s t call { s with calls := s.put t call (some call.already) } (some call.already)
  | suspended : Iteration s t call s none
  | received {b result new} : call.kind = .read →
      readBatch s.ring.availableRead ⟨s.ring, call, s.delivered⟩ = some (b, result) →
      Batch.Moved ⟨s.ring, call, s.delivered⟩ b result new →
      s.ring.contents = new ++ b.ring.contents →
      Iteration s t call
        { s with ring := b.ring, calls := s.put t b.call result, delivered := b.log } result
  | sent {b result new} : call.kind = .write → Batch.Moved ⟨s.ring, call, s.accepted⟩ b result new →
      b.ring.contents = s.ring.contents ++ new → b.call.iter.buffers = call.iter.buffers →
      Iteration s t call
        { s with
          ring := b.ring
          calls := s.put t b.call result
          accepted := b.log
          strong := if result.isSome then s.strong - 1 else s.strong } result

variable {s s' : PipeState} {t : Nat}

theorem PipeState.Inv.iteration (inv : s.Inv) (isCall : s.calls t = some call)
    (h : s.resume t = some (s', result)) : Iteration s t call s' result := by
  have ok := inv.call t call isCall
  rw [PipeState.resume, isCall, Option.bind_some] at h
  split at h
  · next isRead =>
    split at h
    · next nothing =>
      split at h
      · next closed =>
        obtain ⟨rfl, rfl⟩ := Prod.mk.inj (Option.some.inj h)
        refine .atEnd isRead ?_ (by simpa [PipeState.allWriteEndsClosed] using closed)
        rw [← List.length_eq_zero_iff, PipeRingBuffer.contents_length]
        exact nothing
      · obtain ⟨rfl, rfl⟩ := Prod.mk.inj (Option.some.inj h)
        exact .suspended
    · obtain ⟨⟨b, value⟩, isBatch, h⟩ := Option.map_eq_some_iff.mp h
      obtain ⟨rfl, rfl⟩ := Prod.mk.inj h
      obtain ⟨new, moved, contents⟩ := readBatch_spec (b := ⟨s.ring, call, s.delivered⟩) inv.ring ok
        (Nat.le_refl _) isBatch
      exact .received isRead isBatch moved contents
  · next isWrite =>
    split at h
    · obtain ⟨rfl, rfl⟩ := Prod.mk.inj (Option.some.inj h)
      exact .suspended
    · obtain ⟨⟨b, value⟩, isBatch, h⟩ := Option.map_eq_some_iff.mp h
      obtain ⟨rfl, rfl⟩ := Prod.mk.inj h
      have le := s.ring.availableRead_le
      have room := inv.ring.availableWrite_eq
      obtain ⟨new, moved, contents, buffers⟩ :=
        writeBatch_spec inv.ring ok (by simp only; omega) isBatch
      exact .sent isWrite moved contents buffers

theorem call_of_update {calls : Nat → Option Call} {new : Option Call}
    (old : ∀ u call, calls u = some call → call.Ok) (isNew : ∀ call, new = some call → call.Ok) :
    ∀ u call, Function.update calls t new u = some call → call.Ok := by
  intro u call isCall
  by_cases same : u = t
  · subst same
    rw [Function.update_self] at isCall
    exact isNew call isCall
  · rw [Function.update_of_ne same] at isCall
    exact old u call isCall

theorem put_ok {call' : Call} (ok : call'.Ok) :
    ∀ call, (if result.isSome then none else some call') = some call → call.Ok := by
  intro call isCall
  split at isCall
  · exact absurd isCall (by simp)
  · obtain rfl := Option.some.inj isCall
    exact ok

/-- An iteration of a call keeps the invariant. -/
theorem PipeState.Inv.resume (inv : s.Inv) (isCall : s.calls t = some call)
    (iteration : Iteration s t call s' result) : s'.Inv := by
  have ok := inv.call t call isCall
  -- a reader holds no reference to the write end
  have reader : call.kind = .read → ∀ call', call'.kind = call.kind →
      Ends (s.put t call' result) s.fds s.strong := by
    intro isRead call' sameKind
    refine inv.ends.same fun u => ?_
    rw [PipeState.put, writing_update]
    by_cases same : u = t
    · subst same
      have notWriting : ¬ Writing s.calls u := by
        rintro ⟨other, isOther, isWrite⟩
        rw [isCall, Option.some.injEq] at isOther
        rw [← isOther, isRead] at isWrite
        exact absurd isWrite (by simp)
      cases result <;> simp [sameKind, isRead, notWriting]
    · simp [same]
  cases iteration with
  | atEnd isRead empty closed =>
      exact ⟨inv.ring, inv.fifo, call_of_update inv.call (put_ok ok), reader isRead call rfl⟩
  | suspended => exact inv
  | @received b _ new isRead isBatch moved contents =>
      refine ⟨moved.ring, ?_, call_of_update inv.call (put_ok moved.call),
        reader isRead b.call moved.kind⟩
      rw [moved.log, inv.fifo, contents, List.append_assoc]
  | @sent b _ new isWrite moved contents buffers =>
      have writing : Writing s.calls t := ⟨call, isCall, isWrite⟩
      refine ⟨moved.ring, ?_, call_of_update inv.call (put_ok moved.call), ?_⟩
      · rw [moved.log, inv.fifo, contents, List.append_assoc]
      · cases result with
        | none =>
            refine inv.ends.same fun u => ?_
            rw [PipeState.put, writing_update]
            by_cases same : u = t
            · subst same
              simp [moved.kind, isWrite, writing]
            · simp [same]
        | some value =>
            refine inv.ends.drop writing fun u => ?_
            rw [PipeState.put, writing_update]
            simp

theorem PipeState.inv_makePipe : PipeState.makePipe.Inv where
  ring := PipeRingBuffer.ok_new
  fifo := by simp [PipeState.makePipe, PipeRingBuffer.contents, PipeRingBuffer.availableRead,
    PipeRingBuffer.new]
  call := by simp [PipeState.makePipe]
  ends := ⟨[], by simp, by simp [PipeState.makePipe, Writing], by simp [PipeState.makePipe]⟩

theorem PipeState.Inv.step (inv : s.Inv) {event : PipeEvent}
    (h : s.step event = some s') : s'.Inv := by
  cases event with
  | read t buf =>
      simp only [PipeState.step] at h
      split at h
      · next free =>
        obtain rfl := Option.some.inj h
        refine ⟨inv.ring, inv.fifo, call_of_update inv.call ?_, inv.ends.same fun u => ?_⟩
        · intro call isCall
          obtain rfl := Option.some.inj isCall
          exact .start .read buf
        · rw [writing_update]
          by_cases same : u = t
          · subst same
            simp [Writing, free, Call.start]
          · simp [same]
      · exact absurd h (by simp)
  | write t buf =>
      simp only [PipeState.step] at h
      split at h
      · next free =>
        obtain rfl := Option.some.inj h
        refine ⟨inv.ring, inv.fifo, call_of_update inv.call ?_,
          inv.ends.add (t := t) ?_ fun u => ?_⟩
        · intro call isCall
          obtain rfl := Option.some.inj isCall
          exact .start .write buf
        · simp [Writing, free.1]
        · rw [writing_update]
          by_cases same : u = t
          · simp [same, Call.start]
          · simp [same]
      · exact absurd h (by simp)
  | resume t =>
      obtain ⟨⟨next, result⟩, isResumed, rfl⟩ := Option.map_eq_some_iff.mp h
      cases isCall : s.calls t with
      | none => exact absurd isResumed (by simp [PipeState.resume, isCall])
      | some call => exact inv.resume isCall (inv.iteration isCall isResumed)
  | dup =>
      simp only [PipeState.step] at h
      split at h
      · obtain rfl := Option.some.inj h
        obtain ⟨writers, nodup, mem, le⟩ := inv.ends
        exact ⟨inv.ring, inv.fifo, inv.call, writers, nodup, mem, by simp only; omega⟩
      · exact absurd h (by simp)
  | close =>
      simp only [PipeState.step] at h
      split at h
      · obtain rfl := Option.some.inj h
        obtain ⟨writers, nodup, mem, le⟩ := inv.ends
        exact ⟨inv.ring, inv.fifo, inv.call, writers, nodup, mem, by simp only; omega⟩
      · exact absurd h (by simp)
  | leave t =>
      obtain ⟨call, isCall, rfl⟩ := Option.map_eq_some_iff.mp h
      refine ⟨inv.ring, inv.fifo, call_of_update inv.call (by simp), ?_⟩
      by_cases writing : Writing s.calls t
      · have dropped : Ends (Function.update s.calls t none) s.fds (s.strong - 1) :=
          inv.ends.drop writing fun u => by rw [writing_update]; simp
        obtain ⟨writers, nodup, mem, le⟩ := dropped
        exact ⟨writers, nodup, mem, by simp only; omega⟩
      · refine inv.ends.same fun u => ?_
        rw [writing_update]
        by_cases same : u = t
        · subst same
          simp [writing]
        · simp [same]

theorem PipeState.Inv.steps {events : List PipeEvent} (inv : s.Inv) (h : s.steps events = some s') :
    s'.Inv := by
  induction events generalizing s with
  | nil =>
      obtain rfl := Option.some.inj h
      exact inv
  | cons event events ih =>
      obtain ⟨next, taken, h⟩ := Option.bind_eq_some_iff.mp h
      exact ih (inv.step taken) h

/-- The bytes of a pipe are in order: those that were read are the first ones that were written, and
the rest, at most 32, is in the ring buffer. -/
structure PipeState.InOrder (s : PipeState) : Prop where
  delivered : s.delivered <+: s.accepted
  between : s.accepted.drop s.delivered.length = s.ring.contents
  bounded : s.accepted.length ≤ s.delivered.length + 32

theorem PipeState.Inv.inOrder (inv : s.Inv) : s.InOrder where
  delivered := by
    rw [inv.fifo]
    exact List.prefix_append _ _
  between := by rw [inv.fifo, List.drop_left]
  bounded := by
    have le := s.ring.availableRead_le
    rw [inv.fifo, List.length_append, PipeRingBuffer.contents_length]
    omega

/-- A call of `write` returns the length of its buffer, all of which has been written. -/
def WriteComplete (s s' : PipeState) (call : Call) (value : Nat) : Prop :=
  ∃ new, s'.accepted = s.accepted ++ new ∧ call.moved ++ new = call.iter.buffers.flatten ∧
    value = call.iter.buffers.flatten.length

/-- The buffer of a call of `read` after its next iteration. -/
def PipeState.bufferAfter (s : PipeState) (call : Call) : List UInt8 :=
  match readBatch s.ring.availableRead ⟨s.ring, call, s.delivered⟩ with
  | some (b, _) => b.call.iter.buffers.flatten
  | none => call.iter.buffers.flatten

/-- A call of `read` goes on: what it takes from the pipe is added to what is in its buffer. -/
def ReadGoesOn (s s' : PipeState) (t : Nat) (call : Call) : Prop :=
  ∃ call' new, s'.calls t = some call' ∧ s'.delivered = s.delivered ++ new ∧
    call'.iter.done = call.iter.done ++ new

/-- A call of `read` returns the number of bytes that it has read, which are in its buffer, and less
than it was asked for only when nobody can write and everything has been read. -/
def ReadComplete (s s' : PipeState) (call : Call) (value : Nat) : Prop :=
  ∃ new, s'.delivered = s.delivered ++ new ∧
    (s.bufferAfter call).take value = call.iter.done ++ new ∧
    value = (call.moved ++ new).length ∧ value ≤ call.iter.buffers.flatten.length ∧
    (value < call.iter.buffers.flatten.length →
      s.strong = 0 ∧ s.fds = 0 ∧ (∀ u, ¬ Writing s.calls u) ∧ s'.delivered = s'.accepted)

theorem PipeState.Inv.writeComplete (inv : s.Inv) (isCall : s.calls t = some call)
    (isWrite : call.kind = .write) {value : Nat} (h : s.resume t = some (s', some value)) :
    WriteComplete s s' call value := by
  have ok := inv.call t call isCall
  generalize isResult : some value = result at h
  cases inv.iteration isCall h with
  | atEnd isRead => simp [isWrite] at isRead
  | suspended => simp at isResult
  | received isRead => simp [isWrite] at isRead
  | @sent b _ new _ moved contents buffers =>
      obtain ⟨isWant, all⟩ := moved.returned value isResult.symm
      have whole := moved.call.moved_eq all
      rw [moved.moved, buffers] at whole
      refine ⟨new, moved.log, whole, ?_⟩
      rw [isWant, moved.want]
      exact ok.want

theorem PipeState.Inv.readGoesOn (inv : s.Inv) (isCall : s.calls t = some call)
    (isRead : call.kind = .read) (h : s.resume t = some (s', none)) : ReadGoesOn s s' t call := by
  have ok := inv.call t call isCall
  generalize isResult : (none : Option Nat) = result at h
  cases inv.iteration isCall h with
  | atEnd => simp at isResult
  | suspended => exact ⟨call, [], isCall, by simp, by simp⟩
  | @received b _ new _ _ moved contents =>
      refine ⟨b.call, new, ?_, moved.log, ?_⟩
      · simp [PipeState.put, ← isResult]
      · rw [← moved.call.moved, moved.moved, ok.moved]
  | sent isWrite => simp [isRead] at isWrite

theorem PipeState.Inv.readComplete (inv : s.Inv) (isCall : s.calls t = some call)
    (isRead : call.kind = .read) {value : Nat} (h : s.resume t = some (s', some value)) :
    ReadComplete s s' call value := by
  have ok := inv.call t call isCall
  have size := ok.want
  generalize isResult : some value = result at h
  cases inv.iteration isCall h with
  | atEnd _ empty closed =>
      obtain rfl := Option.some.inj isResult
      have le := ok.want_eq
      have ends := inv.ends
      rw [closed] at ends
      have nothing : s.ring.availableRead = 0 := by
        rw [← PipeRingBuffer.contents_length, empty, List.length_nil]
      refine ⟨[], by simp, ?_, by rw [List.append_nil, ok.already], by omega,
        fun _ => ⟨closed, ends.closed.1, ends.closed.2, ?_⟩⟩
      · rw [PipeState.bufferAfter, nothing, List.append_nil, ← ok.moved]
        exact ok.take_buffers
      · rw [inv.fifo, empty, List.append_nil]
  | suspended => simp at isResult
  | @received b _ new _ isBatch moved contents =>
      obtain ⟨isWant, all⟩ := moved.returned value isResult.symm
      have count := moved.call.already
      rw [moved.moved] at count
      have want := moved.want
      simp only at want count
      refine ⟨new, moved.log, ?_, by omega, by omega, by omega⟩
      rw [PipeState.bufferAfter, isBatch, isWant, ← all]
      exact moved.call.take_buffers.trans (by rw [moved.moved, ok.moved])
  | sent isWrite => simp [isRead] at isWrite

/-- A call on buffers without empty slices never panics. -/
theorem PipeState.Inv.resume_isSome (inv : s.Inv) (isCall : s.calls t = some call)
    (nonempty : ∀ slice ∈ call.iter.buffers, slice ≠ []) : (s.resume t).isSome := by
  have ok := inv.call t call isCall
  rw [PipeState.resume, isCall, Option.bind_some]
  split
  · split
    · split <;> rfl
    · rw [Option.isSome_map]
      exact readBatch_isSome ok nonempty
  · split
    · rfl
    · rw [Option.isSome_map]
      exact writeBatch_isSome ok nonempty

/-- In every run of a pipe its bytes are in order, and whenever a call returns, `write` has written
its whole buffer and `read` has filled its buffer unless it is at the end of the data. The bytes
that a reader takes are in its buffer. -/
theorem pipe_lossless (events : List PipeEvent) (run : PipeState.makePipe.steps events = some s) :
    s.InOrder ∧
      (∀ t call s' value, s.calls t = some call → call.kind = .write →
        s.resume t = some (s', some value) → WriteComplete s s' call value) ∧
      (∀ t call s' value, s.calls t = some call → call.kind = .read →
        s.resume t = some (s', some value) → ReadComplete s s' call value) ∧
      (∀ t call s', s.calls t = some call → call.kind = .read →
        s.resume t = some (s', none) → ReadGoesOn s s' t call) ∧
      (∀ t call, s.calls t = some call → call.moved = call.iter.done) ∧
      ∀ t call, s.calls t = some call → (∀ slice ∈ call.iter.buffers, slice ≠ []) →
        (s.resume t).isSome := by
  have inv := PipeState.inv_makePipe.steps run
  exact ⟨inv.inOrder, fun _ _ _ _ isCall isWrite h => inv.writeComplete isCall isWrite h,
    fun _ _ _ _ isCall isRead h => inv.readComplete isCall isRead h,
    fun _ _ _ isCall isRead h => inv.readGoesOn isCall isRead h,
    fun t call isCall => (inv.call t call isCall).moved,
    fun _ _ isCall nonempty => inv.resume_isSome isCall nonempty⟩

/-- Two writers and a reader, whose buffers are longer than the ring buffer or empty. -/
def twoWriters : List PipeEvent :=
  [.dup, .write 0 ⟨[List.replicate 40 1]⟩, .write 1 ⟨[[2], [3, 4]]⟩,
    .read 2 ⟨[List.replicate 50 0]⟩, .resume 0, .resume 1, .resume 2, .resume 1, .close, .resume 0,
    .close, .resume 2]

theorem pipe_lossless_twoWriters : ∃ s, PipeState.makePipe.steps twoWriters = some s ∧ s.InOrder ∧
    s.accepted = List.replicate 32 1 ++ [2, 3, 4] ++ List.replicate 8 1 ∧
    s.delivered = s.accepted := by
  have runs : ((PipeState.makePipe.steps twoWriters).map fun s => (s.accepted, s.delivered)) =
      some (List.replicate 32 1 ++ [2, 3, 4] ++ List.replicate 8 1,
        List.replicate 32 1 ++ [2, 3, 4] ++ List.replicate 8 1) := by decide +kernel
  obtain ⟨s, run, logs⟩ := Option.map_eq_some_iff.mp runs
  obtain ⟨accepted, delivered⟩ := Prod.mk.inj logs
  exact ⟨s, run, (pipe_lossless twoWriters run).1, accepted, delivered.trans accepted.symm⟩

end CoreFromDust.Os.Fs
