import Mathlib.Algebra.GroupWithZero.Nat
import Mathlib.Logic.Function.Basic

/-!
# Pipes

Embedding of `os/src/fs/pipe.rs`, with the iterator over a `UserBuffer` of
`os/src/mm/page_table.rs`. A call of `read` or `write` that has not returned is kept with its local
variables; a step runs one iteration of its loop. The state has the bytes that went through
`write_byte` and `read_byte` in their order. `none` is a panic.
-/

namespace CoreFromDust.Os.Fs

/-! ## The ring buffer -/

/-- `RingBufferStatus`. -/
inductive RingBufferStatus where
  | full
  | empty
  | normal
  deriving DecidableEq, Repr

/-- `RING_BUFFER_SIZE` is not 0. -/
scoped instance ringBufferSize_neZero : NeZero 32 := ⟨by decide⟩

/-- `PipeRingBuffer`, without the reference to the write end. -/
structure PipeRingBuffer where
  arr : Vector UInt8 32
  head : Fin 32
  tail : Fin 32
  status : RingBufferStatus
  deriving DecidableEq, Repr

namespace PipeRingBuffer

/-- `PipeRingBuffer::new`. -/
def new : PipeRingBuffer := ⟨Vector.replicate 32 0, 0, 0, .empty⟩

/-- `PipeRingBuffer::write_byte`. -/
def writeByte (ring : PipeRingBuffer) (byte : UInt8) : PipeRingBuffer where
  arr := ring.arr.set ring.tail byte ring.tail.isLt
  head := ring.head
  tail := ring.tail + 1
  status := if ring.tail + 1 = ring.head then .full else .normal

/-- `PipeRingBuffer::read_byte`. -/
def readByte (ring : PipeRingBuffer) : UInt8 × PipeRingBuffer :=
  (ring.arr[ring.head],
    { ring with
      head := ring.head + 1
      status := if ring.head + 1 = ring.tail then .empty else .normal })

/-- `PipeRingBuffer::available_read`. -/
def availableRead (ring : PipeRingBuffer) : Nat :=
  if ring.status = .empty then 0
  else if ring.head < ring.tail then ring.tail.val - ring.head.val
  else ring.tail.val + 32 - ring.head.val

/-- `PipeRingBuffer::available_write`. -/
def availableWrite (ring : PipeRingBuffer) : Nat :=
  if ring.status = .full then 0 else 32 - ring.availableRead

end PipeRingBuffer

/-! ## User buffers -/

/-- `UserBuffer`: its slices. -/
structure UserBuffer where
  buffers : List (List UInt8)
  deriving DecidableEq, Repr

/-- `UserBuffer::len`. -/
def UserBuffer.len (buf : UserBuffer) : Nat := (buf.buffers.map List.length).sum

/-- `UserBufferIterator`. -/
structure UserBufferIterator where
  buffers : List (List UInt8)
  currentBuffer : Nat
  currentIdx : Nat
  deriving DecidableEq, Repr

/-- `UserBuffer::into_iter`. -/
def UserBuffer.intoIter (buf : UserBuffer) : UserBufferIterator := ⟨buf.buffers, 0, 0⟩

namespace UserBufferIterator

/-- `UserBufferIterator::next`: the slice and the index of a byte. The index into an empty slice
panics. -/
def next (it : UserBufferIterator) : Option (Option (Nat × Nat) × UserBufferIterator) :=
  match it.buffers[it.currentBuffer]? with
  | none => some (none, it)
  | some buffer =>
      if it.currentIdx < buffer.length then
        some (some (it.currentBuffer, it.currentIdx),
          if it.currentIdx + 1 = buffer.length then
            { it with currentBuffer := it.currentBuffer + 1, currentIdx := 0 }
          else { it with currentIdx := it.currentIdx + 1 })
      else none

/-- Read through a reference into the buffer. -/
def load (it : UserBufferIterator) (place : Nat × Nat) : UInt8 :=
  (it.buffers.getD place.1 []).getD place.2 0

/-- Write through a reference into the buffer. -/
def store (it : UserBufferIterator) (place : Nat × Nat) (byte : UInt8) : UserBufferIterator :=
  { it with buffers := it.buffers.set place.1 ((it.buffers.getD place.1 []).set place.2 byte) }

end UserBufferIterator

/-! ## Reading and writing -/

/-- `Pipe::read` or `Pipe::write`. -/
inductive CallKind where
  | read
  | write
  deriving DecidableEq, Repr

/-- The variables of a call: `want_to_read` or `want_to_write`, `already_read` or `already_write`,
and the iterator; `moved` are the bytes that it has read or written. -/
structure Call where
  kind : CallKind
  want : Nat
  already : Nat
  iter : UserBufferIterator
  moved : List UInt8
  deriving DecidableEq, Repr

/-- A call at the start of its loop. -/
def Call.start (kind : CallKind) (buf : UserBuffer) : Call := ⟨kind, buf.len, 0, buf.intoIter, []⟩

/-- What the inner loops change: the ring buffer, the call, and the bytes that `read_byte` returned
or `write_byte` took. -/
structure Batch where
  ring : PipeRingBuffer
  call : Call
  log : List UInt8

/-- One byte has been moved. -/
def Call.move (call : Call) (iter : UserBufferIterator) (byte : UInt8) : Call :=
  { call with iter := iter, already := call.already + 1, moved := call.moved ++ [byte] }

/-- The inner loop of `Pipe::read`, with the value that it returns. -/
def readBatch : Nat → Batch → Option (Batch × Option Nat)
  | 0, b => some (b, none)
  | n + 1, b =>
      b.call.iter.next.bind fun
        | (none, _) => some (b, some b.call.already)
        | (some place, iter) =>
            let byte := b.ring.readByte.1
            let call := b.call.move (iter.store place byte) byte
            let b := ⟨b.ring.readByte.2, call, b.log ++ [byte]⟩
            if call.already = call.want then some (b, some call.want) else readBatch n b

/-- The inner loop of `Pipe::write`, with the value that it returns. -/
def writeBatch : Nat → Batch → Option (Batch × Option Nat)
  | 0, b => some (b, none)
  | n + 1, b =>
      b.call.iter.next.bind fun
        | (none, _) => some (b, some b.call.already)
        | (some place, iter) =>
            let byte := b.call.iter.load place
            let call := b.call.move iter byte
            let b := ⟨b.ring.writeByte byte, call, b.log ++ [byte]⟩
            if call.already = call.want then some (b, some call.want) else writeBatch n b

/-- A pipe: its ring buffer, the strong references to the write end and those of them that are in
file tables, the calls that have not returned, by thread, and the bytes that were written and
read. -/
structure PipeState where
  ring : PipeRingBuffer
  strong : Nat
  fds : Nat
  calls : Nat → Option Call
  accepted : List UInt8
  delivered : List UInt8

namespace PipeState

/-- `make_pipe`, when `sys_pipe` has put the ends into the file table. -/
def makePipe : PipeState := ⟨.new, 1, 1, fun _ => none, [], []⟩

/-- `all_write_ends_closed`. -/
def allWriteEndsClosed (s : PipeState) : Bool := s.strong = 0

/-- The call of the thread goes on, or has returned. -/
def put (s : PipeState) (t : Nat) (call : Call) (result : Option Nat) : Nat → Option Call :=
  Function.update s.calls t (if result.isSome then none else some call)

/-- One iteration of the loop of the call of a thread: the value it returns, or `none` when the
loop goes on, after `suspend_current_and_run_next` if nothing could be moved. The reference that
`sys_write` holds is dropped when `write` returns. -/
def resume (s : PipeState) (t : Nat) : Option (PipeState × Option Nat) :=
  (s.calls t).bind fun call =>
    match call.kind with
    | .read =>
        if s.ring.availableRead = 0 then
          if s.allWriteEndsClosed then
            some ({ s with calls := s.put t call (some call.already) }, some call.already)
          else some (s, none)
        else
          (readBatch s.ring.availableRead ⟨s.ring, call, s.delivered⟩).map fun (b, result) =>
            ({ s with ring := b.ring, calls := s.put t b.call result, delivered := b.log }, result)
    | .write =>
        if s.ring.availableWrite = 0 then some (s, none)
        else
          (writeBatch s.ring.availableWrite ⟨s.ring, call, s.accepted⟩).map fun (b, result) =>
            ({ s with
              ring := b.ring
              calls := s.put t b.call result
              accepted := b.log
              strong := if result.isSome then s.strong - 1 else s.strong }, result)

end PipeState

/-- What happens to a pipe. -/
inductive PipeEvent where
  /-- `sys_read` on the read end -/
  | read (t : Nat) (buf : UserBuffer)
  /-- `sys_write` on the write end, which clones the reference in the file table -/
  | write (t : Nat) (buf : UserBuffer)
  | resume (t : Nat)
  /-- `sys_dup` of the write end, or `fork` of a process that has it -/
  | dup
  /-- `sys_close` of the write end, or the end of a process that has it -/
  | close
  /-- the process of the thread ends within the call; its reference to the write end is lost -/
  | leave (t : Nat)

namespace PipeState

/-- One step; `none` is a panic or a step that cannot be taken. -/
def step (s : PipeState) : PipeEvent → Option PipeState
  | .read t buf =>
      if s.calls t = none then
        some { s with calls := Function.update s.calls t (some (.start .read buf)) }
      else none
  | .write t buf =>
      if s.calls t = none ∧ 0 < s.fds then
        some { s with
          calls := Function.update s.calls t (some (.start .write buf))
          strong := s.strong + 1 }
      else none
  | .resume t => (s.resume t).map Prod.fst
  | .dup => if 0 < s.fds then some { s with fds := s.fds + 1, strong := s.strong + 1 } else none
  | .close => if 0 < s.fds then some { s with fds := s.fds - 1, strong := s.strong - 1 } else none
  | .leave t => (s.calls t).map fun _ => { s with calls := Function.update s.calls t none }

/-- The pipe after a list of events. -/
def steps (s : PipeState) : List PipeEvent → Option PipeState
  | [] => some s
  | event :: events => (s.step event).bind fun s => s.steps events

end PipeState

end CoreFromDust.Os.Fs
