import CoreFromDust.Lib.FreeStack
import CoreFromDust.Os.Mm.Address

/-!
# Frame allocator

Embedding of `os/src/mm/frame_allocator.rs`. A `FrameTracker` is the number of its frame; its
drop is `frameDealloc`. `none` stands for `None` in `alloc` and for the panic in `dealloc`.
-/

namespace CoreFromDust.Os.Mm

/-- `StackFrameAllocator`; the frame that was pushed last comes first in `recycled`. -/
structure StackFrameAllocator where
  current : Nat
  endPpn : Nat
  recycled : List Nat
  deriving DecidableEq, Repr

namespace StackFrameAllocator

/-- `StackFrameAllocator::new`. -/
def new : StackFrameAllocator := ⟨0, 0, []⟩

/-- `StackFrameAllocator::init`. -/
def init (a : StackFrameAllocator) (l r : Nat) : StackFrameAllocator :=
  { a with current := l, endPpn := r }

/-- `StackFrameAllocator::alloc`. -/
def alloc (a : StackFrameAllocator) : Option (Nat × StackFrameAllocator) :=
  match a.recycled with
  | ppn :: rest => some (physPageNum ppn, { a with recycled := rest })
  | [] =>
      if a.current = a.endPpn then none
      else some (physPageNum a.current, { a with current := a.current + 1 })

/-- `StackFrameAllocator::dealloc`. -/
def dealloc (a : StackFrameAllocator) (ppn : Nat) : Option StackFrameAllocator :=
  if a.current ≤ ppn ∨ ppn ∈ a.recycled then none
  else some { a with recycled := ppn :: a.recycled }

end StackFrameAllocator

/-- Physical memory with `FRAME_ALLOCATOR`. -/
structure Phys where
  mem : Memory
  allocator : StackFrameAllocator

namespace Phys

/-- `frame_alloc`, with the page cleaning of `FrameTracker::new`. -/
def frameAlloc (s : Phys) : Option (Nat × Phys) :=
  s.allocator.alloc.map fun (ppn, allocator) => (ppn, ⟨s.mem.fill ppn fun _ => 0, allocator⟩)

/-- `frame_dealloc`. -/
def frameDealloc (s : Phys) (ppn : Nat) : Option Phys :=
  (s.allocator.dealloc ppn).map fun allocator => { s with allocator := allocator }

/-- The memory after `init_frame_allocator`, for a kernel that ends at `ekernel`. -/
def initFrameAllocator (mem : Memory) (ekernel : Nat) : Phys :=
  ⟨mem, StackFrameAllocator.new.init (ceil (physAddr ekernel)) (floor (physAddr 0x80800000))⟩

/-- The frames that have been handed out, when the first one was `l`. -/
def InUse (l : Nat) (s : Phys) (ppn : Nat) : Prop :=
  Lib.FreeStack.InUse l s.allocator.current s.allocator.recycled ppn

/-- The allocator serves the frames from `l` on, all of them below `2 ^ 44`. -/
structure Ok (l : Nat) (s : Phys) : Prop where
  stack : Lib.FreeStack.Ok l s.allocator.current s.allocator.recycled
  le : s.allocator.current ≤ s.allocator.endPpn
  small : s.allocator.endPpn ≤ 2 ^ 44

variable {l : Nat} {s s' : Phys} {ppn : Nat}

theorem InUse.lt (ok : s.Ok l) (inUse : s.InUse l ppn) : l ≤ ppn ∧ ppn < s.allocator.endPpn ∧
    ppn < 2 ^ 44 := by
  have upper := inUse.2.1
  have le := ok.le
  have small := ok.small
  exact ⟨inUse.1, by omega, by omega⟩

/-- What `frame_alloc` does when it returns a frame. -/
structure Allocated (l ppn : Nat) (s s' : Phys) : Prop where
  fresh : ¬ s.InUse l ppn
  inUse : ∀ other, s'.InUse l other ↔ s.InUse l other ∨ other = ppn
  mem : s'.mem = s.mem.fill ppn fun _ => 0
  endPpn : s'.allocator.endPpn = s.allocator.endPpn
  ok : s'.Ok l

theorem frameAlloc_spec (ok : s.Ok l) (h : s.frameAlloc = some (ppn, s')) :
    Allocated l ppn s s' := by
  obtain ⟨mem, current, endPpn, recycled⟩ := s
  have le := ok.le
  have small := ok.small
  unfold frameAlloc StackFrameAllocator.alloc at h
  cases recycled with
  | cons first rest =>
      have range := ok.stack.bound first List.mem_cons_self
      have kept : physPageNum first = first := Nat.mod_eq_of_lt (by simp at le small range; omega)
      simp only [Option.map_some, kept, Option.some.injEq, Prod.mk.injEq] at h
      obtain ⟨rfl, rfl⟩ := h
      exact ⟨Lib.FreeStack.not_inUse_head, fun _ => ok.stack.inUse_pop, rfl, rfl,
        ok.stack.pop, ok.le, ok.small⟩
  | nil =>
      split at h
      · next found => simp at found
      · split at h
        · simp at h
        · next notEnd =>
          simp only at le small notEnd
          have kept : physPageNum current = current := Nat.mod_eq_of_lt (by omega)
          simp only [Option.map_some, kept, Option.some.injEq, Prod.mk.injEq] at h
          obtain ⟨rfl, rfl⟩ := h
          exact ⟨Lib.FreeStack.not_inUse_current, fun _ => ok.stack.inUse_bump, rfl, rfl,
            ok.stack.bump, by simp only; omega, ok.small⟩

/-- `frame_alloc` fails when nothing was returned and the end is reached. -/
theorem frameAlloc_eq_none :
    s.frameAlloc = none ↔ s.allocator.recycled = [] ∧ s.allocator.current = s.allocator.endPpn := by
  unfold frameAlloc StackFrameAllocator.alloc
  cases recycled : s.allocator.recycled with
  | cons first rest => simp
  | nil =>
      by_cases atEnd : s.allocator.current = s.allocator.endPpn
      · simp [atEnd]
      · simp [atEnd]

/-- What `frame_dealloc` does to a frame in use. -/
structure Freed (l ppn : Nat) (s s' : Phys) : Prop where
  inUse : ∀ other, s'.InUse l other ↔ s.InUse l other ∧ other ≠ ppn
  mem : s'.mem = s.mem
  endPpn : s'.allocator.endPpn = s.allocator.endPpn
  ok : s'.Ok l

/-- The frame of a tracker can be returned. -/
theorem frameDealloc_spec (ok : s.Ok l) (inUse : s.InUse l ppn) :
    ∃ s', s.frameDealloc ppn = some s' ∧ Freed l ppn s s' := by
  unfold frameDealloc StackFrameAllocator.dealloc
  have below := inUse.2.1
  rw [if_neg (by simp only [not_or]; exact ⟨by omega, inUse.2.2⟩)]
  exact ⟨_, rfl, fun _ => Lib.FreeStack.inUse_push, rfl, rfl, ok.stack.push inUse, ok.le, ok.small⟩

end Phys

end CoreFromDust.Os.Mm
