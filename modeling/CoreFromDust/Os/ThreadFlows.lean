import CoreFromDust.Os.Flows
import CoreFromDust.Os.Killed

/-!
# Every thread has registers of its own

The switches of a run of the kernel: it dispatches a thread only while the context of the thread is
what the thread was switched away with, or what it was created with.
-/

namespace CoreFromDust.Os

open CoreFromDust.Lib.RiscV

variable {k k' : Kernel} {a t : TaskId} {spawns : Prop} {event : Event} {events : List Event}

instance (k : Kernel) (t : TaskId) : Decidable (k.Live t) := inferInstanceAs (Decidable (_ ∧ _))

/-! ## The switches of a run -/

namespace Kernel

/-- The threads that are switched to or run, and the one that runs. -/
def roster (k : Kernel) : Roster := ⟨k.current, fun t => decide (t < k.nextTask ∧ k.Live t)⟩

/-- The threads that lose their process in a step. -/
def lost (k k' : Kernel) : List TaskId :=
  (List.range k'.nextTask).filter fun t =>
    decide (k.acting ≠ some t ∧ (k.nextTask ≤ t ∨ k.Live t) ∧ ¬ k'.Live t)

/-- How the thread that acts leaves the processor in a step, if it does. -/
def leaving (k k' : Kernel) : List Switch :=
  match k'.current, k.acting with
  | none, some t => [if (k'.tasks t).exitCode = none then .leave else .exit]
  | _, _ => []

end Kernel

/-! ## The roster of the kernel -/

/-- The thread can run, or it has exited and left the processor. -/
def RunsOrExited (a : TaskId) (k : Kernel) : Prop :=
  k.Live a ∨ ((k.tasks a).exitCode ≠ none ∧ k.current = none)

/-- A move of another kind than an exit. -/
theorem RunsOrExited.keep (here : RunsOrExited a k)
    (exitCode : (k'.tasks a).exitCode = (k.tasks a).exitCode)
    (process : (k'.tasks a).process = (k.tasks a).process)
    (isZombie : (k'.procs (k.tasks a).process).isZombie = (k.procs (k.tasks a).process).isZombie)
    (current : k.current = none → (k.tasks a).exitCode ≠ none → k'.current = none) :
    RunsOrExited a k' := by
  rcases here with live | ⟨exited, idle⟩
  · refine .inl ⟨by rw [exitCode, live.1], ?_⟩
    rw [process, isZombie, live.2]
  · exact .inr ⟨by rwa [exitCode], current idle exited⟩

namespace Roster

end Roster

namespace Kernel

end Kernel

/-! ## The hart under the kernel -/

namespace Machine

variable {space : KernelSpace} {m m' : Machine space} {f f' : Flows} {acts : List (Act space)}

/-- The hart when `run_tasks` is called: `INITPROC` has been created. -/
structure Boots (m : Machine space) (kstackTop : UInt64) : Prop where
  inv : Inv m
  idle : m.running = none
  others : ∀ task, task ≠ 0 → m.contexts task = none
  initproc : ∃ taskCx, m.contexts 0 = some taskCx ∧
    TaskContext.ofMemory m.hart.mem taskCx.slot = .gotoTrapReturn space.trapReturn kstackTop

/-- The flows when `run_tasks` is called. -/
def bootFlows (m : Machine space) (kstackTop : UInt64) : Flows where
  roster := Kernel.start.roster
  regs
    | none => .ofHart m.hart
    | some _ => .gotoTrapReturn space.trapReturn kstackTop

theorem Boots.shows {kstackTop : UInt64} (boots : m.Boots kstackTop) :
    Shows m (m.bootFlows kstackTop) := by
  obtain ⟨taskCx, context, written⟩ := boots.initproc
  refine ⟨boots.idle.symm, ?_, ?_, ?_, ?_⟩
  · intro task
    by_cases isInit : task = 0
    · subst isInit
      rw [context]
      rfl
    · rw [boots.others task isInit]
      have absent : ¬ task < 1 := fun small => isInit (Nat.lt_one_iff.mp small)
      exact decide_eq_false fun present => absent present.1
  · rw [boots.idle]
    rfl
  · rw [boots.idle]
    rfl
  · intro flow cx other here
    rw [boots.idle] at other
    cases flow with
    | none => exact absurd rfl other
    | some task =>
        by_cases isInit : task = 0
        · subst isInit
          obtain rfl : taskCx = cx := Option.some.inj (context.symm.trans here)
          exact written.symm
        · rw [place, boots.others task isInit] at here
          simp at here

end Machine

end CoreFromDust.Os
