import CoreFromDust.Os.State
import CoreFromDust.Os.Switch

/-!
# Flows of control

The hart under `run_tasks` and the threads: which pointers `run_tasks` and `schedule` of
`os/src/task/processor.rs` pass to `__switch`, and which one the callers of `schedule` in
`os/src/task/mod.rs` pass to it. What runs between two calls of `__switch` may do anything to the
hart but write to the contexts of the other flows. For each flow it looks as if it had registers of
its own.
-/

namespace CoreFromDust.Os

open CoreFromDust.Lib.RiscV

/-- A flow of control in the kernel: a thread, or `run_tasks`. -/
abbrev Flow := Option TaskId

/-! ## What the flows see -/

/-- A change of the threads that can be switched to, or of the one that runs. -/
inductive Switch where
  /-- a `TaskControlBlock` is created -/
  | create (task : TaskId)
  /-- a thread will never run again -/
  | drop (task : TaskId)
  /-- `run_tasks` switches to a thread -/
  | dispatch (task : TaskId)
  /-- a thread calls `schedule` with its `task_cx` -/
  | leave
  /-- a thread calls `schedule` with `_unused` -/
  | exit
  deriving DecidableEq, Repr

/-- Which flow runs, and which threads can be switched to or run. -/
structure Roster where
  running : Flow
  present : TaskId → Bool

/-- The roster after a change. -/
def Roster.after (r : Roster) : Switch → Option Roster
  | .create task =>
      if r.present task then none
      else some { r with present := Function.update r.present task true }
  | .drop task =>
      if r.running = some task then none
      else some { r with present := Function.update r.present task false }
  | .dispatch task =>
      if r.running = none ∧ r.present task then some { r with running := some task } else none
  | .leave => r.running.map fun _ => { r with running := none }
  | .exit => r.running.map fun task => ⟨none, Function.update r.present task false⟩

/-- The address space of the kernel, in which the code of `__switch` is mapped. -/
structure KernelSpace where
  mmu : Mmu
  satp : UInt64
  text : Text
  mapped : text.Mapped mmu satp
  /-- `PROCESSOR.idle_task_cx` -/
  idleTaskCx : TaskCxPtr mmu satp
  /-- the address of `trap_return` -/
  trapReturn : UInt64

/-- A pointer to a `TaskContext` in the address space of the kernel. -/
abbrev KernelSpace.CxPtr (space : KernelSpace) := TaskCxPtr space.mmu space.satp

/-- What happens to the hart. -/
inductive Act (space : KernelSpace) where
  /-- the flow that runs gets to this state, be it in its kernel code or in its user code -/
  | work (after : Hart)
  /-- the flow that runs writes the `task_cx` of a new thread -/
  | create (task : TaskId) (taskCx : space.CxPtr) (kstackTop : UInt64) (mem : Nat → UInt8)
  | drop (task : TaskId)
  /-- `run_tasks` has fetched a thread and calls `__switch` -/
  | dispatch (task : TaskId)
  /-- the thread calls `schedule` in `suspend_current_and_run_next` or
  `block_current_and_run_next` -/
  | leave
  /-- the thread calls `schedule` at the end of `exit_current_and_run_next` -/
  | exit (unused : space.CxPtr)

/-- The change of the roster. -/
def Act.switch {space : KernelSpace} : Act space → Option Switch
  | .work _ => none
  | .create task _ _ _ => some (.create task)
  | .drop task => some (.drop task)
  | .dispatch task => some (.dispatch task)
  | .leave => some .leave
  | .exit _ => some .exit

/-- The flows, each with registers of its own. -/
structure Flows where
  roster : Roster
  regs : Flow → TaskContext

/-- The roster after an act. -/
def Roster.afterAct {space : KernelSpace} (r : Roster) (act : Act space) : Option Roster :=
  match act.switch with
  | none => some r
  | some switch => r.after switch

/-- The registers after an act: work changes those of the flow that runs, a new thread gets the ones
that it starts with, and a switch changes none. -/
def Flows.regsAfter {space : KernelSpace} (f : Flows) : Act space → Flow → TaskContext
  | .work after => Function.update f.regs f.roster.running (.ofHart after)
  | .create task _ kstackTop _ =>
      Function.update f.regs (some task) (.gotoTrapReturn space.trapReturn kstackTop)
  | _ => f.regs

/-- The flows after an act. -/
def Flows.act {space : KernelSpace} (f : Flows) (act : Act space) : Option Flows :=
  (f.roster.afterAct act).map fun roster => ⟨roster, f.regsAfter act⟩

/-- The flows after some acts. -/
def Flows.acts {space : KernelSpace} (f : Flows) : List (Act space) → Option Flows
  | [] => some f
  | act :: rest => (f.act act).bind fun f => f.acts rest

/-! ## What the hart does -/

/-- The hart, the thread in `PROCESSOR.current`, and the pointers to the `task_cx` of the threads
that are present. -/
structure Machine (space : KernelSpace) where
  hart : Hart
  running : Flow
  contexts : TaskId → Option space.CxPtr

namespace Machine

variable {space : KernelSpace}

/-- The end of an iteration of `run_tasks`, which has fetched a thread. -/
def runTasks (m : Machine space) (task : TaskId) : Option (Machine space) :=
  (m.contexts task).bind fun nextTaskCx =>
    (callSwitch space.mmu space.text space.idleTaskCx.address nextTaskCx.address m.hart).map
      fun hart => { m with hart := hart, running := some task }

/-- `schedule`. -/
def schedule (m : Machine space) (switchTaskCxPtr : UInt64) : Option Hart :=
  callSwitch space.mmu space.text switchTaskCxPtr space.idleTaskCx.address m.hart

/-- The machine after an act; `none` is an exception in `__switch`. -/
def act (m : Machine space) : Act space → Option (Machine space)
  | .work after => some { m with hart := after }
  | .create task taskCx _ mem => some { m with
      hart := { m.hart with mem := mem }
      contexts := Function.update m.contexts task (some taskCx) }
  | .drop task => some { m with contexts := Function.update m.contexts task none }
  | .dispatch task => m.runTasks task
  | .leave =>
      m.running.bind fun task => (m.contexts task).bind fun taskCx =>
        (m.schedule taskCx.address).map fun hart => { m with hart := hart, running := none }
  -- `_unused` instead of the context of the thread, which will not run again
  | .exit unused =>
      m.running.bind fun task => (m.schedule unused.address).map fun hart =>
        ⟨hart, none, Function.update m.contexts task none⟩

/-- The machine after some acts. -/
def acts (m : Machine space) : List (Act space) → Option (Machine space)
  | [] => some m
  | act :: rest => (m.act act).bind fun m => m.acts rest

/-- Where the context of a flow is. -/
def place (m : Machine space) : Flow → Option space.CxPtr
  | none => some space.idleTaskCx
  | some task => m.contexts task

/-- The memory still has the contexts of the flows that do not run. -/
def Keeps (m : Machine space) (mem : Nat → UInt8) : Prop :=
  ∀ flow cx, flow ≠ m.running → m.place flow = some cx →
    TaskContext.ofMemory mem cx.slot = TaskContext.ofMemory m.hart.mem cx.slot

/-- The address space is the one of the kernel, and the contexts do not overlap. -/
structure Inv (m : Machine space) : Prop where
  satp : m.hart.csr .satp = space.satp
  apart : ∀ flow flow' cx cx', flow ≠ flow' → m.place flow = some cx → m.place flow' = some cx' →
    ContextsApart cx.slot cx'.slot

/-- The flow that runs has its registers in the hart, and the others have theirs in their
contexts. -/
structure Shows (m : Machine space) (f : Flows) : Prop where
  running : f.roster.running = m.running
  present : ∀ task, f.roster.present task = (m.contexts task).isSome
  runs : (m.place m.running).isSome = true
  now : f.regs m.running = .ofHart m.hart
  saved : ∀ flow cx, flow ≠ m.running → m.place flow = some cx →
    f.regs flow = .ofMemory m.hart.mem cx.slot

/-! ## One act -/

section Act

variable {m m' : Machine space} {f f' : Flows} {act : Act space} {acts : List (Act space)}

/-- The threads that are still present keep their contexts. -/
theorem place_still {hart : Hart} {running away : Flow} {task : TaskId} {cx : space.CxPtr}
    (here : place ⟨hart, running, Function.update m.contexts task none⟩ away = some cx) :
    away ≠ some task ∧ m.place away = some cx := by
  cases away with
  | none => exact ⟨by simp, here⟩
  | some other =>
      by_cases same : other = task
      · subst same
        simp [place] at here
      · exact ⟨by simpa using same, by simpa only [place, Function.update_of_ne same] using here⟩

theorem Inv.drop (inv : Inv m) (hart : Hart) (running : Flow) (task : TaskId)
    (satp : hart.csr .satp = space.satp) :
    Inv ⟨hart, running, Function.update m.contexts task none⟩ := by
  refine ⟨satp, ?_⟩
  intro flow flow' cx cx' differ here there
  exact inv.apart flow flow' cx cx' differ (place_still here).2 (place_still there).2

/-- A new context. -/
theorem Inv.create (inv : Inv m) (mem : Nat → UInt8) (task : TaskId) {taskCx : space.CxPtr}
    (apart : ∀ flow cx, m.place flow = some cx → ContextsApart taskCx.slot cx.slot) :
    Inv ⟨{ m.hart with mem := mem }, m.running,
      Function.update m.contexts task (some taskCx)⟩ := by
  have before : ∀ flow cx, place ⟨{ m.hart with mem := mem }, m.running,
      Function.update m.contexts task (some taskCx)⟩ flow = some cx →
      (flow = some task ∧ cx = taskCx) ∨ (flow ≠ some task ∧ m.place flow = some cx) := by
    intro flow cx here
    cases flow with
    | none => exact .inr ⟨by simp, here⟩
    | some other =>
        by_cases same : other = task
        · subst same
          refine .inl ⟨rfl, ?_⟩
          simpa [place, eq_comm] using here
        · refine .inr ⟨by simpa using same, ?_⟩
          simpa only [place, Function.update_of_ne same] using here
  refine ⟨inv.satp, ?_⟩
  intro flow flow' cx₁ cx₂ differ here there
  rcases before flow cx₁ here with ⟨rfl, rfl⟩ | ⟨-, old⟩
  · rcases before flow' cx₂ there with ⟨rfl, rfl⟩ | ⟨-, old'⟩
    · exact absurd rfl differ
    · exact apart flow' cx₂ old'
  · rcases before flow' cx₂ there with ⟨rfl, rfl⟩ | ⟨-, old'⟩
    · exact (apart flow cx₁ old).symm
    · exact inv.apart flow flow' cx₁ cx₂ differ old old'

theorem Shows.work (shows : Shows m f) {after : Hart} (keeps : m.Keeps after.mem) :
    Shows { m with hart := after }
      ⟨f.roster, Function.update f.regs f.roster.running (.ofHart after)⟩ := by
  refine ⟨shows.running, shows.present, shows.runs, ?_, ?_⟩
  · rw [shows.running]
    exact Function.update_self ..
  · intro flow cx differ here
    rw [shows.running]
    dsimp only
    rw [Function.update_of_ne differ, keeps flow cx differ here]
    exact shows.saved flow cx differ here

theorem Shows.create (shows : Shows m f) {task : TaskId} {taskCx : space.CxPtr} {cx : TaskContext}
    {mem : Nat → UInt8} (absent : f.roster.present task = false)
    (written : TaskContext.ofMemory mem taskCx.slot = cx) (keeps : m.Keeps mem) :
    Shows ⟨{ m.hart with mem := mem }, m.running, Function.update m.contexts task (some taskCx)⟩
      ⟨{ f.roster with present := Function.update f.roster.present task true },
        Function.update f.regs (some task) cx⟩ := by
  have noContext : m.contexts task = none := by
    rw [shows.present] at absent
    simpa using absent
  have notRunning : m.running ≠ some task := by
    intro running
    have runs := shows.runs
    rw [running, place, noContext] at runs
    simp at runs
  have others : ∀ flow, flow ≠ some task → place ⟨{ m.hart with mem := mem }, m.running,
      Function.update m.contexts task (some taskCx)⟩ flow = m.place flow := by
    intro flow differ
    cases flow with
    | none => rfl
    | some other =>
        have same : other ≠ task := by simpa using differ
        simp only [place, Function.update_of_ne same]
  refine ⟨shows.running, ?_, ?_, ?_, ?_⟩
  · intro other
    by_cases same : other = task
    · subst same
      simp
    · simp [Function.update_of_ne same, shows.present]
  · rw [others _ notRunning]
    exact shows.runs
  · dsimp only
    rw [Function.update_of_ne notRunning]
    exact shows.now
  · intro flow cx' differ here
    dsimp only
    by_cases new : flow = some task
    · subst new
      have same : taskCx = cx' := by simpa [place] using here
      rw [Function.update_self, ← same, written]
    · rw [others flow new] at here
      rw [Function.update_of_ne new, keeps flow cx' differ here]
      exact shows.saved flow cx' differ here

end Act

end Machine

end CoreFromDust.Os
