import CoreFromDust.Os.Proofs.Paths

/-!
# Where a thread is

A thread is in the processor, in the ready queue, in the timers or in a wait queue of its
process; `Kernel.place` counts how often it is in each of them. `Inv` says that a thread that
can still run is in exactly one of them, the one that its status says, and that its process
knows it under its thread id. This module has the invariant and the moves of a thread from one
place to another.
-/

namespace CoreFromDust.Os

/-! ## Places -/

/-- How often a thread is in the processor, the ready queue, the timers and the wait queues of
its process. -/
structure Place where
  running : Nat
  ready : Nat
  sleeping : Nat
  waiting : Nat
  deriving DecidableEq

/-- The place of a thread with a given status. -/
def Place.Fits : TaskStatus → Place → Prop
  | .running, place => place = ⟨1, 0, 0, 0⟩
  | .ready, place => place = ⟨0, 1, 0, 0⟩
  | .blocked, place => place = ⟨0, 0, 1, 0⟩ ∨ place = ⟨0, 0, 0, 1⟩

namespace Kernel

/-- The place of a thread. -/
def place (k : Kernel) (t : TaskId) : Place where
  running := k.current.toList.count t
  ready := k.readyQueue.count t
  sleeping := (k.timers.map TimerCondVar.task).count t
  waiting := (k.procs (k.tasks t).process).waiters.count t

/-- The thread has not exited and its process is not a zombie. -/
def Live (k : Kernel) (t : TaskId) : Prop :=
  (k.tasks t).exitCode = none ∧ (k.procs (k.tasks t).process).isZombie = false

/-- The thread is nowhere that it could run from. -/
def Gone (k : Kernel) (t : TaskId) : Prop :=
  k.current ≠ some t ∧ t ∉ k.readyQueue ∧ t ∉ k.timers.map TimerCondVar.task ∧
    ((k.tasks t).exitCode ≠ none → t ∉ (k.procs (k.tasks t).process).waiters)

end Kernel

/-- The ids that were handed out and not returned. -/
def RecycleAllocator.InUse (a : RecycleAllocator) (id : Nat) : Prop :=
  id < a.current ∧ id ∉ a.recycled

/-- The allocator holds each returned id once. -/
structure RecycleAllocator.Ok (a : RecycleAllocator) : Prop where
  nodup : a.recycled.Nodup
  bound : ∀ id ∈ a.recycled, id < a.current

namespace RecycleAllocator

variable {a a' : RecycleAllocator}

/-- `alloc` hands out an id that was not in use. -/
theorem Ok.alloc (ok : a.Ok) : a.alloc.2.Ok ∧ ¬ a.InUse a.alloc.1 ∧
    ∀ id, a.alloc.2.InUse id ↔ a.InUse id ∨ id = a.alloc.1 := by
  obtain ⟨current, recycled⟩ := a
  cases recycled with
  | nil =>
      refine ⟨⟨List.nodup_nil, by simp [RecycleAllocator.alloc]⟩, ?_, ?_⟩
      · simp [RecycleAllocator.alloc, InUse]
      · intro id
        simp only [RecycleAllocator.alloc, InUse, List.not_mem_nil, not_false_eq_true, and_true]
        omega
  | cons first rest =>
      have nodup := List.nodup_cons.mp ok.nodup
      have below := ok.bound first List.mem_cons_self
      refine ⟨⟨nodup.2, fun id mem => ok.bound id (List.mem_cons_of_mem _ mem)⟩, ?_, ?_⟩
      · simp [RecycleAllocator.alloc, InUse]
      · intro id
        simp only [RecycleAllocator.alloc, InUse, List.mem_cons, not_or]
        constructor
        · rintro ⟨small, free⟩
          by_cases same : id = first
          · exact .inr same
          · exact .inl ⟨small, same, free⟩
        · rintro (⟨small, -, free⟩ | rfl)
          · exact ⟨small, free⟩
          · exact ⟨below, nodup.1⟩

/-- `dealloc` takes one id back. -/
theorem Ok.dealloc (ok : a.Ok) {id : Nat} (h : a.dealloc id = some a') :
    a'.Ok ∧ ∀ other, other ≠ id → (a'.InUse other ↔ a.InUse other) := by
  unfold RecycleAllocator.dealloc at h
  split at h
  · next inUse =>
    rw [Option.some.injEq] at h
    subst h
    refine ⟨⟨List.nodup_cons.mpr ⟨inUse.2, ok.nodup⟩, ?_⟩, ?_⟩
    · intro other mem
      rcases List.mem_cons.mp mem with rfl | mem
      · exact inUse.1
      · exact ok.bound other mem
    · intro other differ
      simp [InUse, differ]
  · simp at h

end RecycleAllocator

/-- The invariant of the kernel between two of its paths. -/
structure Inv (k : Kernel) : Prop where
  process : ∀ t, t < k.nextTask → (k.tasks t).process < k.nextProc
  scheduled : ∀ t, (k.current = some t ∨ t ∈ k.readyQueue ∨ t ∈ k.timers.map TimerCondVar.task) →
    t < k.nextTask
  waiters : ∀ p, ∀ w ∈ (k.procs p).waiters, w < k.nextTask ∧ (k.tasks w).process = p
  live : ∀ t, t < k.nextTask → k.Live t → (k.place t).Fits (k.tasks t).taskStatus
  gone : ∀ t, t < k.nextTask → ¬ k.Live t → k.Gone t
  /-- The `tasks` of a process are threads of the process. -/
  slots : ∀ p (i : Nat) u, (k.procs p).tasks[i]? = some (some u) → u < k.nextTask ∧
    (k.tasks u).process = p
  /-- A process knows its threads by their ids. -/
  slot : ∀ t, t < k.nextTask → k.Live t → ∃ tid, (k.tasks t).res = some tid ∧
    (k.procs (k.tasks t).process).tasks[tid]? = some (some t) ∧
    (k.procs (k.tasks t).process).taskResAllocator.InUse tid
  allocator : ∀ p, (k.procs p).taskResAllocator.Ok

/-! ## Moves -/

/-- The step from `k` to `k'` moves threads between places at most. -/
structure SameThreads (k k' : Kernel) : Prop where
  nextTask : k'.nextTask = k.nextTask
  nextProc : k'.nextProc = k.nextProc
  process : ∀ t, (k'.tasks t).process = (k.tasks t).process
  res : ∀ t, (k'.tasks t).res = (k.tasks t).res
  exitCode : ∀ t, (k'.tasks t).exitCode = (k.tasks t).exitCode
  isZombie : ∀ p, (k'.procs p).isZombie = (k.procs p).isZombie
  tasks : ∀ p, (k'.procs p).tasks = (k.procs p).tasks
  allocator : ∀ p, (k'.procs p).taskResAllocator = (k.procs p).taskResAllocator

theorem SameThreads.live {k k' : Kernel} (same : SameThreads k k') (t : TaskId) :
    k'.Live t ↔ k.Live t := by
  rw [Kernel.Live, Kernel.Live, same.exitCode, same.process, same.isZombie]

namespace Kernel

variable {k k' : Kernel}

theorem place_running {t : TaskId} : 0 < (k.place t).running ↔ k.current = some t := by
  rw [place, List.count_pos_iff, Option.mem_toList]

theorem place_ready {t : TaskId} : 0 < (k.place t).ready ↔ t ∈ k.readyQueue :=
  List.count_pos_iff

theorem place_sleeping {t : TaskId} :
    0 < (k.place t).sleeping ↔ t ∈ k.timers.map TimerCondVar.task := List.count_pos_iff

theorem place_waiting {t : TaskId} :
    0 < (k.place t).waiting ↔ t ∈ (k.procs (k.tasks t).process).waiters := List.count_pos_iff

/-- The parts of `Gone` depend on the place. -/
theorem gone_congr {t : TaskId} (place : k'.place t = k.place t)
    (exitCode : (k'.tasks t).exitCode = (k.tasks t).exitCode) (gone : k.Gone t) : k'.Gone t := by
  unfold Gone at *
  rw [ne_eq, ← place_running, ← place_ready, ← place_sleeping, ← place_waiting] at gone ⊢
  rw [place, exitCode]
  exact gone

end Kernel

variable {k k' : Kernel}

/-- A step that only moves threads that can run, each to a place that fits its new status. -/
theorem Inv.move (inv : Inv k) (same : SameThreads k k')
    (waiters : ∀ p, ∀ w ∈ (k'.procs p).waiters, w < k.nextTask ∧ (k.tasks w).process = p)
    (placed : ∀ t, (k'.place t = k.place t ∧ (k'.tasks t).taskStatus = (k.tasks t).taskStatus) ∨
      (t < k.nextTask ∧ k.Live t ∧ (k'.place t).Fits (k'.tasks t).taskStatus)) : Inv k' := by
  refine ⟨?_, ?_, ?_, ?_, ?_, ?_, ?_, ?_⟩
  · intro t ht
    rw [same.nextTask] at ht
    rw [same.process, same.nextProc]
    exact inv.process t ht
  · intro t mem
    rw [same.nextTask]
    rcases placed t with ⟨place, -⟩ | ⟨below, -⟩
    · rw [← Kernel.place_running, ← Kernel.place_ready, ← Kernel.place_sleeping, place,
        Kernel.place_running, Kernel.place_ready, Kernel.place_sleeping] at mem
      exact inv.scheduled t mem
    · exact below
  · intro p w mem
    rw [same.nextTask, same.process]
    exact waiters p w mem
  · intro t ht isLive
    rw [same.nextTask] at ht
    rw [same.live] at isLive
    rcases placed t with ⟨place, status⟩ | ⟨-, -, fits⟩
    · rw [place, status]
      exact inv.live t ht isLive
    · exact fits
  · intro t ht notLive
    rw [same.nextTask] at ht
    rw [same.live] at notLive
    rcases placed t with ⟨place, -⟩ | ⟨-, isLive, -⟩
    · exact Kernel.gone_congr place (same.exitCode t) (inv.gone t ht notLive)
    · exact absurd isLive notLive
  · intro p i u h
    rw [same.tasks] at h
    rw [same.nextTask, same.process]
    exact inv.slots p i u h
  · intro t ht isLive
    rw [same.nextTask] at ht
    rw [same.live] at isLive
    rw [same.res, same.process, same.tasks, same.allocator]
    exact inv.slot t ht isLive
  · intro p
    rw [same.allocator]
    exact inv.allocator p

/-! ## Which threads there are -/

/-- The two states of a process have the same threads. -/
structure Process.SameThreads (pcb pcb' : Process) : Prop where
  isZombie : pcb'.isZombie = pcb.isZombie
  tasks : pcb'.tasks = pcb.tasks
  allocator : pcb'.taskResAllocator = pcb.taskResAllocator

theorem Process.Keeps.sameThreads {pcb pcb' : Process} (keeps : pcb.Keeps pcb') :
    pcb.SameThreads pcb' :=
  ⟨keeps.isZombie, keeps.tasks, keeps.allocator⟩

namespace SameThreads

variable {t : TaskId} {p : ProcId}

theorem of_heap (tasks : k'.tasks = k.tasks) (procs : k'.procs = k.procs)
    (nextTask : k'.nextTask = k.nextTask) (nextProc : k'.nextProc = k.nextProc) :
    SameThreads k k' := by
  refine ⟨nextTask, nextProc, ?_, ?_, ?_, ?_, ?_, ?_⟩ <;> intro x <;> simp only [tasks, procs]

theorem trans {k₁ k₂ k₃ : Kernel} (h : SameThreads k₁ k₂) (h' : SameThreads k₂ k₃) :
    SameThreads k₁ k₃ where
  nextTask := h'.nextTask.trans h.nextTask
  nextProc := h'.nextProc.trans h.nextProc
  process t := (h'.process t).trans (h.process t)
  res t := (h'.res t).trans (h.res t)
  exitCode t := (h'.exitCode t).trans (h.exitCode t)
  isZombie p := (h'.isZombie p).trans (h.isZombie p)
  tasks p := (h'.tasks p).trans (h.tasks p)
  allocator p := (h'.allocator p).trans (h.allocator p)

theorem setTask (k : Kernel) {f : Task → Task}
    (process : (f (k.tasks t)).process = (k.tasks t).process)
    (res : (f (k.tasks t)).res = (k.tasks t).res)
    (exitCode : (f (k.tasks t)).exitCode = (k.tasks t).exitCode) :
    SameThreads k (k.setTask t f) := by
  refine ⟨rfl, rfl, ?_, ?_, ?_, fun _ => rfl, fun _ => rfl, fun _ => rfl⟩ <;> intro u <;>
    rw [Kernel.setTask_tasks] <;> split <;> simp_all

theorem setProc (k : Kernel) {f : Process → Process}
    (same : Process.SameThreads (k.procs p) (f (k.procs p))) : SameThreads k (k.setProc p f) := by
  refine ⟨rfl, rfl, fun _ => rfl, fun _ => rfl, fun _ => rfl, ?_, ?_, ?_⟩ <;> intro q <;>
    rw [Kernel.setProc_procs] <;> split
  · next h => rw [h, same.isZombie]
  · rfl
  · next h => rw [h, same.tasks]
  · rfl
  · next h => rw [h, same.allocator]
  · rfl

theorem wakeupTask (k : Kernel) : SameThreads k (k.wakeupTask t) := by
  have ready : SameThreads k (k.setTask t fun tcb => { tcb with taskStatus := .ready }) :=
    setTask k rfl rfl rfl
  exact ready.trans (of_heap rfl rfl rfl rfl)

theorem leave (k : Kernel) {status : TaskStatus} {frame : Frame} :
    SameThreads k (k.leave t status frame) := by
  have taken : SameThreads k { k with current := none } := of_heap rfl rfl rfl rfl
  exact taken.trans (setTask _ rfl rfl rfl)

end SameThreads

/-! ## Places after an update -/

namespace Kernel

variable {t u : TaskId} {p : ProcId}

theorem place_setTask {f : Task → Task} (process : (f (k.tasks t)).process = (k.tasks t).process) :
    (k.setTask t f).place u = k.place u := by
  have same : ((k.setTask t f).tasks u).process = (k.tasks u).process := by
    rw [setTask_tasks]
    split
    · next h => rw [h, process]
    · rfl
  simp only [place, same, setTask_current, setTask_readyQueue, setTask_timers, setTask_procs]

theorem place_addTask : (k.addTask t).place u =
    { k.place u with ready := (k.place u).ready + [t].count u } := by
  simp [place]

theorem place_wakeupTask : (k.wakeupTask t).place u =
    { k.place u with ready := (k.place u).ready + [t].count u } := by
  rw [wakeupTask, place_addTask, place_setTask rfl]

theorem place_leave {status : TaskStatus} {frame : Frame} : (k.leave t status frame).place u =
    { k.place u with running := 0 } := by
  rw [leave, place_setTask rfl]
  simp [place]

theorem place_setProc {f : Process → Process} : (k.setProc p f).place u =
    { k.place u with
      waiting := if (k.tasks u).process = p then (f (k.procs p)).waiters.count u
        else (k.place u).waiting } := by
  simp only [place, setProc_current, setProc_readyQueue, setProc_timers, setProc_tasks,
    setProc_procs]
  split
  · next same => rw [same]
  · rfl

theorem wakeupTask_taskStatus : ((k.wakeupTask t).tasks u).taskStatus =
    if u = t then .ready else (k.tasks u).taskStatus := by
  rw [wakeupTask, addTask_tasks, setTask_tasks]
  split <;> rfl

theorem leave_taskStatus {status : TaskStatus} {frame : Frame} :
    ((k.leave t status frame).tasks u).taskStatus =
      if u = t then status else (k.tasks u).taskStatus := by
  rw [leave, setTask_tasks]
  split <;> rfl

end Kernel

namespace Inv

variable {t : TaskId} {p : ProcId}

/-- A thread that can run is in one place, once. -/
theorem place_cases (inv : Inv k) (below : t < k.nextTask) (isLive : k.Live t) :
    k.place t = ⟨1, 0, 0, 0⟩ ∨ k.place t = ⟨0, 1, 0, 0⟩ ∨ k.place t = ⟨0, 0, 1, 0⟩ ∨
      k.place t = ⟨0, 0, 0, 1⟩ := by
  have fits := inv.live t below isLive
  cases status : (k.tasks t).taskStatus with
  | running =>
      rw [status] at fits
      exact .inl fits
  | ready =>
      rw [status] at fits
      exact .inr (.inl fits)
  | blocked =>
      rw [status] at fits
      exact .inr (.inr fits)

/-- A thread that can run and is found in a place is in no other. -/
theorem place_of_pos (inv : Inv k) (below : t < k.nextTask) (isLive : k.Live t) :
    (0 < (k.place t).running → k.place t = ⟨1, 0, 0, 0⟩) ∧
    (0 < (k.place t).ready → k.place t = ⟨0, 1, 0, 0⟩) ∧
    (0 < (k.place t).sleeping → k.place t = ⟨0, 0, 1, 0⟩) ∧
    (0 < (k.place t).waiting → k.place t = ⟨0, 0, 0, 1⟩) := by
  rcases inv.place_cases below isLive with eq | eq | eq | eq <;> rw [eq] <;> simp

/-- The current thread can run and is in the processor only. -/
theorem current (inv : Inv k) (here : k.current = some t) :
    t < k.nextTask ∧ k.Live t ∧ k.place t = ⟨1, 0, 0, 0⟩ := by
  have below := inv.scheduled t (.inl here)
  have isLive : k.Live t := by
    by_contra notLive
    exact (inv.gone t below notLive).1 here
  have only := (inv.place_of_pos below isLive).1
  exact ⟨below, isLive, only (Kernel.place_running.mpr here)⟩

/-- The process of the current thread has been created and has not ended. -/
theorem current_process (inv : Inv k) (here : k.current = some t) :
    (k.tasks t).process < k.nextProc ∧ (k.procs (k.tasks t).process).isZombie = false := by
  obtain ⟨below, isLive, -⟩ := inv.current here
  exact ⟨inv.process t below, isLive.2⟩

theorem currentProcess (inv : Inv k) (here : k.currentProcess = some p) : p < k.nextProc := by
  obtain ⟨task, isCurrent, -⟩ := Option.bind_eq_some_iff.mp here
  rw [Kernel.currentProcess_eq isCurrent here]
  exact (inv.current_process isCurrent).1

/-- A thread in the ready queue can run and is there only. -/
theorem ready (inv : Inv k) (here : t ∈ k.readyQueue) :
    t < k.nextTask ∧ k.Live t ∧ k.place t = ⟨0, 1, 0, 0⟩ := by
  have below := inv.scheduled t (.inr (.inl here))
  have isLive : k.Live t := by
    by_contra notLive
    exact (inv.gone t below notLive).2.1 here
  have only := (inv.place_of_pos below isLive).2.1
  exact ⟨below, isLive, only (Kernel.place_ready.mpr here)⟩

/-- A thread in the timers can run and is there only. -/
theorem sleeping (inv : Inv k) (here : t ∈ k.timers.map TimerCondVar.task) :
    t < k.nextTask ∧ k.Live t ∧ k.place t = ⟨0, 0, 1, 0⟩ := by
  have below := inv.scheduled t (.inr (.inr here))
  have isLive : k.Live t := by
    by_contra notLive
    exact (inv.gone t below notLive).2.2.1 here
  have only := (inv.place_of_pos below isLive).2.2.1
  exact ⟨below, isLive, only (Kernel.place_sleeping.mpr here)⟩

/-- A thread in a wait queue of a process that is not a zombie can run when it is woken. -/
theorem waiter (inv : Inv k) (alive : (k.procs p).isZombie = false)
    (here : t ∈ (k.procs p).waiters) :
    t < k.nextTask ∧ k.Live t ∧ (k.tasks t).process = p ∧ k.place t = ⟨0, 0, 0, 1⟩ := by
  obtain ⟨below, own⟩ := inv.waiters p t here
  subst own
  have isLive : k.Live t := by
    refine ⟨?_, alive⟩
    by_contra exited
    have notLive : ¬ k.Live t := fun h => exited h.1
    exact (inv.gone t below notLive).2.2.2 exited here
  have only := (inv.place_of_pos below isLive).2.2.2
  exact ⟨below, isLive, rfl, only (Kernel.place_waiting.mpr here)⟩

/-- A thread that runs is in no wait queue. -/
theorem not_waiting (inv : Inv k) (acts : k.current = some t ∨ t ∈ k.readyQueue) :
    t ∉ (k.procs (k.tasks t).process).waiters := by
  have waiting : (k.place t).waiting = 0 := by
    rcases acts with current | ready
    · rw [(inv.current current).2.2]
    · rw [(inv.ready ready).2.2]
  exact List.count_eq_zero.mp waiting

end Inv

end CoreFromDust.Os
