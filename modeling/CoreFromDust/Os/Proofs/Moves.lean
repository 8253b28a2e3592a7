import CoreFromDust.Os.Syscall
import Mathlib.Logic.Relation

/-!
# What a step of the kernel can do

Every kernel path is a sequence of a few kinds of moves: a thread leaves the processor, is woken,
is created or exits, and so on. `Move a` is one of them in the course of a path of the thread
`a`. Invariants of the kernel are proved once for each move.
-/

namespace CoreFromDust.Os

/-! ## Wait queues -/

/-- The threads that wait for a mutex. -/
def Mutex.waitQueue : Mutex → List TaskId
  | .blocking _ waitQueue => waitQueue
  | .spin _ => []

/-- The wait queue of an entry of one of the lists of a process. -/
def slotQueue {α : Type} (queue : α → List TaskId) : Option α → List TaskId
  | none => []
  | some object => queue object

/-- All threads in wait queues of a process. -/
def Process.waiters (pcb : Process) : List TaskId :=
  pcb.mutexList.flatMap (slotQueue Mutex.waitQueue) ++
    pcb.semaphoreList.flatMap (slotQueue Semaphore.waitQueue) ++
    pcb.condvarList.flatMap (slotQueue Condvar.waitQueue)

/-- Replacing an element of a list replaces its part of the concatenation. -/
theorem count_flatMap_set {α β : Type} [DecidableEq β] (f : α → List β) {l : List α} {i : Nat}
    {a : α} (h : l[i]? = some a) (b : α) (x : β) :
    ((l.set i b).flatMap f).count x + (f a).count x = (l.flatMap f).count x + (f b).count x := by
  induction l generalizing i with
  | nil => simp at h
  | cons c l ih =>
      cases i with
      | zero =>
          simp only [List.getElem?_cons_zero, Option.some.injEq] at h
          subst h
          simp only [List.set_cons_zero, List.flatMap_cons, List.count_append]
          omega
      | succ i =>
          rw [List.getElem?_cons_succ] at h
          have rest := ih h
          simp only [List.set_cons_succ, List.flatMap_cons, List.count_append]
          omega

/-- A new object with an empty wait queue. -/
theorem count_flatMap_allocSlot {α : Type} (queue : α → List TaskId) (list : List (Option α))
    {object : α} (empty : queue object = []) (x : TaskId) :
    ((allocSlot list object).1.flatMap (slotQueue queue)).count x =
      (list.flatMap (slotQueue queue)).count x := by
  unfold allocSlot
  cases found : list.findIdx? Option.isNone with
  | none => simp [slotQueue, empty]
  | some id =>
      obtain ⟨below, isNone, -⟩ := List.findIdx?_eq_some_iff_getElem.mp found
      have free : list[id]? = some none := by
        rw [List.getElem?_eq_getElem below, Option.isNone_iff_eq_none.mp isNone]
      have replaced := count_flatMap_set (slotQueue queue) free (some object) x
      simp only [slotQueue, empty, List.count_nil] at replaced
      exact replaced

namespace Process

variable {pcb : Process} {id : Nat}

/-- A changed mutex changes the waiters by its own queue. -/
theorem count_setMutex {old : Mutex} (h : pcb.mutexList[id]? = some (some old)) (new : Mutex)
    (u : TaskId) :
    ({ pcb with mutexList := pcb.mutexList.set id (some new) } : Process).waiters.count u +
      old.waitQueue.count u = pcb.waiters.count u + new.waitQueue.count u := by
  have changed := count_flatMap_set (slotQueue Mutex.waitQueue) h (some new) u
  simp only [slotQueue] at changed
  simp only [waiters, List.count_append]
  omega

/-- A changed semaphore changes the waiters by its own queue. -/
theorem count_setSemaphore {old : Semaphore} (h : pcb.semaphoreList[id]? = some (some old))
    (new : Semaphore) (u : TaskId) :
    ({ pcb with semaphoreList := pcb.semaphoreList.set id (some new) } : Process).waiters.count u +
      old.waitQueue.count u = pcb.waiters.count u + new.waitQueue.count u := by
  have changed := count_flatMap_set (slotQueue Semaphore.waitQueue) h (some new) u
  simp only [slotQueue] at changed
  simp only [waiters, List.count_append]
  omega

/-- A changed condition variable changes the waiters by its own queue. -/
theorem count_setCondvar {old : Condvar} (h : pcb.condvarList[id]? = some (some old))
    (new : Condvar) (u : TaskId) :
    ({ pcb with condvarList := pcb.condvarList.set id (some new) } : Process).waiters.count u +
      old.waitQueue.count u = pcb.waiters.count u + new.waitQueue.count u := by
  have changed := count_flatMap_set (slotQueue Condvar.waitQueue) h (some new) u
  simp only [slotQueue] at changed
  simp only [waiters, List.count_append]
  omega

end Process

/-! ## Moves -/

/-- The two states of a process differ in its wait queues, locks and signals at most. -/
structure Process.Keeps (pcb pcb' : Process) : Prop where
  pid : pcb'.pid = pcb.pid
  isZombie : pcb'.isZombie = pcb.isZombie
  parent : pcb'.parent = pcb.parent
  children : pcb'.children = pcb.children
  exitCode : pcb'.exitCode = pcb.exitCode
  tasks : pcb'.tasks = pcb.tasks
  allocator : pcb'.taskResAllocator = pcb.taskResAllocator
  dropped : pcb'.dropped = pcb.dropped

/-- The thread gives the processor up. -/
def Kernel.leave (k : Kernel) (task : TaskId) (status : TaskStatus) (frame : Frame) : Kernel :=
  ({ k with current := none } : Kernel).setTask task fun tcb =>
    { tcb with taskStatus := status, frame := frame }

/-- The thread has created a thread of its process. -/
def Kernel.spawned (k : Kernel) (task : TaskId) (tid : Nat) (allocator : RecycleAllocator) :
    Kernel :=
  (({ k with nextTask := k.nextTask + 1 } : Kernel).setTask k.nextTask fun _ =>
    Task.new (k.tasks task).process tid).addTask k.nextTask |>.setProc (k.tasks task).process
      fun pcb =>
        { pcb with
          taskResAllocator := allocator
          tasks := (pcb.tasks ++ List.replicate (tid + 1 - pcb.tasks.length) none).set tid
            (some k.nextTask) }

/-- The thread has exited and its id went back to the allocator. -/
def Kernel.exited (k : Kernel) (task : TaskId) (tid : Nat) (exitCode : Int32)
    (allocator : RecycleAllocator) : Kernel :=
  (({ k with
    current := none
    history := .exited (k.tasks task).process tid exitCode :: k.history } : Kernel).setTask task
      fun tcb => { tcb with exitCode := some exitCode, res := none }).setProc (k.tasks task).process
        fun pcb => { pcb with taskResAllocator := allocator }

theorem Kernel.exited_tasks (k : Kernel) (a t : TaskId) (tid : Nat) (exitCode : Int32)
    (allocator : RecycleAllocator) : (k.exited a tid exitCode allocator).tasks t =
      if t = a then { k.tasks t with exitCode := some exitCode, res := none } else k.tasks t := by
  simp only [Kernel.exited, Kernel.setProc_tasks, Kernel.setTask_tasks]

/-- The process has taken a zombie from its children and dropped it. -/
def Kernel.reaped (k : Kernel) (task : TaskId) (i : Nat) (child : ProcId)
    (allocator : RecycleAllocator) : Kernel :=
  ({ k.setProc (k.tasks task).process fun pcb =>
      { pcb with children := pcb.children.eraseIdx i } with
    pidAllocator := allocator
    history := .reaped (k.tasks task).process child (k.procs child).pid (k.procs child).exitCode ::
      k.history } : Kernel).setProc child fun pcb =>
        { pcb with
          children := [], mutexList := [], semaphoreList := [], condvarList := [], tasks := []
          dropped := true }

/-- What `exitProcess` does to the kernel. -/
structure Terminated (p : ProcId) (exitCode : Int32) (k k' : Kernel) : Prop where
  pid : (k.procs p).pid ≠ idlePid
  nextTask : k'.nextTask = k.nextTask
  nextProc : k'.nextProc = k.nextProc
  current : k'.current = k.current
  initproc : k'.initproc = k.initproc
  history : k'.history = k.history
  pidAllocator : k'.pidAllocator = k.pidAllocator
  pid2pcb : k'.pid2pcb = k.pid2pcb.filter fun entry => entry.1 ≠ (k.procs p).pid
  readyQueue : k'.readyQueue = ((k.procs p).tasks.filterMap id).foldl List.erase k.readyQueue
  timers : k'.timers = k.timers.filter fun c => c.task ∉ (k.procs p).tasks.filterMap id
  task : ∀ t, k'.tasks t = { k.tasks t with
    res := if t ∈ (k.procs p).tasks.filterMap id then none else (k.tasks t).res }
  ids : ∀ q, (k'.procs q).pid = (k.procs q).pid ∧ (k'.procs q).dropped = (k.procs q).dropped
  isZombie : ∀ q, (k'.procs q).isZombie = if q = p then true else (k.procs q).isZombie
  tasks : ∀ q, (k'.procs q).tasks =
    if q = p then (k.procs q).tasks.take 1 else (k.procs q).tasks
  children : ∀ q, (k'.procs q).children = if q = p then []
    else if q = k.initproc then (k.procs q).children ++ (k.procs p).children
    else (k.procs q).children
  parent : ∀ q, (k'.procs q).parent =
    if q ∈ (k.procs p).children then some k.initproc else (k.procs q).parent
  exitCode : ∀ q, (k'.procs q).exitCode = if q = p then exitCode else (k.procs q).exitCode
  objects : ∀ q, (k'.procs q).mutexList = (k.procs q).mutexList ∧
    (k'.procs q).semaphoreList = (k.procs q).semaphoreList ∧
    (k'.procs q).condvarList = (k.procs q).condvarList
  other : ∀ q, q ≠ p → (k'.procs q).taskResAllocator = (k.procs q).taskResAllocator
  /-- the allocator of the process takes ids back -/
  allocator : ∀ valid : RecycleAllocator → Prop,
    (∀ x y id, valid x → x.dealloc id = some y → valid y) →
    valid (k.procs p).taskResAllocator → valid (k'.procs p).taskResAllocator

theorem Terminated.waiters {p : ProcId} {exitCode : Int32} {k k' : Kernel}
    (done : Terminated p exitCode k k') (q : ProcId) :
    (k'.procs q).waiters = (k.procs q).waiters := by
  obtain ⟨mutexes, semaphores, condvars⟩ := done.objects q
  rw [Process.waiters, mutexes, semaphores, condvars]
  rfl

/-- What `sys_fork` of the process `p` does to the kernel. -/
structure Forked (p : ProcId) (pid : Nat) (k k' : Kernel) : Prop where
  nextTask : k'.nextTask = k.nextTask + 1
  nextProc : k'.nextProc = k.nextProc + 1
  current : k'.current = k.current
  readyQueue : k'.readyQueue = k.readyQueue ++ [k.nextTask]
  timers : k'.timers = k.timers
  initproc : k'.initproc = k.initproc
  history : k'.history = .forked p k.nextProc :: k.history
  pidAllocator : k.pidAllocator.alloc = (pid, k'.pidAllocator)
  pid2pcb : k'.pid2pcb =
    (k.pid2pcb.filter fun entry => entry.1 ≠ pid) ++ [(pid, k.nextProc)]
  task : ∀ t, t ≠ k.nextTask → k'.tasks t = k.tasks t
  newTask : k'.tasks k.nextTask = Task.new k.nextProc RecycleAllocator.new.alloc.1
  process : ∀ q, q ≠ k.nextProc → k'.procs q = { k.procs q with
    children := if q = p then (k.procs q).children ++ [k.nextProc] else (k.procs q).children }
  newProcess : p ≠ k.nextProc → k'.procs k.nextProc =
    Process.new pid (some p) (k.procs p).signals k.nextTask

/-- One move in the course of a kernel path of the thread `a`. Only a path that `spawns` creates
threads of the process. -/
inductive Move (a : TaskId) (spawns : Prop) : Kernel → Kernel → Prop
  /-- a change that no thread notices at once -/
  | quiet {k p f} (keeps : Process.Keeps (k.procs p) (f (k.procs p)))
      (waiters : ∀ u, (f (k.procs p)).waiters.count u = (k.procs p).waiters.count u) :
      Move a spawns k (k.setProc p f)
  /-- a thread is taken from a wait queue -/
  | wake {k w f} (current : k.current = some a)
      (keeps : Process.Keeps (k.procs (k.tasks a).process) (f (k.procs (k.tasks a).process)))
      (waiters : ∀ u, (f (k.procs (k.tasks a).process)).waiters.count u + [w].count u =
        (k.procs (k.tasks a).process).waiters.count u) :
      Move a spawns k ((k.setProc (k.tasks a).process f).wakeupTask w)
  /-- a timer expires -/
  | expire {k c} (mem : c ∈ k.timers) :
      Move a spawns k { k.wakeupTask c.task with timers := k.timers.erase c }
  | suspend {k frame} (current : k.current = some a)
      (own : ∀ q ∈ frame.processes, q = (k.tasks a).process) :
      Move a spawns k ((k.leave a .ready frame).addTask a)
  /-- the thread goes into a wait queue -/
  | block {k f frame} (current : k.current = some a)
      (own : ∀ q ∈ frame.processes, q = (k.tasks a).process)
      (keeps : Process.Keeps (k.procs (k.tasks a).process) (f (k.procs (k.tasks a).process)))
      (waiters : ∀ u, (f (k.procs (k.tasks a).process)).waiters.count u =
        (k.procs (k.tasks a).process).waiters.count u + [a].count u) :
      Move a spawns k ((k.setProc (k.tasks a).process f).leave a .blocked frame)
  | sleep {k expireMs} (current : k.current = some a) :
      Move a spawns k ((k.addTimer expireMs a).leave a .blocked ⟨.trapEnd, []⟩)
  /-- the idle loop switches to the thread -/
  | dispatch {k readyQueue} (current : k.current = none) (ready : k.readyQueue = a :: readyQueue) :
      Move a spawns k
      (({ k with readyQueue := readyQueue, current := some a } : Kernel).setTask a fun tcb =>
        { tcb with taskStatus := .running, frame := ⟨.trapReturn, []⟩ })
  /-- the thread creates a thread -/
  | spawn {k tid allocator} (may : spawns) (current : k.current = some a)
      (alloc : (k.procs (k.tasks a).process).taskResAllocator.alloc = (tid, allocator)) :
      Move a spawns k (k.spawned a tid allocator)
  /-- the thread takes the exit code of another one -/
  | collect {k tid u exitCode} (current : k.current = some a)
      (slot : (k.procs (k.tasks a).process).tasks[tid]? = some (some u))
      (exited : (k.tasks u).exitCode = some exitCode) :
      Move a spawns k (({ k with history := .waited (k.tasks a).process tid :: k.history } :
        Kernel).setProc (k.tasks a).process fun pcb => { pcb with tasks := pcb.tasks.set tid none })
  | fork {k k' pid} (current : k.current = some a)
      (done : Forked (k.tasks a).process pid k k') : Move a spawns k k'
  /-- the process takes a zombie from its children and drops it -/
  | reap {k i child allocator} (current : k.current = some a)
      (found : (k.procs (k.tasks a).process).children[i]? = some child)
      (zombie : (k.procs child).isZombie = true)
      (dealloc : k.pidAllocator.dealloc (k.procs child).pid = some allocator) :
      Move a spawns k (k.reaped a i child allocator)
  /-- the thread exits -/
  | exit {k tid exitCode allocator} (current : k.current = some a)
      (res : (k.tasks a).res = some tid) (notMain : tid ≠ 0)
      (dealloc : (k.procs (k.tasks a).process).taskResAllocator.dealloc tid = some allocator) :
      Move a spawns k (k.exited a tid exitCode allocator)
  /-- the main thread exits, and its process with it -/
  | terminate {k k' tid exitCode allocator} (current : k.current = some a)
      (res : (k.tasks a).res = some tid) (isMain : tid = 0)
      (dealloc : (k.procs (k.tasks a).process).taskResAllocator.dealloc tid = some allocator)
      (done : Terminated (k.tasks a).process exitCode (k.exited a tid exitCode allocator) k') :
      Move a spawns k k'

/-- A part of a kernel path of the thread `a`. -/
def Moves (a : TaskId) (spawns : Prop) : Kernel → Kernel → Prop :=
  Relation.ReflTransGen (Move a spawns)

theorem Move.moves {a : TaskId} {spawns : Prop} {k k' : Kernel} (move : Move a spawns k k') :
    Moves a spawns k k' :=
  Relation.ReflTransGen.single move

end CoreFromDust.Os
