import CoreFromDust.Os.Proofs.Placement
import Mathlib.Data.List.Count

/-!
# The moves keep every thread in its place
-/

namespace CoreFromDust.Os

variable {k k' : Kernel} {a t u : TaskId} {spawns : Prop} {p : ProcId}

theorem count_singleton_ne (differ : u ≠ t) : [t].count u = 0 :=
  List.count_eq_zero_of_not_mem (by simpa using differ)

/-- The slots of a process after a thread with the id `tid` was put in. -/
theorem getElem?_spawn {tasks : List (Option TaskId)} {tid i : Nat} {new : TaskId} :
    ((tasks ++ List.replicate (tid + 1 - tasks.length) none).set tid (some new))[i]? =
      some (some u) ↔ if i = tid then u = new else tasks[i]? = some (some u) := by
  rw [List.getElem?_set]
  by_cases same : tid = i
  · subst same
    have inside : tid < (tasks ++ List.replicate (tid + 1 - tasks.length) none).length := by
      rw [List.length_append, List.length_replicate]
      omega
    simp only [if_true, inside, Option.some.injEq]
    exact eq_comm
  · rw [if_neg same, if_neg (Ne.symm same), List.getElem?_append]
    split
    · exact Iff.rfl
    · next outside =>
      rw [List.getElem?_replicate, List.getElem?_eq_none (Nat.le_of_not_lt outside)]
      split <;> simp

namespace Inv

/-! ## Threads that move -/

theorem quiet (inv : Inv k) {f : Process → Process}
    (same : Process.SameThreads (k.procs p) (f (k.procs p)))
    (waiters : ∀ u, (f (k.procs p)).waiters.count u = (k.procs p).waiters.count u) :
    Inv (k.setProc p f) := by
  refine inv.move (.setProc k same) ?_ ?_
  · intro q w mem
    rw [Kernel.setProc_procs] at mem
    split at mem
    · next same =>
      subst same
      rw [← List.count_pos_iff, waiters, List.count_pos_iff] at mem
      exact inv.waiters q w mem
    · exact inv.waiters q w mem
  · intro u
    refine .inl ⟨?_, rfl⟩
    rw [Kernel.place_setProc, waiters]
    by_cases own : (k.tasks u).process = p
    · simp [own, Kernel.place]
    · simp [own]

theorem wake (inv : Inv k) {w : TaskId} {f : Process → Process} (current : k.current = some a)
    (keeps : Process.Keeps (k.procs (k.tasks a).process) (f (k.procs (k.tasks a).process)))
    (waiters : ∀ u, (f (k.procs (k.tasks a).process)).waiters.count u + [w].count u =
      (k.procs (k.tasks a).process).waiters.count u) :
    Inv ((k.setProc (k.tasks a).process f).wakeupTask w) := by
  have waiting : w ∈ (k.procs (k.tasks a).process).waiters := by
    have counts := waiters w
    rw [List.count_singleton_self] at counts
    rw [← List.count_pos_iff]
    omega
  obtain ⟨below, isLive, own, place⟩ := inv.waiter (inv.current current).2.1.2 waiting
  refine inv.move ((SameThreads.setProc k keeps.sameThreads).trans (.wakeupTask _)) ?_ ?_
  · intro q u mem
    have before : u ∈ (k.procs q).waiters := by
      change u ∈ ((k.setProc (k.tasks a).process f).procs q).waiters at mem
      rw [Kernel.setProc_procs] at mem
      split at mem
      · next same =>
        subst same
        rw [← List.count_pos_iff] at mem ⊢
        have counts := waiters u
        omega
      · exact mem
    exact inv.waiters q u before
  · intro u
    rw [Kernel.place_wakeupTask, Kernel.place_setProc, Kernel.wakeupTask_taskStatus]
    by_cases same : u = w
    · subst same
      refine .inr ⟨below, isLive, ?_⟩
      have counts := waiters u
      have once : (k.procs (k.tasks a).process).waiters.count u = 1 := by
        have := congrArg Place.waiting place
        rwa [Kernel.place, own] at this
      rw [List.count_singleton_self, once] at counts
      have left : (f (k.procs (k.tasks a).process)).waiters.count u = 0 := by omega
      simp only [place, own, if_true, List.count_singleton_self, left]
      rfl
    · refine .inl ⟨?_, by rw [if_neg same]; rfl⟩
      have counts := waiters u
      rw [count_singleton_ne same] at counts ⊢
      by_cases ofProcess : (k.tasks u).process = (k.tasks a).process
      · simp only [ofProcess, if_true, Nat.add_zero] at counts ⊢
        simp [Kernel.place, ofProcess, counts]
      · simp [ofProcess]

theorem expire (inv : Inv k) {c : TimerCondVar} (mem : c ∈ k.timers) :
    Inv { k.wakeupTask c.task with timers := k.timers.erase c } := by
  have asleep : c.task ∈ k.timers.map TimerCondVar.task := List.mem_map_of_mem mem
  obtain ⟨below, isLive, place⟩ := inv.sleeping asleep
  have once := congrArg Place.sleeping place
  have timers : ∀ u, ((k.timers.erase c).map TimerCondVar.task).count u + [c.task].count u =
      (k.timers.map TimerCondVar.task).count u := by
    intro u
    have perm := ((List.perm_cons_erase mem).map TimerCondVar.task).count_eq u
    simp only [List.map_cons, List.count_cons, List.count_nil] at perm ⊢
    omega
  have placed : ∀ u, ({ k.wakeupTask c.task with timers := k.timers.erase c } : Kernel).place u =
      { k.place u with
        ready := (k.place u).ready + [c.task].count u
        sleeping := ((k.timers.erase c).map TimerCondVar.task).count u } := by
    intro u
    have woken := @Kernel.place_wakeupTask k c.task u
    simp only [Kernel.place, Place.mk.injEq] at woken ⊢
    exact ⟨woken.1, woken.2.1, trivial, woken.2.2.2⟩
  refine inv.move ((SameThreads.wakeupTask k).trans (.of_heap rfl rfl rfl rfl)) ?_ ?_
  · exact inv.waiters
  · intro u
    rw [placed, show ∀ v, (({ k.wakeupTask c.task with timers := k.timers.erase c } :
      Kernel).tasks v).taskStatus = _ from fun v => Kernel.wakeupTask_taskStatus]
    have counts := timers u
    by_cases same : u = c.task
    · subst same
      refine .inr ⟨below, isLive, ?_⟩
      rw [List.count_singleton_self] at counts
      have left : ((k.timers.erase c).map TimerCondVar.task).count c.task = 0 := by
        simp only [Kernel.place] at once
        omega
      simp only [place, if_true, List.count_singleton_self, left]
      rfl
    · refine .inl ⟨?_, by rw [if_neg same]⟩
      rw [count_singleton_ne same] at counts ⊢
      simp only [Nat.add_zero] at counts ⊢
      simp [Kernel.place, counts]

/-- The thread in the processor gives it up for the ready queue, a wait queue or the timers. -/
theorem leave (inv : Inv k) (current : k.current = some a) {status : TaskStatus} {frame : Frame}
    (same : SameThreads k k')
    (waiters : ∀ p, ∀ w ∈ (k'.procs p).waiters, w < k.nextTask ∧ (k.tasks w).process = p)
    (statuses : ∀ t, (k'.tasks t).taskStatus = (k.tasks t).taskStatus)
    (others : ∀ u, u ≠ a → k'.place u = k.place u)
    (fits : Place.Fits status { k'.place a with running := 0 }) :
    Inv (k'.leave a status frame) := by
  obtain ⟨below, isLive, place⟩ := inv.current current
  refine inv.move (same.trans (.leave k')) ?_ ?_
  · exact waiters
  · intro u
    rw [Kernel.place_leave, Kernel.leave_taskStatus]
    by_cases here : u = a
    · subst here
      rw [if_pos rfl]
      exact .inr ⟨below, isLive, fits⟩
    · rw [if_neg here, others u here, statuses]
      refine .inl ⟨?_, rfl⟩
      have absent : (k.place u).running = 0 := by
        by_contra running
        have := Kernel.place_running.mp (Nat.pos_of_ne_zero running)
        rw [current, Option.some.injEq] at this
        exact here this.symm
      rw [← absent]

theorem suspend (inv : Inv k) (current : k.current = some a) (frame : Frame) :
    Inv ((k.leave a .ready frame).addTask a) := by
  obtain ⟨-, -, place⟩ := inv.current current
  have added : SameThreads k (k.addTask a) := .of_heap rfl rfl rfl rfl
  refine inv.leave current added inv.waiters (fun _ => rfl) ?_ ?_
  · intro u differ
    rw [Kernel.place_addTask, count_singleton_ne differ]
    rfl
  · rw [Kernel.place_addTask, place, List.count_singleton_self]
    rfl

theorem block (inv : Inv k) {f : Process → Process} (current : k.current = some a) (frame : Frame)
    (keeps : Process.Keeps (k.procs (k.tasks a).process) (f (k.procs (k.tasks a).process)))
    (waiters : ∀ u, (f (k.procs (k.tasks a).process)).waiters.count u =
      (k.procs (k.tasks a).process).waiters.count u + [a].count u) :
    Inv ((k.setProc (k.tasks a).process f).leave a .blocked frame) := by
  obtain ⟨below, -, place⟩ := inv.current current
  refine inv.leave current (.setProc k keeps.sameThreads) ?_ (fun _ => rfl) ?_ ?_
  · intro q w mem
    by_cases here : q = (k.tasks a).process
    · subst here
      rw [Kernel.setProc_self] at mem
      by_cases same : w = a
      · exact ⟨same ▸ below, by rw [same]⟩
      · rw [← List.count_pos_iff, waiters, count_singleton_ne same] at mem
        exact inv.waiters _ w (List.count_pos_iff.mp mem)
    · rw [Kernel.setProc_procs, if_neg here] at mem
      exact inv.waiters q w mem
  · intro u differ
    rw [Kernel.place_setProc, waiters, count_singleton_ne differ]
    by_cases own : (k.tasks u).process = (k.tasks a).process
    · simp [own, Kernel.place]
    · simp [own]
  · have none : (k.procs (k.tasks a).process).waiters.count a = 0 := congrArg Place.waiting place
    rw [Kernel.place_setProc, if_pos rfl, waiters, List.count_singleton_self, none, place]
    exact .inr rfl

theorem sleep (inv : Inv k) (current : k.current = some a) (expireMs : UInt64) (frame : Frame) :
    Inv ((k.addTimer expireMs a).leave a .blocked frame) := by
  obtain ⟨-, -, place⟩ := inv.current current
  have timed : ∀ u, (k.addTimer expireMs a).place u =
      { k.place u with sleeping := (k.place u).sleeping + [a].count u } := by
    intro u
    simp [Kernel.place, Kernel.addTimer, List.count_cons]
  have added : SameThreads k (k.addTimer expireMs a) := .of_heap rfl rfl rfl rfl
  refine inv.leave current added inv.waiters (fun _ => rfl) ?_ ?_
  · intro u differ
    rw [timed, count_singleton_ne differ]
    rfl
  · rw [timed, place, List.count_singleton_self]
    exact .inl rfl

theorem dispatch (inv : Inv k) {readyQueue : List TaskId} (current : k.current = none)
    (queue : k.readyQueue = a :: readyQueue) :
    Inv (({ k with readyQueue := readyQueue, current := some a } : Kernel).setTask a fun tcb =>
      { tcb with taskStatus := .running, frame := ⟨.trapReturn, []⟩ }) := by
  obtain ⟨below, isLive, place⟩ := inv.ready (t := a) (by rw [queue]; exact List.mem_cons_self)
  have fetched : SameThreads k { k with readyQueue := readyQueue, current := some a } :=
    .of_heap rfl rfl rfl rfl
  refine inv.move (fetched.trans (.setTask _ rfl rfl rfl)) inv.waiters ?_
  intro u
  rw [Kernel.place_setTask rfl, Kernel.setTask_tasks]
  have placed : ({ k with readyQueue := readyQueue, current := some a } : Kernel).place u =
      { k.place u with running := [a].count u, ready := readyQueue.count u } := rfl
  have counts : (k.place u).ready = readyQueue.count u + [a].count u := by
    simp only [Kernel.place, queue, List.count_cons, List.count_nil]
    omega
  rw [placed]
  by_cases same : u = a
  · subst same
    rw [if_pos rfl, List.count_singleton_self]
    refine .inr ⟨below, isLive, ?_⟩
    rw [place, List.count_singleton_self] at counts
    have left : readyQueue.count u = 0 := by
      simp only at counts
      omega
    rw [place, left]
    rfl
  · rw [if_neg same]
    rw [count_singleton_ne same] at counts ⊢
    refine .inl ⟨?_, rfl⟩
    have idle : (k.place u).running = 0 := by simp [Kernel.place, current]
    rw [← counts.trans (Nat.add_zero _), ← idle]

/-! ## Threads that come -/

/-- A new thread of a process starts in the ready queue. -/
theorem grow (inv : Inv k) (p : ProcId) (tid : Nat) (nextTask : k'.nextTask = k.nextTask + 1)
    (nextProc : k.nextProc ≤ k'.nextProc)
    (current : k'.current = k.current) (readyQueue : k'.readyQueue = k.readyQueue ++ [k.nextTask])
    (timers : k'.timers = k.timers)
    (old : ∀ t, t < k.nextTask → k'.tasks t = k.tasks t)
    (new : k'.tasks k.nextTask = Task.new p tid)
    (parent : p < k'.nextProc) (alive : (k'.procs p).isZombie = false)
    (kept : ∀ q, q < k.nextProc → (k'.procs q).isZombie = (k.procs q).isZombie ∧
      (k'.procs q).waiters = (k.procs q).waiters)
    (waiters : ∀ q, ∀ w ∈ (k'.procs q).waiters, w ∈ (k.procs q).waiters)
    (slots : ∀ q (i : Nat) u, (k'.procs q).tasks[i]? = some (some u) →
      (q = p ∧ u = k.nextTask) ∨ (k.procs q).tasks[i]? = some (some u))
    (slot : ∀ q (i : Nat) u, q < k.nextProc → (k.procs q).taskResAllocator.InUse i →
      (k.procs q).tasks[i]? = some (some u) →
      (k'.procs q).tasks[i]? = some (some u) ∧ (k'.procs q).taskResAllocator.InUse i)
    (newSlot : (k'.procs p).tasks[tid]? = some (some k.nextTask) ∧
      (k'.procs p).taskResAllocator.InUse tid)
    (allocator : ∀ q, (k'.procs q).taskResAllocator.Ok) : Inv k' := by
  have oldLive : ∀ t, t < k.nextTask → (k'.Live t ↔ k.Live t) := by
    intro t below
    rw [Kernel.Live, Kernel.Live, old t below, (kept _ (inv.process t below)).1]
  have oldPlace : ∀ t, t < k.nextTask → k'.place t = k.place t := by
    intro t below
    have absent : [k.nextTask].count t = 0 := count_singleton_ne (Nat.ne_of_lt below)
    simp only [Kernel.place, current, readyQueue, timers, old t below, List.count_append, absent,
      (kept _ (inv.process t below)).2, Nat.add_zero]
  have newLive : k'.Live k.nextTask := by
    rw [Kernel.Live, new]
    exact ⟨rfl, alive⟩
  have newPlace : k'.place k.nextTask = ⟨0, 1, 0, 0⟩ := by
    have absent : ∀ {l : List TaskId}, (∀ t ∈ l, t < k.nextTask) → l.count k.nextTask = 0 := by
      intro l all
      exact List.count_eq_zero_of_not_mem fun mem => Nat.lt_irrefl _ (all _ mem)
    have running := @absent k.current.toList fun t mem =>
      inv.scheduled t (.inl (Option.mem_toList.mp mem))
    have ready := @absent k.readyQueue fun t mem => inv.scheduled t (.inr (.inl mem))
    have sleeping := @absent (k.timers.map TimerCondVar.task) fun t mem =>
      inv.scheduled t (.inr (.inr mem))
    have waiting := @absent (k'.procs p).waiters fun w mem => (inv.waiters p w (waiters p w mem)).1
    simp only [Kernel.place, current, readyQueue, timers, new, List.count_append,
      List.count_singleton_self, running, ready, sleeping, Task.new, waiting, Nat.zero_add]
  refine ⟨?_, ?_, ?_, ?_, ?_, ?_, ?_, allocator⟩
  · intro t below
    rcases Nat.lt_succ_iff_lt_or_eq.mp (nextTask ▸ below) with isOld | rfl
    · rw [old t isOld]
      exact Nat.lt_of_lt_of_le (inv.process t isOld) nextProc
    · rw [new]
      exact parent
  · intro t mem
    rw [current, readyQueue, timers, List.mem_append, List.mem_singleton] at mem
    rw [nextTask]
    rcases mem with mem | (mem | rfl) | mem
    · exact Nat.lt_succ_of_lt (inv.scheduled t (.inl mem))
    · exact Nat.lt_succ_of_lt (inv.scheduled t (.inr (.inl mem)))
    · exact Nat.lt_succ_self _
    · exact Nat.lt_succ_of_lt (inv.scheduled t (.inr (.inr mem)))
  · intro q w mem
    obtain ⟨below, own⟩ := inv.waiters q w (waiters q w mem)
    rw [nextTask, old w below]
    exact ⟨Nat.lt_succ_of_lt below, own⟩
  · intro t below isLive
    rcases Nat.lt_succ_iff_lt_or_eq.mp (nextTask ▸ below) with isOld | rfl
    · rw [oldPlace t isOld, old t isOld]
      exact inv.live t isOld ((oldLive t isOld).mp isLive)
    · rw [newPlace, new]
      rfl
  · intro t below notLive
    rcases Nat.lt_succ_iff_lt_or_eq.mp (nextTask ▸ below) with isOld | rfl
    · rw [oldLive t isOld] at notLive
      exact Kernel.gone_congr (oldPlace t isOld) (by rw [old t isOld]) (inv.gone t isOld notLive)
    · exact absurd newLive notLive
  · intro q i u h
    rcases slots q i u h with ⟨rfl, rfl⟩ | before
    · rw [nextTask, new]
      exact ⟨Nat.lt_succ_self _, rfl⟩
    · obtain ⟨below, own⟩ := inv.slots q i u before
      rw [nextTask, old u below]
      exact ⟨Nat.lt_succ_of_lt below, own⟩
  · intro t below isLive
    rcases Nat.lt_succ_iff_lt_or_eq.mp (nextTask ▸ below) with isOld | rfl
    · obtain ⟨id, res, here, inUse⟩ := inv.slot t isOld ((oldLive t isOld).mp isLive)
      rw [old t isOld]
      exact ⟨id, res, slot _ id t (inv.process t isOld) inUse here⟩
    · rw [new]
      exact ⟨tid, rfl, newSlot⟩

theorem spawn (inv : Inv k) {tid : Nat} {allocator : RecycleAllocator}
    (current : k.current = some a)
    (alloc : (k.procs (k.tasks a).process).taskResAllocator.alloc = (tid, allocator)) :
    Inv (k.spawned a tid allocator) := by
  unfold Kernel.spawned
  obtain ⟨below, isLive, -⟩ := inv.current current
  obtain ⟨ok, fresh, inUse⟩ := (inv.allocator (k.tasks a).process).alloc
  rw [alloc] at ok fresh inUse
  refine inv.grow (k.tasks a).process tid rfl (Nat.le_refl _) rfl rfl rfl ?_ ?_
    (inv.process a below) ?_ ?_ ?_ ?_ ?_ ?_ ?_
  · intro t isOld
    simp only [Kernel.setProc_tasks, Kernel.addTask_tasks, Kernel.setTask_tasks]
    rw [if_neg (Nat.ne_of_lt isOld)]
  · simp
  · simpa using isLive.2
  · intro q _
    simp only [Kernel.setProc_procs, Kernel.addTask_procs, Kernel.setTask_procs]
    split <;> exact ⟨rfl, rfl⟩
  · intro q w mem
    simp only [Kernel.setProc_procs, Kernel.addTask_procs, Kernel.setTask_procs] at mem
    split at mem <;> exact mem
  · intro q i v h
    simp only [Kernel.setProc_procs, Kernel.addTask_procs, Kernel.setTask_procs] at h
    split at h
    · next same =>
      rw [getElem?_spawn] at h
      split at h
      · exact .inl ⟨same, h⟩
      · exact .inr h
    · exact .inr h
  · intro q i v _ used here
    simp only [Kernel.setProc_procs, Kernel.addTask_procs, Kernel.setTask_procs]
    split
    · next same =>
      subst same
      refine ⟨?_, (inUse i).mpr (.inl used)⟩
      rw [getElem?_spawn, if_neg]
      · exact here
      · rintro rfl
        exact fresh used
    · exact ⟨here, used⟩
  · simp only [Kernel.setProc_self, Kernel.addTask_procs, Kernel.setTask_procs]
    exact ⟨getElem?_spawn.mpr (by rw [if_pos rfl]), (inUse tid).mpr (.inr rfl)⟩
  · intro q
    simp only [Kernel.setProc_procs, Kernel.addTask_procs, Kernel.setTask_procs]
    split
    · exact ok
    · exact inv.allocator q

theorem fork (inv : Inv k) {pid : Nat} (below : p < k.nextProc) (done : Forked p pid k k') :
    Inv k' := by
  have child := done.newProcess (Nat.ne_of_lt below)
  have usesFirst : (Process.new pid (some p) (k.procs p).signals k.nextTask).taskResAllocator.Ok ∧
      (Process.new pid (some p) (k.procs p).signals k.nextTask).taskResAllocator.InUse
        RecycleAllocator.new.alloc.1 := by
    obtain ⟨ok, -, inUse⟩ := RecycleAllocator.Ok.alloc (a := .new) ⟨List.nodup_nil, by simp [
      RecycleAllocator.new]⟩
    exact ⟨ok, (inUse _).mpr (.inr rfl)⟩
  refine inv.grow k.nextProc RecycleAllocator.new.alloc.1 done.nextTask
    (by rw [done.nextProc]; exact Nat.le_succ _) done.current done.readyQueue done.timers ?_
    done.newTask (by rw [done.nextProc]; exact Nat.lt_succ_self _) (by rw [child]; rfl)
    ?_ ?_ ?_ ?_ ?_ ?_
  · intro t isOld
    exact done.task t (Nat.ne_of_lt isOld)
  · intro q isOld
    rw [done.process q (Nat.ne_of_lt isOld)]
    exact ⟨rfl, rfl⟩
  · intro q w mem
    by_cases isNew : q = k.nextProc
    · rw [isNew, child] at mem
      simp [Process.waiters, Process.new] at mem
    · rw [done.process q isNew] at mem
      exact mem
  · intro q i u h
    by_cases isNew : q = k.nextProc
    · rw [isNew, child, Process.new, List.getElem?_singleton] at h
      split at h
      · simp only [Option.some.injEq] at h
        exact .inl ⟨isNew, h.symm⟩
      · simp at h
    · rw [done.process q isNew] at h
      exact .inr h
  · intro q i u isOld inUse here
    rw [done.process q (Nat.ne_of_lt isOld)]
    exact ⟨here, inUse⟩
  · rw [child]
    exact ⟨rfl, usesFirst.2⟩
  · intro q
    by_cases isNew : q = k.nextProc
    · rw [isNew, child]
      exact usesFirst.1
    · rw [done.process q isNew]
      exact inv.allocator q

/-! ## Threads that go -/

/-- Some threads can no longer run, and the others stay where they are. -/
theorem shrink (inv : Inv k) (nextTask : k'.nextTask = k.nextTask)
    (nextProc : k'.nextProc = k.nextProc)
    (process : ∀ t, (k'.tasks t).process = (k.tasks t).process)
    (current : ∀ t, k'.current = some t → k.current = some t)
    (readyQueue : ∀ t ∈ k'.readyQueue, t ∈ k.readyQueue)
    (timers : ∀ t ∈ k'.timers.map TimerCondVar.task, t ∈ k.timers.map TimerCondVar.task)
    (waiters : ∀ q, ∀ w ∈ (k'.procs q).waiters, w ∈ (k.procs q).waiters)
    (stays : ∀ t, t < k.nextTask → k'.Live t → k.Live t ∧ k'.place t = k.place t ∧
      (k'.tasks t).taskStatus = (k.tasks t).taskStatus ∧ (k'.tasks t).res = (k.tasks t).res)
    (goes : ∀ t, t < k.nextTask → k.Live t → ¬ k'.Live t → k'.Gone t)
    (exitCode : ∀ t, ¬ k.Live t → (k'.tasks t).exitCode = (k.tasks t).exitCode)
    (slots : ∀ q (i : Nat) u, (k'.procs q).tasks[i]? = some (some u) →
      (k.procs q).tasks[i]? = some (some u))
    (slot : ∀ t (i : Nat), t < k.nextTask → k'.Live t →
      (k.procs (k.tasks t).process).taskResAllocator.InUse i →
      (k.procs (k.tasks t).process).tasks[i]? = some (some t) →
      (k'.procs (k.tasks t).process).tasks[i]? = some (some t) ∧
        (k'.procs (k.tasks t).process).taskResAllocator.InUse i)
    (allocator : ∀ q, (k'.procs q).taskResAllocator.Ok) : Inv k' := by
  refine ⟨?_, ?_, ?_, ?_, ?_, ?_, ?_, allocator⟩
  · intro t below
    rw [process, nextProc]
    exact inv.process t (nextTask ▸ below)
  · intro t mem
    rw [nextTask]
    rcases mem with mem | mem | mem
    · exact inv.scheduled t (.inl (current t mem))
    · exact inv.scheduled t (.inr (.inl (readyQueue t mem)))
    · exact inv.scheduled t (.inr (.inr (timers t mem)))
  · intro q w mem
    rw [nextTask, process]
    exact inv.waiters q w (waiters q w mem)
  · intro t below isLive
    rw [nextTask] at below
    obtain ⟨before, place, status, -⟩ := stays t below isLive
    rw [place, status]
    exact inv.live t below before
  · intro t below notLive
    rw [nextTask] at below
    by_cases before : k.Live t
    · exact goes t below before notLive
    · obtain ⟨notCurrent, notReady, notTimed, notWaiting⟩ := inv.gone t below before
      refine ⟨fun h => notCurrent (current t h), fun h => notReady (readyQueue t h),
        fun h => notTimed (timers t h), ?_⟩
      intro exited mem
      rw [exitCode t before] at exited
      rw [process] at mem
      exact notWaiting exited (waiters _ t mem)
  · intro q i u h
    rw [nextTask, process]
    exact inv.slots q i u (slots q i u h)
  · intro t below isLive
    rw [nextTask] at below
    obtain ⟨before, -, -, res⟩ := stays t below isLive
    obtain ⟨id, hasId, here, inUse⟩ := inv.slot t below before
    rw [process, res]
    exact ⟨id, hasId, slot t id below isLive inUse here⟩

theorem collect (inv : Inv k) {tid : Nat} {exitCode : Int32} {history : List Note}
    (slot : (k.procs p).tasks[tid]? = some (some u))
    (exited : (k.tasks u).exitCode = some exitCode) :
    Inv (({ k with history := history } : Kernel).setProc p fun pcb =>
      { pcb with tasks := pcb.tasks.set tid none }) := by
  refine inv.shrink rfl rfl (fun _ => rfl) (fun _ h => h) (fun _ h => h) (fun _ h => h) ?_ ?_ ?_
    (fun _ _ => rfl) ?_ ?_ ?_
  · intro q w mem
    rw [Kernel.setProc_procs] at mem
    split at mem <;> exact mem
  · intro t below isLive
    refine ⟨?_, ?_, rfl, rfl⟩
    · rw [Kernel.Live, Kernel.setProc_procs] at isLive
      split at isLive <;> exact isLive
    · simp only [Kernel.place, Kernel.setProc_procs]
      split <;> rfl
  · intro t below isLive notLive
    rw [Kernel.Live, Kernel.setProc_procs] at notLive
    split at notLive <;> exact absurd isLive notLive
  · intro q i v h
    rw [Kernel.setProc_procs] at h
    split at h
    · rw [List.getElem?_set] at h
      split at h
      · split at h <;> simp at h
      · exact h
    · exact h
  · intro t i below isLive inUse here
    rw [Kernel.setProc_procs]
    split
    · next same =>
      refine ⟨?_, inUse⟩
      change ((k.procs (k.tasks t).process).tasks.set tid none)[i]? = some (some t)
      have differ : tid ≠ i := by
        rintro rfl
        rw [same, slot, Option.some.injEq, Option.some.injEq] at here
        subst here
        have notExited : (k.tasks u).exitCode = none := isLive.1
        rw [exited] at notExited
        simp at notExited
      rw [List.getElem?_set_ne differ]
      exact here
    · exact ⟨here, inUse⟩
  · intro q
    rw [Kernel.setProc_procs]
    split <;> exact inv.allocator q

theorem exit (inv : Inv k) {tid : Nat} {exitCode : Int32} {allocator : RecycleAllocator}
    (current : k.current = some a) (res : (k.tasks a).res = some tid)
    (dealloc : (k.procs (k.tasks a).process).taskResAllocator.dealloc tid = some allocator) :
    Inv (k.exited a tid exitCode allocator) := by
  unfold Kernel.exited
  obtain ⟨below, aLive, aPlace⟩ := inv.current current
  obtain ⟨ownTid, hasTid, aSlot, aInUse⟩ := inv.slot a below aLive
  rw [res, Option.some.injEq] at hasTid
  subst hasTid
  obtain ⟨freeOk, others⟩ := (inv.allocator _).dealloc dealloc
  have procs : ∀ q, ∃ pool, (Function.update k.procs (k.tasks a).process
      { k.procs (k.tasks a).process with taskResAllocator := allocator }) q =
        { k.procs q with taskResAllocator := pool } := by
    intro q
    by_cases here : q = (k.tasks a).process
    · subst here
      exact ⟨allocator, by rw [Function.update_self]⟩
    · exact ⟨(k.procs q).taskResAllocator, by rw [Function.update_of_ne here]⟩
  refine inv.shrink rfl rfl ?_ (by simp) (fun _ h => h) (fun _ h => h) ?_ ?_ ?_ ?_ ?_ ?_ ?_
  · intro t
    rw [Kernel.setProc_tasks, Kernel.setTask_tasks]
    split <;> rfl
  · intro q w mem
    obtain ⟨pool, eq⟩ := procs q
    simp only [Kernel.setProc, Kernel.setTask] at mem
    rw [eq] at mem
    exact mem
  · intro t below isLive
    have differ : t ≠ a := by
      rintro rfl
      simp [Kernel.Live] at isLive
    have same : (Function.update k.tasks a
        { k.tasks a with exitCode := some exitCode, res := none }) t = k.tasks t :=
      Function.update_of_ne differ _ _
    obtain ⟨pool, eq⟩ := procs (k.tasks t).process
    simp only [Kernel.Live, Kernel.setProc, Kernel.setTask] at isLive
    rw [same, eq] at isLive
    refine ⟨isLive, ?_, ?_, ?_⟩
    · simp only [Kernel.place, Kernel.setProc, Kernel.setTask]
      rw [same, eq, current]
      have absent : [a].count t = 0 := count_singleton_ne differ
      simp only [Option.toList_some, Option.toList_none, List.count_nil, absent]
      rfl
    · simp only [Kernel.setProc, Kernel.setTask]
      rw [same]
    · simp only [Kernel.setProc, Kernel.setTask]
      rw [same]
  · intro t below isLive notLive
    have same : t = a := by
      by_contra differ
      obtain ⟨pool, eq⟩ := procs (k.tasks t).process
      simp only [Kernel.Live, Kernel.setProc, Kernel.setTask] at notLive
      rw [Function.update_of_ne differ, eq] at notLive
      exact notLive isLive
    subst same
    have nowhere : t ∉ k.readyQueue ∧ t ∉ k.timers.map TimerCondVar.task ∧
        t ∉ (k.procs (k.tasks t).process).waiters := by
      rw [← Kernel.place_ready, ← Kernel.place_sleeping, ← Kernel.place_waiting, aPlace]
      simp
    refine ⟨by simp, nowhere.1, nowhere.2.1, fun _ => ?_⟩
    obtain ⟨pool, eq⟩ := procs (k.tasks t).process
    simp only [Kernel.setProc, Kernel.setTask, Function.update_self]
    exact nowhere.2.2
  · intro t notLive
    have differ : t ≠ a := by
      rintro rfl
      exact notLive aLive
    rw [Kernel.setProc_tasks, Kernel.setTask_tasks, if_neg differ]
  · intro q i v h
    obtain ⟨pool, eq⟩ := procs q
    simp only [Kernel.setProc, Kernel.setTask] at h
    rw [eq] at h
    exact h
  · intro t i below isLive inUse here
    have differ : t ≠ a := by
      rintro rfl
      simp [Kernel.Live] at isLive
    rw [Kernel.setProc_procs]
    split
    · next same =>
      refine ⟨here, (others i ?_).mpr (same ▸ inUse)⟩
      rintro rfl
      rw [same, aSlot, Option.some.injEq, Option.some.injEq] at here
      exact differ here.symm
    · exact ⟨here, inUse⟩
  · intro q
    rw [Kernel.setProc_procs]
    split
    · exact freeOk
    · exact inv.allocator q

/-- A zombie is dropped with all that it owns. -/
theorem drop (inv : Inv k) (zombie : (k.procs p).isZombie = true) :
    Inv (k.setProc p fun pcb =>
      { pcb with
        children := [], mutexList := [], semaphoreList := [], condvarList := [], tasks := []
        dropped := true }) := by
  have zombies : ∀ q, ((k.setProc p fun pcb =>
      { pcb with
        children := [], mutexList := [], semaphoreList := [], condvarList := [], tasks := []
        dropped := true }).procs q).isZombie = (k.procs q).isZombie := by
    intro q
    rw [Kernel.setProc_procs]
    split <;> rfl
  have other : ∀ {t}, k.Live t → (k.tasks t).process ≠ p := by
    rintro t isLive rfl
    rw [isLive.2] at zombie
    simp at zombie
  refine inv.shrink rfl rfl (fun _ => rfl) (fun _ h => h) (fun _ h => h) (fun _ h => h) ?_ ?_ ?_
    (fun _ _ => rfl) ?_ ?_ ?_
  · intro q w mem
    rw [Kernel.setProc_procs] at mem
    split at mem
    · simp [Process.waiters] at mem
    · exact mem
  · intro t below isLive
    rw [Kernel.Live, zombies] at isLive
    refine ⟨isLive, ?_, rfl, rfl⟩
    rw [Kernel.place_setProc, if_neg (other isLive)]
  · intro t below isLive notLive
    rw [Kernel.Live, zombies] at notLive
    exact absurd isLive notLive
  · intro q i v h
    rw [Kernel.setProc_procs] at h
    split at h
    · simp at h
    · exact h
  · intro t i below isLive inUse here
    rw [Kernel.Live, zombies] at isLive
    rw [Kernel.setProc_procs, if_neg (other isLive)]
    exact ⟨here, inUse⟩
  · intro q
    rw [Kernel.setProc_procs]
    split <;> exact inv.allocator q

theorem reap (inv : Inv k) {i : Nat} {child : ProcId} {allocator : RecycleAllocator}
    (zombie : (k.procs child).isZombie = true) : Inv (k.reaped a i child allocator) := by
  have removed : Inv (k.setProc (k.tasks a).process fun pcb =>
      { pcb with children := pcb.children.eraseIdx i }) :=
    inv.quiet ⟨rfl, rfl, rfl⟩ fun _ => rfl
  have released : Inv { k.setProc (k.tasks a).process fun pcb =>
      { pcb with children := pcb.children.eraseIdx i } with
      pidAllocator := allocator
      history := .reaped (k.tasks a).process child (k.procs child).pid (k.procs child).exitCode ::
        k.history } :=
    ⟨removed.process, removed.scheduled, removed.waiters, removed.live, removed.gone,
      removed.slots, removed.slot, removed.allocator⟩
  refine released.drop ?_
  change ((k.setProc (k.tasks a).process fun pcb =>
    { pcb with children := pcb.children.eraseIdx i }).procs child).isZombie = true
  rw [Kernel.setProc_procs]
  split <;> exact zombie

theorem terminate (inv : Inv k) (current : k.current = none) {exitCode : Int32}
    (done : Terminated p exitCode k k') : Inv k' := by
  have known : ∀ t, t ∈ (k.procs p).tasks.filterMap id ↔
      ∃ i : Nat, (k.procs p).tasks[i]? = some (some t) := by
    intro t
    rw [List.mem_filterMap]
    constructor
    · rintro ⟨slot, mem, rfl⟩
      exact List.mem_iff_getElem?.mp mem
    · rintro ⟨i, here⟩
      exact ⟨some t, List.mem_iff_getElem?.mpr ⟨i, here⟩, rfl⟩
  have own : ∀ t, t ∈ (k.procs p).tasks.filterMap id → (k.tasks t).process = p := by
    intro t mem
    obtain ⟨i, here⟩ := (known t).mp mem
    exact (inv.slots p i t here).2
  have ready : ∀ t, k'.readyQueue.count t =
      k.readyQueue.count t - ((k.procs p).tasks.filterMap id).count t := by
    intro t
    rw [done.readyQueue, ← List.diff_eq_foldl, List.count_diff]
  have process : ∀ t, (k'.tasks t).process = (k.tasks t).process := fun t => by rw [done.task]
  have live : ∀ t, k'.Live t ↔ k.Live t ∧ (k.tasks t).process ≠ p := by
    intro t
    rw [Kernel.Live, done.isZombie, done.task]
    by_cases same : (k.tasks t).process = p
    · simp [same]
    · simp [same, Kernel.Live]
  refine inv.shrink done.nextTask done.nextProc process ?_ ?_ ?_ ?_ ?_ ?_ ?_ ?_ ?_ ?_
  · intro t h
    rwa [done.current] at h
  · intro t mem
    rw [← List.count_pos_iff, ready] at mem
    rw [← List.count_pos_iff]
    omega
  · intro t mem
    rw [done.timers] at mem
    obtain ⟨c, kept, rfl⟩ := List.mem_map.mp mem
    exact List.mem_map_of_mem (List.mem_of_mem_filter kept)
  · intro q w mem
    rwa [done.waiters] at mem
  · intro t below isLive
    obtain ⟨before, differ⟩ := (live t).mp isLive
    have unknown : t ∉ (k.procs p).tasks.filterMap id := fun mem => differ (own t mem)
    refine ⟨before, ?_, ?_, ?_⟩
    · have timers : (k'.timers.map TimerCondVar.task).count t =
          (k.timers.map TimerCondVar.task).count t := by
        have swapped : k'.timers.map TimerCondVar.task = (k.timers.map TimerCondVar.task).filter
            fun u => u ∉ (k.procs p).tasks.filterMap id := by
          rw [done.timers, List.filter_map]
          rfl
        rw [swapped, List.count_filter (by simpa using unknown)]
      simp only [Kernel.place, done.current, ready, timers, process, done.waiters,
        List.count_eq_zero_of_not_mem unknown, Nat.sub_zero]
    · rw [done.task]
    · rw [done.task]
      simp only [if_neg unknown]
  · intro t below isLive notLive
    have ofProcess : (k.tasks t).process = p := by
      by_contra differ
      exact notLive ((live t).mpr ⟨isLive, differ⟩)
    obtain ⟨tid, -, here, -⟩ := inv.slot t below isLive
    rw [ofProcess] at here
    have mem := (known t).mpr ⟨tid, here⟩
    refine ⟨by rw [done.current, current]; simp, ?_, ?_, ?_⟩
    · have atMostOnce : k.readyQueue.count t ≤ 1 := by
        change (k.place t).ready ≤ 1
        rcases inv.place_cases below isLive with eq | eq | eq | eq <;> simp [eq]
      have listed := List.count_pos_iff.mpr mem
      rw [← List.count_pos_iff, ready]
      omega
    · rw [done.timers]
      intro asleep
      obtain ⟨c, kept, rfl⟩ := List.mem_map.mp asleep
      have notMem := List.of_mem_filter kept
      simp only [decide_eq_true_eq] at notMem
      exact notMem mem
    · intro exited
      rw [done.task] at exited
      exact absurd isLive.1 exited
  · intro t _
    rw [done.task]
  · intro q i v h
    rw [done.tasks] at h
    split at h
    · rw [List.getElem?_take] at h
      split at h
      · exact h
      · simp at h
    · exact h
  · intro t i below isLive inUse here
    obtain ⟨-, differ⟩ := (live t).mp isLive
    rw [done.tasks, if_neg differ, done.other _ differ]
    exact ⟨here, inUse⟩
  · intro q
    by_cases same : q = p
    · rw [same]
      exact done.allocator RecycleAllocator.Ok (fun x y id ok dealloc => (ok.dealloc dealloc).1)
        (inv.allocator p)
    · rw [done.other q same]
      exact inv.allocator q

end Inv

/-! ## Runs -/

/-- Every move keeps the invariant. -/
theorem Move.inv (inv : Inv k) (move : Move a spawns k k') : Inv k' := by
  cases move with
  | quiet keeps waiters => exact inv.quiet keeps.sameThreads waiters
  | wake current keeps waiters => exact inv.wake current keeps waiters
  | expire mem => exact inv.expire mem
  | suspend current own => exact inv.suspend current _
  | block current own keeps waiters => exact inv.block current _ keeps waiters
  | sleep current => exact inv.sleep current _ _
  | dispatch current ready => exact inv.dispatch current ready
  | spawn may current alloc => exact inv.spawn current alloc
  | collect current slot exited => exact inv.collect slot exited
  | fork current done => exact inv.fork (inv.current_process current).1 done
  | reap current found zombie dealloc => exact inv.reap zombie
  | exit current res notMain dealloc => exact inv.exit current res dealloc
  | terminate current res isMain dealloc done =>
      exact (inv.exit current res dealloc).terminate rfl done

/-- A change of one thread whose new frames own its process at most. -/
theorem framesOwn_update (frames : k.FramesOwn) {new : Task}
    (tasks : k'.tasks = Function.update k.tasks t new)
    (own : ∀ q ∈ new.frame.processes, q = new.process) : k'.FramesOwn := by
  intro u q mem
  rw [tasks] at mem ⊢
  by_cases same : u = t
  · subst same
    rw [Function.update_self] at mem ⊢
    exact own q mem
  · rw [Function.update_of_ne same] at mem ⊢
    exact frames u q mem

theorem framesOwn_exited (frames : k.FramesOwn) (tid : Nat) (exitCode : Int32)
    (allocator : RecycleAllocator) : (k.exited a tid exitCode allocator).FramesOwn :=
  framesOwn_update frames rfl (frames a)

/-- Every move keeps the frames as they should be. -/
theorem Move.framesOwn (frames : k.FramesOwn) (move : Move a spawns k k') : k'.FramesOwn := by
  cases move with
  | quiet keeps waiters => exact frames
  | wake current keeps waiters => exact framesOwn_update frames rfl (frames _)
  | expire mem => exact framesOwn_update frames rfl (frames _)
  | suspend current own => exact framesOwn_update frames rfl own
  | block current own keeps waiters => exact framesOwn_update frames rfl own
  | sleep current => exact framesOwn_update frames rfl (by simp)
  | dispatch current ready => exact framesOwn_update frames rfl (by simp)
  | spawn may current alloc => exact framesOwn_update frames rfl (by simp [Task.new])
  | collect current slot exited => exact frames
  | fork current done =>
      intro t q mem
      by_cases isNew : t = k.nextTask
      · rw [isNew, done.newTask] at mem
        simp [Task.new] at mem
      · rw [done.task t isNew] at mem ⊢
        exact frames t q mem
  | reap current found zombie dealloc => exact frames
  | exit current res notMain dealloc => exact framesOwn_exited frames _ _ _
  | terminate current res isMain dealloc done =>
      intro t q mem
      rw [done.task] at mem ⊢
      exact framesOwn_exited frames _ _ _ t q mem

theorem Moves.inv (inv : Inv k) (moves : Moves a spawns k k') : Inv k' := by
  induction moves with
  | refl => exact inv
  | tail _ move ih => exact move.inv ih

theorem Moves.framesOwn (frames : k.FramesOwn) (moves : Moves a spawns k k') : k'.FramesOwn := by
  induction moves with
  | refl => exact frames
  | tail _ move ih => exact move.framesOwn ih

theorem inv_start : Inv Kernel.start := by
  have newOk : RecycleAllocator.new.Ok := ⟨List.nodup_nil, by simp [RecycleAllocator.new]⟩
  have waiters : ∀ p, (Kernel.start.procs p).waiters = [] := by
    intro p
    simp only [Kernel.start]
    split <;> rfl
  have first : ∀ {t}, t < Kernel.start.nextTask → t = 0 := Nat.lt_one_iff.mp
  refine ⟨fun _ _ => Nat.one_pos, ?_, ?_, ?_, ?_, ?_, ?_, ?_⟩
  · intro t mem
    simpa [Kernel.start] using mem
  · intro p w mem
    simp [waiters] at mem
  · intro t below isLive
    obtain rfl := first below
    rfl
  · intro t below notLive
    obtain rfl := first below
    exact absurd ⟨rfl, rfl⟩ notLive
  · intro p i u h
    simp only [Kernel.start] at h
    split at h
    · next isFirst =>
      simp only [Process.new, List.getElem?_singleton] at h
      split at h
      · simp only [Option.some.injEq] at h
        subst h
        exact ⟨Nat.one_pos, isFirst.symm⟩
      · simp at h
    · simp [Process.unused] at h
  · intro t below isLive
    obtain rfl := first below
    exact ⟨0, rfl, rfl, Nat.one_pos, by simp [Kernel.start, Process.new, RecycleAllocator.new,
      RecycleAllocator.alloc, Task.new]⟩
  · intro p
    simp only [Kernel.start]
    split
    · exact newOk.alloc.1
    · exact newOk

theorem framesOwn_start : Kernel.start.FramesOwn := by
  intro t q mem
  simp [Kernel.start, Task.new] at mem

/-- The kernel after a list of events, each of which passes a check. -/
def Kernel.stepsIf (check : Kernel → Event → Bool) (k : Kernel) : List Event → Option Kernel
  | [] => some k
  | event :: events =>
      if check k event then (k.step event).bind fun k => k.stepsIf check events else none

/-- A kernel that has run events which pass a check is in a run. -/
theorem RunWith.stepsIf {allowed : Kernel → Event → Prop} {check : Kernel → Event → Bool}
    (sound : ∀ k event, check k event = true → allowed k event) {events : List Event}
    (run : RunWith allowed k) (h : k.stepsIf check events = some k') : RunWith allowed k' := by
  induction events generalizing k with
  | nil =>
      simp only [Kernel.stepsIf, Option.some.injEq] at h
      exact h ▸ run
  | cons event rest ih =>
      rw [Kernel.stepsIf] at h
      split at h
      · next passes =>
        obtain ⟨next, first, h⟩ := Option.bind_eq_some_iff.mp h
        exact ih (.step run (sound k event passes) first) h
      · simp at h

/-- The invariant holds in every run. -/
theorem RunWith.inv {allowed : Kernel → Event → Prop} (run : RunWith allowed k) :
    Inv k ∧ k.FramesOwn := by
  induction run with
  | start => exact ⟨inv_start, framesOwn_start⟩
  | step _ _ h ih =>
      rcases Kernel.step_moves ih.2 h with rfl | ⟨a, -, moves⟩
      · exact ih
      · exact ⟨moves.inv ih.1, moves.framesOwn ih.2⟩

end CoreFromDust.Os
