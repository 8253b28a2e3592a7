import CoreFromDust.Os.Proofs.Scheduled

/-!
# References to processes

Who owns an `Arc<ProcessControlBlock>`: a process is a child of at most one process, `PID2PCB`
has no zombies, and the frames of a running or exited thread own nothing.
-/

namespace CoreFromDust.Os

variable {k k' : Kernel} {a t : TaskId} {spawns : Prop} {p : ProcId}

/-! ## Children -/

/-- All entries of children vectors. -/
def Kernel.childRefs (k : Kernel) : List ProcId :=
  (List.range k.nextProc).flatMap fun p => (k.procs p).children

/-- Changing one part of a concatenation. -/
theorem count_flatMap_range_change {f g : ProcId → List ProcId} {n p : Nat} {x : ProcId}
    (below : p < n) (same : ∀ q, q ≠ p → g q = f q) :
    ((List.range n : List ProcId).flatMap g).count x + (f p).count x =
      ((List.range n : List ProcId).flatMap f).count x + (g p).count x := by
  have unchanged : ∀ m, m ≤ p →
      (List.range m : List ProcId).flatMap g = (List.range m : List ProcId).flatMap f := by
    intro m le
    refine List.flatMap_congr fun q mem => same q ?_
    have small := List.mem_range.mp mem
    omega
  induction n with
  | zero => omega
  | succ n ih =>
      simp only [List.range_succ, List.flatMap_append, List.count_append, List.flatMap_singleton]
      by_cases last : p = n
      · rw [unchanged n (by omega), last]
        omega
      · have rest := ih (by omega)
        rw [same n (Ne.symm last)]
        omega

/-- What the kernel keeps about references to processes. -/
structure Refs (k : Kernel) : Prop where
  initproc : k.initproc < k.nextProc
  initPid : (k.procs k.initproc).pid = idlePid
  allocated : ∀ c ∈ k.childRefs, c < k.nextProc
  once : ∀ c, k.childRefs.count c ≤ 1
  notInit : k.initproc ∉ k.childRefs
  listed : ∀ entry ∈ k.pid2pcb, entry.2 < k.nextProc ∧ (k.procs entry.2).pid = entry.1 ∧
    (k.procs entry.2).isZombie = false

namespace Refs

/-- A step that keeps the processes and `PID2PCB` and adds no children. -/
theorem keep (refs : Refs k) (initproc : k'.initproc = k.initproc)
    (nextProc : k'.nextProc = k.nextProc) (pid2pcb : k'.pid2pcb = k.pid2pcb)
    (pid : ∀ q, (k'.procs q).pid = (k.procs q).pid)
    (isZombie : ∀ q, (k'.procs q).isZombie = (k.procs q).isZombie)
    (children : ∀ q, (k'.procs q).children.Sublist (k.procs q).children) : Refs k' := by
  have sub : k'.childRefs.Sublist k.childRefs := by
    simp only [Kernel.childRefs, nextProc]
    generalize List.range k.nextProc = l
    induction l with
    | nil => exact .slnil
    | cons q l ih =>
        rw [List.flatMap_cons, List.flatMap_cons]
        exact (children q).append ih
  refine ⟨?_, ?_, ?_, ?_, ?_, ?_⟩
  · rw [initproc, nextProc]
    exact refs.initproc
  · rw [initproc, pid]
    exact refs.initPid
  · intro c mem
    rw [nextProc]
    exact refs.allocated c (sub.subset mem)
  · intro c
    exact Nat.le_trans (sub.count_le c) (refs.once c)
  · intro mem
    rw [initproc] at mem
    exact refs.notInit (sub.subset mem)
  · intro entry mem
    rw [pid2pcb] at mem
    rw [nextProc, pid, isZombie]
    exact refs.listed entry mem

/-- A change of one process. -/
theorem setProc (refs : Refs k) {f : Process → Process}
    (pid : (f (k.procs p)).pid = (k.procs p).pid)
    (isZombie : (f (k.procs p)).isZombie = (k.procs p).isZombie)
    (children : (f (k.procs p)).children.Sublist (k.procs p).children) : Refs (k.setProc p f) := by
  refine refs.keep rfl rfl rfl ?_ ?_ ?_ <;> intro q <;> rw [Kernel.setProc_procs] <;> split
  · next same => rw [same, pid]
  · rfl
  · next same => rw [same, isZombie]
  · rfl
  · next same =>
    rw [same]
    exact children
  · exact List.Sublist.refl _

/-- A change that is not about processes. -/
theorem of_procs (refs : Refs k) (initproc : k'.initproc = k.initproc)
    (nextProc : k'.nextProc = k.nextProc) (pid2pcb : k'.pid2pcb = k.pid2pcb)
    (procs : k'.procs = k.procs) : Refs k' := by
  refine refs.keep initproc nextProc pid2pcb ?_ ?_ ?_ <;> intro q <;> rw [procs]

theorem fork (refs : Refs k) {pid : Nat} (below : p < k.nextProc) (done : Forked p pid k k') :
    Refs k' := by
  have child := done.newProcess (Nat.ne_of_lt below)
  have counts : ∀ c, k'.childRefs.count c = k.childRefs.count c + [k.nextProc].count c := by
    intro c
    have old : (List.range k.nextProc).flatMap (fun q => (k'.procs q).children) =
        (List.range k.nextProc).flatMap fun q =>
          if q = p then (k.procs q).children ++ [k.nextProc] else (k.procs q).children := by
      refine List.flatMap_congr fun q mem => ?_
      rw [done.process q (Nat.ne_of_lt (List.mem_range.mp mem))]
    have added := @count_flatMap_range_change (fun q => (k.procs q).children)
      (fun q => if q = p then (k.procs q).children ++ [k.nextProc] else (k.procs q).children)
      k.nextProc p c below (fun q other => if_neg other)
    rw [← old, if_pos rfl, List.count_append] at added
    have split : k'.childRefs.count c =
        ((List.range k.nextProc).flatMap fun q => (k'.procs q).children).count c := by
      rw [Kernel.childRefs, done.nextProc, List.range_succ, List.flatMap_append,
        List.flatMap_singleton, child, Process.new, List.append_nil]
    rw [split]
    change _ = k.childRefs.count c + _ at added
    omega
  have members : ∀ c ∈ k'.childRefs, c ∈ k.childRefs ∨ c = k.nextProc := by
    intro c mem
    rw [← List.count_pos_iff, counts] at mem
    by_cases isNew : c = k.nextProc
    · exact .inr isNew
    · rw [count_singleton_ne isNew] at mem
      exact .inl (List.count_pos_iff.mp mem)
  refine ⟨?_, ?_, ?_, ?_, ?_, ?_⟩
  · rw [done.initproc, done.nextProc]
    exact Nat.lt_succ_of_lt refs.initproc
  · rw [done.initproc, done.process _ (Nat.ne_of_lt refs.initproc)]
    exact refs.initPid
  · intro c mem
    rw [done.nextProc]
    rcases members c mem with mem | rfl
    · exact Nat.lt_succ_of_lt (refs.allocated c mem)
    · exact Nat.lt_succ_self _
  · intro c
    rw [counts]
    by_cases isNew : c = k.nextProc
    · have absent : k.childRefs.count c = 0 := by
        refine List.count_eq_zero_of_not_mem fun mem => ?_
        exact Nat.ne_of_lt (refs.allocated c mem) isNew
      have single : [k.nextProc].count c = 1 := by
        rw [isNew]
        exact List.count_singleton_self
      omega
    · rw [count_singleton_ne isNew]
      exact refs.once c
  · intro mem
    rw [done.initproc] at mem
    rcases members _ mem with mem | eq
    · exact refs.notInit mem
    · exact Nat.ne_of_lt refs.initproc eq
  · intro entry mem
    rw [done.pid2pcb, List.mem_append, List.mem_singleton] at mem
    rw [done.nextProc]
    rcases mem with mem | rfl
    · obtain ⟨small, pid, alive⟩ := refs.listed entry (List.mem_of_mem_filter mem)
      rw [done.process _ (Nat.ne_of_lt small)]
      exact ⟨Nat.lt_succ_of_lt small, pid, alive⟩
    · rw [child]
      exact ⟨Nat.lt_succ_self _, rfl, rfl⟩

theorem exit (refs : Refs k) (tid : Nat) (exitCode : Int32) (allocator : RecycleAllocator) :
    Refs (k.exited a tid exitCode allocator) := by
  have recorded : Refs (({ k with
      current := none
      history := .exited (k.tasks a).process tid exitCode :: k.history } : Kernel).setTask a
        fun tcb => { tcb with exitCode := some exitCode, res := none }) :=
    refs.of_procs rfl rfl rfl rfl
  exact recorded.setProc rfl rfl (List.Sublist.refl _)

theorem terminate (refs : Refs k) (below : p < k.nextProc) {exitCode : Int32}
    (done : Terminated p exitCode k k') : Refs k' := by
  have notInit : k.initproc ≠ p := by
    rintro rfl
    exact done.pid refs.initPid
  have counts : ∀ c, k'.childRefs.count c = k.childRefs.count c := by
    intro c
    -- the process loses its children, then `INITPROC` gets them
    have lost := @count_flatMap_range_change (fun q => (k.procs q).children)
      (fun q => if q = p then [] else (k.procs q).children) k.nextProc p c below
      (fun q other => if_neg other)
    have gained := @count_flatMap_range_change
      (fun q => if q = p then [] else (k.procs q).children) (fun q => (k'.procs q).children)
      k.nextProc k.initproc c refs.initproc (fun q other => by
        rw [done.children, if_neg other])
    rw [done.children, if_neg notInit, if_pos rfl] at gained
    simp only [if_neg notInit, List.count_append, if_true, List.count_nil] at lost gained
    have new : k'.childRefs =
        (List.range k.nextProc).flatMap fun q => (k'.procs q).children := by
      rw [Kernel.childRefs, done.nextProc]
    rw [new]
    change _ = k.childRefs.count c + _ at lost
    omega
  have members : ∀ c, c ∈ k'.childRefs ↔ c ∈ k.childRefs := by
    intro c
    rw [← List.count_pos_iff, counts, List.count_pos_iff]
  refine ⟨?_, ?_, ?_, ?_, ?_, ?_⟩
  · rw [done.initproc, done.nextProc]
    exact refs.initproc
  · rw [done.initproc, (done.ids _).1]
    exact refs.initPid
  · intro c mem
    rw [done.nextProc]
    exact refs.allocated c ((members c).mp mem)
  · intro c
    rw [counts]
    exact refs.once c
  · rw [done.initproc, members]
    exact refs.notInit
  · intro entry mem
    rw [done.pid2pcb, List.mem_filter] at mem
    obtain ⟨small, pid, alive⟩ := refs.listed entry mem.1
    have other : entry.2 ≠ p := by
      intro same
      have differ := mem.2
      rw [same] at pid
      simp [pid] at differ
    rw [done.nextProc, (done.ids _).1, done.isZombie, if_neg other]
    exact ⟨small, pid, alive⟩

end Refs

theorem Move.refs (inv : Inv k) (refs : Refs k) (move : Move a spawns k k') : Refs k' := by
  cases move with
  | quiet keeps waiters =>
      exact refs.setProc keeps.pid keeps.isZombie (by rw [keeps.children])
  | wake current keeps waiters =>
      exact (refs.setProc keeps.pid keeps.isZombie (by rw [keeps.children])).of_procs
        rfl rfl rfl rfl
  | expire mem => exact refs.of_procs rfl rfl rfl rfl
  | suspend current own => exact refs.of_procs rfl rfl rfl rfl
  | block current own keeps waiters =>
      exact (refs.setProc keeps.pid keeps.isZombie (by rw [keeps.children])).of_procs
        rfl rfl rfl rfl
  | sleep current => exact refs.of_procs rfl rfl rfl rfl
  | dispatch current ready => exact refs.of_procs rfl rfl rfl rfl
  | @spawn tid allocator may current alloc =>
      have created : Refs ((({ k with nextTask := k.nextTask + 1 } : Kernel).setTask k.nextTask
          fun _ => Task.new (k.tasks a).process tid).addTask k.nextTask) :=
        refs.of_procs rfl rfl rfl rfl
      exact created.setProc rfl rfl (List.Sublist.refl _)
  | @collect tid u exitCode current slot exited =>
      have noted : Refs { k with history := .waited (k.tasks a).process tid :: k.history } :=
        refs.of_procs rfl rfl rfl rfl
      exact noted.setProc rfl rfl (List.Sublist.refl _)
  | fork current done => exact refs.fork (inv.current_process current).1 done
  | @reap i child allocator current found zombie dealloc =>
      have removed : Refs (k.setProc (k.tasks a).process fun pcb =>
          { pcb with children := pcb.children.eraseIdx i }) :=
        refs.setProc rfl rfl (List.eraseIdx_sublist _ _)
      have released : Refs { k.setProc (k.tasks a).process fun pcb =>
          { pcb with children := pcb.children.eraseIdx i } with
          pidAllocator := allocator
          history := .reaped (k.tasks a).process child (k.procs child).pid
            (k.procs child).exitCode :: k.history } :=
        removed.of_procs rfl rfl rfl rfl
      exact released.setProc rfl rfl (List.nil_sublist _)
  | exit current res notMain dealloc => exact refs.exit _ _ _
  | terminate current res isMain dealloc done =>
      exact (refs.exit _ _ _).terminate (inv.current_process current).1 done

/-! ## Frames -/

/-- A thread that runs or has exited has no frames that own a process. -/
def FramesClear (k : Kernel) : Prop :=
  ∀ t, k.current = some t ∨ (k.tasks t).exitCode ≠ none → (k.tasks t).frame.processes = []

/-- What moves of the thread `a` leave to the other threads. -/
structure ByThread (a : TaskId) (k k' : Kernel) : Prop where
  nextTask : k.nextTask ≤ k'.nextTask
  process : ∀ t, t < k.nextTask → (k'.tasks t).process = (k.tasks t).process
  exited : ∀ t, t < k.nextTask → (k.tasks t).exitCode ≠ none → (k'.tasks t).exitCode ≠ none
  frame : ∀ t, t ≠ a → t < k'.nextTask →
    (t < k.nextTask ∧ (k'.tasks t).frame = (k.tasks t).frame) ∨ (k'.tasks t).frame.processes = []
  zombie : ∀ p, (k'.procs p).isZombie = true → (k.procs p).isZombie = true ∨
    (p = (k.tasks a).process ∧ (k'.tasks a).exitCode ≠ none)

namespace ByThread

theorem refl (k : Kernel) : ByThread a k k :=
  ⟨Nat.le_refl _, fun _ _ => rfl, fun _ _ h => h, fun _ _ below => .inl ⟨below, rfl⟩,
    fun _ h => .inl h⟩

theorem trans {k₁ k₂ k₃ : Kernel} (below : a < k₁.nextTask) (h : ByThread a k₁ k₂)
    (h' : ByThread a k₂ k₃) : ByThread a k₁ k₃ := by
  have below' := Nat.lt_of_lt_of_le below h.nextTask
  refine ⟨Nat.le_trans h.nextTask h'.nextTask, ?_, ?_, ?_, ?_⟩
  · intro t old
    rw [h'.process t (Nat.lt_of_lt_of_le old h.nextTask), h.process t old]
  · intro t old exited
    exact h'.exited t (Nat.lt_of_lt_of_le old h.nextTask) (h.exited t old exited)
  · intro t other last
    rcases h'.frame t other last with ⟨middle, same⟩ | clear
    · rcases h.frame t other middle with ⟨old, same'⟩ | clear
      · exact .inl ⟨old, same.trans same'⟩
      · exact .inr (by rw [same, clear])
    · exact .inr clear
  · intro p zombie
    rcases h'.zombie p zombie with middle | ⟨own, exited⟩
    · rcases h.zombie p middle with old | ⟨own, exited⟩
      · exact .inl old
      · exact .inr ⟨own, h'.exited a below' exited⟩
    · exact .inr ⟨own.trans (h.process a below), exited⟩

/-- No thread comes and no process ends. -/
theorem of_tasks (nextTask : k'.nextTask = k.nextTask)
    (isZombie : ∀ p, (k'.procs p).isZombie = (k.procs p).isZombie)
    (task : ∀ t, (k'.tasks t).process = (k.tasks t).process ∧
      ((k.tasks t).exitCode ≠ none → (k'.tasks t).exitCode ≠ none) ∧
      (t ≠ a → (k'.tasks t).frame = (k.tasks t).frame)) : ByThread a k k' := by
  refine ⟨Nat.le_of_eq nextTask.symm, fun t _ => (task t).1, fun t _ => (task t).2.1, ?_, ?_⟩
  · intro t other below
    exact .inl ⟨nextTask ▸ below, (task t).2.2 other⟩
  · intro p zombie
    rw [isZombie] at zombie
    exact .inl zombie

end ByThread

theorem isZombie_setProc {f : Process → Process} (q : ProcId)
    (same : (f (k.procs p)).isZombie = (k.procs p).isZombie) :
    ((k.setProc p f).procs q).isZombie = (k.procs q).isZombie := by
  rw [Kernel.setProc_procs]
  split
  · next here => rw [here, same]
  · rfl

theorem ByThread.exit (k : Kernel) (tid : Nat) (exitCode : Int32) (allocator : RecycleAllocator) :
    ByThread a k (k.exited a tid exitCode allocator) := by
  refine ByThread.of_tasks rfl (fun q => isZombie_setProc q rfl) ?_
  intro t
  rw [Kernel.exited_tasks]
  split
  · exact ⟨rfl, fun _ => by simp, fun _ => rfl⟩
  · exact ⟨rfl, fun h => h, fun _ => rfl⟩

/-- Each move of the thread `a` is such a move. -/
theorem Move.byThread (inv : Inv k) (below : a < k.nextTask) (move : Move a spawns k k') :
    ByThread a k k' := by
  cases move with
  | quiet keeps waiters =>
      exact .of_tasks rfl (fun q => isZombie_setProc q keeps.isZombie)
        fun t => ⟨rfl, fun h => h, fun _ => rfl⟩
  | wake current keeps waiters =>
      refine .of_tasks rfl (fun q => isZombie_setProc q keeps.isZombie) ?_
      intro t
      simp only [Kernel.wakeupTask, Kernel.addTask_tasks, Kernel.setTask_tasks]
      split <;> exact ⟨rfl, fun h => h, fun _ => rfl⟩
  | expire mem =>
      refine .of_tasks rfl (fun q => rfl) ?_
      intro t
      simp only [Kernel.wakeupTask, Kernel.addTask_tasks, Kernel.setTask_tasks]
      split <;> exact ⟨rfl, fun h => h, fun _ => rfl⟩
  | suspend current own =>
      refine .of_tasks rfl (fun q => rfl) ?_
      intro t
      simp only [Kernel.leave, Kernel.addTask_tasks, Kernel.setTask_tasks]
      split
      · next here => exact ⟨rfl, fun h => h, fun other => absurd here other⟩
      · exact ⟨rfl, fun h => h, fun _ => rfl⟩
  | block current own keeps waiters =>
      refine .of_tasks rfl (fun q => isZombie_setProc q keeps.isZombie) ?_
      intro t
      simp only [Kernel.leave, Kernel.setTask_tasks]
      split
      · next here => exact ⟨rfl, fun h => h, fun other => absurd here other⟩
      · exact ⟨rfl, fun h => h, fun _ => rfl⟩
  | sleep current =>
      refine .of_tasks rfl (fun q => rfl) ?_
      intro t
      simp only [Kernel.leave, Kernel.setTask_tasks]
      split
      · next here => exact ⟨rfl, fun h => h, fun other => absurd here other⟩
      · exact ⟨rfl, fun h => h, fun _ => rfl⟩
  | dispatch current ready =>
      refine .of_tasks rfl (fun q => rfl) ?_
      intro t
      simp only [Kernel.setTask_tasks]
      split
      · next here => exact ⟨rfl, fun h => h, fun other => absurd here other⟩
      · exact ⟨rfl, fun h => h, fun _ => rfl⟩
  | spawn may current alloc =>
      have old : ∀ t, t < k.nextTask → t ≠ k.nextTask := fun t h => Nat.ne_of_lt h
      refine ⟨Nat.le_succ _, ?_, ?_, ?_, ?_⟩
      · intro t isOld
        simp only [Kernel.spawned, Kernel.setProc_tasks, Kernel.addTask_tasks, Kernel.setTask_tasks,
          if_neg (old t isOld)]
      · intro t isOld exited
        simpa only [Kernel.spawned, Kernel.setProc_tasks, Kernel.addTask_tasks,
          Kernel.setTask_tasks, if_neg (old t isOld)] using exited
      · intro t other last
        simp only [Kernel.spawned, Kernel.setProc_tasks, Kernel.addTask_tasks, Kernel.setTask_tasks]
        by_cases isNew : t = k.nextTask
        · rw [if_pos isNew]
          exact .inr rfl
        · rw [if_neg isNew]
          exact .inl ⟨Nat.lt_of_le_of_ne (Nat.lt_succ_iff.mp last) isNew, rfl⟩
      · intro p zombie
        rw [Kernel.spawned, isZombie_setProc p rfl] at zombie
        exact .inl zombie
  | collect current slot exited =>
      exact .of_tasks rfl (fun q => isZombie_setProc q rfl) fun t => ⟨rfl, fun h => h, fun _ => rfl⟩
  | fork current done =>
      have old : ∀ t, t < k.nextTask → k'.tasks t = k.tasks t :=
        fun t h => done.task t (Nat.ne_of_lt h)
      refine ⟨done.nextTask ▸ Nat.le_succ _, ?_, ?_, ?_, ?_⟩
      · intro t isOld
        rw [old t isOld]
      · intro t isOld exited
        rwa [old t isOld]
      · intro t other last
        by_cases isNew : t = k.nextTask
        · rw [isNew, done.newTask]
          exact .inr rfl
        · rw [done.nextTask] at last
          have isOld := Nat.lt_of_le_of_ne (Nat.lt_succ_iff.mp last) isNew
          exact .inl ⟨isOld, by rw [old t isOld]⟩
      · intro p zombie
        by_cases isNew : p = k.nextProc
        · rw [isNew, done.newProcess (Nat.ne_of_lt (inv.process a below))] at zombie
          simp [Process.new] at zombie
        · rw [done.process p isNew] at zombie
          exact .inl zombie
  | reap current found zombie dealloc =>
      refine .of_tasks rfl ?_ fun t => ⟨rfl, fun h => h, fun _ => rfl⟩
      intro q
      simp only [Kernel.reaped, Kernel.setProc_procs]
      split <;> split <;> rfl
  | exit current res notMain dealloc => exact .exit k _ _ _
  | @terminate k' tid exitCode allocator current res isMain dealloc done =>
      refine ByThread.trans below (.exit k tid exitCode allocator) ?_
      refine ⟨Nat.le_of_eq done.nextTask.symm, ?_, ?_, ?_, ?_⟩
      · intro t _
        rw [done.task]
      · intro t _ exited
        rwa [done.task]
      · intro t _ last
        exact .inl ⟨done.nextTask ▸ last, by rw [done.task]⟩
      · intro p zombie
        rw [done.isZombie] at zombie
        split at zombie
        · next own =>
          refine .inr ⟨?_, ?_⟩
          · rw [Kernel.exited_tasks, if_pos rfl, own]
          · rw [done.task, Kernel.exited_tasks, if_pos rfl]
            simp
        · exact .inl zombie

theorem Moves.byThread (inv : Inv k) (below : a < k.nextTask) (moves : Moves a spawns k k') :
    ByThread a k k' := by
  induction moves with
  | refl => exact .refl k
  | @tail middle last moves move ih =>
      have below' := Nat.lt_of_lt_of_le below ih.nextTask
      exact .trans below ih (move.byThread (Moves.inv inv moves) below')

theorem framesClear_update (clear : FramesClear k) {new : Task}
    (tasks : k'.tasks = Function.update k.tasks t new)
    (current : ∀ u, u ≠ t → k'.current = some u → k.current = some u)
    (own : k'.current = some t ∨ new.exitCode ≠ none → new.frame.processes = []) :
    FramesClear k' := by
  intro u h
  rw [tasks] at h ⊢
  by_cases same : u = t
  · subst same
    rw [Function.update_self] at h ⊢
    exact own h
  · rw [Function.update_of_ne same] at h ⊢
    exact clear u (h.imp (current u same) id)

theorem framesClear_exited (clear : FramesClear k) (current : k.current = some a) (tid : Nat)
    (exitCode : Int32) (allocator : RecycleAllocator) :
    FramesClear (k.exited a tid exitCode allocator) :=
  framesClear_update clear rfl (fun _ _ h => by simp [Kernel.exited] at h)
    fun _ => clear a (.inl current)

/-- Every move keeps the frames of running and of exited threads clear. -/
theorem Move.framesClear (inv : Inv k) (clear : FramesClear k) (move : Move a spawns k k') :
    FramesClear k' := by
  have runs : k.current = some a → (k.tasks a).exitCode = none :=
    fun current => (inv.current current).2.1.1
  cases move with
  | quiet keeps waiters => exact clear
  | wake current keeps waiters => exact framesClear_update clear rfl (fun _ _ h => h) (clear _)
  | expire mem => exact framesClear_update clear rfl (fun _ _ h => h) (clear _)
  | suspend current own =>
      refine framesClear_update clear rfl (fun _ _ h => by simp [Kernel.leave] at h) ?_
      simp [Kernel.leave, runs current]
  | block current own keeps waiters =>
      refine framesClear_update clear rfl (fun _ _ h => by simp [Kernel.leave] at h) ?_
      simp [Kernel.leave, runs current]
  | sleep current =>
      exact framesClear_update clear rfl (fun _ _ h => by simp [Kernel.leave] at h) (fun _ => rfl)
  | dispatch current ready =>
      refine framesClear_update clear rfl ?_ (fun _ => rfl)
      intro u other h
      simp only [Kernel.setTask_current, Option.some.injEq] at h
      exact absurd h.symm other
  | spawn may current alloc => exact framesClear_update clear rfl (fun _ _ h => h) (fun _ => rfl)
  | collect current slot exited => exact clear
  | fork current done =>
      intro t h
      by_cases isNew : t = k.nextTask
      · rw [isNew, done.newTask]
        rfl
      · rw [done.task t isNew, done.current] at h
        rw [done.task t isNew]
        exact clear t h
  | reap current found zombie dealloc => exact clear
  | exit current res notMain dealloc => exact framesClear_exited clear current _ _ _
  | terminate current res isMain dealloc done =>
      intro t h
      rw [done.task, done.current] at h
      rw [done.task]
      exact framesClear_exited clear current _ _ _ t h

/-! ## Runs -/

theorem Moves.refs (inv : Inv k) (refs : Refs k) (moves : Moves a spawns k k') : Refs k' := by
  induction moves with
  | refl => exact refs
  | tail moves move ih => exact move.refs (Moves.inv inv moves) ih

theorem Moves.framesClear (inv : Inv k) (clear : FramesClear k) (moves : Moves a spawns k k') :
    FramesClear k' := by
  induction moves with
  | refl => exact clear
  | tail moves move ih => exact move.framesClear (Moves.inv inv moves) ih

theorem refs_start : Refs Kernel.start := by
  have children : ∀ p, (Kernel.start.procs p).children = [] := by
    intro p
    simp only [Kernel.start]
    split <;> rfl
  have none : Kernel.start.childRefs = [] := by simp [Kernel.childRefs, children]
  refine ⟨Nat.one_pos, rfl, ?_, ?_, ?_, ?_⟩
  · simp [none]
  · simp [none]
  · simp [none]
  · intro entry mem
    obtain rfl := List.mem_singleton.mp mem
    exact ⟨Nat.one_pos, rfl, rfl⟩

/-- References and frames are in order in every run. -/
theorem RunWith.refs {allowed : Kernel → Event → Prop} (run : RunWith allowed k) :
    Refs k ∧ FramesClear k := by
  induction run with
  | start => exact ⟨refs_start, fun t _ => rfl⟩
  | step run _ h ih =>
      rcases Kernel.step_moves run.inv.2 h with rfl | ⟨a, -, moves⟩
      · exact ih
      · exact ⟨moves.refs run.inv.1 ih.1, moves.framesClear run.inv.1 ih.2⟩

end CoreFromDust.Os
