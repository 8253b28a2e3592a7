import CoreFromDust.Os.OnePlace

/-!
# Exit codes of threads

The id of a thread is released when the thread exits, but its exit code stays in the `tasks` of
the process until `sys_waittid` takes it. `RecycleAllocator` hands out the id that was released
last, so `sys_thread_create` may overwrite an exit code that nobody has waited for. In the runs
in which it is called only when the slot of that id is empty, no exit code is lost.
-/

namespace CoreFromDust.Os

variable {k k' : Kernel} {a : TaskId} {p : ProcId} {tid : Nat} {exitCode : Int32}

/-- The exit code of the last thread of a process that had a thread id and exited, unless
`sys_waittid` has returned it. -/
def pendingExit (p : ProcId) (tid : Nat) : List Note → Option Int32
  | [] => none
  | .exited q id exitCode :: notes =>
      if q = p ∧ id = tid then some exitCode else pendingExit p tid notes
  | .waited q id :: notes => if q = p ∧ id = tid then none else pendingExit p tid notes
  | .forked _ _ :: notes => pendingExit p tid notes
  | .reaped _ _ _ _ :: notes => pendingExit p tid notes

/-- If the step creates a thread, then the slot of the id that the process released last is
empty. -/
def EmptySlot (k : Kernel) (event : Event) : Prop :=
  event = .syscall .threadCreate → ∀ p, k.currentProcess = some p →
    ∀ id recycled, (k.procs p).taskResAllocator.recycled = id :: recycled →
      ∀ u, (k.procs p).tasks[id]? ≠ some (some u)

/-- The id of a new thread is that of an empty slot, or greater than all ids so far. -/
theorem alloc_fresh {pcb : Process} {allocator : RecycleAllocator}
    (alloc : pcb.taskResAllocator.alloc = (tid, allocator))
    (empty : ∀ id recycled, pcb.taskResAllocator.recycled = id :: recycled →
      ∀ u, pcb.tasks[id]? ≠ some (some u)) :
    pcb.taskResAllocator.current ≤ allocator.current ∧
      ∀ (i : Nat) u, i < pcb.taskResAllocator.current →
      pcb.tasks[i]? = some (some u) → i ≠ tid := by
  unfold RecycleAllocator.alloc at alloc
  split at alloc
  · next id recycled top =>
    rw [Prod.mk.injEq] at alloc
    obtain ⟨rfl, rfl⟩ := alloc
    refine ⟨Nat.le_refl _, ?_⟩
    rintro i u _ slot rfl
    exact empty _ recycled top u slot
  · rw [Prod.mk.injEq] at alloc
    obtain ⟨rfl, rfl⟩ := alloc
    exact ⟨Nat.le_succ _, fun i u below _ => Nat.ne_of_lt below⟩

theorem RecycleAllocator.dealloc_current {a allocator : RecycleAllocator} {id : Nat}
    (dealloc : a.dealloc id = some allocator) : allocator.current = a.current := by
  unfold RecycleAllocator.dealloc at dealloc
  split at dealloc
  · rw [Option.some.injEq] at dealloc
    rw [← dealloc]
  · simp at dealloc

/-- Exit codes are in the slots of their threads. -/
structure ExitCodes (k : Kernel) : Prop where
  dropped : ∀ p, (k.procs p).dropped = true → (k.procs p).isZombie = true
  allocated : ∀ p tid exitCode, pendingExit p tid k.history = some exitCode → p < k.nextProc
  kept : ∀ p tid exitCode, pendingExit p tid k.history = some exitCode →
    (k.procs p).isZombie = false → tid < (k.procs p).taskResAllocator.current ∧
      ∃ u, (k.procs p).tasks[tid]? = some (some u) ∧ (k.tasks u).exitCode = some exitCode

namespace ExitCodes

/-- A step that keeps the slots of exited threads. -/
theorem keep (codes : ExitCodes k)
    (history : ∀ p tid, pendingExit p tid k'.history = pendingExit p tid k.history)
    (nextProc : k.nextProc ≤ k'.nextProc)
    (dropped : ∀ p, (k'.procs p).dropped = true → (k'.procs p).isZombie = true)
    (slots : ∀ p, p < k.nextProc → (k'.procs p).isZombie = false →
      (k.procs p).isZombie = false ∧
      (k.procs p).taskResAllocator.current ≤ (k'.procs p).taskResAllocator.current ∧
      ∀ tid u, tid < (k.procs p).taskResAllocator.current →
        (k.procs p).tasks[tid]? = some (some u) → (k.tasks u).exitCode ≠ none →
        (k'.procs p).tasks[tid]? = some (some u) ∧
          (k'.tasks u).exitCode = (k.tasks u).exitCode) : ExitCodes k' := by
  refine ⟨dropped, ?_, ?_⟩
  · intro p tid exitCode pending
    rw [history] at pending
    exact Nat.lt_of_lt_of_le (codes.allocated p tid exitCode pending) nextProc
  · intro p tid exitCode pending alive
    rw [history] at pending
    obtain ⟨alive, current, same⟩ := slots p (codes.allocated p tid exitCode pending) alive
    obtain ⟨below, u, slot, exited⟩ := codes.kept p tid exitCode pending alive
    obtain ⟨slot', exitCode'⟩ := same tid u below slot (by rw [exited]; simp)
    exact ⟨Nat.lt_of_lt_of_le below current, u, slot', exitCode'.trans exited⟩

/-- A step that moves threads between places at most. -/
theorem sameThreads (codes : ExitCodes k) (same : SameThreads k k')
    (history : k'.history = k.history)
    (dropped : ∀ p, (k'.procs p).dropped = (k.procs p).dropped) : ExitCodes k' := by
  refine codes.keep (fun _ _ => by rw [history]) (Nat.le_of_eq same.nextProc.symm) ?_ ?_
  · intro p h
    rw [dropped] at h
    rw [same.isZombie]
    exact codes.dropped p h
  · intro p _ alive
    rw [same.isZombie] at alive
    rw [same.allocator, same.tasks]
    exact ⟨alive, Nat.le_refl _, fun tid u _ slot _ => ⟨slot, same.exitCode u⟩⟩

theorem spawn (codes : ExitCodes k) (inv : Inv k) {allocator : RecycleAllocator}
    (alloc : (k.procs (k.tasks a).process).taskResAllocator.alloc = (tid, allocator))
    (empty : ∀ id recycled,
      (k.procs (k.tasks a).process).taskResAllocator.recycled = id :: recycled →
        ∀ u, (k.procs (k.tasks a).process).tasks[id]? ≠ some (some u)) :
    ExitCodes (k.spawned a tid allocator) := by
  obtain ⟨current, fresh⟩ := alloc_fresh alloc empty
  refine codes.keep (fun _ _ => rfl) (Nat.le_refl _) ?_ ?_
  · intro p
    simp only [Kernel.spawned, Kernel.setProc_procs, Kernel.addTask_procs, Kernel.setTask_procs]
    split <;> exact codes.dropped p
  · intro p _ alive
    have exitCodes : ∀ (i : Nat) u, (k.procs p).tasks[i]? = some (some u) →
        ((k.spawned a tid allocator).tasks u).exitCode = (k.tasks u).exitCode := by
      intro i u slot
      have old := Nat.ne_of_lt (inv.slots p i u slot).1
      simp only [Kernel.spawned, Kernel.setProc_tasks, Kernel.addTask_tasks, Kernel.setTask_tasks,
        if_neg old]
    simp only [Kernel.spawned, Kernel.setProc_procs, Kernel.addTask_procs,
      Kernel.setTask_procs] at alive ⊢
    split at alive
    · next same =>
      subst same
      rw [if_pos rfl]
      refine ⟨alive, current, ?_⟩
      intro i u below slot exited
      refine ⟨?_, exitCodes i u slot⟩
      rw [getElem?_spawn, if_neg (fresh i u below slot)]
      exact slot
    · next other =>
      rw [if_neg other]
      exact ⟨alive, Nat.le_refl _, fun i u _ slot _ => ⟨slot, exitCodes i u slot⟩⟩

theorem collect (codes : ExitCodes k) : ExitCodes
    (({ k with history := .waited p tid :: k.history } : Kernel).setProc p
      fun pcb => { pcb with tasks := pcb.tasks.set tid none }) := by
  have earlier : ∀ {q i exitCode}, pendingExit q i (.waited p tid :: k.history) = some exitCode →
      ¬ (p = q ∧ tid = i) ∧ pendingExit q i k.history = some exitCode := by
    intro q i exitCode pending
    rw [pendingExit] at pending
    split at pending
    · simp at pending
    · next other => exact ⟨other, pending⟩
  refine ⟨?_, ?_, ?_⟩
  · intro q
    rw [Kernel.setProc_procs]
    split <;> exact codes.dropped q
  · intro q i exitCode pending
    exact codes.allocated q i exitCode (earlier pending).2
  · intro q i exitCode pending alive
    obtain ⟨other, before⟩ := earlier pending
    rw [Kernel.setProc_procs] at alive ⊢
    split at alive
    · next same =>
      subst same
      obtain ⟨below, u, slot, exited⟩ := codes.kept q i exitCode before alive
      rw [if_pos rfl]
      refine ⟨below, u, ?_, exited⟩
      rw [List.getElem?_set_ne fun eq => other ⟨rfl, eq⟩]
      exact slot
    · next differ =>
      rw [if_neg differ]
      exact codes.kept q i exitCode before alive

theorem fork (codes : ExitCodes k) (inv : Inv k) {pid : Nat} (below : p < k.nextProc)
    (done : Forked p pid k k') : ExitCodes k' := by
  refine codes.keep (fun _ _ => by rw [done.history]; rfl)
    (by rw [done.nextProc]; exact Nat.le_succ _) ?_ ?_
  · intro q h
    by_cases isNew : q = k.nextProc
    · rw [isNew, done.newProcess (Nat.ne_of_lt below)] at h
      simp [Process.new] at h
    · rw [done.process q isNew] at h ⊢
      exact codes.dropped q h
  · intro q old alive
    rw [done.process q (Nat.ne_of_lt old)] at alive ⊢
    refine ⟨alive, Nat.le_refl _, ?_⟩
    intro i u _ slot _
    exact ⟨slot, by rw [done.task u (Nat.ne_of_lt (inv.slots q i u slot).1)]⟩

theorem drop (codes : ExitCodes k) (zombie : (k.procs p).isZombie = true) :
    ExitCodes (k.setProc p fun pcb =>
      { pcb with
        children := [], mutexList := [], semaphoreList := [], condvarList := [], tasks := []
        dropped := true }) := by
  refine codes.keep (fun _ _ => rfl) (Nat.le_refl _) ?_ ?_
  · intro q
    rw [Kernel.setProc_procs]
    split
    · next same => exact fun _ => same ▸ zombie
    · exact codes.dropped q
  · intro q _ alive
    rw [Kernel.setProc_procs] at alive ⊢
    split at alive
    · next same =>
      subst same
      simp [zombie] at alive
    · next other =>
      rw [if_neg other]
      exact ⟨alive, Nat.le_refl _, fun i u _ slot _ => ⟨slot, rfl⟩⟩

theorem reap (codes : ExitCodes k) {i : Nat} {child : ProcId} {allocator : RecycleAllocator}
    (zombie : (k.procs child).isZombie = true) : ExitCodes (k.reaped a i child allocator) := by
  have kept : ∀ q, ((k.setProc (k.tasks a).process fun pcb =>
      { pcb with children := pcb.children.eraseIdx i }).procs q).dropped = (k.procs q).dropped ∧
      ((k.setProc (k.tasks a).process fun pcb =>
        { pcb with children := pcb.children.eraseIdx i }).procs q).isZombie =
          (k.procs q).isZombie := by
    intro q
    rw [Kernel.setProc_procs]
    split <;> exact ⟨rfl, rfl⟩
  have removed : ExitCodes (k.setProc (k.tasks a).process fun pcb =>
      { pcb with children := pcb.children.eraseIdx i }) :=
    codes.sameThreads (.setProc k ⟨rfl, rfl, rfl⟩) rfl fun q => (kept q).1
  have released : ExitCodes { k.setProc (k.tasks a).process fun pcb =>
      { pcb with children := pcb.children.eraseIdx i } with
      pidAllocator := allocator
      history := .reaped (k.tasks a).process child (k.procs child).pid (k.procs child).exitCode ::
        k.history } :=
    ⟨removed.dropped, removed.allocated, removed.kept⟩
  exact released.drop ((kept child).2.trans zombie)

theorem exit (codes : ExitCodes k) (inv : Inv k) {allocator : RecycleAllocator}
    (current : k.current = some a) (res : (k.tasks a).res = some tid)
    (dealloc : (k.procs (k.tasks a).process).taskResAllocator.dealloc tid = some allocator) :
    ExitCodes (k.exited a tid exitCode allocator) := by
  obtain ⟨below, aLive, -⟩ := inv.current current
  obtain ⟨ownTid, hasTid, aSlot, aInUse⟩ := inv.slot a below aLive
  rw [res, Option.some.injEq] at hasTid
  subst hasTid
  have sameCurrent := RecycleAllocator.dealloc_current dealloc
  have procs : ∀ q, ((k.exited a tid exitCode allocator).procs q).tasks = (k.procs q).tasks ∧
      ((k.exited a tid exitCode allocator).procs q).isZombie = (k.procs q).isZombie ∧
      ((k.exited a tid exitCode allocator).procs q).dropped = (k.procs q).dropped ∧
      ((k.exited a tid exitCode allocator).procs q).taskResAllocator.current =
        (k.procs q).taskResAllocator.current := by
    intro q
    simp only [Kernel.exited, Kernel.setProc_procs, Kernel.setTask_procs]
    split
    · next same => exact ⟨rfl, rfl, rfl, by rw [same]; exact sameCurrent⟩
    · exact ⟨rfl, rfl, rfl, rfl⟩
  have history : (k.exited a tid exitCode allocator).history =
      .exited (k.tasks a).process tid exitCode :: k.history := rfl
  refine ⟨?_, ?_, ?_⟩
  · intro q
    rw [(procs q).2.1, (procs q).2.2.1]
    exact codes.dropped q
  · intro q i code pending
    rw [history, pendingExit] at pending
    split at pending
    · next own =>
      rw [← own.1]
      exact inv.process a below
    · exact codes.allocated q i code pending
  · intro q i code pending alive
    rw [(procs q).2.1] at alive
    rw [(procs q).1, (procs q).2.2.2]
    rw [history, pendingExit] at pending
    split at pending
    · next own =>
      obtain ⟨rfl, rfl⟩ := own
      refine ⟨aInUse.1, a, aSlot, ?_⟩
      rw [Kernel.exited_tasks, if_pos rfl]
      exact pending
    · obtain ⟨small, u, slot, exited⟩ := codes.kept q i code pending alive
      refine ⟨small, u, slot, ?_⟩
      have other : u ≠ a := by
        rintro rfl
        rw [aLive.1] at exited
        simp at exited
      rw [Kernel.exited_tasks, if_neg other]
      exact exited

theorem terminate (codes : ExitCodes k) (done : Terminated p exitCode k k') : ExitCodes k' := by
  refine codes.keep (fun _ _ => by rw [done.history]) (Nat.le_of_eq done.nextProc.symm) ?_ ?_
  · intro q h
    rw [(done.ids q).2] at h
    rw [done.isZombie]
    split
    · rfl
    · exact codes.dropped q h
  · intro q _ alive
    rw [done.isZombie] at alive
    split at alive
    · simp at alive
    · next other =>
      rw [done.tasks, if_neg other, done.other q other]
      exact ⟨alive, Nat.le_refl _, fun i u _ slot _ => ⟨slot, by rw [done.task]⟩⟩

end ExitCodes

/-- A move either moves threads between places at most, or is a change of the threads of a
process. -/
theorem Move.threads_cases {motive : Kernel → Prop} (move : Move a False k k')
    (same : ∀ {k₁}, SameThreads k k₁ → k₁.history = k.history →
      (∀ p, (k₁.procs p).dropped = (k.procs p).dropped) → motive k₁)
    (collect : ∀ {tid},
      motive (({ k with history := .waited (k.tasks a).process tid :: k.history } :
      Kernel).setProc (k.tasks a).process fun pcb => { pcb with tasks := pcb.tasks.set tid none }))
    (fork : ∀ {k₁ pid}, k.current = some a → Forked (k.tasks a).process pid k k₁ → motive k₁)
    (reap : ∀ {i child allocator}, (k.procs child).isZombie = true →
      motive (k.reaped a i child allocator))
    (exit : ∀ {tid exitCode allocator}, k.current = some a → (k.tasks a).res = some tid →
      (k.procs (k.tasks a).process).taskResAllocator.dealloc tid = some allocator →
      motive (k.exited a tid exitCode allocator))
    (terminate : ∀ {k₁ tid exitCode allocator}, k.current = some a → (k.tasks a).res = some tid →
      (k.procs (k.tasks a).process).taskResAllocator.dealloc tid = some allocator →
      Terminated (k.tasks a).process exitCode (k.exited a tid exitCode allocator) k₁ → motive k₁) :
    motive k' := by
  have setProc : ∀ {q f}, Process.Keeps (k.procs q) (f (k.procs q)) →
      ∀ p, ((k.setProc q f).procs p).dropped = (k.procs p).dropped := by
    intro q f keeps p
    rw [Kernel.setProc_procs]
    split
    · next same => rw [same, keeps.dropped]
    · rfl
  cases move with
  | quiet keeps waiters => exact same (.setProc k keeps.sameThreads) rfl (setProc keeps)
  | wake current keeps waiters =>
      have kept := SameThreads.setProc k keeps.sameThreads
      exact same (kept.trans (.wakeupTask _)) rfl (setProc keeps)
  | @expire c mem =>
      have kept : SameThreads k (k.wakeupTask c.task) := .wakeupTask k
      exact same (kept.trans (.of_heap rfl rfl rfl rfl)) rfl fun _ => rfl
  | @suspend frame current own =>
      have kept : SameThreads k (k.leave a .ready frame) := .leave k
      exact same (kept.trans (.of_heap rfl rfl rfl rfl)) rfl fun _ => rfl
  | block current own keeps waiters =>
      have kept := SameThreads.setProc k keeps.sameThreads
      exact same (kept.trans (.leave _)) rfl (setProc keeps)
  | @sleep expireMs current =>
      have kept : SameThreads k (k.addTimer expireMs a) := .of_heap rfl rfl rfl rfl
      exact same (kept.trans (.leave _)) rfl fun _ => rfl
  | @dispatch readyQueue current ready =>
      have kept : SameThreads k { k with readyQueue := readyQueue, current := some a } :=
        .of_heap rfl rfl rfl rfl
      exact same (kept.trans (.setTask _ rfl rfl rfl)) rfl fun _ => rfl
  | spawn may current alloc => exact may.elim
  | collect current slot exited => exact collect
  | fork current done => exact fork current done
  | reap current found zombie dealloc => exact reap zombie
  | exit current res notMain dealloc => exact exit current res dealloc
  | terminate current res isMain dealloc done => exact terminate current res dealloc done

/-- Every move but the creation of a thread keeps the exit codes. -/
theorem Move.exitCodes (inv : Inv k) (codes : ExitCodes k) (move : Move a False k k') :
    ExitCodes k' := by
  refine move.threads_cases ?_ ?_ ?_ ?_ ?_ ?_
  · intro k₁ same history dropped
    exact codes.sameThreads same history dropped
  · intro tid
    exact codes.collect
  · intro k₁ pid current done
    exact codes.fork inv (inv.current_process current).1 done
  · intro i child allocator zombie
    exact codes.reap zombie
  · intro tid exitCode allocator current res dealloc
    exact codes.exit inv current res dealloc
  · intro k₁ tid exitCode allocator current res dealloc done
    exact (codes.exit inv current res dealloc).terminate done

theorem Moves.exitCodes (inv : Inv k) (codes : ExitCodes k) (moves : Moves a False k k') :
    ExitCodes k' := by
  induction moves with
  | refl => exact codes
  | tail moves move ih => exact move.exitCodes (Moves.inv inv moves) ih

/-- The step of `sys_thread_create` creates one thread. -/
theorem Kernel.step_threadCreate (h : k.step (.syscall .threadCreate) = some k') :
    ∃ a tid allocator, k.current = some a ∧ k.currentProcess = some (k.tasks a).process ∧
      (k.procs (k.tasks a).process).taskResAllocator.alloc = (tid, allocator) ∧
      Moves a False (k.spawned a tid allocator) k' := by
  cases current : k.current with
  | none => simp [Kernel.step, current] at h
  | some a =>
      simp only [Kernel.step, current] at h
      obtain ⟨path, called, h⟩ := Option.bind_eq_some_iff.mp h
      obtain ⟨tid, allocator, upgraded, alloc, rfl⟩ := Kernel.sysThreadCreate_eq current called
      exact ⟨a, tid, allocator, rfl, upgraded, alloc, Kernel.trapEnd_moves current h⟩

theorem exitCodes_start : ExitCodes Kernel.start := by
  refine ⟨?_, ?_, ?_⟩
  · intro p h
    simp only [Kernel.start] at h
    split at h <;> simp [Process.new, Process.unused] at h
  · intro p tid exitCode pending
    simp [Kernel.start, pendingExit] at pending
  · intro p tid exitCode pending
    simp [Kernel.start, pendingExit] at pending

theorem RunWith.exitCodes (run : RunWith EmptySlot k) : ExitCodes k := by
  induction run with
  | start => exact exitCodes_start
  | @step k event k' run allowed h ih =>
      obtain ⟨inv, frames⟩ := run.inv
      by_cases creates : event = .syscall .threadCreate
      · obtain ⟨a, tid, allocator, current, upgraded, alloc, moves⟩ :=
          Kernel.step_threadCreate (creates ▸ h)
        have spawned := ih.spawn inv alloc (allowed creates _ upgraded)
        exact moves.exitCodes (inv.spawn current alloc) spawned
      · rcases Kernel.step_moves frames h with rfl | ⟨a, -, moves⟩
        · exact ih
        · rw [eq_false creates] at moves
          exact moves.exitCodes inv ih

/-- In every run in which threads are created when the slot of the id released last is empty:
if a thread has exited and has not been waited for, its exit code is still in its slot,
`sys_waittid` by another thread of the process returns it, and the next new thread of the
process does not get the id. -/
theorem exit_code_not_lost (run : RunWith EmptySlot k)
    (pending : pendingExit p tid k.history = some exitCode) (current : k.current = some a)
    (own : (k.tasks a).process = p) (other : (k.tasks a).res ≠ some tid) :
    (∃ k', k.sysWaittid tid = some (.done k' exitCode.toInt)) ∧
      (∃ u, (k.procs p).tasks[tid]? = some (some u) ∧ (k.tasks u).exitCode = some exitCode) ∧
      (EmptySlot k (.syscall .threadCreate) →
        ∀ k' new, k.sysThreadCreate = some (.done k' new) → new ≠ tid) := by
  subst own
  obtain ⟨inv, -⟩ := run.inv
  obtain ⟨below, isLive, -⟩ := inv.current current
  obtain ⟨small, u, slot, exited⟩ := run.exitCodes.kept _ tid exitCode pending isLive.2
  obtain ⟨ownTid, res, -, -⟩ := inv.slot a below isLive
  have upgraded : k.upgrade (k.tasks a).process = some (k.tasks a).process := by
    rw [Kernel.upgrade, if_neg]
    intro dropped
    have zombie := run.exitCodes.dropped _ dropped
    rw [isLive.2] at zombie
    simp at zombie
  refine ⟨?_, ⟨u, slot, exited⟩, ?_⟩
  · have differ : ownTid ≠ tid := by
      rintro rfl
      exact other res
    refine ⟨({ k with history := .waited (k.tasks a).process tid :: k.history } : Kernel).setProc
      (k.tasks a).process fun pcb => { pcb with tasks := pcb.tasks.set tid none }, ?_⟩
    refine Option.bind_eq_some_iff.mpr ⟨a, current, Option.bind_eq_some_iff.mpr
      ⟨(k.tasks a).process, upgraded, Option.bind_eq_some_iff.mpr ⟨ownTid, res, ?_⟩⟩⟩
    rw [if_neg differ, slot, Option.map_some]
    simp only [exited]
  · intro empty k' new created eq
    obtain ⟨id, allocator, isProcess, alloc, same⟩ := Kernel.sysThreadCreate_eq current created
    obtain ⟨-, fresh⟩ := alloc_fresh alloc (empty rfl _ isProcess)
    rw [Path.done.injEq, eq, Int.natCast_inj] at same
    exact fresh tid u small slot same.2

/-- A check for `EmptySlot`. -/
def Kernel.emptySlot (k : Kernel) (event : Event) : Bool :=
  event ≠ .syscall .threadCreate || k.currentProcess.all fun p =>
    (k.procs p).taskResAllocator.recycled.head?.all fun id =>
      ((k.procs p).tasks[id]?.bind fun slot => slot).isNone

theorem emptySlot_sound (k : Kernel) (event : Event) (passes : k.emptySlot event = true) :
    EmptySlot k event := by
  rintro rfl p current id recycled released u slot
  simp [Kernel.emptySlot, current, released, slot] at passes

/-- A thread exits with the code 7, and the main thread has not waited for it yet. -/
theorem exit_code_not_lost_thread : ∃ k k', Kernel.start.stepsIf Kernel.emptySlot [.idle true,
    .syscall .threadCreate, .syscall .yield, .idle true, .syscall (.exit 7), .idle true] = some k ∧
    k.sysWaittid 1 = some (.done k' 7) := by
  have facts : (Kernel.start.stepsIf Kernel.emptySlot [.idle true, .syscall .threadCreate,
      .syscall .yield, .idle true, .syscall (.exit 7), .idle true]).map (fun k =>
        (pendingExit 0 1 k.history, k.current, (k.tasks 0).process, (k.tasks 0).res)) =
          some (some 7, some 0, 0, some 0) := by
    decide
  obtain ⟨k, h, eq⟩ := Option.map_eq_some_iff.mp facts
  simp only [Prod.mk.injEq] at eq
  obtain ⟨pending, current, own, res⟩ := eq
  have run : RunWith EmptySlot k := RunWith.stepsIf emptySlot_sound RunWith.start h
  obtain ⟨⟨k', waited⟩, -⟩ := exit_code_not_lost run pending current own (by rw [res]; decide)
  exact ⟨k, k', h, waited⟩

/-- The main thread creates another thread before it waits. The new thread gets the id and the
slot of the old one, and the exit code 7 is lost. -/
theorem exit_code_overwritten : ∃ k k', Kernel.start.steps [.idle true, .syscall .threadCreate,
    .syscall .yield, .idle true, .syscall (.exit 7), .idle true, .syscall .threadCreate] = some k ∧
    ReachableState k ∧ pendingExit 0 1 k.history = some 7 ∧ k.current = some 0 ∧
    (k.tasks 0).process = 0 ∧ (k.tasks 0).res ≠ some 1 ∧
    k.sysWaittid 1 = some (.done k' (-2)) := by
  have facts : (Kernel.start.steps [.idle true, .syscall .threadCreate, .syscall .yield,
      .idle true, .syscall (.exit 7), .idle true, .syscall .threadCreate]).map (fun k =>
        decide (pendingExit 0 1 k.history = some 7 ∧ k.current = some 0 ∧
          (k.tasks 0).process = 0 ∧ (k.tasks 0).res ≠ some 1 ∧
          (k.sysWaittid 1).bind Path.value = some (-2))) = some true := by
    decide
  obtain ⟨k, h, eq⟩ := Option.map_eq_some_iff.mp facts
  obtain ⟨pending, current, own, res, waited⟩ := of_decide_eq_true eq
  obtain ⟨path, called, value⟩ := Option.bind_eq_some_iff.mp waited
  have reachable : ReachableState k := ReachableState.steps RunWith.start h
  cases path with
  | done k' result =>
      rw [Path.value, Option.some.injEq] at value
      rw [value] at called
      exact ⟨k, k', h, reachable, pending, current, own, res, called⟩
  | away k' => simp [Path.value] at value

end CoreFromDust.Os
