import CoreFromDust.Os.Proofs.References
import Mathlib.Data.List.Nodup
import Mathlib.Data.List.Perm.Basic

/-!
# The process tree

`Tree` says how processes, their parents, their pids and `PID2PCB` fit together. It is kept by
every move; only a fork, the end of a process and `sys_waitpid` change the tree at all.
-/

namespace CoreFromDust.Os

variable {k k' : Kernel} {a : TaskId} {spawns : Prop} {p : ProcId}

/-! ## Moves that are not about the tree -/

/-- The two states of a process are alike in the process tree. -/
structure Process.SameFamily (pcb pcb' : Process) : Prop where
  pid : pcb'.pid = pcb.pid
  isZombie : pcb'.isZombie = pcb.isZombie
  parent : pcb'.parent = pcb.parent
  children : pcb'.children = pcb.children
  exitCode : pcb'.exitCode = pcb.exitCode
  dropped : pcb'.dropped = pcb.dropped

theorem Process.SameFamily.refl (pcb : Process) : pcb.SameFamily pcb :=
  ⟨rfl, rfl, rfl, rfl, rfl, rfl⟩

theorem Process.Keeps.sameFamily {pcb pcb' : Process} (keeps : pcb.Keeps pcb') :
    pcb.SameFamily pcb' :=
  ⟨keeps.pid, keeps.isZombie, keeps.parent, keeps.children, keeps.exitCode, keeps.dropped⟩

/-- The step from `k` to `k'` leaves the process tree alone. -/
structure SameFamily (k k' : Kernel) : Prop where
  nextProc : k'.nextProc = k.nextProc
  initproc : k'.initproc = k.initproc
  pid2pcb : k'.pid2pcb = k.pid2pcb
  pidAllocator : k'.pidAllocator = k.pidAllocator
  process : ∀ q, Process.SameFamily (k.procs q) (k'.procs q)

namespace SameFamily

theorem of_procs (nextProc : k'.nextProc = k.nextProc) (initproc : k'.initproc = k.initproc)
    (pid2pcb : k'.pid2pcb = k.pid2pcb) (pidAllocator : k'.pidAllocator = k.pidAllocator)
    (procs : k'.procs = k.procs) : SameFamily k k' :=
  ⟨nextProc, initproc, pid2pcb, pidAllocator, fun q => by rw [procs]; exact .refl _⟩

theorem setProc {f : Process → Process} (same : Process.SameFamily (k.procs p) (f (k.procs p)))
    (nextProc : k'.nextProc = k.nextProc) (initproc : k'.initproc = k.initproc)
    (pid2pcb : k'.pid2pcb = k.pid2pcb) (pidAllocator : k'.pidAllocator = k.pidAllocator)
    (procs : k'.procs = (k.setProc p f).procs) : SameFamily k k' := by
  refine ⟨nextProc, initproc, pid2pcb, pidAllocator, ?_⟩
  intro q
  rw [procs, Kernel.setProc_procs]
  split
  · next here =>
    rw [here]
    exact same
  · exact .refl _

theorem exited (k : Kernel) (tid : Nat) (exitCode : Int32) (allocator : RecycleAllocator) :
    SameFamily k (k.exited a tid exitCode allocator) :=
  .setProc (p := (k.tasks a).process) (f := fun pcb => { pcb with taskResAllocator := allocator })
    ⟨rfl, rfl, rfl, rfl, rfl, rfl⟩ rfl rfl rfl rfl rfl

end SameFamily

/-- The two states of a process differ in its children at most, or it has been dropped. -/
structure Process.SameSelf (pcb pcb' : Process) : Prop where
  pid : pcb'.pid = pcb.pid
  isZombie : pcb'.isZombie = pcb.isZombie
  parent : pcb'.parent = pcb.parent
  exitCode : pcb'.exitCode = pcb.exitCode

namespace Forked

variable {pid : Nat} {q : ProcId}

/-- An old process keeps all but, perhaps, its children. -/
theorem same (done : Forked p pid k k') (isOld : q ≠ k.nextProc) :
    Process.SameSelf (k.procs q) (k'.procs q) := by
  rw [done.process q isOld]
  exact ⟨rfl, rfl, rfl, rfl⟩

theorem dropped (done : Forked p pid k k') (isOld : q ≠ k.nextProc) :
    (k'.procs q).dropped = (k.procs q).dropped := by
  rw [done.process q isOld]

theorem children (done : Forked p pid k k') (isOld : q ≠ k.nextProc) : (k'.procs q).children =
    if q = p then (k.procs q).children ++ [k.nextProc] else (k.procs q).children := by
  rw [done.process q isOld]

end Forked

namespace Kernel

variable {i : Nat} {child : ProcId} {allocator : RecycleAllocator}

theorem reaped_same (q : ProcId) :
    Process.SameSelf (k.procs q) ((k.reaped a i child allocator).procs q) := by
  simp only [reaped, setProc_procs]
  split <;> split <;> exact ⟨rfl, rfl, rfl, rfl⟩

theorem reaped_dropped (q : ProcId) : ((k.reaped a i child allocator).procs q).dropped =
    if q = child then true else (k.procs q).dropped := by
  simp only [reaped, setProc_procs]
  split <;> split <;> rfl

end Kernel

/-- The notes that say nothing about processes. -/
def Note.Minor : Note → Prop
  | .exited _ tid _ => tid ≠ 0
  | .waited _ _ => True
  | .forked _ _ => False
  | .reaped _ _ _ _ => False

/-- What a move does to the process tree. -/
theorem Move.family_cases (move : Move a spawns k k') :
    (SameFamily k k' ∧ (k'.history = k.history ∨
      ∃ note : Note, note.Minor ∧ k'.history = note :: k.history)) ∨
    (k.current = some a ∧ ∃ pid, Forked (k.tasks a).process pid k k') ∨
    (k.current = some a ∧ ∃ (i : Nat) (child : ProcId) (allocator : RecycleAllocator),
      (k.procs (k.tasks a).process).children[i]? = some child ∧
      (k.procs child).isZombie = true ∧
      k.pidAllocator.dealloc (k.procs child).pid = some allocator ∧
      k' = k.reaped a i child allocator) ∨
    (k.current = some a ∧ ∃ exitCode allocator,
      Terminated (k.tasks a).process exitCode (k.exited a 0 exitCode allocator) k') := by
  cases move with
  | quiet keeps waiters =>
      exact .inl ⟨.setProc keeps.sameFamily rfl rfl rfl rfl rfl, .inl rfl⟩
  | wake current keeps waiters =>
      exact .inl ⟨.setProc keeps.sameFamily rfl rfl rfl rfl rfl, .inl rfl⟩
  | expire mem => exact .inl ⟨.of_procs rfl rfl rfl rfl rfl, .inl rfl⟩
  | suspend current own => exact .inl ⟨.of_procs rfl rfl rfl rfl rfl, .inl rfl⟩
  | block current own keeps waiters =>
      exact .inl ⟨.setProc keeps.sameFamily rfl rfl rfl rfl rfl, .inl rfl⟩
  | sleep current => exact .inl ⟨.of_procs rfl rfl rfl rfl rfl, .inl rfl⟩
  | dispatch current ready => exact .inl ⟨.of_procs rfl rfl rfl rfl rfl, .inl rfl⟩
  | @spawn tid allocator may current alloc =>
      refine .inl ⟨.setProc (p := (k.tasks a).process) (f := fun pcb =>
        { pcb with
          taskResAllocator := allocator
          tasks := (pcb.tasks ++ List.replicate (tid + 1 - pcb.tasks.length) none).set tid
            (some k.nextTask) }) ?_ rfl rfl rfl rfl rfl, .inl rfl⟩
      exact ⟨rfl, rfl, rfl, rfl, rfl, rfl⟩
  | @collect tid u exitCode current slot exited =>
      refine .inl ⟨.setProc (p := (k.tasks a).process) (f := fun pcb =>
        { pcb with tasks := pcb.tasks.set tid none }) ?_ rfl rfl rfl rfl rfl, .inr ⟨_, ?_, rfl⟩⟩
      · exact ⟨rfl, rfl, rfl, rfl, rfl, rfl⟩
      · trivial
  | fork current done => exact .inr (.inl ⟨current, _, done⟩)
  | reap current found zombie dealloc =>
      exact .inr (.inr (.inl ⟨current, _, _, _, found, zombie, dealloc, rfl⟩))
  | exit current res notMain dealloc =>
      exact .inl ⟨.exited k _ _ _, .inr ⟨.exited (k.tasks a).process _ _, notMain, rfl⟩⟩
  | terminate current res isMain dealloc done =>
      subst isMain
      exact .inr (.inr (.inr ⟨current, _, _, done⟩))

/-! ## The tree -/

/-- A children vector has no process twice. -/
theorem Refs.children_nodup (refs : Refs k) (below : p < k.nextProc) :
    (k.procs p).children.Nodup := by
  rw [List.nodup_iff_count_le_one]
  intro c
  have sub : (k.procs p).children.Sublist k.childRefs :=
    List.sublist_flatten_of_mem (List.mem_map_of_mem (List.mem_range.mpr below))
  exact Nat.le_trans (sub.count_le c) (refs.once c)

/-- Removing by index from a list without duplicates. -/
theorem mem_eraseIdx_iff {l : List ProcId} {i : Nat} {x y : ProcId} (nodup : l.Nodup)
    (found : l[i]? = some x) : y ∈ l.eraseIdx i ↔ y ∈ l ∧ y ≠ x := by
  obtain ⟨below, eq⟩ := List.getElem?_eq_some_iff.mp found
  have perm := List.getElem_cons_eraseIdx_perm below
  rw [eq] at perm
  have absent := (List.nodup_cons.mp (perm.nodup_iff.mpr nodup)).1
  rw [← perm.mem_iff, List.mem_cons]
  constructor
  · intro mem
    refine ⟨.inr mem, ?_⟩
    rintro rfl
    exact absent mem
  · rintro ⟨here | mem, other⟩
    · exact absurd here other
    · exact mem

/-- How processes, parents, pids and `PID2PCB` fit together. -/
structure Tree (k : Kernel) : Prop where
  fresh : ∀ p, k.nextProc ≤ p → (k.procs p).isZombie = false ∧ (k.procs p).children = []
  init : (k.procs k.initproc).isZombie = false
  childless : ∀ p, (k.procs p).isZombie = true → (k.procs p).children = []
  dropped : ∀ p, (k.procs p).dropped = true → (k.procs p).isZombie = true
  child : ∀ p, ∀ c ∈ (k.procs p).children,
    (k.procs c).parent = some p ∧ (k.procs c).dropped = false
  owned : ∀ c, c < k.nextProc → c ≠ k.initproc → (k.procs c).dropped = false →
    ∃ p, c ∈ (k.procs p).children
  allocator : k.pidAllocator.Ok
  pids : ∀ c, c < k.nextProc → (k.procs c).dropped = false →
    k.pidAllocator.InUse (k.procs c).pid
  distinct : ∀ c d, c < k.nextProc → d < k.nextProc → (k.procs c).dropped = false →
    (k.procs d).dropped = false → (k.procs c).pid = (k.procs d).pid → c = d
  listed : ∀ p, p < k.nextProc → (k.procs p).isZombie = false →
    ((k.procs p).pid, p) ∈ k.pid2pcb

namespace Tree

theorem not_dropped (tree : Tree k) (alive : (k.procs p).isZombie = false) :
    (k.procs p).dropped = false := by
  by_contra dropped
  rw [Bool.not_eq_false] at dropped
  rw [tree.dropped p dropped] at alive
  simp at alive

theorem sameFamily (tree : Tree k) (same : SameFamily k k') : Tree k' := by
  refine ⟨?_, ?_, ?_, ?_, ?_, ?_, ?_, ?_, ?_, ?_⟩
  · intro p above
    rw [same.nextProc] at above
    rw [(same.process p).isZombie, (same.process p).children]
    exact tree.fresh p above
  · rw [same.initproc, (same.process _).isZombie]
    exact tree.init
  · intro p
    rw [(same.process p).isZombie, (same.process p).children]
    exact tree.childless p
  · intro p
    rw [(same.process p).isZombie, (same.process p).dropped]
    exact tree.dropped p
  · intro p c mem
    rw [(same.process p).children] at mem
    rw [(same.process c).parent, (same.process c).dropped]
    exact tree.child p c mem
  · intro c below notInit alive
    rw [same.nextProc] at below
    rw [same.initproc] at notInit
    rw [(same.process c).dropped] at alive
    obtain ⟨p, mem⟩ := tree.owned c below notInit alive
    exact ⟨p, by rw [(same.process p).children]; exact mem⟩
  · rw [same.pidAllocator]
    exact tree.allocator
  · intro c below alive
    rw [same.nextProc] at below
    rw [(same.process c).dropped] at alive
    rw [same.pidAllocator, (same.process c).pid]
    exact tree.pids c below alive
  · intro c d
    rw [same.nextProc, (same.process c).dropped, (same.process d).dropped, (same.process c).pid,
      (same.process d).pid]
    exact tree.distinct c d
  · intro p below alive
    rw [same.nextProc] at below
    rw [(same.process p).isZombie] at alive
    rw [same.pid2pcb, (same.process p).pid]
    exact tree.listed p below alive

/-! ### Forks -/

section Fork

variable {pid : Nat} {q c : ProcId}

/-- A child has been created. -/
theorem child_lt (tree : Tree k) (refs : Refs k) (mem : c ∈ (k.procs q).children) :
    c < k.nextProc := by
  by_cases below : q < k.nextProc
  · exact refs.allocated c (List.mem_flatMap.mpr ⟨q, List.mem_range.mpr below, mem⟩)
  · rw [(tree.fresh q (Nat.le_of_not_lt below)).2] at mem
    simp at mem

/-- A fork adds the new process to the children of one process. -/
theorem mem_children_fork (tree : Tree k) (below : p < k.nextProc) (done : Forked p pid k k') :
    c ∈ (k'.procs q).children ↔ c ∈ (k.procs q).children ∨ (q = p ∧ c = k.nextProc) := by
  by_cases isNew : q = k.nextProc
  · have childless : (k.procs q).children = [] := (tree.fresh q (Nat.le_of_eq isNew.symm)).2
    have other : q ≠ p := isNew ▸ Nat.ne_of_gt below
    rw [childless, isNew, done.newProcess (Nat.ne_of_lt below), ← isNew]
    simp [Process.new, other]
  · rw [done.children isNew]
    split <;> simp_all

theorem fork (tree : Tree k) (refs : Refs k) (below : p < k.nextProc)
    (alive : (k.procs p).isZombie = false) (done : Forked p pid k k') : Tree k' := by
  have child := done.newProcess (Nat.ne_of_lt below)
  obtain ⟨allocatorOk, pidFree, inUse⟩ := tree.allocator.alloc
  rw [done.pidAllocator] at allocatorOk pidFree inUse
  have pidDiffers : ∀ c, c < k.nextProc → (k.procs c).dropped = false → (k.procs c).pid ≠ pid := by
    intro c small alive same
    exact pidFree (same ▸ tree.pids c small alive)
  have cases : ∀ {q}, q < k'.nextProc → q = k.nextProc ∨ q < k.nextProc := by
    intro q small
    rw [done.nextProc] at small
    exact (Nat.lt_succ_iff_lt_or_eq.mp small).symm
  refine ⟨?_, ?_, ?_, ?_, ?_, ?_, allocatorOk, ?_, ?_, ?_⟩
  · intro q above
    rw [done.nextProc] at above
    have isOld : q ≠ k.nextProc := Nat.ne_of_gt above
    have other : q ≠ p := Nat.ne_of_gt (Nat.lt_trans below above)
    rw [(done.same isOld).isZombie, done.children isOld, if_neg other]
    exact tree.fresh q (Nat.le_of_succ_le above)
  · rw [done.initproc, (done.same (Nat.ne_of_lt refs.initproc)).isZombie]
    exact tree.init
  · intro q zombie
    by_cases isNew : q = k.nextProc
    · rw [isNew, child]
      rfl
    · rw [(done.same isNew).isZombie] at zombie
      rw [done.children isNew, if_neg]
      · exact tree.childless q zombie
      · rintro rfl
        rw [alive] at zombie
        simp at zombie
  · intro q dropped
    by_cases isNew : q = k.nextProc
    · rw [isNew, child] at dropped
      simp [Process.new] at dropped
    · rw [done.dropped isNew] at dropped
      rw [(done.same isNew).isZombie]
      exact tree.dropped q dropped
  · intro q c mem
    rcases (tree.mem_children_fork below done).mp mem with mem | ⟨rfl, rfl⟩
    · have isOld := Nat.ne_of_lt (tree.child_lt refs mem)
      rw [(done.same isOld).parent, done.dropped isOld]
      exact tree.child q c mem
    · rw [child]
      exact ⟨rfl, rfl⟩
  · intro c small notInit alive'
    rcases cases small with rfl | small
    · exact ⟨p, (tree.mem_children_fork below done).mpr (.inr ⟨rfl, rfl⟩)⟩
    · rw [done.initproc] at notInit
      rw [done.dropped (Nat.ne_of_lt small)] at alive'
      obtain ⟨q, mem⟩ := tree.owned c small notInit alive'
      exact ⟨q, (tree.mem_children_fork below done).mpr (.inl mem)⟩
  · intro c small alive'
    rw [inUse]
    rcases cases small with rfl | small
    · rw [child]
      exact .inr rfl
    · rw [done.dropped (Nat.ne_of_lt small)] at alive'
      rw [(done.same (Nat.ne_of_lt small)).pid]
      exact .inl (tree.pids c small alive')
  · intro c d cSmall dSmall cAlive dAlive same
    rcases cases cSmall with rfl | cSmall <;> rcases cases dSmall with rfl | dSmall
    · rfl
    · rw [done.dropped (Nat.ne_of_lt dSmall)] at dAlive
      rw [child, (done.same (Nat.ne_of_lt dSmall)).pid] at same
      exact absurd same.symm (pidDiffers d dSmall dAlive)
    · rw [done.dropped (Nat.ne_of_lt cSmall)] at cAlive
      rw [child, (done.same (Nat.ne_of_lt cSmall)).pid] at same
      exact absurd same (pidDiffers c cSmall cAlive)
    · rw [done.dropped (Nat.ne_of_lt dSmall)] at dAlive
      rw [done.dropped (Nat.ne_of_lt cSmall)] at cAlive
      rw [(done.same (Nat.ne_of_lt cSmall)).pid, (done.same (Nat.ne_of_lt dSmall)).pid] at same
      exact tree.distinct c d cSmall dSmall cAlive dAlive same
  · intro q small alive'
    rw [done.pid2pcb]
    rcases cases small with rfl | small
    · rw [child]
      exact List.mem_append_right _ (List.mem_singleton.mpr rfl)
    · rw [(done.same (Nat.ne_of_lt small)).isZombie] at alive'
      rw [(done.same (Nat.ne_of_lt small)).pid]
      refine List.mem_append_left _ (List.mem_filter.mpr ⟨tree.listed q small alive', ?_⟩)
      exact decide_eq_true (pidDiffers q small (tree.not_dropped alive'))

end Fork

/-! ### `sys_waitpid` -/

section Reap

variable {i : Nat} {child q c : ProcId} {allocator : RecycleAllocator}

/-- `sys_waitpid` removes the child from the one children vector that has it. -/
theorem mem_children_reap (tree : Tree k) (refs : Refs k)
    (below : (k.tasks a).process < k.nextProc)
    (found : (k.procs (k.tasks a).process).children[i]? = some child)
    (zombie : (k.procs child).isZombie = true) :
    c ∈ ((k.reaped a i child allocator).procs q).children ↔
      c ∈ (k.procs q).children ∧ c ≠ child := by
  have member : child ∈ (k.procs (k.tasks a).process).children := List.mem_of_getElem? found
  simp only [Kernel.reaped, Kernel.setProc_procs]
  split
  · next isChild => simp [isChild, tree.childless child zombie]
  · split
    · next isProcess =>
      rw [isProcess]
      exact mem_eraseIdx_iff (refs.children_nodup below) found
    · next isProcess =>
      refine ⟨fun mem => ⟨mem, ?_⟩, And.left⟩
      rintro rfl
      have parents := (tree.child q c mem).1.symm.trans (tree.child _ c member).1
      exact isProcess (Option.some.inj parents)

theorem reap (tree : Tree k) (refs : Refs k) (below : (k.tasks a).process < k.nextProc)
    (found : (k.procs (k.tasks a).process).children[i]? = some child)
    (zombie : (k.procs child).isZombie = true)
    (dealloc : k.pidAllocator.dealloc (k.procs child).pid = some allocator) :
    Tree (k.reaped a i child allocator) := by
  have member : child ∈ (k.procs (k.tasks a).process).children := List.mem_of_getElem? found
  obtain ⟨allocatorOk, inUse⟩ := tree.allocator.dealloc dealloc
  have dropped : ∀ q, ((k.reaped a i child allocator).procs q).dropped = false →
      q ≠ child ∧ (k.procs q).dropped = false := by
    intro q alive
    rw [Kernel.reaped_dropped] at alive
    split at alive
    · simp at alive
    · next other => exact ⟨other, alive⟩
  have children : ∀ q c, c ∈ ((k.reaped a i child allocator).procs q).children ↔
      c ∈ (k.procs q).children ∧ c ≠ child :=
    fun q c => tree.mem_children_reap refs below found zombie
  refine ⟨?_, ?_, ?_, ?_, ?_, ?_, allocatorOk, ?_, ?_, ?_⟩
  · intro q above
    refine ⟨(Kernel.reaped_same q).isZombie.trans (tree.fresh q above).1,
      List.eq_nil_iff_forall_not_mem.mpr ?_⟩
    intro c mem
    rw [children, (tree.fresh q above).2] at mem
    simp at mem
  · exact (Kernel.reaped_same _).isZombie.trans tree.init
  · intro q isZombie
    rw [(Kernel.reaped_same q).isZombie] at isZombie
    refine List.eq_nil_iff_forall_not_mem.mpr ?_
    intro c mem
    rw [children, tree.childless q isZombie] at mem
    simp at mem
  · intro q isDropped
    rw [(Kernel.reaped_same q).isZombie]
    by_cases isChild : q = child
    · rw [isChild]
      exact zombie
    · rw [Kernel.reaped_dropped, if_neg isChild] at isDropped
      exact tree.dropped q isDropped
  · intro q c mem
    obtain ⟨mem, other⟩ := (children q c).mp mem
    obtain ⟨parent, alive⟩ := tree.child q c mem
    refine ⟨(Kernel.reaped_same c).parent.trans parent, ?_⟩
    rw [Kernel.reaped_dropped, if_neg other]
    exact alive
  · intro c small notInit alive
    obtain ⟨other, alive⟩ := dropped c alive
    obtain ⟨q, mem⟩ := tree.owned c small notInit alive
    exact ⟨q, (children q c).mpr ⟨mem, other⟩⟩
  · intro c small alive
    obtain ⟨other, alive⟩ := dropped c alive
    rw [(Kernel.reaped_same c).pid]
    refine (inUse _ ?_).mpr (tree.pids c small alive)
    intro eq
    exact other (tree.distinct c child small (tree.child_lt refs member) alive
      (tree.child _ _ member).2 eq)
  · intro c d cSmall dSmall cAlive dAlive eq
    rw [(Kernel.reaped_same c).pid, (Kernel.reaped_same d).pid] at eq
    exact tree.distinct c d cSmall dSmall (dropped c cAlive).2 (dropped d dAlive).2 eq
  · intro q small alive
    rw [(Kernel.reaped_same q).isZombie] at alive
    rw [(Kernel.reaped_same q).pid]
    exact tree.listed q small alive

end Reap

/-! ### The end of a process -/

section Terminate

variable {q c : ProcId} {exitCode : Int32}

/-- `INITPROC` does not end. -/
theorem terminated_ne_init (refs : Refs k)
    (done : Terminated p exitCode k k') : p ≠ k.initproc := by
  rintro rfl
  exact done.pid refs.initPid

/-- The children of the ended process are now those of `INITPROC`. -/
theorem mem_children_terminate (refs : Refs k) (done : Terminated p exitCode k k') :
    c ∈ (k'.procs q).children ↔
      (q = k.initproc ∧ c ∈ (k.procs p).children) ∨ (q ≠ p ∧ c ∈ (k.procs q).children) := by
  have notInit := terminated_ne_init refs done
  rw [done.children]
  split
  · next own => simp [own, notInit]
  · next other =>
    split
    · next isInit => simp [isInit, notInit.symm, or_comm]
    · next isInit => simp [other, isInit]

theorem terminate (tree : Tree k) (refs : Refs k) (below : p < k.nextProc)
    (alive : (k.procs p).isZombie = false) (done : Terminated p exitCode k k') : Tree k' := by
  have notInit := terminated_ne_init refs done
  have survives : ∀ q, (k'.procs q).isZombie = false →
      q ≠ p ∧ (k.procs q).isZombie = false := by
    intro q alive
    rw [done.isZombie] at alive
    split at alive
    · simp at alive
    · next other => exact ⟨other, alive⟩
  refine ⟨?_, ?_, ?_, ?_, ?_, ?_, ?_, ?_, ?_, ?_⟩
  · intro q above
    rw [done.nextProc] at above
    have other : q ≠ p := Nat.ne_of_gt (Nat.lt_of_lt_of_le below above)
    have other' : q ≠ k.initproc := Nat.ne_of_gt (Nat.lt_of_lt_of_le refs.initproc above)
    rw [done.isZombie, done.children, if_neg other, if_neg other, if_neg other']
    exact tree.fresh q above
  · rw [done.initproc, done.isZombie, if_neg notInit.symm]
    exact tree.init
  · intro q zombie
    rw [done.children]
    split
    · rfl
    · next other =>
      rw [done.isZombie, if_neg other] at zombie
      rw [if_neg]
      · exact tree.childless q zombie
      · rintro rfl
        rw [tree.init] at zombie
        simp at zombie
  · intro q dropped
    rw [(done.ids q).2] at dropped
    rw [done.isZombie]
    split
    · rfl
    · exact tree.dropped q dropped
  · intro q c mem
    rw [done.parent, (done.ids c).2]
    rcases (mem_children_terminate refs done).mp mem with ⟨rfl, moved⟩ | ⟨other, stayed⟩
    · rw [if_pos moved]
      exact ⟨rfl, (tree.child p c moved).2⟩
    · obtain ⟨parent, present⟩ := tree.child q c stayed
      rw [if_neg]
      · exact ⟨parent, present⟩
      · intro mem'
        exact other (Option.some.inj (parent.symm.trans (tree.child p c mem').1))
  · intro c small isChild present
    rw [done.nextProc] at small
    rw [done.initproc] at isChild
    rw [(done.ids c).2] at present
    obtain ⟨q, mem⟩ := tree.owned c small isChild present
    by_cases own : q = p
    · subst own
      exact ⟨k.initproc, (mem_children_terminate refs done).mpr (.inl ⟨rfl, mem⟩)⟩
    · exact ⟨q, (mem_children_terminate refs done).mpr (.inr ⟨own, mem⟩)⟩
  · rw [done.pidAllocator]
    exact tree.allocator
  · intro c small present
    rw [done.nextProc] at small
    rw [(done.ids c).2] at present
    rw [done.pidAllocator, (done.ids c).1]
    exact tree.pids c small present
  · intro c d
    rw [done.nextProc, (done.ids c).1, (done.ids d).1, (done.ids c).2, (done.ids d).2]
    exact tree.distinct c d
  · intro q small stays
    rw [done.nextProc] at small
    obtain ⟨other, stays⟩ := survives q stays
    rw [done.pid2pcb, (done.ids q).1]
    refine List.mem_filter.mpr ⟨tree.listed q small stays, decide_eq_true ?_⟩
    intro same
    exact other
      (tree.distinct q p small below (tree.not_dropped stays) (tree.not_dropped alive) same)

end Terminate

end Tree

theorem Move.tree (inv : Inv k) (refs : Refs k) (tree : Tree k) (move : Move a spawns k k') :
    Tree k' := by
  rcases move.family_cases with ⟨same, -⟩ | ⟨current, pid, done⟩ |
    ⟨current, i, child, allocator, found, zombie, dealloc, rfl⟩ | ⟨current, exitCode,
      allocator, done⟩
  · exact tree.sameFamily same
  · obtain ⟨below, alive⟩ := inv.current_process current
    exact tree.fork refs below alive done
  · exact tree.reap refs (inv.current_process current).1 found zombie dealloc
  · obtain ⟨below, alive⟩ := inv.current_process current
    have same : SameFamily k (k.exited a 0 exitCode allocator) := .exited k _ _ _
    exact (tree.sameFamily same).terminate (refs.exit _ _ _) below
      ((same.process _).isZombie.trans alive) done

end CoreFromDust.Os
