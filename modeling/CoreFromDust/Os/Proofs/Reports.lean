import CoreFromDust.Os.Proofs.Family

/-!
# What the history says about processes

Exits, forks and reports of `sys_waitpid` are in the history of the kernel. `Recorded` says that
the history agrees with the process tree and that each report is in order.
-/

namespace CoreFromDust.Os

variable {k k' : Kernel} {a : TaskId} {spawns : Prop} {p : ProcId}

/-- What the notes before a report of `sys_waitpid` say: the process exited with this exit code,
has not been reported, and is reported to the process that forked it or, if that one has exited,
to `INITPROC`. -/
def Reported (init : ProcId) (before : List Note) (p c : ProcId) (exitCode : Int32) : Prop :=
  .exited c 0 exitCode ∈ before ∧ (∀ q pid code, .reaped q c pid code ∉ before) ∧
    ∃ parent, .forked parent c ∈ before ∧
      ((p = parent ∧ ∀ code, .exited parent 0 code ∉ before) ∨
        (p = init ∧ ∃ code, .exited parent 0 code ∈ before))

/-- Every report in a history is in order. -/
def AllReported (init : ProcId) : List Note → Prop
  | [] => True
  | .reaped p c _ exitCode :: before => Reported init before p c exitCode ∧ AllReported init before
  | _ :: before => AllReported init before

theorem AllReported.of_append {init p c : ProcId} {pid : Nat} {exitCode : Int32}
    {after before : List Note}
    (all : AllReported init (after ++ .reaped p c pid exitCode :: before)) :
    Reported init before p c exitCode := by
  induction after with
  | nil => exact all.1
  | cons note after ih =>
      cases note with
      | reaped q d pid code => exact ih all.2
      | exited q tid code => exact ih all
      | waited q tid => exact ih all
      | forked q d => exact ih all

/-- The history agrees with the processes. -/
structure Recorded (k : Kernel) : Prop where
  exited : ∀ p code, .exited p 0 code ∈ k.history ↔
    (k.procs p).isZombie = true ∧ (k.procs p).exitCode = code
  forked : ∀ q c, .forked q c ∈ k.history → c < k.nextProc ∧ c ≠ k.initproc ∧ q < k.nextProc ∧
    ((k.procs c).dropped = false →
      (k.procs c).parent = some (if (k.procs q).isZombie then k.initproc else q))
  hasParent : ∀ c, c < k.nextProc → c ≠ k.initproc → ∃ q, .forked q c ∈ k.history
  reaped : ∀ q c pid code, .reaped q c pid code ∈ k.history →
    (k.procs c).dropped = true ∧ pid = (k.procs c).pid
  dropped : ∀ c, (k.procs c).dropped = true → ∃ q pid code, .reaped q c pid code ∈ k.history
  all : AllReported k.initproc k.history

namespace Recorded

theorem sameFamily (recorded : Recorded k) (same : SameFamily k k')
    (history : k'.history = k.history ∨
      ∃ note : Note, note.Minor ∧ k'.history = note :: k.history) : Recorded k' := by
  have notes : (∀ p code, .exited p 0 code ∈ k'.history ↔ .exited p 0 code ∈ k.history) ∧
      (∀ q c, .forked q c ∈ k'.history ↔ .forked q c ∈ k.history) ∧
      (∀ q c pid code, .reaped q c pid code ∈ k'.history ↔ .reaped q c pid code ∈ k.history) ∧
      (AllReported k.initproc k.history → AllReported k.initproc k'.history) := by
    rcases history with eq | ⟨note, minor, eq⟩
    · rw [eq]
      exact ⟨fun _ _ => .rfl, fun _ _ => .rfl, fun _ _ _ _ => .rfl, fun all => all⟩
    · rw [eq]
      cases note with
      | exited p tid code =>
          have notMain : tid ≠ 0 := minor
          refine ⟨?_, by simp, by simp, fun all => all⟩
          intro q code'
          simp [notMain.symm]
      | waited p tid => exact ⟨by simp, by simp, by simp, fun all => all⟩
      | forked p c => exact minor.elim
      | reaped p c pid code => exact minor.elim
  obtain ⟨exited, forked, reaped, all⟩ := notes
  refine ⟨?_, ?_, ?_, ?_, ?_, ?_⟩
  · intro p code
    rw [exited, (same.process p).isZombie, (same.process p).exitCode]
    exact recorded.exited p code
  · intro q c
    rw [forked, same.nextProc, same.initproc, (same.process c).dropped, (same.process c).parent,
      (same.process q).isZombie]
    exact recorded.forked q c
  · intro c
    simp only [forked, same.nextProc, same.initproc]
    exact recorded.hasParent c
  · intro q c pid code
    rw [reaped, (same.process c).dropped, (same.process c).pid]
    exact recorded.reaped q c pid code
  · intro c
    simp only [reaped, (same.process c).dropped]
    exact recorded.dropped c
  · rw [same.initproc]
    exact all recorded.all

theorem fork (recorded : Recorded k) (tree : Tree k) (refs : Refs k) {pid : Nat}
    (below : p < k.nextProc) (alive : (k.procs p).isZombie = false) (done : Forked p pid k k') :
    Recorded k' := by
  have child := done.newProcess (Nat.ne_of_lt below)
  have unborn := (tree.fresh k.nextProc (Nat.le_refl _)).1
  have notDropped : ∀ {c}, (k.procs c).dropped = true → c ≠ k.nextProc := by
    rintro c dropped rfl
    rw [tree.dropped _ dropped] at unborn
    simp at unborn
  refine ⟨?_, ?_, ?_, ?_, ?_, ?_⟩
  · intro q code
    rw [done.history]
    simp only [List.mem_cons, reduceCtorEq, false_or]
    by_cases isNew : q = k.nextProc
    · rw [recorded.exited, isNew, child, unborn]
      simp [Process.new]
    · rw [(done.same isNew).isZombie, (done.same isNew).exitCode]
      exact recorded.exited q code
  · intro q c mem
    rw [done.history] at mem
    rw [done.nextProc, done.initproc]
    rcases List.mem_cons.mp mem with eq | mem
    · injection eq with eq eq'
      subst eq eq'
      refine ⟨Nat.lt_succ_self _, Nat.ne_of_gt refs.initproc, Nat.lt_succ_of_lt below, fun _ => ?_⟩
      rw [child, (done.same (Nat.ne_of_lt below)).isZombie, alive]
      rfl
    · obtain ⟨cBelow, notInit, qBelow, parent⟩ := recorded.forked q c mem
      refine ⟨Nat.lt_succ_of_lt cBelow, notInit, Nat.lt_succ_of_lt qBelow, ?_⟩
      rw [done.dropped (Nat.ne_of_lt cBelow), (done.same (Nat.ne_of_lt cBelow)).parent,
        (done.same (Nat.ne_of_lt qBelow)).isZombie]
      exact parent
  · intro c small notInit
    rw [done.nextProc] at small
    rw [done.initproc] at notInit
    rw [done.history]
    rcases Nat.lt_succ_iff_lt_or_eq.mp small with small | rfl
    · obtain ⟨q, mem⟩ := recorded.hasParent c small notInit
      exact ⟨q, List.mem_cons_of_mem _ mem⟩
    · exact ⟨p, List.mem_cons_self⟩
  · intro q c id code mem
    rw [done.history] at mem
    simp only [List.mem_cons, reduceCtorEq, false_or] at mem
    obtain ⟨dropped, eq⟩ := recorded.reaped q c id code mem
    rw [done.dropped (notDropped dropped), (done.same (notDropped dropped)).pid]
    exact ⟨dropped, eq⟩
  · intro c dropped
    rw [done.history]
    have isOld : c ≠ k.nextProc := by
      rintro rfl
      rw [child] at dropped
      simp [Process.new] at dropped
    rw [done.dropped isOld] at dropped
    obtain ⟨q, id, code, mem⟩ := recorded.dropped c dropped
    exact ⟨q, id, code, List.mem_cons_of_mem _ mem⟩
  · rw [done.initproc, done.history]
    exact recorded.all

theorem reap (recorded : Recorded k) (tree : Tree k) (refs : Refs k) {i : Nat} {child : ProcId}
    {allocator : RecycleAllocator} (below : (k.tasks a).process < k.nextProc)
    (found : (k.procs (k.tasks a).process).children[i]? = some child)
    (zombie : (k.procs child).isZombie = true) : Recorded (k.reaped a i child allocator) := by
  have member : child ∈ (k.procs (k.tasks a).process).children := List.mem_of_getElem? found
  have isRef : child ∈ k.childRefs :=
    List.mem_flatMap.mpr ⟨_, List.mem_range.mpr below, member⟩
  obtain ⟨hasParent, present⟩ := tree.child _ _ member
  have notInit : child ≠ k.initproc := by
    rintro rfl
    exact refs.notInit isRef
  have history : (k.reaped a i child allocator).history = .reaped (k.tasks a).process child
      (k.procs child).pid (k.procs child).exitCode :: k.history := rfl
  refine ⟨?_, ?_, ?_, ?_, ?_, ?_⟩
  · intro p code
    rw [history, (Kernel.reaped_same p).isZombie, (Kernel.reaped_same p).exitCode]
    simp only [List.mem_cons, reduceCtorEq, false_or]
    exact recorded.exited p code
  · intro q c mem
    rw [history] at mem
    simp only [List.mem_cons, reduceCtorEq, false_or] at mem
    obtain ⟨cBelow, isChild, qBelow, parent⟩ := recorded.forked q c mem
    refine ⟨cBelow, isChild, qBelow, ?_⟩
    rw [Kernel.reaped_dropped, (Kernel.reaped_same c).parent, (Kernel.reaped_same q).isZombie]
    split
    · simp
    · exact parent
  · intro c small isChild
    obtain ⟨q, mem⟩ := recorded.hasParent c small isChild
    exact ⟨q, List.mem_cons_of_mem _ mem⟩
  · intro q c id code mem
    rw [Kernel.reaped_dropped, (Kernel.reaped_same c).pid]
    rcases List.mem_cons.mp mem with eq | mem
    · injection eq with _ isChild isPid _
      rw [isChild, if_pos rfl]
      exact ⟨rfl, isPid⟩
    · obtain ⟨dropped, isPid⟩ := recorded.reaped q c id code mem
      refine ⟨?_, isPid⟩
      split
      · rfl
      · exact dropped
  · intro c dropped
    rw [Kernel.reaped_dropped] at dropped
    split at dropped
    · next isChild =>
      rw [isChild]
      exact ⟨_, _, _, List.mem_cons_self⟩
    · obtain ⟨q, id, code, mem⟩ := recorded.dropped c dropped
      exact ⟨q, id, code, List.mem_cons_of_mem _ mem⟩
  · -- the report itself
    refine ⟨⟨(recorded.exited child _).mpr ⟨zombie, rfl⟩, ?_, ?_⟩, recorded.all⟩
    · intro q id code mem
      rw [(recorded.reaped q child id code mem).1] at present
      simp at present
    · obtain ⟨parent, mem⟩ := recorded.hasParent child (refs.allocated child isRef) notInit
      have names := (recorded.forked parent child mem).2.2.2 present
      rw [hasParent, Option.some.injEq] at names
      refine ⟨parent, mem, ?_⟩
      cases ended : (k.procs parent).isZombie with
      | true =>
          rw [ended, if_pos rfl] at names
          exact .inr ⟨names, _, (recorded.exited parent _).mpr ⟨ended, rfl⟩⟩
      | false =>
          rw [ended] at names
          refine .inl ⟨names, ?_⟩
          intro code mem
          rw [((recorded.exited parent code).mp mem).1] at ended
          simp at ended

theorem terminate (recorded : Recorded k) (tree : Tree k) (refs : Refs k)
    (alive : (k.procs (k.tasks a).process).isZombie = false) {exitCode : Int32}
    {allocator : RecycleAllocator}
    (done : Terminated (k.tasks a).process exitCode (k.exited a 0 exitCode allocator) k') :
    Recorded k' := by
  have same : SameFamily k (k.exited a 0 exitCode allocator) := .exited k _ _ _
  have exited : Refs (k.exited a 0 exitCode allocator) := refs.exit _ _ _
  have notInit : (k.tasks a).process ≠ k.initproc := by
    intro isInit
    exact Tree.terminated_ne_init exited done isInit
  have history : k'.history = .exited (k.tasks a).process 0 exitCode :: k.history := done.history
  have nextProc : k'.nextProc = k.nextProc := done.nextProc
  have initproc : k'.initproc = k.initproc := done.initproc
  have ids : ∀ q, (k'.procs q).pid = (k.procs q).pid ∧
      (k'.procs q).dropped = (k.procs q).dropped := by
    intro q
    rw [(done.ids q).1, (done.ids q).2, (same.process q).pid, (same.process q).dropped]
    exact ⟨rfl, rfl⟩
  have zombies : ∀ q, (k'.procs q).isZombie =
      if q = (k.tasks a).process then true else (k.procs q).isZombie := by
    intro q
    rw [done.isZombie, (same.process q).isZombie]
  have codes : ∀ q, (k'.procs q).exitCode =
      if q = (k.tasks a).process then exitCode else (k.procs q).exitCode := by
    intro q
    rw [done.exitCode, (same.process q).exitCode]
  have parents : ∀ q, (k'.procs q).parent =
      if q ∈ (k.procs (k.tasks a).process).children then some k.initproc
      else (k.procs q).parent := by
    intro q
    rw [done.parent, (same.process q).parent, (same.process _).children]
    rfl
  refine ⟨?_, ?_, ?_, ?_, ?_, ?_⟩
  · intro p code
    rw [history, zombies, codes, List.mem_cons, recorded.exited]
    by_cases own : p = (k.tasks a).process
    · subst own
      rw [alive]
      simp [eq_comm]
    · simp [own]
  · intro q c mem
    rw [history] at mem
    simp only [List.mem_cons, reduceCtorEq, false_or] at mem
    obtain ⟨cBelow, isChild, qBelow, parent⟩ := recorded.forked q c mem
    rw [nextProc, initproc, (ids c).2, parents, zombies]
    refine ⟨cBelow, isChild, qBelow, fun present => ?_⟩
    have before := parent present
    by_cases own : q = (k.tasks a).process
    · -- its children go to `INITPROC`
      rw [own, alive] at before
      obtain ⟨r, isMember⟩ := tree.owned c cBelow isChild present
      have eq := (tree.child r c isMember).1.symm.trans before
      rw [Option.some.injEq] at eq
      rw [if_pos own, if_pos (by rw [← show r = (k.tasks a).process from eq]; exact isMember)]
      rfl
    · rw [if_neg own, if_neg]
      · exact before
      · intro isMember
        have eq := (tree.child _ c isMember).1.symm.trans before
        rw [Option.some.injEq] at eq
        split at eq
        · exact notInit eq
        · exact own eq.symm
  · intro c
    rw [nextProc, initproc, history]
    intro small isChild
    obtain ⟨q, mem⟩ := recorded.hasParent c small isChild
    exact ⟨q, List.mem_cons_of_mem _ mem⟩
  · intro q c id code mem
    rw [history] at mem
    simp only [List.mem_cons, reduceCtorEq, false_or] at mem
    rw [(ids c).1, (ids c).2]
    exact recorded.reaped q c id code mem
  · intro c dropped
    rw [(ids c).2] at dropped
    rw [history]
    obtain ⟨q, id, code, mem⟩ := recorded.dropped c dropped
    exact ⟨q, id, code, List.mem_cons_of_mem _ mem⟩
  · rw [initproc, history]
    exact recorded.all

end Recorded

theorem Move.recorded (inv : Inv k) (refs : Refs k) (tree : Tree k) (recorded : Recorded k)
    (move : Move a spawns k k') : Recorded k' := by
  rcases move.family_cases with ⟨same, history⟩ | ⟨current, pid, done⟩ |
    ⟨current, i, child, allocator, found, zombie, dealloc, rfl⟩ | ⟨current, exitCode,
      allocator, done⟩
  · exact recorded.sameFamily same history
  · obtain ⟨below, alive⟩ := inv.current_process current
    exact recorded.fork tree refs below alive done
  · exact recorded.reap tree refs (inv.current_process current).1 found zombie
  · exact recorded.terminate tree refs (inv.current_process current).2 done

/-! ## Runs -/

theorem Moves.family (inv : Inv k) (refs : Refs k) (tree : Tree k) (recorded : Recorded k)
    (moves : Moves a spawns k k') : Tree k' ∧ Recorded k' := by
  induction moves with
  | refl => exact ⟨tree, recorded⟩
  | tail moves move ih =>
      have inv' := Moves.inv inv moves
      have refs' := Moves.refs inv refs moves
      exact ⟨move.tree inv' refs' ih.1, move.recorded inv' refs' ih.1 ih.2⟩

theorem start_procs (p : ProcId) : (Kernel.start.procs p).isZombie = false ∧
    (Kernel.start.procs p).children = [] ∧ (Kernel.start.procs p).dropped = false := by
  simp only [Kernel.start]
  split <;> exact ⟨rfl, rfl, rfl⟩

theorem tree_start : Tree Kernel.start := by
  have alive : ∀ p, (Kernel.start.procs p).isZombie = false := fun p => (start_procs p).1
  have only : ∀ {c}, c < Kernel.start.nextProc → c = Kernel.start.initproc := Nat.lt_one_iff.mp
  have newOk : RecycleAllocator.new.Ok := ⟨List.nodup_nil, by simp [RecycleAllocator.new]⟩
  refine ⟨fun p _ => ⟨alive p, (start_procs p).2.1⟩, alive _, fun p _ => (start_procs p).2.1, ?_,
    ?_, ?_, newOk.alloc.1, ?_, ?_, ?_⟩
  · intro p dropped
    rw [(start_procs p).2.2] at dropped
    simp at dropped
  · intro p c mem
    rw [(start_procs p).2.1] at mem
    simp at mem
  · intro c small notInit
    exact absurd (only small) notInit
  · intro c small _
    rw [only small]
    exact (newOk.alloc.2.2 _).mpr (.inr rfl)
  · intro c d cSmall dSmall _ _ _
    rw [only cSmall, only dSmall]
  · intro p small _
    rw [only small]
    exact List.mem_cons_self

theorem recorded_start : Recorded Kernel.start := by
  have empty : Kernel.start.history = [] := rfl
  refine ⟨?_, ?_, ?_, ?_, ?_, trivial⟩
  · intro p code
    simp [empty, (start_procs p).1]
  · simp [empty]
  · intro c small notInit
    exact absurd (Nat.lt_one_iff.mp small) notInit
  · simp [empty]
  · intro c dropped
    rw [(start_procs c).2.2] at dropped
    simp at dropped

/-- The process tree is in order in every run, and so is what the history says about it. -/
theorem RunWith.family {allowed : Kernel → Event → Prop} (run : RunWith allowed k) :
    Tree k ∧ Recorded k := by
  induction run with
  | start => exact ⟨tree_start, recorded_start⟩
  | step run _ h ih =>
      rcases Kernel.step_moves run.inv.2 h with rfl | ⟨a, -, moves⟩
      · exact ih
      · exact moves.family run.inv.1 run.refs.1 ih.1 ih.2

end CoreFromDust.Os
