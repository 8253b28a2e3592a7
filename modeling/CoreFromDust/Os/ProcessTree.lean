import CoreFromDust.Os.OnePlace
import CoreFromDust.Os.Proofs.Reports

/-!
# The process tree and its reaping

Forks, exits and `sys_waitpid` in any order keep the processes in one tree below `INITPROC`,
with `PID2PCB` as the map of the processes that have not exited. Every process that exits is
reported by `sys_waitpid` once at most.
-/

namespace CoreFromDust.Os

variable {k k' : Kernel}

/-! ## Where `exit_current_and_run_next` is called -/

namespace Kernel

/-- The call at the end of `trap_handler`: the state in which it is made, and the exit code. -/
def trapEndExit (k : Kernel) : Option (Kernel × Int32) :=
  k.currentProcess.bind fun process =>
    (checkError (k.procs process).signals).map fun errno => (k, errno)

/-- The call that follows kernel code in `trap_handler`. -/
def pathExit : Path → Option (Kernel × Int32)
  | .done k _ => k.trapEndExit
  | .away _ => none

/-- The call by a thread after a switch to it. -/
def resumeExit (k : Kernel) (process : ProcId) (frame : Frame) (ready : Bool) :
    Option (Kernel × Int32) :=
  match frame.resume with
  | .trapReturn => none
  | .trapEnd => k.trapEndExit
  | .lock mutexId => (k.mutexLock process mutexId frame.processes).bind pathExit
  | .file => if ready then k.trapEndExit else none

/-- The call of `exit_current_and_run_next` in a step, if there is one: the state in which it is
made, and the exit code. -/
def exitCall (k : Kernel) (event : Event) : Option (Kernel × Int32) :=
  match k.current, event with
  | none, .idle ready =>
      match k.readyQueue with
      | [] => none
      | task :: readyQueue =>
          (({ k with readyQueue := readyQueue, current := some task } : Kernel).setTask task
            fun tcb => { tcb with taskStatus := .running, frame := ⟨.trapReturn, []⟩ }).resumeExit
              (k.tasks task).process (k.tasks task).frame ready
  | some _, .syscall (.exit exitCode) => some (k, exitCode)
  | some _, .syscall call => (k.syscall call).bind pathExit
  | some _, .fault =>
      k.currentProcess.bind fun process => (k.addSignal process sigSegv).trapEndExit
  | some _, .illegalInstruction =>
      k.currentProcess.bind fun process => (k.addSignal process sigIll).trapEndExit
  | _, _ => none

variable {a : TaskId} {exitCode : Int32} {spawns : Prop}

theorem trapEndExit_eq (h : k.trapEndExit = some (k', exitCode)) :
    k' = k ∧ k.trapEnd = k'.exitCurrentAndRunNext exitCode := by
  unfold trapEndExit at h
  obtain ⟨process, upgraded, h⟩ := Option.bind_eq_some_iff.mp h
  obtain ⟨errno, error, h⟩ := Option.map_eq_some_iff.mp h
  rw [Prod.mk.injEq] at h
  obtain ⟨rfl, rfl⟩ := h
  refine ⟨rfl, ?_⟩
  rw [trapEnd, upgraded, Option.bind_some, error]

theorem pathExit_eq {path : Path} (by_a : path.By a spawns k)
    (h : pathExit path = some (k', exitCode)) :
    (Moves a spawns k k' ∧ k'.current = some a) ∧
      afterPath path = k'.exitCurrentAndRunNext exitCode := by
  cases path with
  | away last => simp [pathExit] at h
  | done last value =>
      obtain ⟨rfl, eq⟩ := trapEndExit_eq h
      exact ⟨by_a, eq⟩

theorem resumeExit_eq {frame : Frame} {ready : Bool} (current : k.current = some a)
    (own : ∀ q ∈ frame.processes, q = (k.tasks a).process)
    (h : k.resumeExit (k.tasks a).process frame ready = some (k', exitCode)) :
    (Moves a spawns k k' ∧ k'.current = some a) ∧
      k.resume (k.tasks a).process frame ready = k'.exitCurrentAndRunNext exitCode := by
  have atOnce : k.trapEndExit = some (k', exitCode) →
      (Moves a spawns k k' ∧ k'.current = some a) ∧
        k.trapEnd = k'.exitCurrentAndRunNext exitCode := by
    intro h
    obtain ⟨rfl, eq⟩ := trapEndExit_eq h
    exact ⟨⟨Relation.ReflTransGen.refl, current⟩, eq⟩
  unfold resumeExit at h
  unfold resume
  cases resume : frame.resume with
  | trapReturn => simp [resume] at h
  | trapEnd =>
      simp only [resume] at h
      exact atOnce h
  | lock mutexId =>
      simp only [resume] at h ⊢
      obtain ⟨path, locked, h⟩ := Option.bind_eq_some_iff.mp h
      rw [locked, Option.bind_some]
      exact pathExit_eq (mutexLock_by current own locked) h
  | file =>
      simp only [resume] at h ⊢
      split at h
      · next isReady =>
        rw [if_pos isReady]
        exact atOnce h
      · simp at h

/-- The call is the last that the step does, in a state that the path of a thread reaches. -/
theorem exitCall_eq {event : Event} (frames : FramesOwn k)
    (h : k.exitCall event = some (k', exitCode)) :
    (∃ a, Moves a (event = .syscall .threadCreate) k k' ∧ k'.current = some a) ∧
      k.step event = k'.exitCurrentAndRunNext exitCode := by
  unfold exitCall at h
  split at h
  · next ready idle =>
    rw [step.eq_def, idle]
    split at h
    · simp at h
    · next task readyQueue queue =>
      have resumed : (({ k with readyQueue := readyQueue, current := some task } :
          Kernel).setTask task fun tcb =>
            { tcb with taskStatus := .running, frame := ⟨.trapReturn, []⟩ }).current =
              some task := rfl
      simp only [runTasks, queue]
      obtain ⟨⟨moves, still⟩, eq⟩ := @resumeExit_eq _ k' task exitCode
        (Event.idle ready = .syscall .threadCreate) (k.tasks task).frame ready resumed
        (by simpa using frames task) (by simpa using h)
      refine ⟨⟨task, (Move.dispatch idle queue).moves.trans moves, still⟩, ?_⟩
      simpa using eq
  · next task code isCurrent =>
    rw [Option.some.injEq, Prod.mk.injEq] at h
    obtain ⟨rfl, rfl⟩ := h
    refine ⟨⟨task, Relation.ReflTransGen.refl, isCurrent⟩, ?_⟩
    rw [step.eq_def, isCurrent]
    simp only [syscall]
    cases k.exitCurrentAndRunNext code <;> rfl
  · next task call _ isCurrent =>
    obtain ⟨path, called, h⟩ := Option.bind_eq_some_iff.mp h
    have by_task : path.By task (Event.syscall call = .syscall .threadCreate) k :=
      syscall_by isCurrent (fun eq => by rw [eq]) called
    obtain ⟨reached, eq⟩ := pathExit_eq by_task h
    refine ⟨⟨task, reached⟩, ?_⟩
    rw [step.eq_def, isCurrent]
    simp only [called, Option.bind_some]
    exact eq
  · next task isCurrent =>
    obtain ⟨process, upgraded, h⟩ := Option.bind_eq_some_iff.mp h
    obtain ⟨rfl, eq⟩ := trapEndExit_eq h
    refine ⟨⟨task, (addSignal_move sigSegv).moves, isCurrent⟩, ?_⟩
    rw [step.eq_def, isCurrent]
    simp only [upgraded, Option.bind_some]
    exact eq
  · next task isCurrent =>
    obtain ⟨process, upgraded, h⟩ := Option.bind_eq_some_iff.mp h
    obtain ⟨rfl, eq⟩ := trapEndExit_eq h
    refine ⟨⟨task, (addSignal_move sigIll).moves, isCurrent⟩, ?_⟩
    rw [step.eq_def, isCurrent]
    simp only [upgraded, Option.bind_some]
    exact eq
  · simp at h

/-- `sys_waitpid` has reported the process. -/
def Reaped (k : Kernel) (c : ProcId) : Prop :=
  ∃ p pid exitCode, .reaped p c pid exitCode ∈ k.history

end Kernel

/-! ## The tree -/

/-- The processes form a tree below `INITPROC`, and `sys_waitpid` reports those that exited. -/
structure ProcessTree (k : Kernel) : Prop where
  /-- a process that has not been reaped is in one children vector, once, and its parent is the
  owner of that vector -/
  owner : ∀ c, c < k.nextProc → c ≠ k.initproc → ¬ k.Reaped c →
    ∃ p, p < k.nextProc ∧ (k.procs p).children.count c = 1 ∧
      (∀ q, q ≠ p → c ∉ (k.procs q).children) ∧ (k.procs c).parent = some p ∧
      (k.procs p).isZombie = false
  pids : ∀ c d, c < k.nextProc → d < k.nextProc → ¬ k.Reaped c → ¬ k.Reaped d →
    (k.procs c).pid = (k.procs d).pid → c = d
  pid2pcb : ∀ pid p, k.pid2process pid = some p ↔
    p < k.nextProc ∧ (k.procs p).isZombie = false ∧ (k.procs p).pid = pid
  /-- `remove_from_pid2process` does not panic when `exit_current_and_run_next` calls it -/
  removes : ∀ event k₁ exitCode, k.exitCall event = some (k₁, exitCode) →
    k.step event = k₁.exitCurrentAndRunNext exitCode ∧
    ∀ task tid k₂, k₁.current = some task →
      k₁.recordExit task (k₁.tasks task).process tid exitCode = some k₂ →
      (k₂.removeFromPid2process (k₂.procs (k₁.tasks task).process).pid).isSome
  exited : ∀ p exitCode, .exited p 0 exitCode ∈ k.history ↔
    (k.procs p).isZombie = true ∧ (k.procs p).exitCode = exitCode
  reported : ∀ after before p c pid exitCode,
    k.history = after ++ .reaped p c pid exitCode :: before →
      pid = (k.procs c).pid ∧ Reported k.initproc before p c exitCode
  noChild : ∀ p pid, k.currentProcess = some p →
    ((∃ k', k.sysWaitpid pid = some (.done k' (-1))) ↔
      ∀ c ∈ (k.procs p).children, k.childMatches pid c = false)
  noZombie : ∀ p pid, k.currentProcess = some p →
    ((∃ k', k.sysWaitpid pid = some (.done k' (-2))) ↔
      (∃ c ∈ (k.procs p).children, k.childMatches pid c = true) ∧
        ∀ c ∈ (k.procs p).children, k.childMatches pid c = true → (k.procs c).isZombie = false)
  /-- if the strong count is one, a child that is taken is reported -/
  report : ∀ p pid c k₁, k.currentProcess = some p → k.takeZombie p pid = some (c, k₁) →
    k₁.strongCount c + 1 = 1 → ∃ k', k.sysWaitpid pid = some (.done k' (k.procs c).pid) ∧
      k'.history = .reaped p c (k.procs c).pid (k.procs c).exitCode :: k.history

theorem Recorded.reaped_iff (recorded : Recorded k) (c : ProcId) :
    k.Reaped c ↔ (k.procs c).dropped = true := by
  constructor
  · rintro ⟨q, pid, exitCode, mem⟩
    exact (recorded.reaped q c pid exitCode mem).1
  · exact recorded.dropped c

theorem Recorded.not_reaped (recorded : Recorded k) {c : ProcId} (h : ¬ k.Reaped c) :
    (k.procs c).dropped = false := by
  rw [recorded.reaped_iff, Bool.not_eq_true] at h
  exact h

namespace Tree

variable {p c : ProcId}

/-- The parent of a process and its place in the tree. -/
theorem owner (tree : Tree k) (refs : Refs k) (below : c < k.nextProc) (notInit : c ≠ k.initproc)
    (present : (k.procs c).dropped = false) :
    ∃ p, p < k.nextProc ∧ (k.procs p).children.count c = 1 ∧
      (∀ q, q ≠ p → c ∉ (k.procs q).children) ∧ (k.procs c).parent = some p ∧
      (k.procs p).isZombie = false := by
  obtain ⟨p, mem⟩ := tree.owned c below notInit present
  have parent := (tree.child p c mem).1
  have pBelow : p < k.nextProc := by
    by_contra above
    rw [(tree.fresh p (Nat.le_of_not_lt above)).2] at mem
    simp at mem
  refine ⟨p, pBelow, ?_, ?_, parent, ?_⟩
  · exact List.count_eq_one_of_mem (refs.children_nodup pBelow) mem
  · intro q other mem'
    exact other (Option.some.inj ((tree.child q c mem').1.symm.trans parent))
  · by_contra zombie
    rw [Bool.not_eq_false] at zombie
    rw [tree.childless p zombie] at mem
    simp at mem

/-- `PID2PCB` is the map of the processes that have not exited. -/
theorem pid2process_iff (tree : Tree k) (refs : Refs k) {pid : Nat} :
    k.pid2process pid = some p ↔
      p < k.nextProc ∧ (k.procs p).isZombie = false ∧ (k.procs p).pid = pid := by
  unfold Kernel.pid2process
  constructor
  · intro h
    obtain ⟨entry, found, rfl⟩ := Option.map_eq_some_iff.mp h
    obtain ⟨below, isPid, alive⟩ := refs.listed entry (List.mem_of_find?_eq_some found)
    have key := List.find?_some found
    rw [decide_eq_true_eq] at key
    exact ⟨below, alive, isPid.trans key⟩
  · rintro ⟨below, alive, rfl⟩
    have mem := tree.listed p below alive
    cases found : k.pid2pcb.find? fun entry => entry.1 = (k.procs p).pid with
    | none =>
        have absent := List.find?_eq_none.mp found _ mem
        simp at absent
    | some entry =>
        obtain ⟨eBelow, isPid, eAlive⟩ := refs.listed entry (List.mem_of_find?_eq_some found)
        have key := List.find?_some found
        rw [decide_eq_true_eq] at key
        rw [Option.map_some, Option.some.injEq]
        exact tree.distinct _ _ eBelow below (tree.not_dropped eAlive) (tree.not_dropped alive)
          (isPid.trans key)

/-- A process that has not exited can be removed from `PID2PCB`. -/
theorem removes (tree : Tree k) (below : p < k.nextProc) (alive : (k.procs p).isZombie = false) :
    (k.removeFromPid2process (k.procs p).pid).isSome := by
  have mem : (k.procs p).pid ∈ k.pid2pcb.map Prod.fst :=
    List.mem_map.mpr ⟨_, tree.listed p below alive, rfl⟩
  rw [Kernel.removeFromPid2process, if_pos mem]
  rfl

end Tree

/-! ## What `sys_waitpid` returns -/

namespace Kernel

variable {p c : ProcId} {pid : Int}

theorem takeZombie_eq_none : k.takeZombie p pid = none ↔
    ∀ c ∈ (k.procs p).children, k.childMatches pid c = true → (k.procs c).isZombie = false := by
  have taken : k.takeZombie p pid = none ↔ ((k.procs p).children.findIdx? fun child =>
      (k.procs child).isZombie && k.childMatches pid child) = none := by
    unfold takeZombie
    cases found : (k.procs p).children.findIdx? fun child =>
        (k.procs child).isZombie && k.childMatches pid child with
    | none => simp
    | some i =>
        obtain ⟨below, -, -⟩ := List.findIdx?_eq_some_iff_getElem.mp found
        simp [below]
  rw [taken, List.findIdx?_eq_none_iff]
  refine forall₂_congr fun c _ => ?_
  cases (k.procs c).isZombie <;> simp

/-- The pid and the exit code of a process do not depend on the children of another. -/
theorem takeZombie_same {taken : ProcId} (h : k.takeZombie p pid = some (taken, k')) (c : ProcId) :
    (k'.procs c).pid = (k.procs c).pid ∧ (k'.procs c).exitCode = (k.procs c).exitCode ∧
      k'.pidAllocator = k.pidAllocator ∧ k'.history = k.history := by
  obtain ⟨i, -, -, rfl⟩ := takeZombie_eq h
  rw [setProc_procs]
  split <;> exact ⟨rfl, rfl, rfl, rfl⟩

/-- The three ways in which `sys_waitpid` can end. -/
theorem sysWaitpid_cases (current : k.currentProcess = some p) :
    ((∀ c ∈ (k.procs p).children, k.childMatches pid c = false) ∧
      k.sysWaitpid pid = some (.done k (-1))) ∨
    ((∃ c ∈ (k.procs p).children, k.childMatches pid c = true) ∧ k.takeZombie p pid = none ∧
      k.sysWaitpid pid = some (.done k (-2))) ∨
    ((∃ c ∈ (k.procs p).children, k.childMatches pid c = true) ∧
      ∃ c k₁, k.takeZombie p pid = some (c, k₁) ∧
        ∀ k' value, k.sysWaitpid pid = some (.done k' value) → value = (k.procs c).pid) := by
  unfold sysWaitpid
  rw [current, Option.bind_some]
  by_cases matching : (k.procs p).children.any (k.childMatches pid) = true
  · have exists_child := List.any_eq_true.mp matching
    rw [if_pos matching]
    refine .inr ?_
    cases taken : k.takeZombie p pid with
    | none => exact .inl ⟨exists_child, rfl, rfl⟩
    | some result =>
        obtain ⟨c, k₁⟩ := result
        refine .inr ⟨exists_child, c, k₁, rfl, ?_⟩
        intro k' value h
        simp only at h
        split at h
        · obtain ⟨last, -, eq⟩ := Option.map_eq_some_iff.mp h
          rw [Path.done.injEq] at eq
          rw [← eq.2, (takeZombie_same taken c).1]
        · simp at h
  · rw [if_neg matching]
    refine .inl ⟨?_, rfl⟩
    intro c mem
    rw [Bool.not_eq_true, List.any_eq_false] at matching
    rw [← Bool.not_eq_true]
    exact matching c mem

theorem sysWaitpid_noChild (current : k.currentProcess = some p) :
    (∃ k', k.sysWaitpid pid = some (.done k' (-1))) ↔
      ∀ c ∈ (k.procs p).children, k.childMatches pid c = false := by
  rcases @sysWaitpid_cases k p pid current with ⟨none, eq⟩ | ⟨⟨c, mem, isMatch⟩, -, eq⟩ |
    ⟨⟨c, mem, isMatch⟩, d, k₁, -, value⟩
  · exact ⟨fun _ => none, fun _ => ⟨k, eq⟩⟩
  · refine ⟨?_, fun none => ?_⟩
    · rintro ⟨k', h⟩
      rw [eq] at h
      simp at h
    · rw [none c mem] at isMatch
      simp at isMatch
  · refine ⟨?_, fun none => ?_⟩
    · rintro ⟨k', h⟩
      have isPid := value k' _ h
      omega
    · rw [none c mem] at isMatch
      simp at isMatch

theorem sysWaitpid_noZombie (current : k.currentProcess = some p) :
    (∃ k', k.sysWaitpid pid = some (.done k' (-2))) ↔
      (∃ c ∈ (k.procs p).children, k.childMatches pid c = true) ∧
        ∀ c ∈ (k.procs p).children, k.childMatches pid c = true → (k.procs c).isZombie = false := by
  rcases @sysWaitpid_cases k p pid current with ⟨none, eq⟩ | ⟨exists_child, taken, eq⟩ |
    ⟨-, d, k₁, taken, value⟩
  · refine ⟨?_, ?_⟩
    · rintro ⟨k', h⟩
      rw [eq] at h
      simp at h
    · rintro ⟨⟨c, mem, isMatch⟩, -⟩
      rw [none c mem] at isMatch
      simp at isMatch
  · exact ⟨fun _ => ⟨exists_child, takeZombie_eq_none.mp taken⟩, fun _ => ⟨k, eq⟩⟩
  · refine ⟨?_, ?_⟩
    · rintro ⟨k', h⟩
      have isPid := value k' _ h
      omega
    · rintro ⟨-, alive⟩
      rw [takeZombie_eq_none.mpr alive] at taken
      simp at taken

/-- A child that is taken is reported if nothing else refers to it. -/
theorem sysWaitpid_reports {k₁ : Kernel} (tree : Tree k) (refs : Refs k)
    (current : k.currentProcess = some p) (taken : k.takeZombie p pid = some (c, k₁))
    (last : k₁.strongCount c + 1 = 1) :
    ∃ k', k.sysWaitpid pid = some (.done k' (k.procs c).pid) ∧
      k'.history = .reaped p c (k.procs c).pid (k.procs c).exitCode :: k.history := by
  obtain ⟨i, found, -, -⟩ := takeZombie_eq taken
  have member := List.mem_of_getElem? found
  obtain ⟨samePid, sameCode, sameAllocator, sameHistory⟩ := takeZombie_same taken c
  have inUse : (k.procs c).pid < k.pidAllocator.current ∧
      (k.procs c).pid ∉ k.pidAllocator.recycled :=
    tree.pids c (tree.child_lt refs member) (tree.child p c member).2
  have matching : (k.procs p).children.any (k.childMatches pid) = true := by
    by_contra none
    rw [Bool.not_eq_true, List.any_eq_false] at none
    have untaken : k.takeZombie p pid = .none :=
      takeZombie_eq_none.mpr fun c mem isMatch => absurd isMatch (none c mem)
    rw [untaken] at taken
    simp at taken
  have dealloc : k₁.pidAllocator.dealloc (k₁.procs c).pid =
      some { k.pidAllocator with
        recycled := (k.procs c).pid :: k.pidAllocator.recycled } := by
    rw [samePid, sameAllocator, RecycleAllocator.dealloc, if_pos inUse]
  unfold sysWaitpid
  rw [current, Option.bind_some, if_pos matching, taken]
  simp only [if_pos last, dropProcess, dealloc, Option.map_some]
  refine ⟨_, by rw [samePid], ?_⟩
  simp only [sameCode]
  exact congrArg _ sameHistory

end Kernel

/-- `remove_from_pid2process` finds the entry of the process that exits. -/
theorem ReachableState.exitCall_removes (reachable : ReachableState k) {event : Event}
    {k₁ k₂ : Kernel} {exitCode : Int32} (call : k.exitCall event = some (k₁, exitCode))
    {task : TaskId} {tid : Nat} (isCurrent : k₁.current = some task)
    (recordsExit : k₁.recordExit task (k₁.tasks task).process tid exitCode = some k₂) :
    (k₂.removeFromPid2process (k₂.procs (k₁.tasks task).process).pid).isSome := by
  obtain ⟨inv, frames⟩ := reachable.inv
  obtain ⟨refs, -⟩ := reachable.refs
  obtain ⟨tree, recorded⟩ := reachable.family
  obtain ⟨⟨a, moves, current⟩, -⟩ := Kernel.exitCall_eq frames call
  cases current.symm.trans isCurrent
  -- the invariants hold in the middle of the path, where the call is
  obtain ⟨below, alive⟩ := (moves.inv inv).current_process current
  have tree₁ := (moves.family inv refs tree recorded).1
  obtain ⟨allocator, -, rfl⟩ := Option.map_eq_some_iff.mp recordsExit
  have same : SameFamily k₁ (k₁.exited task tid exitCode allocator) := .exited k₁ _ _ _
  exact (tree₁.sameFamily same).removes below ((same.process _).isZombie.trans alive)

/-- In every reachable state the processes form a tree below `INITPROC`, `PID2PCB` has those that
have not exited, and `sys_waitpid` reports each of those that have at most once, to the process
it should and with the exit code it should. -/
theorem reachable_processTree (reachable : ReachableState k) : ProcessTree k := by
  obtain ⟨-, frames⟩ := reachable.inv
  obtain ⟨refs, -⟩ := reachable.refs
  obtain ⟨tree, recorded⟩ := reachable.family
  refine ⟨?_, ?_, ?_, ?_, recorded.exited, ?_, ?_, ?_, ?_⟩
  · intro c below notInit notReaped
    exact tree.owner refs below notInit (recorded.not_reaped notReaped)
  · intro c d cBelow dBelow cHere dHere
    exact tree.distinct c d cBelow dBelow (recorded.not_reaped cHere) (recorded.not_reaped dHere)
  · intro pid p
    exact tree.pid2process_iff refs
  · intro event k₁ exitCode call
    refine ⟨(Kernel.exitCall_eq frames call).2, ?_⟩
    intro task tid k₂ isCurrent recordsExit
    exact reachable.exitCall_removes call isCurrent recordsExit
  · intro after before p c pid exitCode history
    have all := recorded.all
    rw [history] at all
    refine ⟨(recorded.reaped p c pid exitCode ?_).2, all.of_append⟩
    rw [history]
    exact List.mem_append_right _ List.mem_cons_self
  · intro p pid current
    exact Kernel.sysWaitpid_noChild current
  · intro p pid current
    exact Kernel.sysWaitpid_noZombie current
  · intro p pid c k₁ current taken last
    exact Kernel.sysWaitpid_reports tree refs current taken last

/-- A grandchild outlives its parent: `INITPROC` reaps the child, then the grandchild. -/
theorem reachable_processTree_grandchild : ∃ k, Kernel.start.steps [.idle true, .syscall .fork,
    .syscall .yield, .idle true, .syscall .fork, .syscall (.exit 3), .idle true,
    .syscall (.waitpid (-1)), .syscall .yield, .idle true, .syscall (.exit 4), .idle true,
    .syscall (.waitpid (-1))] = some k ∧ ProcessTree k ∧
    k.history = [.reaped 0 2 2 4, .exited 2 0 4, .reaped 0 1 1 3, .exited 1 0 3, .forked 1 2,
      .forked 0 1] := by
  have facts : (Kernel.start.steps [.idle true, .syscall .fork, .syscall .yield, .idle true,
      .syscall .fork, .syscall (.exit 3), .idle true, .syscall (.waitpid (-1)), .syscall .yield,
      .idle true, .syscall (.exit 4), .idle true, .syscall (.waitpid (-1))]).map Kernel.history =
        some [.reaped 0 2 2 4, .exited 2 0 4, .reaped 0 1 1 3, .exited 1 0 3, .forked 1 2,
          .forked 0 1] := by
    decide
  obtain ⟨k, h, history⟩ := Option.map_eq_some_iff.mp facts
  exact ⟨k, h, reachable_processTree (ReachableState.steps RunWith.start h), history⟩

end CoreFromDust.Os
