import CoreFromDust.Os.OnePlace
import CoreFromDust.Os.Proofs.References
import Mathlib.Data.List.Perm.Basic

/-!
# The last reference to a zombie

`sys_waitpid` asserts that the child it takes from the children of its process is not referenced
elsewhere. A thread that waits in `sys_semaphore_down`, `sys_condvar_wait`, `sys_read` or
`sys_write` owns a reference to its process in a frame of its kernel stack, and keeps it when the
main thread ends the process. The assertion holds in the runs in which processes end while no
other of their threads waits in this way.
-/

namespace CoreFromDust.Os

variable {k k' : Kernel}

/-- If the step ends a process, then no thread of it but the one that takes the step has a frame
that owns the process. -/
def QuietExit (k : Kernel) (event : Event) : Prop :=
  ∀ k' p, k.step event = some k' → (k.procs p).isZombie = false → (k'.procs p).isZombie = true →
    ∀ t, t < k.nextTask → (k.tasks t).process = p → k.acting ≠ some t →
      (k.tasks t).frame.processes = []

/-- The thread that acts can run. -/
theorem Inv.acting (inv : Inv k) {a : TaskId} (acts : k.acting = some a) :
    a < k.nextTask ∧ k.Live a := by
  rw [Kernel.acting] at acts
  cases current : k.current with
  | none =>
      rw [current, Option.none_or] at acts
      have ready := inv.ready (List.mem_of_head? acts)
      exact ⟨ready.1, ready.2.1⟩
  | some t =>
      rw [current, Option.some_or] at acts
      have running := inv.current (current.trans acts)
      exact ⟨running.1, running.2.1⟩

/-- In these runs the threads of zombies own nothing. -/
theorem RunWith.zombie_frames (run : RunWith QuietExit k) : ∀ t, t < k.nextTask →
    (k.procs (k.tasks t).process).isZombie = true → (k.tasks t).frame.processes = [] := by
  induction run with
  | start =>
      intro t _ _
      rfl
  | @step k event k' run allowed h ih =>
      intro t below zombie
      obtain ⟨inv, frames⟩ := run.inv
      rcases Kernel.step_moves frames h with rfl | ⟨a, acts, moves⟩
      · exact ih t below zombie
      · obtain ⟨aBelow, aLive⟩ := inv.acting acts
        have byThread := moves.byThread inv aBelow
        by_cases isActing : t = a
        · subst isActing
          rw [byThread.process t aBelow] at zombie
          rcases byThread.zombie _ zombie with old | ⟨-, exited⟩
          · rw [aLive.2] at old
            simp at old
          · exact moves.framesClear inv run.refs.2 t (.inr exited)
        · rcases byThread.frame t isActing below with ⟨old, same⟩ | clear
          · rw [same]
            rw [byThread.process t old] at zombie
            by_cases before : (k.procs (k.tasks t).process).isZombie = true
            · exact ih t old before
            · rw [Bool.not_eq_true] at before
              refine allowed k' _ h before zombie t old rfl ?_
              rw [acts, ne_eq, Option.some.injEq]
              exact Ne.symm isActing
          · exact clear

/-- Taking an element out of a list. -/
theorem count_eraseIdx {l : List ProcId} {i : Nat} {x : ProcId} (h : l[i]? = some x) :
    l.count x = (l.eraseIdx i).count x + 1 := by
  obtain ⟨below, eq⟩ := List.getElem?_eq_some_iff.mp h
  have perm := (List.getElem_cons_eraseIdx_perm below).count_eq x
  rw [← perm, eq, List.count_cons_self]

/-- In every run in which processes end quietly, the reference that `sys_waitpid` takes is the
last one. -/
theorem waitpid_last_reference (run : RunWith QuietExit k) {process child : ProcId} {pid : Int}
    (current : k.currentProcess = some process)
    (taken : k.takeZombie process pid = some (child, k')) : k'.strongCount child + 1 = 1 := by
  obtain ⟨inv, frames⟩ := run.inv
  obtain ⟨refs, -⟩ := run.refs
  obtain ⟨i, found, zombie, rfl⟩ := Kernel.takeZombie_eq taken
  have below := inv.currentProcess current
  have member : child ∈ k.childRefs := by
    refine List.mem_flatMap.mpr ⟨process, List.mem_range.mpr below, ?_⟩
    exact List.mem_of_getElem? found
  -- no other children vector has it
  have children : (k.setProc process fun pcb =>
      { pcb with children := pcb.children.eraseIdx i }).childRefs.count child = 0 := by
    have erased := @count_flatMap_range_change (fun q => (k.procs q).children)
      (fun q => ((k.setProc process fun pcb =>
        { pcb with children := pcb.children.eraseIdx i }).procs q).children)
          k.nextProc process child
      below (fun q other => by rw [Kernel.setProc_procs, if_neg other])
    have taken := count_eraseIdx found
    have once := refs.once child
    rw [Kernel.setProc_self] at erased
    change (k.setProc process fun pcb =>
      { pcb with children := pcb.children.eraseIdx i }).childRefs.count child + _ =
        k.childRefs.count child + _ at erased
    simp only at erased
    omega
  have unlisted : (k.pid2pcb.map Prod.snd).count child = 0 := by
    refine List.count_eq_zero_of_not_mem fun mem => ?_
    obtain ⟨entry, listed, rfl⟩ := List.mem_map.mp mem
    rw [(refs.listed entry listed).2.2] at zombie
    simp at zombie
  have notInit : child ≠ k.initproc := by
    rintro rfl
    exact refs.notInit member
  have unframed : ((List.range k.nextTask).flatMap fun t =>
      (k.tasks t).frame.processes).count child = 0 := by
    refine List.count_eq_zero_of_not_mem fun mem => ?_
    obtain ⟨t, inRange, mem⟩ := List.mem_flatMap.mp mem
    have own := frames t child mem
    rw [own] at zombie
    rw [run.zombie_frames t (List.mem_range.mp inRange) zombie] at mem
    simp at mem
  change (k.setProc process fun pcb =>
    { pcb with children := pcb.children.eraseIdx i }).childRefs.count child +
      (k.pid2pcb.map Prod.snd).count child + (if child = k.initproc then 1 else 0) +
      ((List.range k.nextTask).flatMap fun t => (k.tasks t).frame.processes).count child + 1 = 1
  rw [children, unlisted, unframed, if_neg notInit]

/-- A kernel in which no thread has a frame that owns a process. -/
def Kernel.noFrames (k : Kernel) : Bool :=
  (List.range k.nextTask).all fun t => (k.tasks t).frame.processes.isEmpty

theorem quietExit_of_noFrames (event : Event) (clear : k.noFrames = true) : QuietExit k event := by
  intro k' p _ _ _ t below _ _
  have each := List.all_eq_true.mp clear t (List.mem_range.mpr below)
  exact List.isEmpty_iff.mp each

/-- `INITPROC` forks, the child exits and is waited for. -/
theorem waitpid_last_reference_fork : ∃ k k', Kernel.start.stepsIf (fun k _ => k.noFrames)
    [.idle true, .syscall .fork, .syscall .yield, .idle true, .syscall (.exit 3), .idle true] =
      some k ∧ k.takeZombie 0 (-1) = some (1, k') ∧ k'.strongCount 1 + 1 = 1 := by
  have facts : (Kernel.start.stepsIf (fun k _ => k.noFrames) [.idle true, .syscall .fork,
      .syscall .yield, .idle true, .syscall (.exit 3), .idle true]).map (fun k =>
        (k.currentProcess, (k.takeZombie 0 (-1)).map Prod.fst)) = some (some 0, some 1) := by
    decide
  obtain ⟨k, h, eq⟩ := Option.map_eq_some_iff.mp facts
  rw [Prod.mk.injEq] at eq
  obtain ⟨⟨child, k'⟩, taken, rfl⟩ := Option.map_eq_some_iff.mp eq.2
  have run : RunWith QuietExit k :=
    RunWith.stepsIf (fun k event clear => quietExit_of_noFrames event clear) RunWith.start h
  exact ⟨k, k', h, taken, waitpid_last_reference run eq.1 taken⟩

/-- A child creates a thread, which waits for a semaphore, and exits. When `INITPROC` waits for
the child, the thread still owns a reference to it. -/
theorem waitpid_assertion_fails : ∃ k k' child, Kernel.start.steps [.idle true, .syscall .fork,
    .syscall .yield, .idle true, .syscall (.semaphoreCreate 0), .syscall .threadCreate,
    .syscall .yield, .idle true, .syscall .yield, .idle true, .syscall (.semaphoreDown 0),
    .idle true, .syscall (.exit 0), .idle true] = some k ∧ ReachableState k ∧
    k.currentProcess = some 0 ∧ k.takeZombie 0 (-1) = some (child, k') ∧
    k'.strongCount child + 1 = 2 ∧ k.sysWaitpid (-1) = none := by
  have facts : (Kernel.start.steps [.idle true, .syscall .fork, .syscall .yield, .idle true,
      .syscall (.semaphoreCreate 0), .syscall .threadCreate, .syscall .yield, .idle true,
      .syscall .yield, .idle true, .syscall (.semaphoreDown 0), .idle true, .syscall (.exit 0),
      .idle true]).map (fun k => (k.currentProcess, (k.takeZombie 0 (-1)).map (fun taken =>
        taken.2.strongCount taken.1 + 1), (k.sysWaitpid (-1)).isNone)) =
          some (some 0, some 2, true) := by
    decide
  obtain ⟨k, h, eq⟩ := Option.map_eq_some_iff.mp facts
  rw [Prod.mk.injEq, Prod.mk.injEq] at eq
  obtain ⟨current, count, panics⟩ := eq
  obtain ⟨⟨child, k'⟩, taken, count⟩ := Option.map_eq_some_iff.mp count
  exact ⟨k, k', child, h, ReachableState.steps RunWith.start h, current, taken, count,
    Option.isNone_iff_eq_none.mp panics⟩

end CoreFromDust.Os
