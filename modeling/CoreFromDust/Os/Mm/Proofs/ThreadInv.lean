import CoreFromDust.Os.Mm.Proofs.StackPlaces

/-!
# The invariant of threads and their stacks

The areas of every process that is not a zombie lie where the ids of its threads put them, and those
of `KERNEL_SPACE` where the kernel-stack ids do. Ids are those of `TaskUserRes` and `KernelStack`
values that exist, no two of which have the same.
-/

namespace CoreFromDust.Os.Mm

open CoreFromDust.Lib SpaceWf

/-- The threads of the process `p`, whose first stack starts at the page `b`. The id of a
`TaskUserRes` is in use, and its place in `tasks`. -/
structure ThreadsOk (userRes : Nat → Option TaskUserRes) (n p b : Nat)
    (pcb : ThreadPcb) : Prop where
  res : ∀ t r, userRes t = some r → r.process = p → r.ustackBase = b * 4096 ∧
    pcb.taskResAllocator.InUse r.tid ∧ pcb.tasks[r.tid]? = some (some t)
  length : ∀ tid, pcb.taskResAllocator.InUse tid → tid < pcb.tasks.length
  tasks : ∀ tid t, pcb.tasks[tid]? = some (some t) →
    t < n ∧ ∀ r, userRes t = some r → r.tid = tid ∧ r.process = p

/-- A process with its threads and its areas. -/
structure ProcessOk (userRes : Nat → Option TaskUserRes) (n p b : Nat) (pcb : ThreadPcb)
    (areas : List MapArea) : Prop where
  threads : ThreadsOk userRes n p b pcb
  placed : Placed b pcb.taskResAllocator areas

/-- The processes and their threads; the names of processes are below `nextProc`, those of threads
below `n`. The `TaskUserRes` values are those of processes that are not zombies. -/
structure UserInv (machine : Machine) (pcbs : Nat → Option ThreadPcb)
    (userRes : Nat → Option TaskUserRes) (nextProc n : Nat) : Prop where
  live : ∀ p set, machine.live (.user p) = some set →
    ∃ pcb b, pcbs p = some pcb ∧ ProcessOk userRes n p b pcb set.areas
  fresh : ∀ p, nextProc ≤ p → machine.spaces (.user p) = none
  res : ∀ t r, userRes t = some r → (machine.live (.user r.process)).isSome ∧ t < n

/-- `KERNEL_SPACE` and the kernel stacks of the threads. -/
structure KernelInv (machine : Machine) (ids : RecycleAllocator)
    (tcbs : Nat → Option Tcb) (n : Nat) :
    Prop where
  kernel : ∃ set, machine.live .kernel = some set ∧ KernelPlaced ids set.areas
  tcb : ∀ t tcb, tcbs t = some tcb → t < n ∧ ids.InUse tcb.kstack
  distinct : ∀ t t' tcb tcb', tcbs t = some tcb → tcbs t' = some tcb' →
    tcb.kstack = tcb'.kstack → t = t'

namespace ThreadMachine

/-- The state is in order. A `TaskUserRes` is held by its TCB, which has not exited, or it is
loose. -/
structure Ordered (l tramp : Nat) (loose : Nat → Prop) (k : ThreadMachine) : Prop where
  machine : Machine.Inv l tramp k.machine
  users : UserInv k.machine k.pcbs k.userRes k.nextProc k.nextTcb
  kernel : KernelInv k.machine k.kstackAllocator k.tcbs k.nextTcb
  holder : ∀ t r, k.userRes t = some r →
    ∃ tcb, k.tcbs t = some tcb ∧ tcb.process = r.process ∧ (tcb.res = true ∨ loose t)
  held : ∀ t tcb, k.tcbs t = some tcb → tcb.res = true →
    (k.userRes t).isSome ∧ tcb.exitCode = none ∧ ¬ loose t

/-- The `TaskUserRes` of the thread is in `recycle_res`. -/
def Recycles (k : ThreadMachine) (t : Nat) : Prop := ∃ p ts, k.recycling = some (p, ts) ∧ t ∈ ts

/-- The invariant. Between two steps what is in `recycle_res` is loose, and that are all
`TaskUserRes` values of the process that is about to become a zombie. -/
structure Inv (l tramp : Nat) (k : ThreadMachine) : Prop where
  ordered : k.Ordered l tramp k.Recycles
  recycling : ∀ p ts, k.recycling = some (p, ts) → (k.machine.live (.user p)).isSome ∧
    ∀ t r, k.userRes t = some r → r.process = p → t ∈ ts

end ThreadMachine

theorem update_eq_some_iff {α : Type} {f : Nat → Option α} {i j : Nat} {x : Option α} {a : α} :
    Function.update f i x j = some a ↔ j = i ∧ x = some a ∨ j ≠ i ∧ f j = some a := by
  by_cases same : j = i
  · subst same
    simp
  · simp [same]

section Parts

variable {l tramp n n' p b nextProc nextProc' : Nat} {machine machine' : Machine}
  {pcbs pcbs' : Nat → Option ThreadPcb} {userRes userRes' : Nat → Option TaskUserRes}
  {ids : RecycleAllocator} {tcbs : Nat → Option Tcb} {set set' : MemorySet} {phys : Phys}

theorem Machine.Inv.putStep {id : SpaceId} (inv : Machine.Inv l tramp machine)
    (isLive : machine.live id = some set) (step : SpaceStep l tramp machine.phys phys set set') :
    Machine.Inv l tramp (machine.put phys id (some ⟨set', false⟩)) := by
  obtain ⟨found, ok⟩ := inv.live isLive
  refine inv.put id (some ⟨set', false⟩) (by rw [found]; exact step.changes) ?_
  rintro space isSpace
  obtain rfl := Option.some.inj isSpace
  exact ⟨fun _ => step.wf, by simp, fun isUser => step.framed (ok.framed isUser)⟩

theorem Machine.Inv.wf {id : SpaceId} (inv : Machine.Inv l tramp machine)
    (isLive : machine.live id = some set) : set.Wf l tramp machine.phys :=
    (inv.live isLive).2.wf rfl

theorem Machine.live_congr {id : SpaceId} (same : machine'.spaces id = machine.spaces id) :
    machine'.live id = machine.live id := by
  rw [Machine.live, Machine.live, same]

theorem Machine.live_put (machine : Machine) (phys : Phys) (id : SpaceId) (set : MemorySet) :
    (machine.put phys id (some ⟨set, false⟩)).live id = some set :=
  Machine.live_eq_some.mpr (machine.put_spaces_self _ _ _)

theorem Machine.live_put_isSome (machine : Machine) (phys : Phys) (id : SpaceId) (set : MemorySet) :
    ((machine.put phys id (some ⟨set, false⟩)).live id).isSome := by
  rw [Machine.live_put]
  rfl

/-- One process changes, or is new. -/
theorem UserInv.put (users : UserInv machine pcbs userRes nextProc n)
    (spaces : ∀ q, q ≠ p → machine'.spaces (.user q) = machine.spaces (.user q))
    (others : ∀ q, q ≠ p → pcbs' q = pcbs q)
    (sameRes : ∀ t r, r.process ≠ p → (userRes' t = some r ↔ userRes t = some r))
    (newRes : ∀ t r, userRes' t = some r → r.process = p →
      (machine'.live (.user p)).isSome ∧ t < n' ∧
      (n ≤ t ∨ ∃ r', userRes t = some r' ∧ r'.process = p))
    (le : n ≤ n') (below : p < nextProc') (leProc : nextProc ≤ nextProc')
    (mine : ∀ set, machine'.live (.user p) = some set →
      ∃ pcb b, pcbs' p = some pcb ∧ ProcessOk userRes' n' p b pcb set.areas) :
    UserInv machine' pcbs' userRes' nextProc' n' where
  live := by
    intro q set isLive
    by_cases same : q = p
    · subst same
      exact mine set isLive
    · rw [Machine.live_congr (spaces q same)] at isLive
      obtain ⟨pcb, b, isPcb, ok⟩ := users.live q set isLive
      have res : ∀ t r, userRes' t = some r → r.process = q → userRes t = some r := by
        rintro t r isRes rfl
        exact (sameRes t r same).mp isRes
      have threads := ok.threads
      refine ⟨pcb, b, (others q same).trans isPcb,
        ⟨fun t r isRes isHere => threads.res t r (res t r isRes isHere) isHere, threads.length, ?_⟩,
        ok.placed⟩
      intro tid t isTask
      obtain ⟨small, old⟩ := threads.tasks tid t isTask
      refine ⟨small.trans_le le, fun r isRes => ?_⟩
      by_cases isHere : r.process = p
      · rcases (newRes t r isRes isHere).2.2 with large | ⟨r', isRes', isHere'⟩
        · omega
        · have other := (old r' isRes').2
          omega
      · exact old r ((sameRes t r isHere).mp isRes)
  fresh := by
    intro q high
    rw [spaces q (by omega)]
    exact users.fresh q (by omega)
  res := by
    intro t r isRes
    by_cases isHere : r.process = p
    · obtain ⟨isLive, small, -⟩ := newRes t r isRes isHere
      exact ⟨by rwa [isHere], small⟩
    · obtain ⟨isLive, small⟩ := users.res t r ((sameRes t r isHere).mp isRes)
      exact ⟨by rwa [Machine.live_congr (spaces _ isHere)], small.trans_le le⟩

theorem KernelInv.congr (kernel : KernelInv machine ids tcbs n)
    (same : machine'.live .kernel = machine.live .kernel) : KernelInv machine' ids tcbs n :=
  ⟨by rw [same]; exact kernel.kernel, kernel.tcb, kernel.distinct⟩

theorem UserInv.congr (users : UserInv machine pcbs userRes nextProc n)
    (same : ∀ q, machine'.spaces (.user q) = machine.spaces (.user q)) :
    UserInv machine' pcbs userRes nextProc n where
  live := fun p set isLive => users.live p set (by rwa [Machine.live_congr (same p)] at isLive)
  fresh := fun p high => (same p).trans (users.fresh p high)
  res := fun t r isRes => by
    rw [Machine.live_congr (same r.process)]
    exact users.res t r isRes

/-- A TCB with the same kernel stack is put in its place. -/
theorem KernelInv.setTcb (kernel : KernelInv machine ids tcbs n) {t : Nat} {tcb tcb' : Tcb}
    (isTcb : tcbs t = some tcb) (same : tcb'.kstack = tcb.kstack) :
    KernelInv machine ids (Function.update tcbs t (some tcb')) n := by
  have old : ∀ u new, Function.update tcbs t (some tcb') u = some new →
      ∃ old, tcbs u = some old ∧ old.kstack = new.kstack := by
    intro u new isNew
    rcases update_eq_some_iff.mp isNew with ⟨rfl, isTcb'⟩ | ⟨-, isOld⟩
    · obtain rfl := Option.some.inj isTcb'
      exact ⟨tcb, isTcb, same.symm⟩
    · exact ⟨new, isOld, rfl⟩
  refine ⟨kernel.kernel, fun u new isNew => ?_, fun u v new new' isNew isNew' equal => ?_⟩
  · obtain ⟨tcb, isOld, kstack⟩ := old u new isNew
    rw [← kstack]
    exact kernel.tcb u tcb isOld
  · obtain ⟨tcb, isOld, kstack⟩ := old u new isNew
    obtain ⟨tcb', isOld', kstack'⟩ := old v new' isNew'
    exact kernel.distinct u v tcb tcb' isOld isOld' (by rw [kstack, kstack', equal])

/-- A thread is added with a kernel stack that was not in use. -/
theorem KernelInv.addTcb (kernel : KernelInv machine ids tcbs n) (newTcb : Tcb)
    (fresh : newTcb.kstack = ids.alloc.1)
    (space : ∃ set, machine'.live .kernel = some set ∧ KernelPlaced ids.alloc.2 set.areas) :
    KernelInv machine' ids.alloc.2 (Function.update tcbs n (some newTcb)) (n + 1) := by
  obtain ⟨set, -, placed⟩ := kernel.kernel
  obtain ⟨-, free, inUse⟩ := placed.ok.alloc
  have notOld : ∀ t tcb, tcbs t = some tcb → tcb.kstack ≠ newTcb.kstack := by
    intro t tcb isTcb same
    have used := (kernel.tcb t tcb isTcb).2
    rw [same, fresh] at used
    exact free used
  refine ⟨space, fun t tcb isTcb => ?_, fun t t' tcb tcb' isTcb isTcb' same => ?_⟩
  · rcases update_eq_some_iff.mp isTcb with ⟨rfl, isNew⟩ | ⟨-, isOld⟩
    · obtain rfl := Option.some.inj isNew
      exact ⟨Nat.lt_succ_self _, (inUse _).mpr (.inr fresh)⟩
    · obtain ⟨small, used⟩ := kernel.tcb t tcb isOld
      exact ⟨small.trans (Nat.lt_succ_self _), (inUse _).mpr (.inl used)⟩
  · rcases update_eq_some_iff.mp isTcb with ⟨rfl, isNew⟩ | ⟨-, isOld⟩ <;>
      rcases update_eq_some_iff.mp isTcb' with ⟨rfl, isNew'⟩ | ⟨-, isOld'⟩
    · rfl
    · obtain rfl := Option.some.inj isNew
      exact absurd same.symm (notOld t' tcb' isOld')
    · obtain rfl := Option.some.inj isNew'
      exact absurd same (notOld t tcb isOld)
    · exact kernel.distinct t t' tcb tcb' isOld isOld' same

/-- A thread is removed, and its kernel stack given back. -/
theorem KernelInv.removeTcb {ids' : RecycleAllocator}
    (kernel : KernelInv machine ids tcbs n) {t : Nat}
    {tcb : Tcb} (isTcb : tcbs t = some tcb) (isDealloc : ids.dealloc tcb.kstack = some ids')
    (space : ∃ set, machine'.live .kernel = some set ∧ KernelPlaced ids' set.areas) :
    KernelInv machine' ids' (Function.update tcbs t none) n := by
  obtain ⟨-, inUse⟩ := RecycleAllocator.inUse_dealloc isDealloc
  have old : ∀ u other, Function.update tcbs t none u = some other → u ≠ t ∧
      tcbs u = some other := by
    intro u other isOther
    rcases update_eq_some_iff.mp isOther with ⟨-, absent⟩ | isOld
    · exact absurd absent (by simp)
    · exact isOld
  refine ⟨space, fun u other isOther => ?_, fun u v other other' isOther isOther' same => ?_⟩
  · obtain ⟨here, isOther⟩ := old u other isOther
    obtain ⟨small, used⟩ := kernel.tcb u other isOther
    refine ⟨small, (inUse _).mpr ⟨used, fun same => here ?_⟩⟩
    exact kernel.distinct u t other tcb isOther isTcb same
  · exact kernel.distinct u v other other' (old u other isOther).2 (old v other' isOther').2 same

/-! ## The threads of a process -/

theorem ThreadsOk.distinct {pcb : ThreadPcb} {t t' : Nat} {r r' : TaskUserRes}
    (threads : ThreadsOk userRes n p b pcb) (isRes : userRes t = some r)
    (isRes' : userRes t' = some r')
    (here : r.process = p) (here' : r'.process = p) (same : r.tid = r'.tid) : t = t' := by
  have place := (threads.res t r isRes here).2.2
  rw [same, (threads.res t' r' isRes' here').2.2] at place
  simpa using place.symm

/-- A `TaskUserRes` of the process is dropped. -/
theorem ThreadsOk.remove {pcb : ThreadPcb} {t : Nat} {r : TaskUserRes} {ids' : RecycleAllocator}
    (threads : ThreadsOk userRes n p b pcb) (isRes : userRes t = some r) (isHere : r.process = p)
    (isDealloc : pcb.taskResAllocator.dealloc r.tid = some ids') :
    ThreadsOk (Function.update userRes t none) n p b { pcb with taskResAllocator := ids' } := by
  obtain ⟨-, inUse⟩ := RecycleAllocator.inUse_dealloc isDealloc
  have old : ∀ u r', Function.update userRes t none u = some r' → u ≠ t ∧ userRes u = some r' := by
    intro u r' isOther
    rcases update_eq_some_iff.mp isOther with ⟨-, absent⟩ | isOld
    · exact absurd absent (by simp)
    · exact isOld
  refine ⟨fun u r' isOther here => ?_, fun tid used => ?_, fun tid u isTask => ?_⟩
  · obtain ⟨differ, isOther⟩ := old u r' isOther
    obtain ⟨base, used, place⟩ := threads.res u r' isOther here
    refine ⟨base, (inUse _).mpr ⟨used, fun same => differ ?_⟩, place⟩
    exact threads.distinct isOther isRes here isHere same
  · exact threads.length tid ((inUse tid).mp used).1
  · obtain ⟨small, res⟩ := threads.tasks tid u isTask
    exact ⟨small, fun r' isOther => res r' (old u r' isOther).2⟩

/-- A thread without `TaskUserRes` is taken out of `tasks`. -/
theorem ThreadsOk.clearTask {pcb : ThreadPcb} {tid t : Nat} (threads : ThreadsOk userRes n p b pcb)
    (isTask : pcb.tasks[tid]? = some (some t)) (noRes : userRes t = none) :
    ThreadsOk userRes n p b { pcb with tasks := pcb.tasks.set tid none } := by
  refine ⟨fun u r isRes here => ?_, fun other used => ?_, fun i u isOther => ?_⟩
  · obtain ⟨base, used, place⟩ := threads.res u r isRes here
    refine ⟨base, used, ?_⟩
    rw [List.getElem?_set_ne, place]
    rintro rfl
    obtain rfl : t = u := by simpa using isTask.symm.trans place
    rw [noRes] at isRes
    exact absurd isRes (by simp)
  · rw [List.length_set]
    exact threads.length other used
  · rw [List.getElem?_set] at isOther
    split at isOther
    · split at isOther <;> simp at isOther
    · exact threads.tasks i u isOther

/-- A new thread with the next id is put into `tasks`. -/
theorem ThreadsOk.add {pcb : ThreadPcb} (threads : ThreadsOk userRes n p b pcb)
    (ok : pcb.taskResAllocator.Ok) (small : ∀ t r, userRes t = some r → t < n) :
    ThreadsOk
      (Function.update userRes n (some ⟨pcb.taskResAllocator.alloc.1, b * 4096, p⟩)) (n + 1) p b
      ⟨(pcb.tasks ++ List.replicate (pcb.taskResAllocator.alloc.1 + 1 - pcb.tasks.length) none).set
        pcb.taskResAllocator.alloc.1 (some n), pcb.taskResAllocator.alloc.2⟩ := by
  obtain ⟨-, free, inUse⟩ := ok.alloc
  generalize pcb.taskResAllocator.alloc.1 = tid at *
  refine ⟨fun t r isRes here => ?_, fun other used => ?_, fun i t isTask => ?_⟩
  · rcases update_eq_some_iff.mp isRes with ⟨rfl, isNew⟩ | ⟨-, isOld⟩
    · obtain rfl := Option.some.inj isNew
      refine ⟨rfl, (inUse _).mpr (.inr rfl), List.getElem?_set_self ?_⟩
      rw [List.length_append, List.length_replicate]
      omega
    · obtain ⟨base, used, place⟩ := threads.res t r isOld here
      refine ⟨base, (inUse _).mpr (.inl used), ?_⟩
      rw [List.getElem?_set_ne, List.getElem?_append_left (threads.length _ used), place]
      rintro rfl
      exact free used
  · simp only [List.length_set, List.length_append, List.length_replicate]
    rcases (inUse other).mp used with used | rfl
    · have length := threads.length other used
      omega
    · omega
  · rw [List.getElem?_set] at isTask
    split at isTask
    · next same =>
      subst same
      split at isTask
      · obtain rfl : n = t := by simpa using isTask
        refine ⟨Nat.lt_succ_self _, fun r isRes => ?_⟩
        rw [Function.update_self, Option.some.injEq] at isRes
        subst isRes
        exact ⟨rfl, rfl⟩
      · exact absurd isTask (by simp)
    · have isOld : pcb.tasks[i]? = some (some t) := by
        rw [List.getElem?_append] at isTask
        split at isTask
        · exact isTask
        · rw [List.getElem?_replicate] at isTask
          split at isTask <;> simp at isTask
      obtain ⟨below, res⟩ := threads.tasks i t isOld
      refine ⟨below.trans (Nat.lt_succ_self _), fun r isRes => ?_⟩
      rw [Function.update_of_ne below.ne] at isRes
      exact res r isRes

/-- The main thread of a process without other threads gets another `ustack_base`. -/
theorem ThreadsOk.rebase {pcb : ThreadPcb} {main : Nat} {r : TaskUserRes}
    (threads : ThreadsOk userRes n p b pcb) (single : pcb.tasks.length = 1)
    (isMain : pcb.tasks[0]? = some (some main)) (isRes : userRes main = some r) (b' : Nat) :
    ThreadsOk (Function.update userRes main (some { r with ustackBase := b' * 4096 }))
    n p b' pcb := by
  obtain ⟨isMainTid, isHere⟩ := (threads.tasks 0 main isMain).2 r isRes
  refine ⟨fun t r' isOther here => ?_, threads.length, fun tid t isTask => ?_⟩
  · rcases update_eq_some_iff.mp isOther with ⟨rfl, isNew⟩ | ⟨differ, isOld⟩
    · obtain rfl := Option.some.inj isNew
      exact ⟨rfl, (threads.res t r isRes isHere).2⟩
    · -- only the id 0 is in use, so there is no other one
      have below := threads.length _ (threads.res t r' isOld here).2.1
      exact absurd (threads.distinct isOld isRes here isHere (by omega)) differ
  · obtain ⟨small, res⟩ := threads.tasks tid t isTask
    refine ⟨small, fun r' isOther => ?_⟩
    rcases update_eq_some_iff.mp isOther with ⟨rfl, isNew⟩ | ⟨-, isOld⟩
    · obtain rfl := Option.some.inj isNew
      exact res r isRes
    · exact res r' isOld

end Parts

end CoreFromDust.Os.Mm
