import CoreFromDust.Os.Mm.Proofs.Evolution
import CoreFromDust.Os.Mm.Proofs.ThreadSteps

/-!
# What threads do to the machine

Each event of threads and processes is an evolution of the machine that touches the address space of
the process that it is about, and `KERNEL_SPACE` when a kernel stack comes or goes.
-/

namespace CoreFromDust.Os.Mm

open CoreFromDust.Lib SpaceWf

namespace ThreadMachine

/-- The name is that of the address space of the process of the thread. -/
def isSpaceOf (k : ThreadMachine) (id : SpaceId) (t : Nat) : Bool :=
  (k.tcbs t).any fun tcb => id = .user tcb.process

/-- The event changes the address space, or what is in its frames. -/
def touches (k : ThreadMachine) (id : SpaceId) : ThreadEvent → Bool
  | .new _ | .fork _ => id = .kernel || id = .user k.nextProc
  | .exec t _ | .exit t _ => k.isSpaceOf id t
  | .threadCreate t | .dropTcb t => id = .kernel || k.isSpaceOf id t
  | .recycle => k.recycling.any fun (p, _) => id = .user p
  | .waittid _ _ => false
  | .dropPcb p => id = .user p
  | .store other _ _ _ => id = other

/-- What is in `recycle_res` are resources of the process that is about to become a zombie. -/
def RecyclesOwn (k : ThreadMachine) : Prop :=
  ∀ p ts, k.recycling = some (p, ts) → ∀ t ∈ ts, ∀ r, k.userRes t = some r → r.process = p

end ThreadMachine

section Steps

variable {l tramp : Nat} {layout : KernelLayout} {k k' : ThreadMachine} {p t : Nat}
  {set set' : MemorySet} {s s' phys : Phys} {elf : Elf} {touched : SpaceId → Prop}

/-! ## Areas -/

theorem insertArea_step {startVa endVa : Nat} {permission : MapPermission} (wf : set.Wf l tramp s)
    (h : set.insertArea s (virtAddr startVa) (virtAddr endVa) permission = .ok (s', set')) :
    SpaceStep l tramp s s' set set' := by
  unfold MemorySet.insertArea at h
  split at h
  · exact absurd h (by simp)
  · exact insertFramedArea_step wf (orError_ok h)

theorem insertUserRes_step {ustackBase tid : Nat} (wf : set.Wf l tramp s)
    (h : set.insertUserRes s ustackBase tid = .ok (s', set')) :
    SpaceStep l tramp s s' set set' := by
  obtain ⟨⟨phys, withStack⟩, isStack, h⟩ := bind_ok h
  have first := insertArea_step wf isStack
  exact first.trans (insertArea_step first.wf h)

theorem removeKstack_step {kstack : Nat} (wf : set.Wf l tramp s)
    (h : set.removeKstack s kstack = some (s', set')) : SpaceStep l tramp s s' set set' := by
  obtain ⟨vpn, -, h⟩ := Option.bind_eq_some_iff.mp h
  exact removeArea_step wf h

theorem deallocUserRes_step {ustackBase tid : Nat} (wf : set.Wf l tramp s)
    (h : set.deallocUserRes s ustackBase tid = some (s', set')) :
    SpaceStep l tramp s s' set set' := by
  obtain ⟨vpn, -, h⟩ := Option.bind_eq_some_iff.mp h
  obtain ⟨⟨phys, without⟩, isStack, h⟩ := Option.bind_eq_some_iff.mp h
  obtain ⟨vpn', -, h⟩ := Option.bind_eq_some_iff.mp h
  have first := removeArea_step wf isStack
  exact first.trans (removeArea_step first.wf h)

namespace ThreadMachine

/-! ## New threads -/

/-- What happens to the machine leaves `recycle_res` as it is. -/
structure Acts (l tramp : Nat) (touched : SpaceId → Prop) (k k' : ThreadMachine) : Prop where
  machine : Evolves l tramp touched k.machine k'.machine
  recycling : k'.recycling = k.recycling

theorem Acts.mono {touched' : SpaceId → Prop} (acts : Acts l tramp touched k k')
    (more : ∀ id, touched id → touched' id) : Acts l tramp touched' k k' :=
  ⟨acts.machine.mono more, acts.recycling⟩

theorem Acts.trans {k'' : ThreadMachine} (first : Acts l tramp touched k k')
    (second : Acts l tramp touched k' k'') : Acts l tramp touched k k'' :=
  ⟨first.machine.trans second.machine, second.recycling.trans first.recycling⟩

theorem kstackAlloc_acts {kstack : Nat} (inv : Machine.Inv l tramp k.machine)
    (isLive : k.machine.live .kernel = some set) (h : k.kstackAlloc = .ok (kstack, k')) :
    Acts l tramp (fun id => id = .kernel) k k' := by
  obtain ⟨kernel, isKernel, h⟩ := orError_bind_ok h
  obtain ⟨⟨phys, kernel'⟩, isInserted, h⟩ := map_ok h
  obtain ⟨-, rfl⟩ := Prod.mk.inj h
  obtain rfl := Option.some.inj ((memorySet_of_live isLive).symm.trans isKernel)
  simp only [putSpace_of_live isLive]
  exact ⟨.ofStep inv isLive (insertArea_step (inv.wf isLive) isInserted) rfl, rfl⟩

theorem allocUserRes_acts {res : TaskUserRes} (inv : Machine.Inv l tramp k.machine)
    (isSome : (k.machine.live (.user res.process)).isSome) (h : k.allocUserRes res = .ok k') :
    Acts l tramp (fun id => id = .user res.process) k k' := by
  obtain ⟨set, isLive⟩ := Option.isSome_iff_exists.mp isSome
  obtain ⟨other, isSet, h⟩ := orError_bind_ok h
  obtain ⟨⟨phys, set'⟩, isInserted, rfl⟩ := map_ok h
  obtain rfl := Option.some.inj ((memorySet_of_live isLive).symm.trans isSet)
  simp only [putSpace_of_live isLive]
  exact ⟨.ofStep inv isLive (insertUserRes_step (inv.wf isLive) isInserted) rfl, rfl⟩

theorem newUserRes_acts {ustackBase : Nat} {alloc : Bool} (inv : Machine.Inv l tramp k.machine)
    (isLive : k.machine.live (.user p) = some set) (h : k.newUserRes p ustackBase alloc = .ok k') :
    Acts l tramp (fun id => id = .user p) k k' := by
  obtain ⟨pcb, -, h⟩ := orError_bind_ok h
  obtain ⟨last, isLast, rfl⟩ := map_ok h
  cases alloc with
  | true =>
      rw [if_pos rfl] at isLast
      have isSome : (k.machine.live (.user p)).isSome := by
        rw [isLive]
        rfl
      obtain ⟨machine, recycling⟩ := allocUserRes_acts (k := k.putPcb p (some { pcb with
        taskResAllocator := pcb.taskResAllocator.alloc.2 })) inv (by exact isSome) isLast
      exact ⟨machine, recycling⟩
  | false =>
      obtain rfl := Except.ok.inj isLast
      exact ⟨.refl, rfl⟩

theorem finishTask_acts (inv : Machine.Inv l tramp k.machine)
    (isLive : k.machine.live .kernel = some set) (h : k.finishTask p = .ok (t, k')) :
    Acts l tramp (fun id => id = .kernel) k k' := by
  obtain ⟨res, -, h⟩ := orError_bind_ok h
  obtain ⟨_, -, h⟩ := orError_bind_ok h
  obtain ⟨_, -, h⟩ := orError_bind_ok h
  obtain ⟨⟨kstack, last⟩, isAlloc, h⟩ := map_ok h
  obtain ⟨-, rfl⟩ := Prod.mk.inj h
  obtain ⟨machine, recycling⟩ := kstackAlloc_acts inv isLive isAlloc
  exact ⟨machine, recycling⟩

theorem newTask_acts {ustackBase : Nat} {alloc : Bool} {kernel : MemorySet}
    (inv : Machine.Inv l tramp k.machine) (isLive : k.machine.live (.user p) = some set)
    (isKernel : k.machine.live .kernel = some kernel)
    (h : k.newTask p ustackBase alloc = .ok (t, k')) :
    Acts l tramp (fun id => id = .kernel ∨ id = .user p) k k' := by
  obtain ⟨last, isRes, h⟩ := bind_ok h
  have first := newUserRes_acts inv isLive isRes
  have same : last.machine.spaces .kernel = k.machine.spaces .kernel :=
    (first.machine.kept inv (by simp)).1
  have second :=
    finishTask_acts (first.machine.inv inv) ((Machine.live_congr same).trans isKernel) h
  exact (first.mono fun id => .inr).trans (second.mono fun id => .inl)

/-- The first thread of a new process. -/
theorem firstTask_acts {ustackBase : Nat} {alloc : Bool}
    (ordered : k.Ordered l tramp fun _ => False)
    (changes : Changes l k.machine.phys phys [] set.own) (wf : set.Wf l tramp phys)
    (framed : set.Framed) (h : ((k.newPcb phys set).newTask k.nextProc ustackBase alloc).bind
      (fun (t, last) => orPanic (last.pushTask k.nextProc t)) = .ok k') :
    Acts l tramp (fun id => id = .kernel ∨ id = .user k.nextProc) k k' := by
  obtain ⟨⟨t, last⟩, isTask, h⟩ := bind_ok h
  obtain ⟨pcb, -, rfl⟩ := Option.map_eq_some_iff.mp (orError_ok h)
  have first :
      Acts l tramp (fun id => id = .kernel ∨ id = .user k.nextProc) k (k.newPcb phys set) :=
    ⟨.ofNew (ordered.users.fresh _ (Nat.le_refl _)) changes wf framed (.inr rfl), rfl⟩
  obtain ⟨kernel, isKernel, -⟩ := ordered.kernel.kernel
  have same : (k.newPcb phys set).machine.live .kernel = some kernel :=
    (Machine.live_congr (k.machine.put_spaces_of_ne _ _ (by simp))).trans isKernel
  have second :=
    newTask_acts (first.machine.inv ordered.machine) (Machine.live_put _ _ _ _) same isTask
  obtain ⟨machine, recycling⟩ := first.trans second
  exact ⟨machine, recycling⟩

theorem newProcess_acts (ordered : k.Ordered l tramp fun _ => False) (above : Above layout l tramp)
    (h : k.newProcess layout elf = .ok k') :
    Acts l tramp (fun id => id = .kernel ∨ id = .user k.nextProc) k k' := by
  obtain ⟨⟨phys, set, ustackBase, entryPoint⟩, isElf, h⟩ := orError_bind_ok h
  obtain ⟨wf, framed, changes⟩ :=
    fromElf_spec ordered.machine.ok above.small above.low above.isTramp isElf
  exact firstTask_acts ordered changes wf framed h

theorem fork_acts (ordered : k.Ordered l tramp fun _ => False) (above : Above layout l tramp)
    (h : k.fork layout t = .ok k') :
    Acts l tramp (fun id => id = .kernel ∨ id = .user k.nextProc) k k' := by
  obtain ⟨⟨tcb, _⟩, isCurrent, h⟩ := orError_bind_ok h
  obtain ⟨parent, -, h⟩ := orError_bind_ok h
  split at h
  · obtain ⟨-, -, -, -, set, isLive⟩ := ordered.unwrapRes isCurrent
    obtain ⟨set', isSet, h⟩ := orError_bind_ok h
    obtain rfl := Option.some.inj ((memorySet_of_live isLive).symm.trans isSet)
    obtain ⟨⟨phys, copy⟩, isCopy, h⟩ := orError_bind_ok h
    obtain ⟨⟨_, res⟩, -, h⟩ := orError_bind_ok h
    obtain ⟨-, wf, framed, changes⟩ := fromExistedUser_spec (ordered.machine.wf isLive)
      ((ordered.machine.live isLive).2.framed (by simp)) above.small above.isTramp isCopy
    exact firstTask_acts ordered changes wf framed h
  · exact absurd h (by simp)

/-- `exec` touches the address space of its process only. -/
theorem exec_acts (ordered : k.Ordered l tramp fun _ => False) (above : Above layout l tramp)
    (h : k.exec layout t elf = .ok k') : Acts l tramp (fun id => k.isSpaceOf id t) k k' := by
  obtain ⟨⟨tcb, _⟩, isCurrent, h⟩ := orError_bind_ok h
  obtain ⟨pcb, isPcb, h⟩ := orError_bind_ok h
  split at h
  · next single =>
    obtain ⟨isTcb, -, -, -, old, isLive⟩ := ordered.unwrapRes isCurrent
    obtain ⟨old', isSet, h⟩ := orError_bind_ok h
    obtain ⟨⟨built, set, ustackBase, entryPoint⟩, isElf, h⟩ := orError_bind_ok h
    obtain ⟨dropped, isDropped, h⟩ := orError_bind_ok h
    obtain ⟨main, isMain, h⟩ := orError_bind_ok h
    obtain ⟨⟨mainTcb, res⟩, isRes, h⟩ := orError_bind_ok h
    obtain ⟨last, isAlloc, h⟩ := bind_ok h
    obtain ⟨_, -, h⟩ := orError_bind_ok h
    obtain ⟨_, -, rfl⟩ := orError_map_ok h
    obtain rfl := Option.some.inj ((memorySet_of_live isLive).symm.trans isSet)
    -- the main thread is one of this process
    obtain ⟨b, ok⟩ := ordered.users.process isPcb isLive
    have isHere := ((ok.threads.tasks 0 main (Option.join_eq_some_iff.mp isMain)).2 res
      (unwrapRes_spec isRes).2.2).2
    obtain ⟨found, spaceOk⟩ := ordered.machine.live isLive
    have replaced := ordered.machine.replaced above isLive isElf isDropped
    have only : ∀ id, id = .user tcb.process → k.isSpaceOf id t := by
      rintro _ rfl
      simp [isSpaceOf, isTcb]
    have first : Evolves l tramp (fun id => k.isSpaceOf id t) k.machine
        (k.machine.put dropped (.user tcb.process) (some ⟨set, false⟩)) := by
      refine .put _ _ .refl (only _ rfl) (by
        rw [found]
        exact replaced.builds.replace spaceOk.own_inUse replaced.drops) ?_
      rintro space isSpace
      obtain rfl := Option.some.inj isSpace
      exact ⟨fun _ => replaced.wfDropped, by simp, fun _ => replaced.framed⟩
    simp only [putSpace_of_live isLive] at isAlloc
    obtain ⟨second, recycling⟩ := allocUserRes_acts (first.inv ordered.machine) (by
      rw [isHere]
      exact Machine.live_put_isSome _ _ _ _) isAlloc
    refine ⟨first.trans (second.mono fun id same => only id ?_), recycling⟩
    rw [same, isHere]
  · exact absurd h (by simp)

theorem sysThreadCreate_acts (ordered : k.Ordered l tramp fun _ => False)
    (h : k.sysThreadCreate t = .ok k') :
    Acts l tramp (fun id => id = .kernel ∨ k.isSpaceOf id t = true) k k' := by
  obtain ⟨⟨tcb, res⟩, isCurrent, h⟩ := orError_bind_ok h
  obtain ⟨⟨new, last⟩, isTask, h⟩ := bind_ok h
  obtain ⟨_, -, h⟩ := orError_bind_ok h
  obtain ⟨pcb, -, rfl⟩ := orError_map_ok h
  obtain ⟨isTcb, -, -, -, set, isLive⟩ := ordered.unwrapRes isCurrent
  obtain ⟨kernel, isKernel, -⟩ := ordered.kernel.kernel
  obtain ⟨machine, recycling⟩ := newTask_acts ordered.machine isLive isKernel isTask
  refine ⟨machine.mono fun id => Or.imp_right ?_, recycling⟩
  rintro rfl
  simp [isSpaceOf, isTcb]

/-! ## The end of threads -/

theorem dropUserRes_acts {r : TaskUserRes} (inv : Machine.Inv l tramp k.machine)
    (isRes : k.userRes t = some r) (isLive : k.machine.live (.user r.process) = some set)
    (h : k.dropUserRes t = some k') : Acts l tramp (fun id => id = .user r.process) k k' := by
  obtain ⟨res, isRes', h⟩ := Option.bind_eq_some_iff.mp h
  obtain rfl := Option.some.inj (isRes.symm.trans isRes')
  obtain ⟨pcb, -, h⟩ := Option.bind_eq_some_iff.mp h
  obtain ⟨allocator, -, h⟩ := Option.bind_eq_some_iff.mp h
  obtain ⟨other, isSet, h⟩ := Option.bind_eq_some_iff.mp h
  obtain ⟨⟨phys, set'⟩, isDropped, rfl⟩ := Option.map_eq_some_iff.mp h
  obtain rfl := Option.some.inj ((memorySet_of_live isLive).symm.trans isSet)
  have isLive' : (k.putPcb r.process (some { pcb with taskResAllocator := allocator })).machine.live
      (.user r.process) = some set := isLive
  simp only [putSpace_of_live isLive']
  exact ⟨.ofStep inv isLive (deallocUserRes_step (inv.wf isLive) isDropped) rfl, rfl⟩

/-- No `TaskUserRes` comes up. -/
theorem dropUserRes_fewer {u : Nat} {r : TaskUserRes} (h : k.dropUserRes t = some k')
    (isRes : k'.userRes u = some r) : k.userRes u = some r := by
  obtain ⟨res, -, h⟩ := Option.bind_eq_some_iff.mp h
  obtain ⟨pcb, -, h⟩ := Option.bind_eq_some_iff.mp h
  obtain ⟨allocator, -, h⟩ := Option.bind_eq_some_iff.mp h
  obtain ⟨set, -, h⟩ := Option.bind_eq_some_iff.mp h
  obtain ⟨⟨phys, set'⟩, -, rfl⟩ := Option.map_eq_some_iff.mp h
  rcases update_eq_some_iff.mp isRes with ⟨-, absent⟩ | ⟨-, isOld⟩
  · exact absurd absent (by simp)
  · exact isOld

theorem dropKstack_acts {kstack : Nat} (inv : Machine.Inv l tramp k.machine)
    (isLive : k.machine.live .kernel = some set) (h : k.dropKstack kstack = some k') :
    Acts l tramp (fun id => id = .kernel) k k' ∧ k'.userRes = k.userRes := by
  obtain ⟨kernel, isKernel, h⟩ := Option.bind_eq_some_iff.mp h
  obtain ⟨⟨phys, kernel'⟩, isRemoved, h⟩ := Option.bind_eq_some_iff.mp h
  obtain ⟨allocator, -, rfl⟩ := Option.map_eq_some_iff.mp h
  obtain rfl := Option.some.inj ((memorySet_of_live isLive).symm.trans isKernel)
  simp only [putSpace_of_live isLive]
  exact ⟨⟨.ofStep inv isLive (removeKstack_step (inv.wf isLive) isRemoved) rfl, rfl⟩, rfl⟩

theorem takeUserRes_spec {ts recycleRes : List Nat} (h : k.takeUserRes ts = some (recycleRes, k')) :
    k'.machine = k.machine ∧ k'.userRes = k.userRes ∧ ∀ u ∈ recycleRes, u ∈ ts := by
  induction ts generalizing k recycleRes with
  | nil =>
      obtain ⟨rfl, rfl⟩ := Prod.mk.inj (Option.some.inj h)
      exact ⟨rfl, rfl, fun _ mem => mem⟩
  | cons t rest ih =>
      obtain ⟨tcb, -, h⟩ := Option.bind_eq_some_iff.mp h
      obtain ⟨⟨later, last⟩, taken, h⟩ := Option.map_eq_some_iff.mp h
      obtain ⟨rfl, rfl⟩ := Prod.mk.inj h
      obtain ⟨machine, userRes, only⟩ := ih taken
      refine ⟨machine, userRes, fun u mem => ?_⟩
      rcases List.mem_append.mp mem with isFirst | isLater
      · split at isFirst
        · rw [List.mem_singleton.mp isFirst]
          exact List.mem_cons_self
        · exact absurd isFirst List.not_mem_nil
      · exact List.mem_cons_of_mem _ (only u isLater)

/-! ## All steps -/

theorem exitCurrent_evolves {exitCode : Int} (ordered : k.Ordered l tramp fun _ => False)
    (idle : k.recycling = none) (h : k.exitCurrent t exitCode = some k') :
    Evolves l tramp (fun id => k.touches id (.exit t exitCode)) k.machine k'.machine ∧
    k'.RecyclesOwn := by
  obtain ⟨⟨tcb, res⟩, isCurrent, h⟩ := Option.bind_eq_some_iff.mp h
  obtain ⟨dropped, isDropped, h⟩ := Option.bind_eq_some_iff.mp h
  obtain ⟨isTcb, -, isRes, isHere, set, isLive⟩ := ordered.unwrapRes isCurrent
  have isLive' := isLive
  rw [← isHere] at isLive'
  obtain ⟨first, recycling⟩ := dropUserRes_acts
    (k := k.putTcb t (some { tcb with res := false, exitCode := some exitCode }))
    ordered.machine isRes isLive' isDropped
  have evolves :
      Evolves l tramp (fun id => k.touches id (.exit t exitCode)) k.machine dropped.machine := by
    refine first.mono ?_
    rintro _ rfl
    simp [touches, isSpaceOf, isTcb, isHere]
  split at h
  · obtain ⟨pcb, isPcb, h⟩ := Option.bind_eq_some_iff.mp h
    obtain ⟨⟨recycleRes, taken⟩, isTaken, rfl⟩ := Option.map_eq_some_iff.mp h
    obtain ⟨machine, userRes, only⟩ := takeUserRes_spec isTaken
    refine ⟨by rwa [← machine] at evolves, ?_⟩
    intro p ts isRecycling u mem r isOther
    obtain ⟨rfl, rfl⟩ := Prod.mk.inj (Option.some.inj isRecycling)
    have isOther : taken.userRes u = some r := isOther
    rw [userRes] at isOther
    -- every thread in `tasks` is one of the process
    have exited :
        (k.putTcb t (some { tcb with res := false, exitCode := some exitCode })).Ordered l tramp
        (fun v => v = t) :=
      ordered.release isTcb rfl rfl rfl (fun _ => False.elim) (fun _ => .inr) fun _ => rfl
    obtain ⟨orderedDropped, -, -, -, staysLive⟩ := exited.dropUserRes (fun _ => False) isDropped rfl
      (fun _ => False.elim) fun v differ same => differ same
    obtain ⟨set', isLive'⟩ := Option.isSome_iff_exists.mp (staysLive tcb.process (by
      rw [show (k.putTcb t _).machine = k.machine from rfl, isLive]
      rfl))
    obtain ⟨b, ok⟩ := orderedDropped.users.process isPcb isLive'
    obtain ⟨tid, isTask⟩ := List.mem_iff_getElem?.mp (List.reduceOption_mem_iff.mp (only u mem))
    exact ((ok.threads.tasks tid u isTask).2 r isOther).2
  · obtain rfl := Option.some.inj h
    refine ⟨evolves, ?_⟩
    rw [RecyclesOwn, recycling]
    change ∀ p ts, k.recycling = some (p, ts) → _
    rw [idle]
    simp

theorem sysWaittid_acts {tid : Nat} (h : k.sysWaittid t tid = some k') :
    Acts l tramp (fun _ => False) k k' := by
  obtain ⟨⟨tcb, res⟩, -, h⟩ := Option.bind_eq_some_iff.mp h
  obtain ⟨pcb, -, h⟩ := Option.bind_eq_some_iff.mp h
  split at h
  · obtain rfl := Option.some.inj h
    exact ⟨.refl, rfl⟩
  · obtain ⟨waited, -, h⟩ := Option.bind_eq_some_iff.mp h
    cases waited with
    | none =>
        obtain rfl := Option.some.inj h
        exact ⟨.refl, rfl⟩
    | some waited =>
        obtain ⟨waitedTcb, -, rfl⟩ := Option.map_eq_some_iff.mp h
        split <;> exact ⟨.refl, rfl⟩

theorem dropTcb_acts (ordered : k.Ordered l tramp fun _ => False) (h : k.dropTcb t = some k') :
    Acts l tramp (fun id => id = .kernel ∨ k.isSpaceOf id t = true) k k' := by
  obtain ⟨tcb, isTcb, h⟩ := Option.bind_eq_some_iff.mp h
  split at h
  · exact absurd h (by simp)
  · obtain ⟨dropped, isDropped, h⟩ := Option.bind_eq_some_iff.mp h
    obtain ⟨kernel, isKernel, -⟩ := ordered.kernel.kernel
    obtain ⟨first, sameRes⟩ := dropKstack_acts ordered.machine isKernel isDropped
    have first' : Acts l tramp (fun id => id = .kernel ∨ k.isSpaceOf id t = true) k dropped :=
      first.mono fun _ => .inl
    split at h
    · obtain ⟨r, isRes, -⟩ := Option.bind_eq_some_iff.mp h
      have isOld : k.userRes t = some r := by
        rw [← sameRes]
        exact isRes
      obtain ⟨tcb', isTcb', isHere, -⟩ := ordered.holder t r isOld
      obtain rfl := Option.some.inj (isTcb.symm.trans isTcb')
      obtain ⟨set, isLive⟩ := Option.isSome_iff_exists.mp (ordered.users.res t r isOld).1
      have same : dropped.machine.spaces (.user r.process) = k.machine.spaces (.user r.process) :=
        (first.machine.kept ordered.machine (by simp)).1
      obtain ⟨second, recycling⟩ := dropUserRes_acts (k := dropped.putTcb t none)
        (first.machine.inv ordered.machine) isRes ((Machine.live_congr same).trans isLive) h
      refine first'.trans ⟨second.mono ?_, recycling⟩
      rintro _ rfl
      simp [isSpaceOf, isTcb, isHere]
    · obtain rfl := Option.some.inj h
      exact ⟨first'.machine, first'.recycling⟩

theorem dropPcb_acts (ordered : k.Ordered l tramp fun _ => False) (h : k.dropPcb p = some k') :
    Acts l tramp (fun id => id = .user p) k k' := by
  obtain ⟨space, isSpace, h⟩ := Option.bind_eq_some_iff.mp h
  split at h
  · obtain ⟨phys, isDropped, rfl⟩ := Option.map_eq_some_iff.mp h
    have ok := ordered.machine.space _ space isSpace
    obtain ⟨dropped, isDropped', changes⟩ := drop_spec ordered.machine.ok ok.own_nodup ok.own_inUse
    rw [isDropped, Option.some.injEq] at isDropped'
    subst isDropped'
    exact ⟨.put _ none .refl rfl (by rw [isSpace]; exact changes) (by simp), rfl⟩
  · exact absurd h (by simp)

theorem recycle_evolves (inv : k.Inv l tramp) (own : k.RecyclesOwn) (h : k.recycle = some k') :
    Evolves l tramp (fun id => k.touches id .recycle) k.machine k'.machine ∧ k'.RecyclesOwn := by
  obtain ⟨⟨process, ts⟩, isRecycling, h⟩ := Option.bind_eq_some_iff.mp h
  obtain ⟨set, isLive⟩ := Option.isSome_iff_exists.mp (inv.recycling process ts isRecycling).1
  have machine := inv.ordered.machine
  have only : ∀ id, id = .user process → k.touches id .recycle := by
    rintro _ rfl
    simp [touches, isRecycling]
  cases ts with
  | cons t rest =>
      obtain ⟨dropped, isDropped, rfl⟩ := Option.map_eq_some_iff.mp h
      obtain ⟨r, isRes, -⟩ := Option.bind_eq_some_iff.mp isDropped
      have isHere := own process _ isRecycling t List.mem_cons_self r isRes
      rw [← isHere] at isLive only
      refine ⟨(dropUserRes_acts machine isRes isLive isDropped).machine.mono only, ?_⟩
      rintro p us isRest u mem r' isRes'
      obtain ⟨rfl, rfl⟩ := Prod.mk.inj (Option.some.inj isRest)
      exact own process _ isRecycling u (List.mem_cons_of_mem _ mem) r'
        (dropUserRes_fewer isDropped isRes')
  | nil =>
      obtain ⟨pcb, -, h⟩ := Option.bind_eq_some_iff.mp h
      obtain ⟨other, isSet, h⟩ := Option.bind_eq_some_iff.mp h
      obtain ⟨⟨phys, set'⟩, isRecycled, rfl⟩ := Option.map_eq_some_iff.mp h
      obtain rfl := Option.some.inj ((memorySet_of_live isLive).symm.trans isSet)
      obtain ⟨found, ok⟩ := machine.live isLive
      have wf : set.Wf l tramp k.machine.phys := ok.wf rfl
      obtain ⟨recycled, isRecycled', changes⟩ := recycleDataPages_spec wf
      rw [isRecycled] at isRecycled'
      obtain ⟨rfl, rfl⟩ := Prod.mk.inj (Option.some.inj isRecycled')
      refine ⟨.put _ _ .refl (only _ rfl) ?_ ?_, by simp [RecyclesOwn]⟩
      · rw [found]
        refine changes.congr (fun _ => Iff.rfl) fun ppn => ?_
        rw [ownOf, own_of_areas_nil rfl]
      · rintro space isSpace
        obtain rfl := Option.some.inj isSpace
        refine ⟨by simp,
          fun _ => ⟨rfl, wf.table.tree.nodup, fun ppn mem => changes.mem_inUse mem⟩, ?_⟩
        exact fun _ other mem => absurd mem List.not_mem_nil

/-- Every event touches the address spaces that it says it does. -/
theorem Inv.step_evolves (inv : k.Inv l tramp) (own : k.RecyclesOwn) (above : Above layout l tramp)
    {event : ThreadEvent} (h : k.step layout event = .ok k') :
    Evolves l tramp (fun id => k.touches id event) k.machine k'.machine ∧ k'.RecyclesOwn := by
  unfold ThreadMachine.step at h
  split at h
  · cases event with
    | recycle => exact recycle_evolves inv own (orError_ok h)
    | _ => exact absurd h (by simp)
  · next notRecycling =>
    have idle : k.recycling = none := by simpa using notRecycling
    have ordered := inv.idle idle
    -- `recycle_res` stays empty
    have stays : ∀ {touched : SpaceId → Prop}, Acts l tramp touched k k' →
        (∀ id, touched id → k.touches id event = true) →
        Evolves l tramp (fun id => k.touches id event) k.machine k'.machine ∧ k'.RecyclesOwn := by
      intro touched acts only
      refine ⟨acts.machine.mono only, ?_⟩
      rw [RecyclesOwn, acts.recycling, idle]
      simp
    cases event with
    | new elf => exact stays (newProcess_acts ordered above h) (by simp [touches])
    | fork t => exact stays (fork_acts ordered above h) (by simp [touches])
    | exec t elf => exact stays (exec_acts ordered above h) (by simp [touches])
    | threadCreate t => exact stays (sysThreadCreate_acts ordered h) (by simp [touches])
    | exit t exitCode => exact exitCurrent_evolves ordered idle (orError_ok h)
    | recycle => exact absurd h (by simp)
    | waittid t tid => exact stays (sysWaittid_acts (orError_ok h)) (by simp)
    | dropTcb t => exact stays (dropTcb_acts ordered (orError_ok h)) (by simp [touches])
    | dropPcb process => exact stays (dropPcb_acts ordered (orError_ok h)) (by simp [touches])
    | store id vpn offset byte =>
        obtain ⟨machine, stores, rfl⟩ := orError_map_ok h
        exact stays ⟨.ofStore ordered.machine above stores, rfl⟩ (by simp [touches])

end ThreadMachine

end Steps

end CoreFromDust.Os.Mm
