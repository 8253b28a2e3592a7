import Mathlib.Data.List.ReduceOption
import CoreFromDust.Os.Mm.Proofs.ThreadInv

/-!
# The end of threads

What is done when threads and processes end keeps the invariant.
-/

namespace CoreFromDust.Os.Mm

open CoreFromDust.Lib SpaceWf

section Steps

variable {l tramp n p b nextProc : Nat} {layout : KernelLayout} {machine : Machine}
  {pcbs : Nat → Option ThreadPcb} {userRes : Nat → Option TaskUserRes}
  {k k' : ThreadMachine} {t : Nat}
  {set : MemorySet} {phys : Phys} {pcb : ThreadPcb} {loose loose' : Nat → Prop}

theorem UserInv.below (users : UserInv machine pcbs userRes nextProc n)
    (isLive : machine.live (.user p) = some set) : p < nextProc := by
  by_contra high
  have none := users.fresh p (Nat.le_of_not_lt high)
  rw [Machine.live_eq_some.mp isLive] at none
  exact absurd none (by simp)

/-- The process of a live address space. -/
theorem UserInv.process (users : UserInv machine pcbs userRes nextProc n)
    (isPcb : pcbs p = some pcb) (isLive : machine.live (.user p) = some set) :
    ∃ b, ProcessOk userRes n p b pcb set.areas := by
  obtain ⟨pcb', b, isPcb', ok⟩ := users.live p set isLive
  rw [isPcb, Option.some.injEq] at isPcb'
  subst isPcb'
  exact ⟨b, ok⟩

/-- The address space of a process becomes that of a zombie or is dropped, when it has no
`TaskUserRes` any more. -/
theorem UserInv.end {machine' : Machine} {pcbs' : Nat → Option ThreadPcb}
    (users : UserInv machine pcbs userRes nextProc n)
    (noRes : ∀ t r, userRes t = some r → r.process ≠ p) (below : p < nextProc)
    (gone : machine'.live (.user p) = none)
    (spaces : ∀ q, q ≠ p → machine'.spaces (.user q) = machine.spaces (.user q))
    (others : ∀ q, q ≠ p → pcbs' q = pcbs q) : UserInv machine' pcbs' userRes nextProc n := by
  refine users.put spaces others (fun _ _ _ => Iff.rfl) (fun u r isRes here => ?_)
    (Nat.le_refl _) below (Nat.le_refl _) fun last isLast => ?_
  · exact absurd here (noRes u r isRes)
  · rw [gone] at isLast
    exact absurd isLast (by simp)

namespace ThreadMachine

theorem memorySet_of_live {id : SpaceId} (isLive : k.machine.live id = some set) :
    k.memorySet id = some set := by
  rw [memorySet, Machine.live_eq_some.mp isLive]
  rfl

theorem putSpace_of_live {id : SpaceId} (isLive : k.machine.live id = some set) (phys : Phys)
    (set' : MemorySet) : k.putSpace id phys set' = k.addSpace id phys set' := by
  rw [putSpace, Machine.live_eq_some.mp isLive]
  rfl

theorem unwrapRes_spec {tcb : Tcb} {res : TaskUserRes} (h : k.unwrapRes t = some (tcb, res)) :
    k.tcbs t = some tcb ∧ tcb.res = true ∧ k.userRes t = some res := by
  obtain ⟨found, isTcb, h⟩ := Option.bind_eq_some_iff.mp h
  split at h
  · next holds =>
    obtain ⟨r, isRes, isPair⟩ := Option.map_eq_some_iff.mp h
    obtain ⟨rfl, rfl⟩ := Prod.mk.inj isPair
    exact ⟨isTcb, holds, isRes⟩
  · exact absurd h (by simp)

/-- A thread with its `TaskUserRes` belongs to a process with an address space. -/
theorem Ordered.unwrapRes (ordered : k.Ordered l tramp loose) {tcb : Tcb} {res : TaskUserRes}
    (h : k.unwrapRes t = some (tcb, res)) : k.tcbs t = some tcb ∧ tcb.res = true ∧
      k.userRes t = some res ∧ res.process = tcb.process ∧
      ∃ set, k.machine.live (.user tcb.process) = some set := by
  obtain ⟨isTcb, holds, isRes⟩ := unwrapRes_spec h
  obtain ⟨tcb', isTcb', isHere, -⟩ := ordered.holder t res isRes
  obtain rfl := Option.some.inj (isTcb.symm.trans isTcb')
  refine ⟨isTcb, holds, isRes, isHere.symm, ?_⟩
  rw [isHere]
  exact Option.isSome_iff_exists.mp (ordered.users.res t res isRes).1

theorem Inv.of_idle (ordered : k.Ordered l tramp fun _ => False) (idle : k.recycling = none) :
    k.Inv l tramp := by
  have none : k.Recycles = fun _ => False := by
    funext u
    simp [Recycles, idle]
  exact ⟨by rwa [none], by simp [idle]⟩

theorem Inv.idle (inv : k.Inv l tramp) (idle : k.recycling = none) :
    k.Ordered l tramp fun _ => False := by
  have none : k.Recycles = fun _ => False := by
    funext u
    simp [Recycles, idle]
  rw [← none]
  exact inv.ordered

/-! ## Dropped resources -/

/-- `TaskUserRes::drop` of a `TaskUserRes` that is loose. -/
theorem Ordered.dropUserRes (loose' : Nat → Prop) (ordered : k.Ordered l tramp loose)
    (h : k.dropUserRes t = some k') (isLoose : loose t) (fewer : ∀ u, loose' u → loose u)
    (others : ∀ u, u ≠ t → loose u → loose' u) :
    k'.Ordered l tramp loose' ∧ k'.userRes = Function.update k.userRes t none ∧ k'.tcbs = k.tcbs ∧
      k'.recycling = k.recycling ∧
      ∀ q, (k.machine.live (.user q)).isSome → (k'.machine.live (.user q)).isSome := by
  obtain ⟨res, isRes, h⟩ := Option.bind_eq_some_iff.mp h
  obtain ⟨pcb, isPcb, h⟩ := Option.bind_eq_some_iff.mp h
  obtain ⟨allocator, isDealloc, h⟩ := Option.bind_eq_some_iff.mp h
  obtain ⟨set, isSet, h⟩ := Option.bind_eq_some_iff.mp h
  obtain ⟨⟨phys, set'⟩, isDropped, rfl⟩ := Option.map_eq_some_iff.mp h
  obtain ⟨set₀, isLive⟩ := Option.isSome_iff_exists.mp (ordered.users.res t res isRes).1
  obtain rfl := Option.some.inj ((memorySet_of_live isLive).symm.trans isSet)
  obtain ⟨b, ok⟩ := ordered.users.process isPcb isLive
  rw [(ok.threads.res t res isRes rfl).1] at isDropped
  obtain ⟨step, placed, -⟩ :=
    ok.placed.deallocUserRes (ordered.machine.wf isLive) isDealloc isDropped
  have isLive' :
      (k.putPcb res.process (some { pcb with taskResAllocator := allocator })).machine.live
      (.user res.process) = some set₀ := isLive
  simp only [putSpace_of_live isLive']
  have old : ∀ u r, Function.update k.userRes t none u = some r → u ≠ t ∧ k.userRes u = some r := by
    intro u r isOther
    rcases update_eq_some_iff.mp isOther with ⟨-, absent⟩ | isOld
    · exact absurd absent (by simp)
    · exact isOld
  have otherSpaces : ∀ id, id ≠ .user res.process →
      (k.machine.put phys (.user res.process) (some ⟨set', false⟩)).spaces id =
      k.machine.spaces id :=
    fun id differ => k.machine.put_spaces_of_ne _ _ differ
  refine ⟨⟨ordered.machine.putStep isLive step, ?_,
    ordered.kernel.congr (Machine.live_congr (otherSpaces _ (by simp))), ?_, ?_⟩, rfl, rfl, rfl, ?_⟩
  · refine ordered.users.put (fun q differ => otherSpaces _ (by simpa using differ))
      (fun q differ => Function.update_of_ne differ _ _)
      (fun u r other => ⟨fun isOther => (old u r isOther).2, fun isOld => ?_⟩)
      (fun u r isOther here => ?_) (Nat.le_refl _) (ordered.users.below isLive) (Nat.le_refl _) ?_
    · refine update_eq_some_iff.mpr (.inr ⟨?_, isOld⟩)
      rintro rfl
      rw [isRes, Option.some.injEq] at isOld
      exact other (congrArg TaskUserRes.process isOld.symm)
    · have isOld := (old u r isOther).2
      exact ⟨Machine.live_put_isSome _ _ _ _, (ordered.users.res u r isOld).2,
        .inr ⟨r, isOld, here⟩⟩
    · intro last isLast
      obtain rfl := Option.some.inj ((Machine.live_put _ _ _ _).symm.trans isLast)
      exact ⟨_, b, Function.update_self _ _ _, ok.threads.remove isRes rfl isDealloc, placed⟩
  · intro u r isOther
    obtain ⟨differ, isOld⟩ := old u r isOther
    obtain ⟨tcb, isTcb, isHere, holder⟩ := ordered.holder u r isOld
    exact ⟨tcb, isTcb, isHere, holder.imp_right (others u differ)⟩
  · intro u tcb isTcb holds
    obtain ⟨isSome, running, notLoose⟩ := ordered.held u tcb isTcb holds
    have differ : u ≠ t := by
      rintro rfl
      exact notLoose isLoose
    refine ⟨?_, running, fun isLoose' => notLoose (fewer u isLoose')⟩
    change (Function.update k.userRes t none u).isSome
    rwa [Function.update_of_ne differ]
  · intro q isSome
    by_cases same : q = res.process
    · subst same
      exact Machine.live_put_isSome _ _ _ _
    · change ((k.machine.put phys (.user res.process) (some ⟨set', false⟩)).live _).isSome
      rwa [Machine.live_congr (otherSpaces _ (by simpa using same))]

/-- A TCB lets go of its `TaskUserRes`. -/
theorem Ordered.release (ordered : k.Ordered l tramp loose) {tcb tcb' : Tcb}
    (isTcb : k.tcbs t = some tcb)
    (sameProcess : tcb'.process = tcb.process) (sameKstack : tcb'.kstack = tcb.kstack)
    (released : tcb'.res = false) (more : ∀ u, loose u → loose' u)
    (only : ∀ u, loose' u → loose u ∨ u = t) (isLoose : tcb.res = true → loose' t) :
    (k.putTcb t (some tcb')).Ordered l tramp loose' := by
  refine ⟨ordered.machine, ordered.users, ordered.kernel.setTcb isTcb sameKstack,
    fun u r isRes => ?_, fun u other isOther holds => ?_⟩
  · obtain ⟨other, isOther, isHere, holder⟩ := ordered.holder u r isRes
    by_cases same : u = t
    · subst same
      obtain rfl := Option.some.inj (isTcb.symm.trans isOther)
      exact ⟨tcb', Function.update_self _ _ _, sameProcess.trans isHere,
        .inr (holder.elim isLoose (more u))⟩
    · exact ⟨other, (Function.update_of_ne same _ _).trans isOther, isHere,
        holder.imp_right (more u)⟩
  · rcases update_eq_some_iff.mp isOther with ⟨rfl, isNew⟩ | ⟨differ, isOld⟩
    · obtain rfl := Option.some.inj isNew
      rw [released] at holds
      exact absurd holds (by simp)
    · obtain ⟨isSome, running, notLoose⟩ := ordered.held u other isOld holds
      exact ⟨isSome, running, fun isLoose' => (only u isLoose').elim notLoose differ⟩

/-! ## The end of threads -/

/-- `exit_current_and_run_next` takes `res` of all threads. -/
theorem Ordered.takeUserRes {ts recycleRes : List Nat} (ordered : k.Ordered l tramp loose)
    (h : k.takeUserRes ts = some (recycleRes, k')) :
    k'.Ordered l tramp (fun u => loose u ∨ u ∈ recycleRes) ∧ k'.machine = k.machine ∧
      k'.userRes = k.userRes ∧ ∀ t ∈ ts, ∀ tcb, k.tcbs t = some tcb → tcb.res = true →
      t ∈ recycleRes := by
  induction ts generalizing k recycleRes loose with
  | nil =>
      obtain ⟨rfl, rfl⟩ := Prod.mk.inj (Option.some.inj h)
      exact ⟨by simpa using ordered, rfl, rfl, by simp⟩
  | cons t rest ih =>
      obtain ⟨tcb, isTcb, h⟩ := Option.bind_eq_some_iff.mp h
      obtain ⟨⟨later, last⟩, taken, h⟩ := Option.map_eq_some_iff.mp h
      obtain ⟨rfl, rfl⟩ := Prod.mk.inj h
      have released : (k.putTcb t (some { tcb with res := false })).Ordered l tramp
          (fun u => loose u ∨ u = t ∧ tcb.res = true) :=
        ordered.release isTcb rfl rfl rfl (fun _ => .inl) (fun u => Or.imp_right And.left)
          fun holds => .inr ⟨rfl, holds⟩
      obtain ⟨ordered', sameMachine, sameRes, all⟩ := ih released taken
      refine ⟨?_, sameMachine, sameRes, fun u mem other isOther holds => ?_⟩
      · have same : (fun u => (loose u ∨ u = t ∧ tcb.res = true) ∨ u ∈ later) =
            fun u => loose u ∨ u ∈ (if tcb.res then [t] else []) ++ later := by
          funext u
          split <;> simp_all [or_assoc]
        rwa [same] at ordered'
      · by_cases same : u = t
        · subst same
          obtain rfl := Option.some.inj (isTcb.symm.trans isOther)
          rw [holds]
          exact List.mem_cons_self
        · refine List.mem_append_right _ (all u ?_ other ?_ holds)
          · exact (List.mem_cons.mp mem).resolve_left same
          · exact (Function.update_of_ne same _ _).trans isOther

/-- `exit_current_and_run_next`. -/
theorem Ordered.exitCurrent (ordered : k.Ordered l tramp fun _ => False) (idle : k.recycling = none)
    {exitCode : Int} (h : k.exitCurrent t exitCode = some k') : k'.Inv l tramp := by
  obtain ⟨⟨tcb, res⟩, isRes, h⟩ := Option.bind_eq_some_iff.mp h
  obtain ⟨dropped, isDropped, h⟩ := Option.bind_eq_some_iff.mp h
  obtain ⟨isTcb, -, isRes, isHere, set, isLive⟩ := ordered.unwrapRes isRes
  have exited :
      (k.putTcb t (some { tcb with res := false, exitCode := some exitCode })).Ordered l tramp
      (fun u => u = t) :=
    ordered.release isTcb rfl rfl rfl (fun _ => False.elim) (fun _ => .inr) fun _ => rfl
  obtain ⟨orderedDropped, sameRes, sameTcbs, sameRecycling, staysLive⟩ :=
    exited.dropUserRes (fun _ => False) isDropped rfl (fun _ => False.elim)
      fun u differ same => differ same
  split at h
  · obtain ⟨pcb, isPcb, h⟩ := Option.bind_eq_some_iff.mp h
    obtain ⟨⟨recycleRes, taken⟩, isTaken, rfl⟩ := Option.map_eq_some_iff.mp h
    obtain ⟨orderedTaken, sameMachine, keptRes, all⟩ := orderedDropped.takeUserRes isTaken
    have loose : (fun u => False ∨ u ∈ recycleRes) = Recycles { taken with
        recycling := some (tcb.process, recycleRes) } := by
      funext u
      simp [Recycles]
    rw [loose] at orderedTaken
    have isSome : (taken.machine.live (.user tcb.process)).isSome := by
      rw [sameMachine]
      exact staysLive _ (by rw [show (k.putTcb t _).machine = k.machine from rfl, isLive]; rfl)
    refine ⟨⟨orderedTaken.machine, orderedTaken.users, orderedTaken.kernel, orderedTaken.holder,
      orderedTaken.held⟩, fun q ts isRecycling => ?_⟩
    obtain ⟨rfl, rfl⟩ := Prod.mk.inj (Option.some.inj isRecycling)
    refine ⟨isSome, fun u r isOther here => ?_⟩
    change taken.userRes u = some r at isOther
    rw [keptRes] at isOther
    -- every thread of the process is in `tasks`
    obtain ⟨other, isTcb', isHere', holder⟩ := orderedDropped.holder u r isOther
    rw [sameMachine] at isSome
    obtain ⟨set', isLive'⟩ := Option.isSome_iff_exists.mp isSome
    obtain ⟨b, ok⟩ := orderedDropped.users.process isPcb isLive'
    have isTask := (ok.threads.res u r isOther here).2.2
    refine all u ?_ other isTcb' (holder.resolve_right id)
    rw [List.reduceOption_mem_iff]
    exact List.mem_of_getElem? isTask
  · obtain rfl := Option.some.inj h
    exact .of_idle orderedDropped (sameRecycling.trans idle)

/-- The end of a process. -/
theorem Inv.recycle (inv : k.Inv l tramp) (above : Above layout l tramp) (h : k.recycle = some k') :
    k'.Inv l tramp := by
  obtain ⟨⟨process, ts⟩, isRecycling, h⟩ := Option.bind_eq_some_iff.mp h
  obtain ⟨isSome, all⟩ := inv.recycling process ts isRecycling
  have loose : k.Recycles = fun u => u ∈ ts := by
    funext u
    simp [Recycles, isRecycling]
  have ordered := inv.ordered
  rw [loose] at ordered
  cases ts with
  | cons t rest =>
      obtain ⟨dropped, isDropped, rfl⟩ := Option.map_eq_some_iff.mp h
      obtain ⟨orderedDropped, sameRes, -, -, staysLive⟩ :=
        ordered.dropUserRes (fun u => u ∈ rest) isDropped List.mem_cons_self
          (fun u => List.mem_cons_of_mem t) fun u differ mem =>
          (List.mem_cons.mp mem).resolve_left differ
      have loose' :
          (fun u => u ∈ rest) = Recycles { dropped with recycling := some (process, rest) } := by
        funext u
        simp [Recycles]
      rw [loose'] at orderedDropped
      refine ⟨⟨orderedDropped.machine, orderedDropped.users, orderedDropped.kernel,
        orderedDropped.holder, orderedDropped.held⟩, fun q us isRest => ?_⟩
      obtain ⟨rfl, rfl⟩ := Prod.mk.inj (Option.some.inj isRest)
      refine ⟨staysLive _ isSome, fun u r isOther here => ?_⟩
      change dropped.userRes u = some r at isOther
      rw [sameRes] at isOther
      rcases update_eq_some_iff.mp isOther with ⟨-, absent⟩ | ⟨differ, isOld⟩
      · exact absurd absent (by simp)
      · exact (List.mem_cons.mp (all u r isOld here)).resolve_left differ
  | nil =>
      obtain ⟨pcb, isPcb, h⟩ := Option.bind_eq_some_iff.mp h
      obtain ⟨set, isSet, h⟩ := Option.bind_eq_some_iff.mp h
      obtain ⟨⟨phys, set'⟩, isRecycled, rfl⟩ := Option.map_eq_some_iff.mp h
      obtain ⟨set₀, isLive⟩ := Option.isSome_iff_exists.mp isSome
      obtain rfl := Option.some.inj ((memorySet_of_live isLive).symm.trans isSet)
      have taken : k.machine.step layout (.recycleDataPages process) =
          some (k.machine.put phys (.user process) (some ⟨set', true⟩)) := by
        simp only [Machine.step, isLive, Option.bind_some, isRecycled, Option.map_some]
      have noRes : ∀ u r, k.userRes u = some r → r.process ≠ process :=
        fun u r isRes here => absurd (all u r isRes here) List.not_mem_nil
      refine Inv.of_idle ⟨ordered.machine.step above taken, ?_, ordered.kernel.congr ?_,
        fun u r isRes => ?_, fun u tcb isTcb holds => ?_⟩ rfl
      · refine UserInv.end ordered.users noRes (ordered.users.below isLive) (by simp [Machine.live])
          (fun q differ => ?_) fun q differ => Function.update_of_ne differ _ _
        exact k.machine.put_spaces_of_ne _ _ (by simpa using differ)
      · exact Machine.live_congr (k.machine.put_spaces_of_ne _ _ (by simp))
      · obtain ⟨tcb, isTcb, isHere, holder⟩ := ordered.holder u r isRes
        exact ⟨tcb, isTcb, isHere, holder.imp_right fun mem => absurd mem List.not_mem_nil⟩
      · obtain ⟨isSome, running, -⟩ := ordered.held u tcb isTcb holds
        exact ⟨isSome, running, id⟩

/-- The drop of a PCB. -/
theorem Ordered.dropPcb (ordered : k.Ordered l tramp fun _ => False) (above : Above layout l tramp)
    (idle : k.recycling = none) (h : k.dropPcb p = some k') : k'.Inv l tramp := by
  obtain ⟨space, isSpace, h⟩ := Option.bind_eq_some_iff.mp h
  split at h
  · next isZombie =>
    obtain ⟨phys, isDropped, rfl⟩ := Option.map_eq_some_iff.mp h
    have taken : k.machine.step layout (.drop p) = some (k.machine.put phys (.user p) none) := by
      simp only [Machine.step, isSpace, Option.bind_some, isDropped, Option.map_some]
    have below : p < k.nextProc := by
      by_contra high
      rw [ordered.users.fresh p (Nat.le_of_not_lt high)] at isSpace
      exact absurd isSpace (by simp)
    have noRes : ∀ u r, k.userRes u = some r → r.process ≠ p := by
      rintro u r isRes rfl
      have isLive := (ordered.users.res u r isRes).1
      rw [Machine.live, isSpace, Option.bind_some, if_pos isZombie] at isLive
      exact absurd isLive (by simp)
    refine Inv.of_idle
      ⟨ordered.machine.step above taken, ?_, ordered.kernel.congr ?_, ordered.holder,
      ordered.held⟩ idle
    · refine UserInv.end ordered.users noRes below (by simp [Machine.live]) (fun q differ => ?_)
        fun q differ => Function.update_of_ne differ _ _
      exact k.machine.put_spaces_of_ne _ _ (by simpa using differ)
    · exact Machine.live_congr (k.machine.put_spaces_of_ne _ _ (by simp))
  · exact absurd h (by simp)

/-- The drop of a TCB. -/
theorem Ordered.dropTcb (ordered : k.Ordered l tramp fun _ => False) (idle : k.recycling = none)
    (h : k.dropTcb t = some k') :
    k'.Inv l tramp := by
  obtain ⟨tcb, isTcb, h⟩ := Option.bind_eq_some_iff.mp h
  split at h
  · exact absurd h (by simp)
  · next noTask =>
    obtain ⟨dropped, isDropped, h⟩ := Option.bind_eq_some_iff.mp h
    obtain ⟨kernel, isSet, isDropped⟩ := Option.bind_eq_some_iff.mp isDropped
    obtain ⟨⟨phys, kernel'⟩, isRemoved, isDropped⟩ := Option.bind_eq_some_iff.mp isDropped
    obtain ⟨allocator, isDealloc, rfl⟩ := Option.map_eq_some_iff.mp isDropped
    obtain ⟨kernel₀, isLive, placed⟩ := ordered.kernel.kernel
    obtain rfl := Option.some.inj ((memorySet_of_live isLive).symm.trans isSet)
    obtain ⟨step, placed', -⟩ := placed.removeKstack (ordered.machine.wf isLive) isDealloc isRemoved
    have old : ∀ u other, Function.update k.tcbs t none u = some other →
        u ≠ t ∧ k.tcbs u = some other := by
      intro u other isOther
      rcases update_eq_some_iff.mp isOther with ⟨-, absent⟩ | isOld
      · exact absurd absent (by simp)
      · exact isOld
    -- a thread with a `TaskUserRes` is in `tasks`
    have noRes : k.userRes t = none := by
      by_contra isSome
      obtain ⟨r, isRes⟩ := Option.ne_none_iff_exists'.mp isSome
      obtain ⟨tcb', isTcb', isHere, -⟩ := ordered.holder t r isRes
      obtain rfl := Option.some.inj (isTcb.symm.trans isTcb')
      obtain ⟨set, isLive⟩ := Option.isSome_iff_exists.mp (ordered.users.res t r isRes).1
      obtain ⟨pcb, b, isPcb, ok⟩ := ordered.users.live _ set isLive
      have isTask := List.mem_of_getElem? (ok.threads.res t r isRes rfl).2.2
      refine noTask ?_
      rw [isHere, isPcb]
      exact decide_eq_true isTask
    have notHeld : ¬ tcb.res = true := by
      intro holds
      have isSome := (ordered.held t tcb isTcb holds).1
      rw [noRes] at isSome
      exact absurd isSome (by simp)
    simp only [if_neg notHeld, Option.some.injEq] at h
    subst h
    simp only [putSpace_of_live isLive]
    refine Inv.of_idle ⟨ordered.machine.putStep isLive step, ordered.users.congr fun q => ?_, ?_,
      fun u r isRes => ?_, fun u other isOther => ?_⟩ idle
    · exact k.machine.put_spaces_of_ne _ _ (by simp)
    · exact ordered.kernel.removeTcb isTcb isDealloc ⟨kernel', Machine.live_put _ _ _ _, placed'⟩
    · obtain ⟨other, isOther, rest⟩ := ordered.holder u r isRes
      have differ : u ≠ t := by
        rintro rfl
        change k.userRes u = some r at isRes
        rw [noRes] at isRes
        exact absurd isRes (by simp)
      exact ⟨other, (Function.update_of_ne differ _ _).trans isOther, rest⟩
    · exact ordered.held u other (old u other isOther).2

/-- `sys_waittid`. -/
theorem Ordered.sysWaittid (ordered : k.Ordered l tramp fun _ => False)
    (idle : k.recycling = none) {tid : Nat}
    (h : k.sysWaittid t tid = some k') : k'.Inv l tramp := by
  obtain ⟨⟨tcb, res⟩, isRes, h⟩ := Option.bind_eq_some_iff.mp h
  obtain ⟨pcb, isPcb, h⟩ := Option.bind_eq_some_iff.mp h
  obtain ⟨-, -, -, -, set, isLive⟩ := ordered.unwrapRes isRes
  split at h
  · obtain rfl := Option.some.inj h
    exact .of_idle ordered idle
  · obtain ⟨waited, isWaited, h⟩ := Option.bind_eq_some_iff.mp h
    cases waited with
    | none =>
        obtain rfl := Option.some.inj h
        exact .of_idle ordered idle
    | some waited =>
        obtain ⟨waitedTcb, isTcb, h⟩ := Option.map_eq_some_iff.mp h
        split at h
        · next exited =>
          subst h
          -- a thread that has exited has no `TaskUserRes`
          have noRes : k.userRes waited = none := by
            by_contra isSome
            obtain ⟨r, isRes⟩ := Option.ne_none_iff_exists'.mp isSome
            obtain ⟨tcb', isTcb', -, holder⟩ := ordered.holder waited r isRes
            obtain rfl := Option.some.inj (isTcb.symm.trans isTcb')
            have running := (ordered.held waited waitedTcb isTcb (holder.resolve_right id)).2.1
            rw [running] at exited
            exact absurd exited (by simp)
          refine Inv.of_idle
            ⟨ordered.machine, ?_, ordered.kernel, ordered.holder, ordered.held⟩ idle
          refine ordered.users.put (fun _ _ => rfl)
            (fun q differ => Function.update_of_ne differ _ _)
            (fun _ _ _ => Iff.rfl) (fun u r isOther here => ?_) (Nat.le_refl _)
            (ordered.users.below isLive) (Nat.le_refl _) fun set' isLive' => ?_
          · obtain ⟨isSome, small⟩ := ordered.users.res u r isOther
            rw [here] at isSome
            exact ⟨isSome, small, .inr ⟨r, isOther, here⟩⟩
          · obtain ⟨b, ok⟩ := ordered.users.process isPcb isLive'
            exact ⟨_, b, Function.update_self _ _ _, ok.threads.clearTask isWaited noRes, ok.placed⟩
        · subst h
          exact .of_idle ordered idle

end ThreadMachine

end Steps

end CoreFromDust.Os.Mm
