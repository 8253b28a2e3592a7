import CoreFromDust.Os.Mm.Proofs.ThreadExits

/-!
# Steps of threads

What happens to threads and processes keeps the invariant, and new stacks find their pages free.
-/

namespace CoreFromDust.Os.Mm

open CoreFromDust.Lib SpaceWf

section Steps

variable {l tramp n p b : Nat} {layout : KernelLayout} {k last : ThreadMachine} {t : Nat}
  {set set' : MemorySet} {s s' phys : Phys} {pcb : ThreadPcb} {elf : Elf}

/-! ## New programs -/

theorem foldl_endVpn_mem (segments : List Segment) (start : Nat) :
    segments.foldl (fun _ ph => ph.endVpn) start = start ∨
      ∃ ph ∈ segments, ph.endVpn = segments.foldl (fun _ ph => ph.endVpn) start := by
  induction segments generalizing start with
  | nil => exact .inl rfl
  | cons ph segments ih =>
      right
      rcases ih ph.endVpn with same | ⟨other, mem, isEnd⟩
      · exact ⟨ph, List.mem_cons_self, same.symm⟩
      · exact ⟨other, List.mem_cons_of_mem _ mem, isEnd⟩

/-- A program that leaves room for its stacks, without any thread. -/
theorem placed_fromElf {ustackBase entryPoint : Nat} (ok : s.Ok l) (above : Above layout l tramp)
    (isElf : MemorySet.fromElf s layout.strampoline elf = some (s', set, ustackBase, entryPoint))
    (room : elf.StackAbove) : ∃ b, ustackBase = b * 4096 ∧ Placed b .new set.areas := by
  obtain ⟨_, _, _, start, maxEndVpn, -, -, noAreas, framed, wf, -, isPushed, isBase⟩ :=
    fromElf_parts ok above.small above.isTramp isElf
  obtain ⟨-, ranges, isEnd, bound⟩ := pushSegments_areas wf framed above.small above.low isPushed
  obtain ⟨below, low⟩ := room
  have same : elf.ustackBase = ustackBase := by
    rw [← isBase, isEnd]
    rfl
  rw [same] at below low
  have small := bound (by omega)
  have isPage : ustackBase = (maxEndVpn + 1) * 4096 := by
    rcases Nat.lt_or_ge (maxEndVpn * 4096) (2 ^ 38) with lower | higher
    · rw [usizeOfVirtAddr_low lower] at isBase
      omega
    · -- only the end of a segment is that high, and then the base is not
      rw [usizeOfVirtAddr_high higher (by omega)] at isBase
      rcases foldl_endVpn_mem elf.segments 0 with none | ⟨ph, mem, isLast⟩
      · omega
      · have le := below ph mem
        omega
  refine ⟨maxEndVpn + 1, isPage, by omega, by omega,
    ⟨List.nodup_nil, by simp [RecycleAllocator.new]⟩, ?_, fun area isArea => ?_, ?_, ?_⟩
  · exact fun tid inUse => absurd inUse.1 (Nat.not_lt_zero _)
  · rcases ranges area isArea with isOld | ⟨ph, mem, -, stop⟩
    · rw [noAreas] at isOld
      exact absurd isOld List.not_mem_nil
    · have le := below ph mem
      left
      omega
  · exact fun tid inUse => absurd inUse.1 (Nat.not_lt_zero _)
  · exact fun tid inUse => absurd inUse.1 (Nat.not_lt_zero _)

/-- A copy of the areas, for the same ids. -/
theorem Placed.copy {ids ids' : RecycleAllocator} {areas areas' : List MapArea}
    (placed : Placed b ids areas) (same : List.Forall₂ SameArea areas areas') (ok : ids'.Ok)
    (inUse : ∀ tid, ids'.InUse tid ↔ ids.InUse tid) : Placed b ids' areas' := by
  have find : ∀ (P : MapArea → Prop), (∀ area area', SameArea area area' → P area → P area') →
      (∃ area ∈ areas, P area) → ∃ area' ∈ areas', P area' := by
    rintro P moves ⟨area, mem, isPlace⟩
    obtain ⟨area', mem', sameArea⟩ := exists_of_forall₂ same.flip area mem
    exact ⟨area', mem', moves area area' sameArea isPlace⟩
  have stack : ∀ tid area area', SameArea area area' → IsUserStack b tid area →
      IsUserStack b tid area' := by
    intro tid area area' sameArea
    rw [IsUserStack, IsUserStack, sameArea.startVpn, sameArea.endVpn]
    exact id
  have trapCx : ∀ tid area area', SameArea area area' → IsTrapCx tid area → IsTrapCx tid area' := by
    intro tid area area' sameArea
    rw [IsTrapCx, IsTrapCx, sameArea.startVpn, sameArea.endVpn]
    exact id
  refine ⟨placed.pos, placed.low, ok,
    fun tid used => placed.few tid ((inUse tid).mp used), ?_, ?_, ?_⟩
  · intro area' mem'
    obtain ⟨area, mem, sameArea⟩ := exists_of_forall₂ same area' mem'
    rcases placed.place area mem with below | ⟨tid, used, place⟩
    · exact .inl (by rwa [sameArea.endVpn])
    · exact .inr ⟨tid, (inUse tid).mpr used,
        place.imp (stack tid area area' sameArea) (trapCx tid area area' sameArea)⟩
  · exact fun tid used => find _ (stack tid) (placed.stack tid ((inUse tid).mp used))
  · exact fun tid used => find _ (trapCx tid) (placed.trapCx tid ((inUse tid).mp used))

namespace ThreadMachine

/-! ## New threads -/

theorem kstackAlloc_avoids (machine : Machine.Inv l tramp k.machine)
    (kernel : KernelInv k.machine k.kstackAllocator k.tcbs n)
    (few : k.kstackAllocator.alloc.1 < 2 ^ 20) :
    Avoids .mapped (fun last => ∃ phys set, last = (k.kstackAllocator.alloc.1,
        { k.addSpace .kernel phys set with kstackAllocator := k.kstackAllocator.alloc.2 }) ∧
      Machine.Inv l tramp (k.machine.put phys .kernel (some ⟨set, false⟩)) ∧
      KernelPlaced k.kstackAllocator.alloc.2 set.areas) k.kstackAlloc := by
  obtain ⟨set, isLive, placed⟩ := kernel.kernel
  refine .orError_bind (by simp) fun found isFound => ?_
  obtain rfl := Option.some.inj ((memorySet_of_live isLive).symm.trans isFound)
  refine (placed.insertKstack (machine.wf isLive) few).map ?_
  rintro ⟨phys, set'⟩ ⟨step, placed'⟩
  refine ⟨phys, set', ?_, machine.putStep isLive step, placed'⟩
  simp only [putSpace_of_live isLive]

/-- What `TaskControlBlock::new` does for the process `p`; the areas of the process meet `good`
afterwards. -/
structure TaskAdded (l tramp : Nat) (k last : ThreadMachine) (p ustackBase : Nat) (pcb : ThreadPcb)
    (good : List MapArea → Prop) : Prop where
  machine : Machine.Inv l tramp last.machine
  spaces : ∀ q, q ≠ p → last.machine.spaces (.user q) = k.machine.spaces (.user q)
  space : ∃ set, last.machine.live (.user p) = some set ∧ good set.areas
  pcbs : last.pcbs = Function.update k.pcbs p
    (some { pcb with taskResAllocator := pcb.taskResAllocator.alloc.2 })
  userRes : last.userRes = Function.update k.userRes k.nextTcb
    (some ⟨pcb.taskResAllocator.alloc.1, ustackBase, p⟩)
  nextProc : last.nextProc = k.nextProc
  nextTcb : last.nextTcb = k.nextTcb + 1
  kernel : KernelInv last.machine last.kstackAllocator last.tcbs last.nextTcb
  tcbs : ∃ kstack, last.tcbs = Function.update k.tcbs k.nextTcb (some ⟨p, kstack, true, none⟩)
  recycling : last.recycling = k.recycling

/-- `TaskUserRes::new`. -/
theorem newUserRes_avoids {ustackBase : Nat} {allocUserRes : Bool} {good : List MapArea → Prop}
    (machine : Machine.Inv l tramp k.machine) (isPcb : k.pcbs p = some pcb)
    (isLive : k.machine.live (.user p) = some set)
    (res : if allocUserRes then Avoids .mapped (fun last =>
        SpaceStep l tramp k.machine.phys last.1 set last.2 ∧ good last.2.areas)
        (set.insertUserRes k.machine.phys ustackBase pcb.taskResAllocator.alloc.1)
      else good set.areas) :
    Avoids .mapped (fun last => ∃ phys set', SpaceStep l tramp k.machine.phys phys set set' ∧
      good set'.areas ∧ last = ((k.putPcb p (some { pcb with
        taskResAllocator := pcb.taskResAllocator.alloc.2 })).addSpace (.user p)
          phys set').putRes k.nextTcb (some ⟨pcb.taskResAllocator.alloc.1, ustackBase, p⟩))
      (k.newUserRes p ustackBase allocUserRes) := by
  unfold newUserRes
  refine .orError_bind (by simp) fun found isFound => ?_
  obtain rfl := Option.some.inj (isPcb.symm.trans isFound)
  cases allocUserRes with
  | true =>
      simp only [if_true] at res ⊢
      have inserted :
          Avoids .mapped (fun last => ∃ phys set', SpaceStep l tramp k.machine.phys phys set set' ∧
              good set'.areas ∧ last = (k.putPcb p (some { pcb with
                taskResAllocator := pcb.taskResAllocator.alloc.2 })).addSpace (.user p) phys set')
            ((k.putPcb p (some { pcb with
              taskResAllocator := pcb.taskResAllocator.alloc.2 })).allocUserRes
              ⟨pcb.taskResAllocator.alloc.1, ustackBase, p⟩) := by
        unfold ThreadMachine.allocUserRes
        have isLive' : (k.putPcb p (some { pcb with
          taskResAllocator := pcb.taskResAllocator.alloc.2 })).machine.live (.user p) =
          some set := isLive
        refine .orError_bind (by simp) fun other isOther => ?_
        obtain rfl := Option.some.inj ((memorySet_of_live isLive').symm.trans isOther)
        refine Avoids.map res ?_
        rintro ⟨phys, set'⟩ ⟨step, isGood⟩
        refine ⟨phys, set', step, isGood, ?_⟩
        simp only [putSpace_of_live isLive']
      refine inserted.map ?_
      rintro _ ⟨phys, set', step, isGood, rfl⟩
      exact ⟨phys, set', step, isGood, rfl⟩
  | false =>
      simp only [Bool.false_eq_true, if_false] at res ⊢
      have wf := machine.wf isLive
      have same : k.machine.put k.machine.phys (.user p) (some ⟨set, false⟩) = k.machine := by
        rw [Machine.put, ← Machine.live_eq_some.mp isLive, Function.update_eq_self]
      refine ⟨k.machine.phys, set, ⟨wf, .refl wf.table.ok wf.own_inUse, id⟩, res, ?_⟩
      simp only [addSpace, putPcb, putRes, same]

/-- The rest of `TaskControlBlock::new`. -/
theorem finishTask_avoids (machine : Machine.Inv l tramp k.machine)
    (kernel : KernelInv k.machine k.kstackAllocator k.tcbs k.nextTcb)
    (few : k.kstackAllocator.alloc.1 < 2 ^ 20) :
    Avoids .mapped (fun last => last.1 = k.nextTcb ∧ Machine.Inv l tramp last.2.machine ∧
      KernelInv last.2.machine last.2.kstackAllocator last.2.tcbs last.2.nextTcb ∧
      ∃ phys set, last.2.machine = k.machine.put phys .kernel (some ⟨set, false⟩) ∧
        last.2.pcbs = k.pcbs ∧ last.2.userRes = k.userRes ∧ last.2.nextProc = k.nextProc ∧
        last.2.nextTcb = k.nextTcb + 1 ∧ last.2.recycling = k.recycling ∧
        ∃ kstack, last.2.tcbs = Function.update k.tcbs k.nextTcb (some ⟨p, kstack, true, none⟩))
      (k.finishTask p) := by
  unfold finishTask
  refine .orError_bind (by simp) fun res _ => .orError_bind (by simp) fun _ _ =>
    .orError_bind (by simp) fun _ _ => (kstackAlloc_avoids machine kernel few).map ?_
  rintro _ ⟨phys, set, rfl, machine', placed⟩
  exact ⟨rfl, machine', kernel.addTcb _ rfl ⟨set, Machine.live_put _ _ _ _, placed⟩, phys,
    set, rfl, rfl, rfl, rfl, rfl, rfl, _, rfl⟩

/-- `TaskControlBlock::new`. -/
theorem newTask_avoids {ustackBase : Nat} {allocUserRes : Bool} {good : List MapArea → Prop}
    (machine : Machine.Inv l tramp k.machine)
    (kernel : KernelInv k.machine k.kstackAllocator k.tcbs k.nextTcb)
    (few : k.kstackAllocator.alloc.1 < 2 ^ 20) (isPcb : k.pcbs p = some pcb)
    (isLive : k.machine.live (.user p) = some set)
    (res : if allocUserRes then Avoids .mapped (fun last =>
        SpaceStep l tramp k.machine.phys last.1 set last.2 ∧ good last.2.areas)
        (set.insertUserRes k.machine.phys ustackBase pcb.taskResAllocator.alloc.1)
      else good set.areas) :
    Avoids .mapped
      (fun last => last.1 = k.nextTcb ∧ TaskAdded l tramp k last.2 p ustackBase pcb good)
      (k.newTask p ustackBase allocUserRes) := by
  refine (newUserRes_avoids machine isPcb isLive res).bind ?_
  rintro _ ⟨phys, set', step, isGood, rfl⟩
  have kernel' :
      KernelInv (k.machine.put phys (.user p) (some ⟨set', false⟩)) k.kstackAllocator k.tcbs
      k.nextTcb := kernel.congr (Machine.live_congr (k.machine.put_spaces_of_ne _ _ (by simp)))
  refine Avoids.mono (finishTask_avoids (k := ((k.putPcb p (some { pcb with
      taskResAllocator := pcb.taskResAllocator.alloc.2 })).addSpace (.user p) phys set').putRes
      k.nextTcb (some ⟨pcb.taskResAllocator.alloc.1, ustackBase, p⟩))
    (machine.putStep isLive step) kernel' few) ?_
  rintro ⟨t, last⟩
    ⟨isNext, machine', addedKernel, phys', kernelSet, isMachine, isPcbs, isRes, isProc, isTcb,
    isRecycling, isTcbs⟩
  simp only at isNext isMachine isPcbs isRes isProc isTcb isRecycling isTcbs
  refine ⟨isNext, machine', fun q differ => ?_, ⟨set', ?_, isGood⟩, isPcbs, isRes, isProc, isTcb,
    addedKernel, isTcbs, isRecycling⟩
  · rw [isMachine]
    exact (Machine.put_spaces_of_ne _ _ _ (by simp)).trans
      (k.machine.put_spaces_of_ne _ _ (by simpa using differ))
  · rw [isMachine]
    exact (Machine.live_congr (Machine.put_spaces_of_ne _ _ _ (by simp))).trans
      (Machine.live_put _ _ _ _)

/-- The new thread gets its place in `tasks` of a process that exists, or of a new one. -/
theorem TaskAdded.inv {start : ThreadMachine} (ordered : k.Ordered l tramp fun _ => False)
    (added : TaskAdded l tramp start last p (b * 4096) pcb (Placed b pcb.taskResAllocator.alloc.2))
    (idle : start.recycling = none)
    (spaces : ∀ q, q ≠ p → start.machine.spaces (.user q) = k.machine.spaces (.user q))
    (others : ∀ q, q ≠ p → start.pcbs q = k.pcbs q) (sameRes : start.userRes = k.userRes)
    (sameTcbs : start.tcbs = k.tcbs) (sameNext : start.nextTcb = k.nextTcb)
    (leProc : k.nextProc ≤ start.nextProc) (below : p < start.nextProc)
    (threads : ThreadsOk k.userRes k.nextTcb p b pcb) (ok : pcb.taskResAllocator.Ok) :
    (last.putPcb p (some
      ⟨(pcb.tasks ++ List.replicate (pcb.taskResAllocator.alloc.1 + 1 - pcb.tasks.length) none).set
        pcb.taskResAllocator.alloc.1 (some k.nextTcb), pcb.taskResAllocator.alloc.2⟩)).Inv
      l tramp := by
  obtain ⟨kstack, isTcbs⟩ := added.tcbs
  obtain ⟨set, isSet, placed⟩ := added.space
  have isRes := added.userRes
  have nextTcb := added.nextTcb
  rw [sameTcbs, sameNext] at isTcbs
  rw [sameRes, sameNext] at isRes
  rw [sameNext] at nextTcb
  refine Inv.of_idle ⟨added.machine, ?_, added.kernel, ?_, ?_⟩ (added.recycling.trans idle)
  · change UserInv last.machine (Function.update last.pcbs p _)
      last.userRes last.nextProc last.nextTcb
    rw [isRes, added.pcbs, added.nextProc, nextTcb, Function.update_idem]
    refine ordered.users.put (fun q differ => (added.spaces q differ).trans (spaces q differ))
      (fun q differ => (Function.update_of_ne differ _ _).trans (others q differ))
      (fun u r other => ?_) (fun u r isOther here => ⟨by rw [isSet]; rfl, ?_⟩)
      (Nat.le_succ _) below leProc fun set' isLast => ?_
    · rw [update_eq_some_iff]
      constructor
      · rintro (⟨-, isNew⟩ | ⟨-, isOld⟩)
        · rw [← Option.some.inj isNew] at other
          exact absurd rfl other
        · exact isOld
      · intro isOld
        exact .inr ⟨(ordered.users.res u r isOld).2.ne, isOld⟩
    · rcases update_eq_some_iff.mp isOther with ⟨rfl, -⟩ | ⟨-, isOld⟩
      · exact ⟨Nat.lt_succ_self _, .inl (Nat.le_refl _)⟩
      · exact ⟨(ordered.users.res u r isOld).2.trans (Nat.lt_succ_self _), .inr ⟨r, isOld, here⟩⟩
    · obtain rfl := Option.some.inj (isSet.symm.trans isLast)
      refine ⟨_, b, Function.update_self _ _ _, threads.add ok fun u r isOld => ?_, placed⟩
      exact (ordered.users.res u r isOld).2
  · intro u r isOther
    change last.userRes u = some r at isOther
    change ∃ tcb, last.tcbs u = some tcb ∧ _
    rw [isRes] at isOther
    rw [isTcbs]
    rcases update_eq_some_iff.mp isOther with ⟨rfl, isNew⟩ | ⟨differ, isOld⟩
    · exact ⟨_, Function.update_self _ _ _, by rw [← Option.some.inj isNew], .inl rfl⟩
    · rw [Function.update_of_ne differ]
      exact ordered.holder u r isOld
  · intro u tcb isTcb holds
    change last.tcbs u = some tcb at isTcb
    change (last.userRes u).isSome ∧ _
    rw [isTcbs] at isTcb
    rw [isRes]
    rcases update_eq_some_iff.mp isTcb with ⟨rfl, isNew⟩ | ⟨differ, isOld⟩
    · rw [Function.update_self, ← Option.some.inj isNew]
      exact ⟨rfl, rfl, id⟩
    · rw [Function.update_of_ne differ]
      exact ordered.held u tcb isOld holds

/-! ## New processes -/

theorem ThreadsOk.new {userRes : Nat → Option TaskUserRes}
    (noRes : ∀ t r, userRes t = some r → r.process ≠ p) : ThreadsOk userRes n p b ⟨[], .new⟩ where
  res := fun t r isRes here => absurd here (noRes t r isRes)
  length := fun tid inUse => absurd inUse.1 (Nat.not_lt_zero _)
  tasks := by simp

theorem new_ok : RecycleAllocator.new.Ok := ⟨List.nodup_nil, by simp [RecycleAllocator.new]⟩

/-- A process with its first thread. -/
theorem Ordered.firstTask (ordered : k.Ordered l tramp fun _ => False) (idle : k.recycling = none)
    (few : k.kstackAllocator.alloc.1 < 2 ^ 20) {allocUserRes : Bool}
    (changes : Changes l k.machine.phys phys [] set.own) (wf : set.Wf l tramp phys)
    (framed : set.Framed)
    (res : if allocUserRes then
      Avoids .mapped (fun last => SpaceStep l tramp phys last.1 set last.2 ∧
        Placed b RecycleAllocator.new.alloc.2 last.2.areas)
        (set.insertUserRes phys (b * 4096) RecycleAllocator.new.alloc.1)
      else Placed b RecycleAllocator.new.alloc.2 set.areas) :
    Avoids .mapped (Inv l tramp)
      (((k.newPcb phys set).newTask k.nextProc (b * 4096) allocUserRes).bind
      fun (t, last) => orPanic (last.pushTask k.nextProc t)) := by
  have machine : Machine.Inv l tramp (k.newPcb phys set).machine := by
    refine ordered.machine.put (.user k.nextProc) (some ⟨set, false⟩) ?_ ?_
    · rw [ordered.users.fresh _ (Nat.le_refl _)]
      exact changes
    · rintro space isSpace
      obtain rfl := Option.some.inj isSpace
      exact ⟨fun _ => wf, by simp, fun _ => framed⟩
  have kernel : KernelInv (k.newPcb phys set).machine k.kstackAllocator k.tcbs k.nextTcb :=
    ordered.kernel.congr (Machine.live_congr (k.machine.put_spaces_of_ne _ _ (by simp)))
  refine (newTask_avoids machine kernel few (Function.update_self _ _ _)
    (Machine.live_put _ _ _ _) res).bind ?_
  rintro ⟨t, last⟩ ⟨isNext, added⟩
  refine .orError (by simp) fun k' pushed => ?_
  obtain ⟨pcb, isPcb, rfl⟩ := Option.map_eq_some_iff.mp pushed
  rw [added.pcbs, Function.update_self] at isPcb
  obtain rfl := Option.some.inj isPcb
  simp only at isNext
  subst isNext
  refine TaskAdded.inv ordered added idle (fun q differ => ?_)
    (fun q differ => Function.update_of_ne differ _ _) rfl rfl
    rfl (Nat.le_succ _) (Nat.lt_succ_self _) (ThreadsOk.new fun u r isRes => ?_) new_ok
  · exact k.machine.put_spaces_of_ne _ _ (by simpa using differ)
  · obtain ⟨other, isLive⟩ := Option.isSome_iff_exists.mp (ordered.users.res u r isRes).1
    exact (ordered.users.below isLive).ne

/-- `ProcessControlBlock::new`. -/
theorem Ordered.newProcess (ordered : k.Ordered l tramp fun _ => False)
    (above : Above layout l tramp) (idle : k.recycling = none)
    (few : k.kstackAllocator.alloc.1 < 2 ^ 20) (room : elf.StackAbove) :
    Avoids .mapped (Inv l tramp) (k.newProcess layout elf) := by
  refine .orError_bind (by simp) ?_
  rintro ⟨phys, set, ustackBase, entryPoint⟩ isElf
  obtain ⟨wf, framed, changes⟩ :=
    fromElf_spec ordered.machine.ok above.small above.low above.isTramp isElf
  obtain ⟨b, rfl, placed⟩ := placed_fromElf ordered.machine.ok above isElf room
  obtain ⟨ok, free, inUse⟩ := new_ok.alloc
  exact ordered.firstTask idle few changes wf framed
    (placed.insertUserRes wf (by decide) free ok inUse)

theorem inUse_first {tid : Nat} : RecycleAllocator.new.alloc.2.InUse tid ↔ tid = 0 := by
  simp [RecycleAllocator.InUse, RecycleAllocator.new, RecycleAllocator.alloc]

/-- `ProcessControlBlock::fork`. -/
theorem Ordered.fork (ordered : k.Ordered l tramp fun _ => False) (above : Above layout l tramp)
    (idle : k.recycling = none) (few : k.kstackAllocator.alloc.1 < 2 ^ 20) :
    Avoids .mapped (Inv l tramp) (k.fork layout t) := by
  refine .orError_bind (by simp) ?_
  rintro ⟨tcb, _⟩ isCurrent
  refine .orError_bind (by simp) fun parent isParent => ?_
  split
  · next single =>
    obtain ⟨-, -, -, -, set, isLive⟩ := ordered.unwrapRes isCurrent
    refine .orError_bind (by simp) fun set' isSet => .orError_bind (by simp) ?_
    obtain rfl := Option.some.inj ((memorySet_of_live isLive).symm.trans isSet)
    rintro ⟨phys, copy⟩ isCopy
    refine .orError_bind (by simp) ?_
    rintro ⟨_, res⟩ isRes
    obtain ⟨main, isMain, isRes⟩ := Option.bind_eq_some_iff.mp isRes
    have isRes := (unwrapRes_spec isRes).2.2
    obtain ⟨b, ok⟩ := ordered.users.process isParent isLive
    obtain ⟨isMainTid, isHere⟩ :=
      (ok.threads.tasks 0 main (Option.join_eq_some_iff.mp isMain)).2 res isRes
    obtain ⟨isBase, used, -⟩ := ok.threads.res main res isRes isHere
    have spaceOk := (ordered.machine.live isLive).2
    obtain ⟨copies, wf, framed, changes⟩ := fromExistedUser_spec (ordered.machine.wf isLive)
      (spaceOk.framed (by simp)) above.small above.isTramp isCopy
    simp only [isBase]
    refine ordered.firstTask idle few changes wf framed ?_
    refine ok.placed.copy (copies.imp fun _ _ copied => copied.toSameArea)
      new_ok.alloc.1 fun tid => ?_
    rw [inUse_first]
    constructor
    · rintro rfl
      rwa [isMainTid] at used
    · intro inUse
      have below := ok.threads.length tid inUse
      omega
  · exact fun same => by simp at same

/-! ## Programs and threads -/

/-- `ProcessControlBlock::exec`. -/
theorem Ordered.exec (ordered : k.Ordered l tramp fun _ => False) (above : Above layout l tramp)
    (idle : k.recycling = none) (room : elf.StackAbove) :
    Avoids .mapped (Inv l tramp) (k.exec layout t elf) := by
  refine .orError_bind (by simp) ?_
  rintro ⟨tcb, _⟩ isCurrent
  refine .orError_bind (by simp) fun pcb isPcb => ?_
  split
  · next single =>
    obtain ⟨-, -, -, -, old, isLive⟩ := ordered.unwrapRes isCurrent
    refine .orError_bind (by simp) fun old' isSet => .orError_bind (by simp) ?_
    obtain rfl := Option.some.inj ((memorySet_of_live isLive).symm.trans isSet)
    rintro ⟨built, set, ustackBase, entryPoint⟩ isElf
    refine .orError_bind (by simp) fun dropped isDropped =>
      .orError_bind (by simp) fun main isMain =>
      .orError_bind (by simp) ?_
    rintro ⟨mainTcb, res⟩ isRes
    have isRes := (unwrapRes_spec isRes).2.2
    obtain ⟨b, ok⟩ := ordered.users.process isPcb isLive
    have isMain := Option.join_eq_some_iff.mp isMain
    obtain ⟨isMainTid, isHere⟩ := (ok.threads.tasks 0 main isMain).2 res isRes
    obtain ⟨-, used, -⟩ := ok.threads.res main res isRes isHere
    obtain ⟨found, spaceOk⟩ := ordered.machine.live isLive
    have replaced := ordered.machine.replaced above isLive isElf isDropped
    obtain ⟨b', rfl, placed⟩ := placed_fromElf ordered.machine.ok above isElf room
    have machine :
        Machine.Inv l tramp (k.machine.put dropped (.user tcb.process) (some ⟨set, false⟩)) := by
      refine ordered.machine.put _ _ (by
        rw [found]
        exact replaced.builds.replace spaceOk.own_inUse replaced.drops) ?_
      rintro space isSpace
      obtain rfl := Option.some.inj isSpace
      exact ⟨fun _ => replaced.wfDropped, by simp, fun _ => replaced.framed⟩
    have inUse : ∀ other, pcb.taskResAllocator.InUse other ↔
        RecycleAllocator.new.InUse other ∨ other = res.tid := by
      intro other
      constructor
      · intro isUsed
        have below := ok.threads.length other isUsed
        omega
      · rintro (isUsed | rfl)
        · exact absurd isUsed.1 (Nat.not_lt_zero _)
        · exact used
    have inserted := placed.insertUserRes replaced.wfDropped (ok.placed.few _ used)
      (fun isUsed => Nat.not_lt_zero _ isUsed.1) ok.placed.ok inUse
    have isNew : ((k.addSpace (.user tcb.process) dropped set).putRes main
        (some { res with ustackBase := b' * 4096 })).machine.live (.user tcb.process) = some set :=
      Machine.live_put _ _ _ _
    have allocated :
        Avoids .mapped (fun last => ∃ phys set', SpaceStep l tramp dropped phys set set' ∧
        Placed b' pcb.taskResAllocator set'.areas ∧
        last = ((k.addSpace (.user tcb.process) dropped set).putRes main
          (some { res with ustackBase := b' * 4096 })).addSpace (.user tcb.process) phys set')
        (((k.addSpace (.user tcb.process) dropped set).putRes main
          (some { res with ustackBase := b' * 4096 })).allocUserRes { res with ustackBase :=
          b' * 4096 }) := by
      unfold ThreadMachine.allocUserRes
      simp only [isHere]
      refine .orError_bind (by simp) fun other isOther => ?_
      obtain rfl := Option.some.inj ((memorySet_of_live isNew).symm.trans isOther)
      refine inserted.map ?_
      rintro ⟨phys, set'⟩ ⟨step, placed'⟩
      exact ⟨phys, set', step, placed', putSpace_of_live (Machine.live_put _ _ _ _) _ _⟩
    simp only [putSpace_of_live isLive]
    refine allocated.bind ?_
    rintro _ ⟨phys, set', step, placed', rfl⟩
    refine .orError_bind (by simp) fun _ _ => .orError_map (by simp) fun _ _ => ?_
    have otherSpaces : ∀ id, id ≠ .user tcb.process →
        ((k.machine.put dropped (.user tcb.process) (some ⟨set, false⟩)).put phys
          (.user tcb.process) (some ⟨set', false⟩)).spaces id =
          k.machine.spaces id := fun id differ =>
      (Machine.put_spaces_of_ne _ _ _ differ).trans (k.machine.put_spaces_of_ne _ _ differ)
    refine Inv.of_idle ⟨machine.putStep isNew step, ?_,
      ordered.kernel.congr (Machine.live_congr (otherSpaces _ (by simp))), fun u r isOther => ?_,
      fun u other isTcb holds => ?_⟩ idle
    · refine ordered.users.put (fun q differ => otherSpaces _ (by simpa using differ))
        (fun _ _ => rfl)
        (fun u r differ => ?_) (fun u r isOther here => ⟨Machine.live_put_isSome _ _ _ _, ?_⟩)
        (Nat.le_refl _) (ordered.users.below isLive) (Nat.le_refl _) fun last isLast => ?_
      · rw [addSpace, putRes, update_eq_some_iff]
        constructor
        · rintro (⟨-, isUpdated⟩ | ⟨-, isOld⟩)
          · rw [← Option.some.inj isUpdated] at differ
            exact absurd isHere differ
          · exact isOld
        · intro isOld
          refine .inr ⟨?_, isOld⟩
          rintro rfl
          rw [isRes, Option.some.injEq] at isOld
          exact differ (isOld ▸ isHere)
      · rcases update_eq_some_iff.mp isOther with ⟨rfl, -⟩ | ⟨-, isOld⟩
        · exact ⟨(ordered.users.res u res isRes).2, .inr ⟨res, isRes, isHere⟩⟩
        · exact ⟨(ordered.users.res u r isOld).2, .inr ⟨r, isOld, here⟩⟩
      · obtain rfl := Option.some.inj ((Machine.live_put _ _ _ _).symm.trans isLast)
        exact ⟨pcb, b', isPcb, ok.threads.rebase single isMain isRes b', placed'⟩
    · rcases update_eq_some_iff.mp isOther with ⟨rfl, isUpdated⟩ | ⟨-, isOld⟩
      · rw [← Option.some.inj isUpdated]
        exact ordered.holder u res isRes
      · exact ordered.holder u r isOld
    · obtain ⟨isSome, rest⟩ := ordered.held u other isTcb holds
      refine ⟨?_, rest⟩
      change (Function.update k.userRes main _ u).isSome
      by_cases same : u = main
      · subst same
        rw [Function.update_self]
        rfl
      · rwa [Function.update_of_ne same]
  · exact fun same => by simp at same

/-- `sys_thread_create`. -/
theorem Ordered.sysThreadCreate (ordered : k.Ordered l tramp fun _ => False)
    (idle : k.recycling = none) (few : k.kstackAllocator.alloc.1 < 2 ^ 20)
    (fewTids : ∀ pcb ∈ (k.tcbs t).bind fun tcb => k.pcbs tcb.process,
      pcb.taskResAllocator.alloc.1 < 2 ^ 20) : Avoids .mapped (Inv l tramp)
      (k.sysThreadCreate t) := by
  refine .orError_bind (by simp) ?_
  rintro ⟨tcb, res⟩ isCurrent
  obtain ⟨isTcb, -, isRes, isHere, set, isLive⟩ := ordered.unwrapRes isCurrent
  obtain ⟨pcb, b, isPcb, ok⟩ := ordered.users.live _ set isLive
  obtain ⟨okIds, free, inUse⟩ := ok.placed.ok.alloc
  have fewTid := fewTids pcb (by rw [isTcb, Option.bind_some, isPcb]; rfl)
  have inserted := ok.placed.insertUserRes (ordered.machine.wf isLive) fewTid free okIds inUse
  simp only [(ok.threads.res t res isRes isHere).1]
  refine (newTask_avoids ordered.machine ordered.kernel few isPcb isLive
    (show if true then _ else _ from inserted)).bind ?_
  rintro ⟨new, last⟩ ⟨rfl, added⟩
  refine .orError_bind (by simp) ?_
  rintro ⟨newTcb, newRes⟩ isNew
  refine .orError_map (by simp) fun pcb' isPcb' => ?_
  have isNew := (unwrapRes_spec isNew).2.2
  rw [added.userRes, Function.update_self] at isNew
  obtain rfl := Option.some.inj isNew
  rw [added.pcbs, Function.update_self] at isPcb'
  obtain rfl := Option.some.inj isPcb'
  exact TaskAdded.inv ordered added idle (fun _ _ => rfl) (fun _ _ => rfl) rfl rfl rfl
    (Nat.le_refl _) (ordered.users.below isLive) ok.threads ok.placed.ok

/-! ## All steps -/

/-- A store leaves the areas as they are. -/
theorem Ordered.store (ordered : k.Ordered l tramp fun _ => False) (above : Above layout l tramp)
    (idle : k.recycling = none) {id : SpaceId} {vpn offset : Nat}
    {byte : UInt8} {machine : Machine}
    (h : k.machine.step layout (.store id vpn offset byte) = some machine) :
    Inv l tramp { k with machine := machine } := by
  have spaces : machine.spaces = k.machine.spaces := by
    obtain ⟨set, -, h⟩ := Option.bind_eq_some_iff.mp h
    obtain ⟨pte, -, h⟩ := Option.bind_eq_some_iff.mp h
    split at h
    · rw [← Option.some.inj h]
    · exact absurd h (by simp)
  exact Inv.of_idle ⟨ordered.machine.step above h, ordered.users.congr fun q => by rw [spaces],
    ordered.kernel.congr (Machine.live_congr (by rw [spaces])), ordered.holder, ordered.held⟩ idle

/-- A step that fits does not find a page of a new stack mapped, and keeps the invariant. -/
theorem Inv.step (inv : k.Inv l tramp) (above : Above layout l tramp) {event : ThreadEvent}
    (fits : k.Fits event) : Avoids .mapped (Inv l tramp) (k.step layout event) := by
  unfold ThreadMachine.step
  split
  · cases event with
    | recycle => exact .orError (by simp) fun _ recycled => inv.recycle above recycled
    | _ => exact fun same => by simp at same
  · next notRecycling =>
    have idle : k.recycling = none := by simpa using notRecycling
    have ordered := inv.idle idle
    cases event with
    | new elf => exact ordered.newProcess above idle fits.1 fits.2
    | fork t => exact ordered.fork above idle fits
    | exec t elf => exact ordered.exec above idle fits
    | threadCreate t => exact ordered.sysThreadCreate idle fits.1 fits.2
    | exit t exitCode => exact .orError (by simp) fun _ exits => ordered.exitCurrent idle exits
    | recycle => exact fun same => by simp at same
    | waittid t tid => exact .orError (by simp) fun _ waits => ordered.sysWaittid idle waits
    | dropTcb t => exact .orError (by simp) fun _ drops => ordered.dropTcb idle drops
    | dropPcb process => exact .orError (by simp) fun _ drops => ordered.dropPcb above idle drops
    | store id vpn offset byte =>
        exact .orError_map (by simp) fun _ stores => ordered.store above idle stores

/-- The state after `mm::init`. -/
theorem inv_boot {mem : Memory} (h : boot mem layout = some k) :
    k.Inv (firstFrame layout) (trampolineFrame layout) ∧
      Above layout (firstFrame layout) (trampolineFrame layout) := by
  obtain ⟨machine, booted, rfl⟩ := Option.map_eq_some_iff.mp h
  obtain ⟨inv, above⟩ := Machine.inv_boot booted
  obtain ⟨noUser, kernel, isKernel, sections⟩ := Machine.boot_spaces booted
  refine ⟨Inv.of_idle ⟨inv, ⟨fun p set isLive => ?_, fun p _ => noUser p, by simp⟩,
    ⟨⟨kernel, ?_, ?_⟩, by simp, by simp⟩, by simp, by simp⟩ rfl, above⟩
  · rw [Machine.live_eq_some, noUser p] at isLive
    exact absurd isLive (by simp)
  · exact Machine.live_eq_some.mpr isKernel
  · exact ⟨new_ok, fun i inUse => absurd inUse.1 (Nat.not_lt_zero _),
      fun area mem => .inl (sections area mem), fun i inUse => absurd inUse.1 (Nat.not_lt_zero _)⟩

/-- No run finds a page of a new stack mapped, and every state that it reaches is in order. -/
theorem Inv.run {events : List ThreadEvent} (inv : k.Inv l tramp) (above : Above layout l tramp) :
    Avoids .mapped (Inv l tramp) (k.run layout events) := by
  induction events generalizing k with
  | nil => exact inv
  | cons event events ih =>
      unfold ThreadMachine.run
      split
      · next fits => exact (inv.step above fits).bind fun _ inv' => ih inv'
      · exact fun same => by simp at same

end ThreadMachine

end Steps

end CoreFromDust.Os.Mm
