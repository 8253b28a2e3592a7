import CoreFromDust.Os.Mm.Proofs.ThreadSteps
import CoreFromDust.Os.Mm.SpaceConsistency

/-!
# Stacks and trap contexts

Whatever threads and processes do, the pages of a new stack or trap context are not mapped, those of
two threads are different, the page below a stack is not mapped, and what a thread gives back are
its own pages.
-/

namespace CoreFromDust.Os.Mm

open CoreFromDust.Lib SpaceWf

/-- The page is that of the trap context of the thread. -/
def OnTrapCx (tid vpn : Nat) : Prop :=
  floor (virtAddr (trapCxBottomFromTid tid)) ≤ vpn ∧
    vpn < ceil (virtAddr ((trapCxBottomFromTid tid + 4096) % 2 ^ 64))

/-- The page lies on the kernel stack. -/
def OnKernelStack (kstackId vpn : Nat) : Prop :=
  floor (virtAddr (kernelStackPosition kstackId).1) ≤ vpn ∧
    vpn < ceil (virtAddr (kernelStackPosition kstackId).2)

/-- The pages that `alloc_user_res` inserts. -/
def TaskUserRes.Has (res : TaskUserRes) (vpn : Nat) : Prop :=
  OnUserStack res.ustackBase res.tid vpn ∨ OnTrapCx res.tid vpn

instance (ustackBase tid vpn : Nat) : Decidable (OnUserStack ustackBase tid vpn) :=
  inferInstanceAs (Decidable (_ ∧ _))

instance (tid vpn : Nat) : Decidable (OnTrapCx tid vpn) := inferInstanceAs (Decidable (_ ∧ _))

instance (kstackId vpn : Nat) : Decidable (OnKernelStack kstackId vpn) :=
  inferInstanceAs (Decidable (_ ∧ _))

instance (res : TaskUserRes) (vpn : Nat) : Decidable (res.Has vpn) :=
  inferInstanceAs (Decidable (_ ∨ _))

namespace ThreadMachine

/-- A `TaskUserRes` of a thread of the process. -/
def ResOf (k : ThreadMachine) (p t : Nat) (res : TaskUserRes) : Prop :=
  k.userRes t = some res ∧ res.process = p

/-- The stacks and trap contexts of a process in its address space. -/
structure UserStacks (k : ThreadMachine) (p : Nat) (set : MemorySet) : Prop where
  mapped : ∀ t res, k.ResOf p t res → ∀ vpn, res.Has vpn → set.pageTable.Maps k.machine.phys.mem vpn
  trampoline : set.pageTable.Maps k.machine.phys.mem trampolineVpn
  belowTrampoline : ∀ t res, k.ResOf p t res → ¬ res.Has trampolineVpn
  stackOrTrapCx : ∀ t res, k.ResOf p t res →
    ∀ vpn, OnUserStack res.ustackBase res.tid vpn → ¬ OnTrapCx res.tid vpn
  apart : ∀ t t' res res', t ≠ t' → k.ResOf p t res → k.ResOf p t' res' →
    ∀ vpn, res.Has vpn → ¬ res'.Has vpn
  guardPage : ∀ t res, k.ResOf p t res → ¬ set.pageTable.Maps k.machine.phys.mem
    (floor (virtAddr (ustackBottomFromTid res.ustackBase res.tid - 4096)))
  /-- `dealloc_user_res` removes the pages of the thread, and no others -/
  removed : ∀ t res, k.ResOf p t res → ∃ phys set',
    set.deallocUserRes k.machine.phys res.ustackBase res.tid = some (phys, set') ∧
    ∀ vpn < 2 ^ 27, set'.pageTable.lookup phys.mem vpn =
      if res.Has vpn then none else set.pageTable.lookup k.machine.phys.mem vpn

/-- The kernel stacks of the threads in `KERNEL_SPACE`. -/
structure KernelStacks (k : ThreadMachine) (kernel : MemorySet) : Prop where
  mapped : ∀ t tcb, k.tcbs t = some tcb →
    ∀ vpn, OnKernelStack tcb.kstack vpn → kernel.pageTable.Maps k.machine.phys.mem vpn
  belowTrampoline : ∀ t tcb, k.tcbs t = some tcb → ¬ OnKernelStack tcb.kstack trampolineVpn
  apart : ∀ t t' tcb tcb', t ≠ t' → k.tcbs t = some tcb → k.tcbs t' = some tcb' →
    ∀ vpn, OnKernelStack tcb.kstack vpn → ¬ OnKernelStack tcb'.kstack vpn
  guardPage : ∀ t tcb, k.tcbs t = some tcb → ¬ kernel.pageTable.Maps k.machine.phys.mem
    (floor (virtAddr ((kernelStackPosition tcb.kstack).1 - 4096)))
  /-- `KernelStack::drop` removes the pages of the stack, and no others -/
  removed : ∀ t tcb, k.tcbs t = some tcb → ∃ phys kernel',
    kernel.removeKstack k.machine.phys tcb.kstack = some (phys, kernel') ∧
    ∀ vpn < 2 ^ 27, kernel'.pageTable.lookup phys.mem vpn =
      if OnKernelStack tcb.kstack vpn then none else kernel.pageTable.lookup k.machine.phys.mem vpn

/-- The stacks of all threads. A `TaskUserRes` is that of a process that is not a zombie. -/
structure StacksApart (k : ThreadMachine) : Prop where
  live : ∀ t res, k.userRes t = some res → (k.machine.live (.user res.process)).isSome
  held : ∀ t tcb, k.tcbs t = some tcb → tcb.res = true → ∃ res, k.ResOf tcb.process t res
  user : ∀ p set, k.machine.live (.user p) = some set → k.UserStacks p set
  kernel : ∃ kernel, k.machine.live .kernel = some kernel ∧ k.KernelStacks kernel

section Places

variable {l tramp b tid vpn i p : Nat} {k : ThreadMachine} {set : MemorySet} {loose : Nat → Prop}

theorem onTrapCx_iff (few : tid < 2 ^ 20) : OnTrapCx tid vpn ↔ vpn + tid = 2 ^ 27 - 2 := by
  obtain ⟨bottom, top⟩ := trapCxBottom_eq few.le
  rw [OnTrapCx, bottom, top, floor, ceil, if_neg (by omega)]
  omega

theorem has_iff {res : TaskUserRes} (low : b < 2 ^ 25) (few : res.tid < 2 ^ 20)
    (isBase : res.ustackBase = b * 4096) : res.Has vpn ↔ Placed.OnPages b res.tid vpn := by
  rw [TaskUserRes.Has, isBase, onUserStack_iff (by omega) few.le, onTrapCx_iff few, Placed.OnPages]

theorem onKernelStack_iff (few : i < 2 ^ 20) :
    OnKernelStack i vpn ↔ KernelPlaced.OnPages i vpn := by
  obtain ⟨bottom, top⟩ := kernelStackPosition_eq few
  rw [OnKernelStack, bottom, top, floor, ceil, if_neg (by omega), KernelPlaced.OnPages]
  omega

theorem ustackGuard_eq (pos : 1 ≤ b) (low : b < 2 ^ 25) (few : tid < 2 ^ 20) :
    floor (virtAddr (ustackBottomFromTid (b * 4096) tid - 4096)) = b + 3 * tid - 1 := by
  unfold ustackBottomFromTid virtAddr floor
  omega

theorem kstackGuard_eq (few : i < 2 ^ 20) :
    floor (virtAddr ((kernelStackPosition i).1 - 4096)) = 2 ^ 27 - 4 - 3 * i := by
  have top : wrappingSub trampoline (i * (8192 + 4096)) = 2 ^ 64 - 4096 - 12288 * i := by
    simp only [wrappingSub, trampoline]
    omega
  have bottom : (kernelStackPosition i).1 = 2 ^ 64 - 12288 - 12288 * i := by
    simp only [kernelStackPosition, top]
    simp only [wrappingSub]
    omega
  rw [bottom]
  unfold floor virtAddr
  omega

theorem trampolineVpn_eq : trampolineVpn = 2 ^ 27 - 1 := by decide

theorem Ordered.userStacks (ordered : k.Ordered l tramp loose)
    (isLive : k.machine.live (.user p) = some set) :
    k.UserStacks p set := by
  obtain ⟨pcb, b, isPcb, ok⟩ := ordered.users.live p set isLive
  have wf : set.Wf l tramp k.machine.phys := ordered.machine.wf isLive
  have low := ok.placed.low
  -- where the resources of a thread of the process are
  have place : ∀ t res, k.ResOf p t res → res.ustackBase = b * 4096 ∧
      pcb.taskResAllocator.InUse res.tid ∧ res.tid < 2 ^ 20 ∧
      ∀ vpn, res.Has vpn ↔ Placed.OnPages b res.tid vpn := by
    rintro t res ⟨isRes, isHere⟩
    obtain ⟨isBase, inUse, -⟩ := ok.threads.res t res isRes isHere
    have few := ok.placed.few _ inUse
    exact ⟨isBase, inUse, few, fun vpn => has_iff low few isBase⟩
  refine ⟨fun t res isRes vpn has => ?_, ?_, fun t res isRes has => ?_,
    fun t res isRes vpn onStack onTrapCx => ?_,
    fun t t' res res' differ isRes isRes' vpn has has' => ?_, fun t res isRes => ?_,
    fun t res isRes => ?_⟩
  · obtain ⟨-, inUse, -, pages⟩ := place t res isRes
    exact ok.placed.maps wf inUse ((pages vpn).mp has)
  · rw [PageTable.Maps, trampolineVpn_eq, wf.onTrampoline]
    rfl
  · obtain ⟨-, -, few, pages⟩ := place t res isRes
    have onPages := (pages _).mp has
    rw [trampolineVpn_eq, Placed.OnPages] at onPages
    omega
  · obtain ⟨isBase, -, few, -⟩ := place t res isRes
    rw [isBase, onUserStack_iff (by omega) few.le] at onStack
    rw [onTrapCx_iff few] at onTrapCx
    omega
  · obtain ⟨-, -, few, pages⟩ := place t res isRes
    obtain ⟨-, -, few', pages'⟩ := place t' res' isRes'
    have others : res.tid ≠ res'.tid := fun same =>
      differ (ok.threads.distinct isRes.1 isRes'.1 isRes.2 isRes'.2 same)
    have onPages := (pages vpn).mp has
    have onPages' := (pages' vpn).mp has'
    unfold Placed.OnPages at onPages onPages'
    omega
  · obtain ⟨isBase, inUse, few, -⟩ := place t res isRes
    rw [isBase, ustackGuard_eq ok.placed.pos low few]
    exact ok.placed.guardPage wf inUse
  · obtain ⟨isBase, inUse, -, pages⟩ := place t res isRes
    rw [isBase]
    obtain ⟨⟨phys, set'⟩, isRemoved⟩ :=
      Option.isSome_iff_exists.mp (ok.placed.deallocUserRes_isSome wf inUse)
    obtain ⟨-, -, removes⟩ :=
      ok.placed.deallocUserRes wf (RecycleAllocator.dealloc_of_inUse inUse) isRemoved
    refine ⟨phys, set', isRemoved, fun vpn small => ?_⟩
    obtain ⟨gone, kept⟩ := removes vpn small
    split
    · next has => exact gone ((pages vpn).mp has)
    · next outside => exact kept fun onPages => outside ((pages vpn).mpr onPages)

theorem Ordered.kernelStacks (ordered : k.Ordered l tramp loose) :
    ∃ kernel, k.machine.live .kernel = some kernel ∧ k.KernelStacks kernel := by
  obtain ⟨kernel, isLive, placed⟩ := ordered.kernel.kernel
  have wf : kernel.Wf l tramp k.machine.phys := ordered.machine.wf isLive
  have place : ∀ t tcb, k.tcbs t = some tcb → k.kstackAllocator.InUse tcb.kstack ∧
      tcb.kstack < 2 ^ 20 ∧
      ∀ vpn, OnKernelStack tcb.kstack vpn ↔ KernelPlaced.OnPages tcb.kstack vpn := by
    intro t tcb isTcb
    have inUse := (ordered.kernel.tcb t tcb isTcb).2
    have few := placed.few _ inUse
    exact ⟨inUse, few, fun vpn => onKernelStack_iff few⟩
  refine ⟨kernel, isLive, fun t tcb isTcb vpn onStack => ?_, fun t tcb isTcb onStack => ?_,
    fun t t' tcb tcb' differ isTcb isTcb' vpn onStack onStack' => ?_, fun t tcb isTcb => ?_,
    fun t tcb isTcb => ?_⟩
  · obtain ⟨inUse, -, pages⟩ := place t tcb isTcb
    exact placed.maps wf inUse ((pages vpn).mp onStack)
  · obtain ⟨-, few, pages⟩ := place t tcb isTcb
    have onPages := (pages _).mp onStack
    rw [trampolineVpn_eq, KernelPlaced.OnPages] at onPages
    omega
  · obtain ⟨-, few, pages⟩ := place t tcb isTcb
    obtain ⟨-, few', pages'⟩ := place t' tcb' isTcb'
    have others : tcb.kstack ≠ tcb'.kstack := fun same =>
      differ (ordered.kernel.distinct t t' tcb tcb' isTcb isTcb' same)
    have onPages := (pages vpn).mp onStack
    have onPages' := (pages' vpn).mp onStack'
    unfold KernelPlaced.OnPages at onPages onPages'
    omega
  · obtain ⟨inUse, few, -⟩ := place t tcb isTcb
    rw [kstackGuard_eq few]
    exact placed.guardPage wf inUse
  · obtain ⟨inUse, -, pages⟩ := place t tcb isTcb
    obtain ⟨⟨phys, kernel'⟩, isRemoved⟩ :=
      Option.isSome_iff_exists.mp (placed.removeKstack_isSome wf inUse)
    obtain ⟨-, -, removes⟩ :=
      placed.removeKstack wf (RecycleAllocator.dealloc_of_inUse inUse) isRemoved
    refine ⟨phys, kernel', isRemoved, fun vpn small => ?_⟩
    obtain ⟨gone, kept⟩ := removes vpn small
    split
    · next has => exact gone ((pages vpn).mp has)
    · next outside => exact kept fun onPages => outside ((pages vpn).mpr onPages)

theorem Ordered.stacksApart (ordered : k.Ordered l tramp loose) : k.StacksApart where
  live := fun t res isRes => (ordered.users.res t res isRes).1
  held := by
    intro t tcb isTcb holds
    obtain ⟨res, isRes⟩ := Option.isSome_iff_exists.mp (ordered.held t tcb isTcb holds).1
    obtain ⟨tcb', isTcb', isHere, -⟩ := ordered.holder t res isRes
    obtain rfl := Option.some.inj (isTcb.symm.trans isTcb')
    exact ⟨res, isRes, isHere.symm⟩
  user := fun _ _ isLive => ordered.userStacks isLive
  kernel := ordered.kernelStacks

end Places

/-- In every run of threads and processes with ids below `2 ^ 20` and programs that leave room for
their stacks, no page of a new stack or trap context is mapped already, and in every state that the
run reaches the stacks, the trap contexts and the trampoline lie apart, with a page below each stack
that is not mapped, and what is given back for an id are its pages. -/
theorem stacks_apart {layout : KernelLayout} {booted : ThreadMachine} (mem : Memory)
    (boot : ThreadMachine.boot mem layout = some booted) (events : List ThreadEvent) :
    booted.run layout events ≠ .error .mapped ∧
      ∀ k, booted.run layout events = .ok k → k.StacksApart := by
  obtain ⟨inv, above⟩ := inv_boot boot
  have avoids : Avoids .mapped (Inv (firstFrame layout) (trampolineFrame layout))
      (booted.run layout events) := inv.run above
  exact ⟨avoids.ne_error, fun k reached => (avoids.of_ok reached).ordered.stacksApart⟩

/-- A second thread exits, and a third one gets its id. -/
def idAgain : List ThreadEvent :=
  [.new ⟨[⟨0x10000, 0x1000, true, false, true, [19]⟩], 0x10000⟩, .threadCreate 0, .exit 1 0,
    .threadCreate 0]

theorem stacks_apart_idAgain : ∃ booted k, boot (fun _ => 0) tinyLayout = some booted ∧
    booted.run tinyLayout idAgain = .ok k ∧ k.StacksApart := by
  have runs : ((boot (fun _ => 0) tinyLayout).any fun booted =>
      (booted.run tinyLayout idAgain).isOk) = true := by
    decide +kernel
  obtain ⟨booted, isBoot, isOk⟩ := (Option.any_eq_true _ _).mp runs
  cases reached : booted.run tinyLayout idAgain with
  | error panic =>
      rw [reached] at isOk
      exact absurd isOk (by simp [Except.isOk, Except.toBool])
  | ok k => exact ⟨booted, k, isBoot, reached, (stacks_apart _ isBoot idAgain).2 k reached⟩

end ThreadMachine

end CoreFromDust.Os.Mm
