import CoreFromDust.Os.Mm.Proofs.ThreadEvolution

/-!
# The frames of the block driver

Embedding of `dma_alloc` of `os/src/drivers/block/virtio_blk.rs`. The driver asks for frames when it
is made, which is before the first process; here it may do so at any time. `QUEUE_FRAMES` keeps
them, and the device writes to them. `dma_dealloc` is for a driver that is dropped, and
`BLOCK_DEVICE` is not.
-/

namespace CoreFromDust.Os.Mm

open CoreFromDust.Lib

/-- The loop of `dma_alloc` for the pages that are left, of which the first has the number `i`. -/
def dmaAllocLoop : Nat → Nat → Nat → Phys → List Nat → Option (Nat × Phys × List Nat)
  | 0, _, ppnBase, s, queueFrames => some (ppnBase, s, queueFrames)
  | left + 1, i, ppnBase, s, queueFrames =>
      s.frameAlloc.bind fun (frame, s) =>
        let ppnBase := if i = 0 then frame else ppnBase
        if frame = ppnBase + i then dmaAllocLoop left (i + 1) ppnBase s (queueFrames ++ [frame])
        else none

/-- `VirtioHal::dma_alloc`; the address of the first frame comes with `QUEUE_FRAMES`. -/
def dmaAlloc (s : Phys) (queueFrames : List Nat) (pages : Nat) : Option (Nat × Phys × List Nat) :=
  (dmaAllocLoop pages 0 0 s queueFrames).map fun (ppnBase, s, queueFrames) =>
    (ppnBase * 4096, s, queueFrames)

/-- The machine of threads, with `QUEUE_FRAMES`. -/
structure DrivenMachine where
  threads : ThreadMachine
  queueFrames : List Nat

/-- What happens to threads, processes and the driver. -/
inductive DrivenEvent where
  | thread (event : ThreadEvent)
  | dmaAlloc (pages : Nat)
  /-- the device writes to a frame of the driver -/
  | device (ppn offset : Nat) (byte : UInt8)

/-- The state with another physical memory. -/
def ThreadMachine.setPhys (k : ThreadMachine) (phys : Phys) : ThreadMachine :=
  { k with machine := { k.machine with phys := phys } }

namespace DrivenMachine

/-- The machine after `mm::init`, without processes and without the driver. -/
def boot (mem : Memory) (layout : KernelLayout) : Option DrivenMachine :=
  (ThreadMachine.boot mem layout).map fun threads => ⟨threads, []⟩

/-- One step. -/
def step (layout : KernelLayout) (k : DrivenMachine) : DrivenEvent → Except Panic DrivenMachine
  | .thread event => (k.threads.step layout event).map fun threads => { k with threads := threads }
  | .dmaAlloc pages =>
      (orPanic (dmaAlloc k.threads.machine.phys k.queueFrames pages)).map
        fun (_, phys, queueFrames) => ⟨k.threads.setPhys phys, queueFrames⟩
  | .device ppn offset byte =>
      if ppn ∈ k.queueFrames ∧ offset < 4096 then
        let phys := k.threads.machine.phys
        .ok { k with
          threads := k.threads.setPhys { phys with mem := phys.mem.writeBytes ppn offset [byte] } }
      else .error .other

/-- The ids that the event takes are below `2 ^ 20`, and a program leaves room for its stacks. -/
def Fits (k : DrivenMachine) : DrivenEvent → Prop
  | .thread event => k.threads.Fits event
  | _ => True

instance (k : DrivenMachine) : (event : DrivenEvent) → Decidable (k.Fits event)
  | .thread event => inferInstanceAs (Decidable (k.threads.Fits event))
  | .dmaAlloc _ | .device _ _ _ => inferInstanceAs (Decidable True)

/-- A run in which every event fits. -/
def run (layout : KernelLayout) (k : DrivenMachine) : List DrivenEvent → Except Panic DrivenMachine
  | [] => .ok k
  | event :: events =>
      if k.Fits event then (k.step layout event).bind fun k => k.run layout events
      else .error .other

end DrivenMachine

/-! ## What the driver does to the frames -/

section Driver

variable {l tramp : Nat} {layout : KernelLayout} {s s' phys : Phys}
  {queueFrames queueFrames' : List Nat}

/-- The driver takes frames that nobody has. -/
theorem dmaAllocLoop_changes {left i ppnBase ppnBase' : Nat} (ok : s.Ok l)
    (inUse : ∀ ppn ∈ queueFrames, s.InUse l ppn) (nodup : queueFrames.Nodup)
    (h : dmaAllocLoop left i ppnBase s queueFrames = some (ppnBase', s', queueFrames')) :
    Changes l s s' queueFrames queueFrames' ∧ queueFrames'.Nodup := by
  induction left generalizing i ppnBase s queueFrames with
  | zero =>
      simp only [dmaAllocLoop, Option.some.injEq, Prod.mk.injEq] at h
      obtain ⟨-, rfl, rfl⟩ := h
      exact ⟨.refl ok inUse, nodup⟩
  | succ left ih =>
      obtain ⟨⟨frame, next⟩, found, h⟩ := Option.bind_eq_some_iff.mp h
      have alloc := Phys.frameAlloc_spec ok found
      have first := Changes.alloc alloc inUse
      have fresh : (queueFrames ++ [frame]).Nodup := by
        refine List.nodup_append.mpr ⟨nodup, List.nodup_singleton _, ?_⟩
        rintro ppn mem other last rfl
        rw [List.mem_singleton.mp last] at mem
        exact alloc.fresh (inUse frame mem)
      dsimp only at h
      generalize (if i = 0 then frame else ppnBase) = base at h
      split at h
      · obtain ⟨rest, nodup'⟩ := ih first.ok (fun ppn mem => first.mem_inUse mem) fresh h
        exact ⟨first.trans rest, nodup'⟩
      · exact absurd h (by simp)

theorem dmaAlloc_changes {pages pa : Nat} (ok : s.Ok l) (inUse : ∀ ppn ∈ queueFrames, s.InUse l ppn)
    (nodup : queueFrames.Nodup) (h : dmaAlloc s queueFrames pages = some (pa, s', queueFrames')) :
    Changes l s s' queueFrames queueFrames' ∧ queueFrames'.Nodup := by
  obtain ⟨⟨ppnBase, last, frames⟩, looped, h⟩ := Option.map_eq_some_iff.mp h
  simp only [Prod.mk.injEq] at h
  obtain ⟨-, rfl, rfl⟩ := h
  exact dmaAllocLoop_changes ok inUse nodup looped

/-- What is done to frames that no address space has. -/
theorem Machine.Inv.setPhys {k : Machine} (inv : k.Inv l tramp) (shared : k.Shared l queueFrames)
    (changes : Changes l k.phys phys queueFrames queueFrames') :
    Machine.Inv l tramp { k with phys := phys } where
  ok := changes.ok
  space := fun id space found => (inv.space id space found).other changes fun ppn mem kept => by
    refine (shared.apart ppn kept).2 id ?_
    rwa [found]
  disjoint := inv.disjoint

theorem Machine.Shared.setPhys {k : Machine} (inv : k.Inv l tramp) (shared : k.Shared l queueFrames)
    (changes : Changes l k.phys phys queueFrames queueFrames') :
    Machine.Shared l queueFrames' { k with phys := phys } := by
  refine ⟨fun ppn mem => ⟨changes.mem_inUse mem, fun id own => ?_⟩, fun ppn used => ?_⟩
  · rcases changes.fresh ppn mem with old | free
    · exact (shared.apart ppn old).2 id own
    · exact free (inv.ownOf_inUse own)
  · rcases (changes.inUse ppn).mp used with ⟨used, notKept⟩ | isNew
    · exact .inr ((shared.noLeak ppn used).resolve_left notKept)
    · exact .inl isNew

end Driver

/-! ## Runs -/

namespace DrivenMachine

variable {l tramp : Nat} {layout : KernelLayout} {k k' : DrivenMachine} {id : SpaceId}

/-- What holds between the steps of a run. -/
structure Accounted (l tramp : Nat) (k : DrivenMachine) : Prop where
  inv : k.threads.Inv l tramp
  own : k.threads.RecyclesOwn
  shared : k.threads.machine.Shared l k.queueFrames
  nodup : k.queueFrames.Nodup

/-- The driver has been at work. -/
theorem Accounted.setPhys (accounted : k.Accounted l tramp) {phys : Phys} {queueFrames : List Nat}
    (changes : Changes l k.threads.machine.phys phys k.queueFrames queueFrames)
    (nodup : queueFrames.Nodup) : Accounted l tramp ⟨k.threads.setPhys phys, queueFrames⟩ := by
  have ordered := accounted.inv.ordered
  have machine := ordered.machine.setPhys accounted.shared changes
  exact ⟨⟨⟨machine, ordered.users.congr fun _ => rfl, ordered.kernel.congr rfl, ordered.holder,
    ordered.held⟩, accounted.inv.recycling⟩, accounted.own,
    accounted.shared.setPhys ordered.machine changes, nodup⟩

/-- The event changes the address space, or what is in its frames. -/
def touches (k : DrivenMachine) (id : SpaceId) : DrivenEvent → Bool
  | .thread event => k.threads.touches id event
  | _ => false

/-- A step: it keeps what is said of the frames, and an address space that it does not touch. -/
theorem Accounted.step (accounted : k.Accounted l tramp) (above : Above layout l tramp)
    {event : DrivenEvent} (fits : k.Fits event) (h : k.step layout event = .ok k') :
    k'.Accounted l tramp ∧ ∀ id, k.touches id event = false →
      k'.threads.machine.spaces id = k.threads.machine.spaces id ∧
        SameBytes k.threads.machine k'.threads.machine id := by
  have inv := accounted.inv.ordered.machine
  -- the driver does not touch address spaces
  have driver :
      ∀ {phys queueFrames}, Changes l k.threads.machine.phys phys k.queueFrames queueFrames →
      ∀ id, SameBytes k.threads.machine { k.threads.machine with phys := phys } id := by
    intro phys queueFrames changes id ppn mem
    exact changes.other ppn (inv.ownOf_inUse mem) fun kept =>
      (accounted.shared.apart ppn kept).2 id mem
  cases event with
  | thread event =>
      obtain ⟨threads, taken, rfl⟩ := map_ok h
      obtain ⟨evolves, own⟩ := accounted.inv.step_evolves accounted.own above taken
      refine ⟨⟨(accounted.inv.step above fits).of_ok taken, own, evolves.shared accounted.shared,
        accounted.nodup⟩, fun id apart => evolves.kept inv ?_⟩
      rw [touches] at apart
      simp [apart]
  | dmaAlloc pages =>
      obtain ⟨⟨pa, phys, queueFrames⟩, taken, rfl⟩ := orError_map_ok h
      obtain ⟨changes, nodup⟩ := dmaAlloc_changes inv.ok
        (fun ppn mem => (accounted.shared.apart ppn mem).1) accounted.nodup taken
      exact ⟨accounted.setPhys changes nodup, fun id _ => ⟨rfl, driver changes id⟩⟩
  | device ppn offset byte =>
      simp only [DrivenMachine.step] at h
      split at h
      · next isKept =>
        obtain rfl := Except.ok.inj h
        have inUse : ∀ ppn ∈ k.queueFrames, k.threads.machine.phys.InUse l ppn :=
          fun ppn mem => (accounted.shared.apart ppn mem).1
        have apart : ∀ other, k.threads.machine.phys.InUse l other → other ∉ k.queueFrames →
            SameFrame k.threads.machine.phys.mem
              (k.threads.machine.phys.mem.writeBytes ppn offset [byte]) other := by
          intro other _ notKept i bound
          refine Memory.bytes_writeBytes_other _ [byte] isKept.2 ?_ bound
          rintro rfl
          exact notKept isKept.1
        have changes := Changes.write inv.ok inUse apart
        exact ⟨accounted.setPhys changes accounted.nodup, fun id _ => ⟨rfl, driver changes id⟩⟩
      · exact absurd h (by simp)

end DrivenMachine

end CoreFromDust.Os.Mm
