import CoreFromDust.Os.Mm.Proofs.ProcessSteps

/-!
# Enough frames

A page takes at most three frames, one for its data and two for missing tables. With that many
free frames for each page the operations that map fresh pages do not panic.
-/

namespace CoreFromDust.Os.Mm

open SpaceWf

variable {File : Type} {l tramp vpn ppn : Nat} {layout : KernelLayout}
  {k : Processes File} {id : Nat}
  {s s' : Phys} {t : PageTable} {area : MapArea} {areas rest : List MapArea} {src set : MemorySet}

/-- The operation returns and takes at most `n` frames. -/
def Takes {α : Type} (n : Nat) (s : Phys) (phys : α → Phys) (result : Option α) : Prop :=
  ∃ value, result = some value ∧ s.freeFrames ≤ (phys value).freeFrames + n

/-! ## Pages -/

theorem missingTables_le (m : Memory) (ppn : Nat) (idxs : List Nat) :
    missingTables m ppn idxs ≤ idxs.length - 1 := by
  induction idxs generalizing ppn with
  | nil => exact Nat.le_refl _
  | cons index idxs ih =>
      cases idxs with
      | nil => exact Nat.le_refl _
      | cons second rest =>
          have le := ih (m.pte ppn index).ppn
          change (if (m.pte ppn index).isValid then
            missingTables m (m.pte ppn index).ppn (second :: rest) else (second :: rest).length) ≤ _
          simp only [List.length_cons] at le ⊢
          split <;> omega

/-- A frame is taken for each table that is created. -/
theorem findPteCreateFrom_freeFrames {frames : List Nat} {idxs : List Nat} (ok : s.Ok l)
    {result : Phys × List Nat × (Nat × Nat)}
    (h : PageTable.findPteCreateFrom s frames ppn idxs = some result) :
    s.freeFrames ≤ result.1.freeFrames + (idxs.length - 1) := by
  induction idxs generalizing s frames ppn with
  | nil => exact absurd h (by simp [PageTable.findPteCreateFrom])
  | cons index idxs ih =>
      cases idxs with
      | nil =>
          obtain rfl := Option.some.inj h
          exact Nat.le_refl _
      | cons second rest =>
          change (if (s.mem.pte ppn index).isValid then
              PageTable.findPteCreateFrom s frames (s.mem.pte ppn index).ppn (second :: rest)
            else s.frameAlloc.bind _) = _ at h
          simp only [List.length_cons] at ih ⊢
          split at h
          · have le := ih ok h
            omega
          · obtain ⟨⟨frame, allocated⟩, isAlloc, h⟩ := Option.bind_eq_some_iff.mp h
            have alloc := Phys.frameAlloc_spec ok isAlloc
            have one := freeFrames_alloc ok isAlloc
            have ok' : (allocated.setPte ppn index (.new frame PTEFlags.v)).Ok l :=
              ⟨alloc.ok.stack, alloc.ok.le, alloc.ok.small⟩
            have le := ih ok' h
            have same : (allocated.setPte ppn index (.new frame PTEFlags.v)).freeFrames =
              allocated.freeFrames := rfl
            omega

/-- `map` of a page that is not mapped. -/
theorem map_takes (ppn : Nat) (owned : t.Owned l s) (free : t.lookup s.mem vpn = none)
    (enough : 2 ≤ s.freeFrames) (flags : UInt8) : Takes 2 s Prod.fst (t.map s vpn ppn flags) := by
  cases result : t.map s vpn ppn flags with
  | none =>
      rcases (PageTable.map_eq_none owned).mp result with mapped | lacking
      · rw [PageTable.Maps, free] at mapped
        exact absurd mapped (by simp)
      · have le := missingTables_le s.mem t.rootPpn (indexes vpn)
        simp only [indexes, List.length_cons, List.length_nil] at le lacking
        omega
  | some value =>
      refine ⟨value, rfl, ?_⟩
      obtain ⟨⟨grown, table, place⟩, isFound, result⟩ := Option.bind_eq_some_iff.mp result
      obtain ⟨⟨created, frames, place'⟩, isCreated, h⟩ := Option.map_eq_some_iff.mp isFound
      simp only [Prod.mk.injEq] at h
      obtain ⟨rfl, -, -⟩ := h
      have le := findPteCreateFrom_freeFrames owned.ok isCreated
      simp only at result
      split at result
      · exact absurd result (by simp)
      · obtain rfl := Option.some.inj result
        exact le

/-- `map_one` of a page of a framed area. -/
theorem mapOne_takes (wf : SpaceWf l tramp s t (area.upTo vpn :: areas))
    (framed : area.mapType = .framed)
    (free : t.lookup s.mem vpn = none) (enough : 3 ≤ s.freeFrames) :
    Takes 3 s Prod.fst (area.mapOne s t vpn) := by
  obtain ⟨⟨ppn, allocated⟩, isAlloc⟩ := Option.isSome_iff_exists.mp
    ((frameAlloc_isSome wf.table.ok).mpr (by omega))
  have alloc := Phys.frameAlloc_spec wf.table.ok isAlloc
  have one := freeFrames_alloc wf.table.ok isAlloc
  have changes : Changes l s allocated [] [ppn] := Changes.alloc alloc (by simp)
  have wf' := wf.other changes (by simp)
  have free' : t.lookup allocated.mem vpn = none := by
    rw [PageTable.lookup, wf.table.translate_congr fun other table =>
      changes.other other (wf.table.inUse other table) List.not_mem_nil]
    exact free
  obtain ⟨⟨mapped, table⟩, isMapped, le⟩ := map_takes ppn wf'.table free' (by omega)
    area.mapPerm.bits
  simp only at le
  refine ⟨(mapped, table, { area with dataFrames := area.dataFrames ++ [(vpn, ppn)] }),
    ?_, by simp only; omega⟩
  simp only [MapArea.mapOne, framed, isAlloc, Option.bind_some,
    insertFrame_eq allocated ppn (wf.shape _ List.mem_cons_self), isMapped, Option.map_some]

/-- `map` for a run of pages that lie in no other area. -/
theorem mapPages_takes (n : Nat) (wf : SpaceWf l tramp s t (area.upTo vpn :: areas))
    (framed : area.mapType = .framed) (bound : vpn + n ≤ 2 ^ 27 - 1)
    (free : ∀ page, vpn ≤ page → page < vpn + n → ∀ other ∈ areas, ¬ other.Has page)
    (enough : 3 * n ≤ s.freeFrames) :
    Takes (3 * n) s Prod.fst (area.mapPages s t (List.range' vpn n)) := by
  induction n generalizing s t area vpn with
  | zero => exact ⟨_, rfl, Nat.le_refl _⟩
  | succ n ih =>
      have unmapped : t.lookup s.mem vpn = none := by
        refine wf.onNone vpn (by omega) fun other mem => ?_
        rcases List.mem_cons.mp mem with rfl | mem
        · exact fun has => Nat.lt_irrefl _ has.2
        · exact free vpn (Nat.le_refl _) (by omega) other mem
      obtain ⟨⟨first, table, grownArea⟩, isOne, le⟩ := mapOne_takes wf framed unmapped (by omega)
      obtain ⟨⟨entries, rfl⟩, grown⟩ := mapOne_spec wf (by omega) isOne
      simp only at le
      obtain ⟨last, isLast, le'⟩ := ih grown.wf framed (by omega)
        (fun page lower upper => free page (by omega) (by omega)) (by omega)
      refine ⟨last, ?_, by omega⟩
      rw [List.range'_succ, MapArea.mapPages, isOne, Option.bind_some]
      exact isLast

/-- `push` of a framed area on pages that lie in no other area. -/
theorem push_takes (wf : set.Wf l tramp s) (isNew : NewArea area) (framed : area.mapType = .framed)
    (bound : area.endVpn ≤ 2 ^ 27 - 1) (apart : ∀ other ∈ set.areas, other.Apart area)
    (enough : 3 * (area.endVpn - area.startVpn) ≤ s.freeFrames) :
    Takes (3 * (area.endVpn - area.startVpn)) s Prod.fst (set.push s area none) := by
  have le := isNew.le
  have empty : SpaceWf l tramp s set.pageTable (area.upTo area.startVpn :: set.areas) :=
    wf.cons_empty rfl (by simp only [MapArea.upTo]; omega) isNew.noFrames
  obtain ⟨⟨mapped, table, withFrames⟩, isMapped, takes⟩ :=
    mapPages_takes (area.endVpn - area.startVpn) empty
    framed (by omega) (fun page lower upper other mem has =>
      apart other mem page has ⟨lower, by omega⟩) enough
  refine ⟨(mapped, ⟨table, set.areas ++ [withFrames]⟩), ?_, takes⟩
  rw [MemorySet.push, MapArea.map, MapArea.pages, isMapped]
  rfl

/-! ## Address spaces -/

theorem MapArea.Shape.frames_length (shape : area.Shape) (framed : area.mapType = .framed) :
    area.frames.length = area.endVpn - area.startVpn := by
  have keys := congrArg List.length shape.keys
  rw [if_pos framed, MapArea.pages, List.length_range', List.length_map] at keys
  rw [MapArea.frames, List.length_map, keys]

/-- The loop of `from_existed_user` over the areas. -/
theorem copyAreas_takes (copying : Copying l tramp src set s)
    (subset : ∀ area ∈ rest, area ∈ src.areas)
    (pairwise : rest.Pairwise MapArea.Apart)
    (apart : ∀ area ∈ rest, ∀ other ∈ set.areas, other.Apart area)
    (enough : 3 * (areaFrames rest).length ≤ s.freeFrames) :
    Takes (3 * (areaFrames rest).length) s Prod.fst (MemorySet.copyAreas src set s rest) := by
  induction rest generalizing s set with
  | nil => exact ⟨_, rfl, Nat.le_refl _⟩
  | cons area rest ih =>
      have isArea := subset area List.mem_cons_self
      have framed := copying.framedSrc area isArea
      have shape := copying.wfSrc.shape area isArea
      have size := shape.frames_length framed
      rw [areaFrames_cons, List.length_append, size] at enough ⊢
      obtain ⟨⟨pushed, grown⟩, isPushed, takes⟩ :=
        push_takes copying.wf shape.fromAnother framed shape.bound
        (apart area List.mem_cons_self) (by simp only [MapArea.fromAnother]; omega)
      obtain ⟨mem, entries, isCopied, isAreas, copying', -⟩ := copying.pushed_spec isArea isPushed
      obtain ⟨first, pairwise⟩ := List.pairwise_cons.mp pairwise
      have sameFree : (⟨mem, pushed.allocator⟩ : Phys).freeFrames = pushed.freeFrames := rfl
      simp only [MapArea.fromAnother] at takes
      obtain ⟨last, isLast, takes'⟩ := ih copying'
        (fun other isOther => subset other (List.mem_cons_of_mem _ isOther)) pairwise (by
          intro later isLater other isOther
          rw [isAreas] at isOther
          rcases List.mem_append.mp isOther with isOld | isNew
          · exact apart later (List.mem_cons_of_mem _ isLater) other isOld
          · rw [List.mem_singleton.mp isNew]
            exact first later isLater) (by omega)
      refine ⟨last, ?_, by omega⟩
      simp only [MemorySet.copyAreas, isPushed, Option.bind_some, isCopied, isLast]

/-- An address space with the trampoline only. -/
theorem trampolineSpace_takes {strampoline : Nat} (ok : s.Ok l)
    (isTramp : pageAt (physAddr strampoline) = some tramp) (enough : 3 ≤ s.freeFrames) :
    ∃ bare bareSet mapped set, MemorySet.newBare s = some (bare, bareSet) ∧
      bareSet.mapTrampoline bare strampoline = some (mapped, set) ∧
      s.freeFrames ≤ mapped.freeFrames + 3 := by
  obtain ⟨⟨frame, allocated⟩, isAlloc⟩ := Option.isSome_iff_exists.mp
    ((frameAlloc_isSome ok).mpr (by omega))
  have one := freeFrames_alloc ok isAlloc
  have isTable : PageTable.new s = some (allocated, ⟨frame, [frame]⟩) := by
    rw [PageTable.new, isAlloc, Option.map_some]
  have isBare : MemorySet.newBare s = some (allocated, ⟨⟨frame, [frame]⟩, []⟩) := by
    rw [MemorySet.newBare, isTable, Option.map_some]
  obtain ⟨owned, -, empty⟩ := PageTable.new_spec ok isTable
  have page : pageAt (virtAddr trampoline) = some (2 ^ 27 - 1) := by decide
  have unmapped : PageTable.lookup ⟨frame, [frame]⟩ allocated.mem (2 ^ 27 - 1) = none := by
    rw [PageTable.lookup, empty]
    rfl
  obtain ⟨⟨mapped, table⟩, isMapped, two⟩ := map_takes tramp owned unmapped (by omega)
    (PTEFlags.r ||| PTEFlags.x)
  simp only at two
  refine ⟨allocated, ⟨⟨frame, [frame]⟩, []⟩, mapped, ⟨table, []⟩, isBare, ?_, by omega⟩
  simp only [MemorySet.mapTrampoline, page, isTramp, Option.bind_some, isMapped, Option.map_some]

/-- `from_existed_user`. -/
theorem fromExistedUser_takes {strampoline : Nat} (wf : src.Wf l tramp s) (framed : src.Framed)
    (small : tramp < 2 ^ 44) (isTramp : pageAt (physAddr strampoline) = some tramp)
    (enough : 3 * (areaFrames src.areas).length + 3 ≤ s.freeFrames) :
    Takes (3 * (areaFrames src.areas).length + 3) s Prod.fst
      (MemorySet.fromExistedUser s strampoline src) := by
  obtain ⟨bare, bareSet, mapped, set, isBare, isTrampoline, three⟩ :=
    trampolineSpace_takes wf.table.ok isTramp (by omega)
  obtain ⟨noAreas, wfNew, changes⟩ :=
    mapTrampoline_spec wf.table.ok small isTramp isBare isTrampoline
  have fresh : ∀ area ∈ src.areas, ∀ other ∈ set.areas, other.Apart area := by
    intro area _ other mem
    rw [noAreas] at mem
    exact absurd mem List.not_mem_nil
  obtain ⟨last, isLast, takes⟩ :=
    copyAreas_takes (.start wf framed noAreas wfNew changes) (fun _ mem => mem)
    wf.apart fresh (by omega)
  refine ⟨last, ?_, by omega⟩
  simp only [MemorySet.fromExistedUser, isBare, Option.bind_some, isTrampoline, isLast]

/-! ## Processes -/

/-- `kstack_alloc`. -/
theorem Processes.Inv.kstackAlloc_takes (inv : Processes.Inv l tramp k)
    (enough : 6 ≤ k.machine.phys.freeFrames) :
    Takes 6 k.machine.phys (fun result => result.2.machine.phys) k.kstackAlloc := by
  obtain ⟨kernel, found, areas⟩ := inv.kernel
  have wf : kernel.Wf l tramp k.machine.phys := (inv.machine.space _ _ found).wf rfl
  have few := areas.few wf inv.endPpn
  have isNew := newStack_eq few
  have apart : ∀ other ∈ kernel.areas, other.Apart ⟨2 ^ 27 - 3 - 3 * k.kstackAllocator.current,
      2 ^ 27 - 1 - 3 * k.kstackAllocator.current, [], .framed, ⟨true, true, false, false⟩⟩ := by
    intro other mem vpn has hasNew
    simp only [MapArea.Has] at has hasNew
    rcases areas.place other mem with low | ⟨i, below, isStack⟩
    · omega
    · simp only [IsStack] at isStack
      omega
  obtain ⟨⟨phys, grown⟩, isPushed, takes⟩ :=
    push_takes wf (newArea_spec isNew).1 rfl (by simp only; omega) apart (by simp only; omega)
  refine ⟨(k.kstackAllocator.current, { k with
      machine := k.machine.put phys .kernel (some ⟨grown, false⟩)
      kstackAllocator := ⟨k.kstackAllocator.current + 1, []⟩ }), ?_, ?_⟩
  · simp only [Processes.kstackAlloc, Machine.live_eq_some.mpr found,
      Option.bind_some, inv.alloc_eq, MemorySet.insertKernelStack, MemorySet.insertFramedArea,
      isNew, isPushed, Option.map_some]
  · simp only [Machine.put_phys] at takes ⊢
    omega

/-- The number of frames that suffices for `sys_fork`: three for each page and for the trampoline
with the root table, and three for each page of the kernel stack. -/
def forkFrames (set : MemorySet) : Nat := 3 * set.dataFrames.length + 9

/-- `sys_fork` returns when there are enough frames. -/
theorem Processes.Inv.sysFork_isSome (inv : Processes.Inv l tramp k) (above : Above layout l tramp)
    {parent : Pcb File} (isParent : k.pcbs id = some parent)
    (found : k.machine.spaces (.user id) = some ⟨set, false⟩)
    (enough : forkFrames set ≤ k.machine.phys.freeFrames) : (k.sysFork layout id).isSome := by
  rw [forkFrames, MemorySet.dataFrames_eq] at enough
  have ok := inv.machine.space _ _ found
  have wf : set.Wf l tramp k.machine.phys := ok.wf rfl
  have framed := ok.framed (by simp)
  obtain ⟨⟨phys, copy⟩, isCopy, takes⟩ :=
    fromExistedUser_takes wf framed above.small above.isTramp (by omega)
  obtain ⟨copies, wfCopy, framedCopy, changes⟩ :=
    fromExistedUser_spec wf framed above.small above.isTramp isCopy
  obtain ⟨-, set', found', has⟩ := inv.process id parent isParent
  rw [found] at found'
  obtain rfl : set = set' := congrArg Space.set (Option.some.inj found')
  have hasCopy := hasTrapCx_of_same (copies.imp fun _ _ copied => copied.toSameArea) has
  have placed := inv.putNext changes wfCopy framedCopy
  obtain ⟨ppn, -, isTrapCx⟩ := wfCopy.trapCx framedCopy hasCopy
  obtain ⟨⟨kstack, last⟩, isLast, -⟩ := placed.kstackAlloc_takes (by
    simp only [Machine.put_phys] at takes ⊢
    omega)
  have childSpace := k.machine.put_spaces_self phys (.user k.next) (some ⟨copy, false⟩)
  have isLive := Machine.live_eq_some.mpr childSpace
  have same : (k.machine.put phys (.user k.next) (some ⟨copy, false⟩)).put phys (.user k.next)
      (some ⟨copy, false⟩) = k.machine.put phys (.user k.next) (some ⟨copy, false⟩) := by
    simp only [Machine.put, Function.update_idem]
  have isTask : Processes.newTask { k with
      machine := k.machine.put phys (.user k.next) (some ⟨copy, false⟩)
      next := k.next + 1
      pidAllocator := k.pidAllocator.alloc.2 } k.next parent.ustackBase false =
        some (ppn, kstack, last) := by
    simp only [Processes.newTask, isLive, Option.bind_some, Bool.false_eq_true, if_false,
      Machine.put_phys, isTrapCx, same, isLast, Option.map_some]
  simp only [Processes.sysFork, Processes.fork, isParent, Machine.live_eq_some.mpr found,
    Option.bind_some, isCopy, isTask, Option.map_some, Function.update_self, Option.isSome_some]

end CoreFromDust.Os.Mm
