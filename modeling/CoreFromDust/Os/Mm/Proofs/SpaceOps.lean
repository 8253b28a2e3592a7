import CoreFromDust.Os.Mm.Proofs.SpacePages

/-!
# Operations on address spaces

What `push`, `insert_framed_area`, `remove_area_with_start_vpn`, `from_elf`, `new_kernel`,
`recycle_data_pages` and the drop of an address space do to a well-formed address space.
-/

namespace CoreFromDust.Os.Mm

open SpaceWf

variable {l tramp vpn : Nat} {s s' : Phys} {t t' : PageTable} {area : MapArea}
  {areas old new : List MapArea} {set set' : MemorySet}

/-- The address space is well-formed. -/
abbrev MemorySet.Wf (l tramp : Nat) (s : Phys) (set : MemorySet) : Prop :=
  SpaceWf l tramp s set.pageTable set.areas

/-- All frames of the address space. -/
abbrev MemorySet.own (set : MemorySet) : List Nat := SpaceWf.own set.pageTable set.areas

theorem MemorySet.dataFrames_eq (set : MemorySet) : set.dataFrames = areaFrames set.areas := rfl

/-- The areas of user address spaces are framed. -/
def MemorySet.Framed (set : MemorySet) : Prop := ∀ area ∈ set.areas, area.mapType = .framed

/-! ## Inserting areas -/

/-- What `MapArea::new` returns for addresses of 39 bits. -/
structure NewArea (area : MapArea) : Prop where
  le : area.startVpn ≤ area.endVpn
  start : area.startVpn < 2 ^ 27
  stop : area.endVpn ≤ 2 ^ 27
  noFrames : area.dataFrames = []

theorem newArea_spec {start stop : Nat} {mapType : MapType} {mapPerm : MapPermission}
    (h : MapArea.new (virtAddr start) (virtAddr stop) mapType mapPerm = some area) :
    NewArea area ∧ area.mapType = mapType ∧ area.mapPerm = mapPerm := by
  have small : virtAddr start < 2 ^ 39 := Nat.mod_lt _ (by decide)
  have small' : virtAddr stop < 2 ^ 39 := Nat.mod_lt _ (by decide)
  unfold MapArea.new at h
  split at h
  · next le =>
    obtain rfl := Option.some.inj h
    refine ⟨⟨le, ?_, ?_, rfl⟩, rfl, rfl⟩
    · simp only [floor]
      omega
    · simp only [ceil]
      split
      · exact Nat.zero_le _
      · omega
  · exact absurd h (by simp)

/-- `push` of an area without data. -/
theorem push_spec (wf : set.Wf l tramp s) (isNew : NewArea area)
    (h : set.push s area none = some (s', set')) :
    (∃ entries, set'.areas = set.areas ++ [{ area with dataFrames := entries }]) ∧
      SpaceGrown l tramp s s' set.pageTable set'.pageTable set.areas set'.areas := by
  obtain ⟨⟨mapped, table, withFrames⟩, isMapped, h⟩ := Option.bind_eq_some_iff.mp h
  simp only [Option.map_some, Option.some.injEq, Prod.mk.injEq] at h
  obtain ⟨rfl, rfl⟩ := h
  have start := isNew.start
  have empty : SpaceWf l tramp s set.pageTable (area.upTo area.startVpn :: set.areas) :=
    wf.cons_empty rfl (by simp only [MapArea.upTo]; omega) isNew.noFrames
  have frames : areaFrames (area.upTo area.startVpn :: set.areas) = areaFrames set.areas := by
    simp [areaFrames_cons, MapArea.frames, MapArea.upTo, isNew.noFrames]
  have le := isNew.le
  have stop := isNew.stop
  obtain ⟨⟨entries, isArea⟩, grown⟩ :=
    mapPages_spec (area.endVpn - area.startVpn) empty (by omega) isMapped
  rw [isNew.noFrames, List.nil_append] at isArea
  have whole : withFrames.upTo (area.startVpn + (area.endVpn - area.startVpn)) = withFrames := by
    rw [isArea]
    simp only [MapArea.upTo, MapArea.mk.injEq, and_true, true_and]
    omega
  rw [whole] at grown
  refine ⟨⟨entries, by simp [isArea]⟩, ?_⟩
  have ordered :
      SpaceGrown l tramp s mapped set.pageTable table set.areas (withFrames :: set.areas) := by
    have changes := grown.changes
    have subset := grown.subset
    have data := grown.data
    have zero := grown.zero
    simp only [own, frames] at changes subset data zero
    exact ⟨grown.wf, changes, subset, data, zero⟩
  exact ordered.perm (List.Perm.refl _) (List.perm_append_singleton _ _).symm

theorem insertFramedArea_spec {start stop : Nat} {permission : MapPermission}
    (wf : set.Wf l tramp s)
    (h : set.insertFramedArea s (virtAddr start) (virtAddr stop) permission = some (s', set')) :
    (∃ area entries, MapArea.new (virtAddr start) (virtAddr stop) .framed permission = some area ∧
        set'.areas = set.areas ++ [{ area with dataFrames := entries }]) ∧
      SpaceGrown l tramp s s' set.pageTable set'.pageTable set.areas set'.areas := by
  obtain ⟨area, isArea, h⟩ := Option.bind_eq_some_iff.mp h
  obtain ⟨⟨entries, areas⟩, grown⟩ := push_spec wf (newArea_spec isArea).1 h
  exact ⟨⟨area, entries, isArea, areas⟩, grown⟩

/-! ## Removing areas -/

theorem unmap_spec (wf : SpaceWf l tramp s t (area :: areas)) {area' : MapArea}
    (h : area.unmap s t = some (s', area')) :
    area'.frames = [] ∧ SpaceShrunk l tramp s s' t (area :: areas) areas := by
  have shape := wf.shape area List.mem_cons_self
  have le := shape.le
  obtain ⟨⟨entries, isArea⟩, shrunk⟩ :=
    unmapPages_spec (area.endVpn - area.startVpn) wf (by omega) h
  have atEnd : area.startVpn + (area.endVpn - area.startVpn) = area.endVpn := by omega
  rw [atEnd] at shrunk
  have empty : (area'.fromPage area.endVpn).startVpn = (area'.fromPage area.endVpn).endVpn := by
    simp [MapArea.fromPage, isArea]
  have keys := (shrunk.wf.shape _ List.mem_cons_self).keys
  have noFrames : area'.frames = [] := by
    have pages : (area'.fromPage area.endVpn).pages = [] := by simp [MapArea.pages, empty]
    rw [pages, ite_self, List.map_eq_nil_iff] at keys
    change area'.dataFrames = [] at keys
    rw [MapArea.frames, keys, List.map_nil]
  have frames : areaFrames (area'.fromPage area.endVpn :: areas) = areaFrames areas := by
    rw [areaFrames_cons]
    change area'.frames ++ _ = _
    rw [noFrames, List.nil_append]
  have changes := shrunk.changes
  have data := shrunk.data
  simp only [own, frames] at changes data
  exact ⟨noFrames, shrunk.wf.of_cons_empty empty, changes, data⟩

/-- `remove_area_with_start_vpn`. -/
theorem removeArea_spec {startVpn : Nat} (wf : set.Wf l tramp s)
    (h : set.removeAreaWithStartVpn s startVpn = some (s', set')) :
    set'.pageTable = set.pageTable ∧ set'.areas.Sublist set.areas ∧
      SpaceShrunk l tramp s s' set.pageTable set.areas set'.areas := by
  unfold MemorySet.removeAreaWithStartVpn at h
  split at h
  · obtain ⟨rfl, rfl⟩ := Prod.mk.inj (Option.some.inj h)
    exact ⟨rfl, .refl _, wf, .refl wf.table.ok wf.own_inUse, fun _ mem => ⟨mem, fun _ _ => rfl⟩⟩
  · next idx _ =>
    obtain ⟨area, isArea, h⟩ := Option.bind_eq_some_iff.mp h
    obtain ⟨⟨unmapped, area'⟩, isUnmapped, h⟩ := Option.bind_eq_some_iff.mp h
    obtain ⟨dropped, isDropped, h⟩ := Option.map_eq_some_iff.mp h
    simp only [Prod.mk.injEq] at h
    obtain ⟨rfl, rfl⟩ := h
    obtain ⟨below, rfl⟩ := List.getElem?_eq_some_iff.mp isArea
    have perm : set.areas.Perm (set.areas[idx] :: set.areas.eraseIdx idx) :=
      (List.getElem_cons_eraseIdx_perm below).symm
    obtain ⟨noFrames, shrunk⟩ := unmap_spec (wf.perm perm) isUnmapped
    rw [noFrames, Phys.dropFrames, Option.some.injEq] at isDropped
    subst isDropped
    refine ⟨rfl, List.eraseIdx_sublist _ _, shrunk.wf, shrunk.changes.congr ?_ fun _ => Iff.rfl, ?_⟩
    · intro ppn
      rw [mem_own, mem_own, (areaFrames_perm perm).mem_iff]
    · intro ppn mem
      rw [(areaFrames_perm perm).mem_iff]
      exact shrunk.data ppn mem

/-- `remove_area_with_start_vpn` does not panic. -/
theorem removeArea_isSome (wf : set.Wf l tramp s) (startVpn : Nat) :
    (set.removeAreaWithStartVpn s startVpn).isSome := by
  unfold MemorySet.removeAreaWithStartVpn
  split
  · rfl
  · next idx found =>
    obtain ⟨below, -⟩ := List.findIdx?_eq_some_iff_getElem.mp found
    have perm : set.areas.Perm (set.areas[idx] :: set.areas.eraseIdx idx) :=
      (List.getElem_cons_eraseIdx_perm below).symm
    have wf' := wf.perm perm
    have le := (wf'.shape _ List.mem_cons_self).le
    have unmaps : (set.areas[idx].unmap s set.pageTable).isSome :=
      unmapPages_isSome (set.areas[idx].endVpn - set.areas[idx].startVpn) wf' (by omega)
    obtain ⟨⟨unmapped, without⟩, isUnmapped⟩ := Option.isSome_iff_exists.mp unmaps
    obtain ⟨noFrames, -⟩ := unmap_spec wf' isUnmapped
    simp only [List.getElem?_eq_getElem below, isUnmapped, Option.bind_some, noFrames,
      Phys.dropFrames, Option.map_some, Option.isSome_some]

/-! ## Dropping -/

/-- `recycle_data_pages` frees the frames of the areas and leaves the page table. -/
theorem recycleDataPages_spec (wf : set.Wf l tramp s) :
    ∃ s', set.recycleDataPages s = some (s', { set with areas := [] }) ∧
      Changes l s s' set.own set.pageTable.frames := by
  obtain ⟨s', done, changes, -⟩ := dropFrames_spec wf.table.ok wf.nodup wf.inUse
  refine ⟨s', ?_, ?_⟩
  · rw [MemorySet.recycleDataPages, MemorySet.dataFrames_eq, done, Option.map_some]
  · have framed := changes.frame wf.table.inUse fun ppn table data => wf.notTable ppn data table
    rwa [List.append_nil] at framed

/-- The drop of an address space frees all of its frames. -/
theorem drop_spec (ok : s.Ok l) (nodup : (set.pageTable.frames ++ set.dataFrames).Nodup)
    (inUse : ∀ ppn ∈ set.pageTable.frames ++ set.dataFrames, s.InUse l ppn) :
    ∃ s', set.drop s = some s' ∧ Changes l s s' (set.pageTable.frames ++ set.dataFrames) [] := by
  obtain ⟨s', done, changes, -⟩ := dropFrames_spec ok nodup inUse
  exact ⟨s', done, changes⟩

/-! ## The trampoline -/

/-- An address space with the trampoline only. -/
theorem mapTrampoline_spec {bare : Phys} {strampoline : Nat} (ok : s.Ok l)
    (small : tramp < 2 ^ 44) (isTramp : pageAt (physAddr strampoline) = some tramp)
    (isBare : MemorySet.newBare s = some (bare, set))
    (h : set.mapTrampoline bare strampoline = some (s', set')) :
    set'.areas = [] ∧ set'.Wf l tramp s' ∧ Changes l s s' [] set'.own := by
  obtain ⟨⟨newPhys, table⟩, isNew, h'⟩ := Option.map_eq_some_iff.mp isBare
  obtain ⟨rfl, rfl⟩ := Prod.mk.inj h'
  obtain ⟨owned, changes, empty⟩ := PageTable.new_spec ok isNew
  have page : pageAt (virtAddr trampoline) = some (2 ^ 27 - 1) := by decide
  rw [MemorySet.mapTrampoline, page, isTramp, Option.bind_some, Option.bind_some] at h
  obtain ⟨⟨mapped, table'⟩, done, h'⟩ := Option.map_eq_some_iff.mp h
  obtain ⟨rfl, rfl⟩ := Prod.mk.inj h'
  obtain ⟨-, updated⟩ := PageTable.map_spec owned (by decide) small done
  refine ⟨rfl, ⟨updated.owned, List.nodup_nil, by simp [areaFrames], by simp [areaFrames], by simp,
    List.Pairwise.nil, updated.entry, by simp, ?_⟩, ?_⟩
  · intro vpn below _
    rw [updated.other vpn (by omega) (by omega), PageTable.lookup, empty vpn]
    rfl
  · refine (changes.trans updated.changes).congr (fun _ => Iff.rfl) fun ppn => ?_
    simp [own, areaFrames]

end CoreFromDust.Os.Mm
