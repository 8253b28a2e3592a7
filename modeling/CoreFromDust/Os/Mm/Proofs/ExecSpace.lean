import CoreFromDust.Os.Mm.Proofs.ArgStack

/-!
# The address space of a new program

The areas that `exec` builds are those of the segments of the ELF file, the stack and the trap
context of the main thread. The stack is one page above the end of the last segment.
-/

namespace CoreFromDust.Os.Mm

open SpaceWf

/-- The page after the last page of a segment. -/
def Segment.endVpn (ph : Segment) : Nat := ceil (virtAddr ((ph.virtualAddr + ph.memSize) % 2 ^ 64))

/-- The page lies in the segment. -/
def Segment.Has (ph : Segment) (vpn : Nat) : Prop :=
  floor (virtAddr ph.virtualAddr) ≤ vpn ∧ vpn < ph.endVpn

instance (ph : Segment) (vpn : Nat) : Decidable (ph.Has vpn) := inferInstanceAs (Decidable (_ ∧ _))

/-- The end of the last segment. -/
def Elf.maxEndVpn (elf : Elf) : Nat := elf.segments.foldl (fun _ ph => ph.endVpn) 0

/-- `ustack_base` of a program. -/
def Elf.ustackBase (elf : Elf) : Nat := (usizeOfVirtAddr (elf.maxEndVpn * 4096) + 4096) % 2 ^ 64

section Segments

variable {l tramp : Nat} {s s' : Phys} {set set' : MemorySet} {area : MapArea}

/-- The areas after a push with data. -/
theorem push_data_areas {data : List UInt8} (wf : set.Wf l tramp s) (isNew : NewArea area)
    (h : set.push s area (some data) = some (s', set')) :
    ∃ entries, set'.areas = set.areas ++ [{ area with dataFrames := entries }] := by
  obtain ⟨⟨mapped, table, withFrames⟩, isMapped, h⟩ := Option.bind_eq_some_iff.mp h
  obtain ⟨copied, -, h⟩ := Option.map_eq_some_iff.mp h
  obtain ⟨rfl, rfl⟩ := Prod.mk.inj h
  have same : set.push s area none = some (mapped, ⟨table, set.areas ++ [withFrames]⟩) := by
    rw [MemorySet.push, isMapped]
    rfl
  exact (push_spec wf isNew same).1

/-- The area has the pages of the segment. -/
def Segment.Range (ph : Segment) (area : MapArea) : Prop :=
  area.startVpn = floor (virtAddr ph.virtualAddr) ∧ area.endVpn = ph.endVpn

/-- The pages of the areas that `from_elf` pushes, and the end of the last one. -/
theorem pushSegments_areas {segments : List Segment} {maxEndVpn maxEndVpn' : Nat}
    (wf : set.Wf l tramp s) (framed : set.Framed) (small : tramp < 2 ^ 44) (low : tramp < l)
    (h : set.pushSegments s maxEndVpn segments = some (s', set', maxEndVpn')) :
    (∀ vpn, (∃ area ∈ set'.areas, area.Has vpn) ↔
      (∃ area ∈ set.areas, area.Has vpn) ∨ ∃ ph ∈ segments, ph.Has vpn) ∧
    (∀ area ∈ set'.areas, area ∈ set.areas ∨ ∃ ph ∈ segments, ph.Range area) ∧
    maxEndVpn' = segments.foldl (fun _ ph => ph.endVpn) maxEndVpn ∧
    (maxEndVpn ≤ 2 ^ 27 - 1 → maxEndVpn' ≤ 2 ^ 27 - 1) := by
  induction segments generalizing s set maxEndVpn with
  | nil =>
      simp only [MemorySet.pushSegments, Option.some.injEq, Prod.mk.injEq] at h
      obtain ⟨rfl, rfl, rfl⟩ := h
      exact ⟨by simp, fun _ => .inl, rfl, id⟩
  | cons ph segments ih =>
      obtain ⟨area, isArea, h⟩ := Option.bind_eq_some_iff.mp h
      obtain ⟨⟨pushed, withArea⟩, isPushed, h⟩ := Option.bind_eq_some_iff.mp h
      obtain ⟨isNew, isFramed, -⟩ := newArea_spec isArea
      have first := push_data_spec wf isNew isFramed framed small low isPushed
      obtain ⟨entries, isAreas⟩ := push_data_areas wf isNew isPushed
      obtain ⟨pages, ranges, isEnd, bound⟩ := ih first.wf (first.framed framed) h
      have range : ph.Range area := by
        rw [MapArea.new] at isArea
        split at isArea
        · obtain rfl := Option.some.inj isArea
          exact ⟨rfl, rfl⟩
        · exact absurd isArea (by simp)
      have has : ∀ vpn, MapArea.Has { area with dataFrames := entries } vpn ↔ ph.Has vpn := by
        intro vpn
        rw [MapArea.Has, range.1, range.2, Segment.Has]
      refine ⟨fun vpn => ?_, fun other mem => ?_, ?_, fun _ => bound ?_⟩
      · rw [pages vpn, isAreas]
        simp only [List.mem_append, or_and_right, exists_or, exists_eq_left, has, List.mem_cons,
          List.not_mem_nil, or_false, or_assoc]
      · rcases ranges other mem with mem | ⟨later, isLater, range'⟩
        · rw [isAreas] at mem
          refine (List.mem_append.mp mem).imp_right fun isNew => ⟨ph, List.mem_cons_self, ?_⟩
          rw [List.mem_singleton.mp isNew]
          exact range
        · exact .inr ⟨later, List.mem_cons_of_mem _ isLater, range'⟩
      · rw [isEnd, range.2, List.foldl_cons]
      · have isLast : { area with dataFrames := entries } ∈ withArea.areas := by
          rw [isAreas]
          simp
        exact (first.wf.shape _ isLast).bound

/-- The stack and the trap context that `alloc_user_res` inserts. -/
theorem allocUserRes_areas {ustackBase tid : Nat} (wf : set.Wf l tramp s)
    (h : set.allocUserRes s ustackBase tid = some (s', set')) :
    ∃ stack trapCx entries entries',
      MapArea.new (virtAddr (ustackBottomFromTid ustackBase tid))
        (virtAddr ((ustackBottomFromTid ustackBase tid + 8192) % 2 ^ 64)) .framed
        ⟨true, true, false, true⟩ = some stack ∧
      MapArea.new (virtAddr (trapCxBottomFromTid tid))
        (virtAddr ((trapCxBottomFromTid tid + 4096) % 2 ^ 64)) .framed
        ⟨true, true, false, false⟩ = some trapCx ∧
      set'.areas = set.areas ++
        [{ stack with dataFrames := entries }, { trapCx with dataFrames := entries' }] := by
  obtain ⟨⟨phys, withStack⟩, isStack, h⟩ := Option.bind_eq_some_iff.mp h
  have first := insertFramedArea_step wf isStack
  obtain ⟨⟨stack, entries, isNew, isAreas⟩, -⟩ := insertFramedArea_spec wf isStack
  obtain ⟨⟨trapCx, entries', isNew', isAreas'⟩, -⟩ := insertFramedArea_spec first.wf h
  refine ⟨stack, trapCx, entries, entries', isNew, isNew', ?_⟩
  rw [isAreas', isAreas, List.append_assoc]
  rfl

end Segments

section Space

variable {File : Type} {l tramp : Nat} {layout : KernelLayout} {k : Processes File}
  {id : Nat} {elf : Elf} {phys : Phys} {set : MemorySet} {ustackBase entryPoint : Nat}

/-- Where the stack of a program can be inserted, it does not wrap around. -/
theorem ustackBase_spec {maxEndVpn : Nat} {area : MapArea} {permission : MapPermission}
    (bound : maxEndVpn ≤ 2 ^ 27 - 1)
    (isBase : (usizeOfVirtAddr (maxEndVpn * 4096) + 4096) % 2 ^ 64 = ustackBase)
    (isArea : MapArea.new (virtAddr ustackBase) (virtAddr ((ustackBase + 8192) % 2 ^ 64)) .framed
      permission = some area) :
    ustackBase % 4096 = 0 ∧ ustackBase + 8192 < 2 ^ 64 ∧ virtAddr ustackBase + 8192 < 2 ^ 39 ∧
      area.startVpn = floor (virtAddr ustackBase) ∧
      area.endVpn = floor (virtAddr ustackBase) + 2 := by
  -- the end of the last segment is a low or a high address, or the start of the trampoline
  have isUstackBase : ustackBase = maxEndVpn * 4096 + 4096 ∧ maxEndVpn * 4096 < 2 ^ 38 ∨
      ustackBase = 0 ∨ ustackBase = 2 ^ 64 - 2 ^ 39 + maxEndVpn * 4096 + 4096 ∧
        2 ^ 38 ≤ maxEndVpn * 4096 ∧ maxEndVpn < 2 ^ 27 - 1 := by
    rcases Nat.lt_or_ge (maxEndVpn * 4096) (2 ^ 38) with low | high
    · rw [usizeOfVirtAddr_low low] at isBase
      omega
    · rw [usizeOfVirtAddr_high high (by omega)] at isBase
      omega
  rw [MapArea.new] at isArea
  split at isArea
  · next ordered =>
    obtain rfl := Option.some.inj isArea
    have start : virtAddr ustackBase + 8192 < 2 ^ 39 ∧
        virtAddr ((ustackBase + 8192) % 2 ^ 64) = virtAddr ustackBase + 8192 := by
      unfold floor ceil virtAddr at *
      split at ordered <;> omega
    have aligned : virtAddr ustackBase % 4096 = 0 := by
      unfold virtAddr
      omega
    have stop :
        ceil (virtAddr ((ustackBase + 8192) % 2 ^ 64)) = floor (virtAddr ustackBase) + 2 := by
      rw [start.2, ceil, if_neg (by omega), floor]
      omega
    refine ⟨by omega, ?_, start.1, ?_, ?_⟩
    · unfold virtAddr at start
      omega
    · rfl
    · simp only [stop]
  · exact absurd isArea (by simp)

/-- The parts of the address space of a new program. -/
theorem execSpace_spec (inv : Machine.Inv l tramp k.machine) (above : Above layout l tramp)
    (space : k.execSpace layout id elf = some (phys, set, ustackBase, entryPoint)) :
    MainStack l tramp phys set ustackBase ∧ set.HasTrapCx ∧
      floor (virtAddr ustackBase) + 2 ≤ trapCxVpn ∧ ustackBase = elf.ustackBase ∧
      ∀ vpn, (∃ area ∈ set.areas, area.Has vpn) ↔ (∃ ph ∈ elf.segments, ph.Has vpn) ∨
        floor (virtAddr ustackBase) ≤ vpn ∧ vpn < floor (virtAddr ustackBase) + 2 ∨
        vpn = trapCxVpn := by
  obtain ⟨pcb, -, space⟩ := Option.bind_eq_some_iff.mp space
  obtain ⟨old, isLive, space⟩ := Option.bind_eq_some_iff.mp space
  obtain ⟨⟨built, program, base, entry⟩, isElf, space⟩ := Option.bind_eq_some_iff.mp space
  obtain ⟨dropped, isDropped, space⟩ := Option.bind_eq_some_iff.mp space
  obtain ⟨⟨last, withRes⟩, isRes, space⟩ := Option.map_eq_some_iff.mp space
  simp only [Prod.mk.injEq] at space
  obtain ⟨rfl, rfl, rfl, rfl⟩ := space
  have replaced := inv.replaced above isLive isElf isDropped
  have wfDropped := replaced.wfDropped
  obtain ⟨step, has⟩ := allocUserRes_spec wfDropped isRes
  have user : UserSpace l tramp last withRes :=
    ⟨step.wf, step.framed replaced.framed, above.small, above.low⟩
  -- the segments
  obtain ⟨_, _, _, _, maxEndVpn, -, -, noAreas, framedTramp, wfTramp, -, isPushed, isBase⟩ :=
    fromElf_parts inv.ok above.small above.isTramp isElf
  obtain ⟨pages, -, isEnd, bound⟩ :=
    pushSegments_areas wfTramp framedTramp above.small above.low isPushed
  -- the stack and the trap context
  obtain ⟨stack, trapCx, entries, entries', isStack, isTrapCx, isAreas⟩ :=
    allocUserRes_areas wfDropped isRes
  have bottom : ustackBottomFromTid base mainTid = base := by
    have zero : mainTid = 0 := rfl
    rw [ustackBottomFromTid, zero, ← isBase]
    omega
  rw [bottom] at isStack
  obtain ⟨aligned, word, inside, start, stop⟩ := ustackBase_spec (bound (by omega)) isBase isStack
  have isNew : MapArea.new (virtAddr (trapCxBottomFromTid mainTid))
      (virtAddr ((trapCxBottomFromTid mainTid + 4096) % 2 ^ 64)) .framed
      ⟨true, true, false, false⟩ =
      some ⟨2 ^ 27 - 2, 2 ^ 27 - 1, [], .framed, ⟨true, true, false, false⟩⟩ := by decide +kernel
  rw [isNew, Option.some.injEq] at isTrapCx
  have isMember : { stack with dataFrames := entries } ∈ withRes.areas := by
    rw [isAreas]
    simp
  refine ⟨⟨user, aligned, word, inside, _, isMember, start, stop⟩, has, ?_, ?_, fun vpn => ?_⟩
  · -- the areas of the stack and of the trap context are apart
    have bound := (step.wf.shape _ isMember).bound
    have apart := step.wf.apart
    rw [isAreas, List.pairwise_append] at apart
    have outside := List.rel_of_pairwise_cons apart.2.1 List.mem_cons_self (2 ^ 27 - 2)
    rw [← isTrapCx] at outside
    simp only [MapArea.Has] at outside bound
    rw [trapCxVpn_eq]
    omega
  · rw [← isBase, isEnd]
    rfl
  · have program : (∃ area ∈ program.areas, area.Has vpn) ↔ ∃ ph ∈ elf.segments, ph.Has vpn := by
      rw [pages vpn, noAreas]
      simp
    have onStack : MapArea.Has { stack with dataFrames := entries } vpn ↔
        floor (virtAddr base) ≤ vpn ∧ vpn < floor (virtAddr base) + 2 := by
      rw [MapArea.Has, start, stop]
    have onTrapCx : MapArea.Has { trapCx with dataFrames := entries' } vpn ↔ vpn = trapCxVpn := by
      rw [← isTrapCx, trapCxVpn_eq]
      simp only [MapArea.Has]
      omega
    rw [isAreas]
    simp only [List.mem_append, List.mem_cons, List.not_mem_nil, or_false, or_and_right, exists_or,
      exists_eq_left, program, onStack, onTrapCx]

end Space

end CoreFromDust.Os.Mm
