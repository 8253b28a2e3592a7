import CoreFromDust.Os.Mm.Process

/-!
# Writes to user memory

`new`, `exec` and `fork` write through references into an address space of a process. The bytes
land in data frames of the address space, in the trampoline or in frame 0; all other frames that
are in use keep their bytes.
-/

namespace CoreFromDust.Os.Mm

open SpaceWf

/-- The memory has changed in data frames of the address space and in frames that are not in use. -/
def DataWrites (l : Nat) (s : Phys) (set : MemorySet) (m m' : Memory) : Prop :=
  ∀ ppn, s.InUse l ppn → ppn ∉ areaFrames set.areas → SameFrame m m' ppn

/-- Bytes at a physical address that lie in one frame, and in none that `DataWrites` keeps. -/
structure DataPlace (l : Nat) (s : Phys) (set : MemorySet) (pa size : Nat) : Prop where
  other : ∀ ppn, s.InUse l ppn → ppn ∉ areaFrames set.areas → ppn ≠ floor pa
  inside : pageOffset pa + size ≤ 4096

section Writes

variable {l tramp : Nat} {s : Phys} {set : MemorySet} {m m' m'' : Memory} {pa : Nat}

theorem DataWrites.refl : DataWrites l s set m m := fun _ _ _ _ _ => rfl

theorem DataWrites.trans (first : DataWrites l s set m m') (second : DataWrites l s set m' m'') :
    DataWrites l s set m m'' :=
  fun ppn used notData => (first ppn used notData).trans (second ppn used notData)

/-- An address space stays well-formed when its data changes. -/
theorem DataWrites.wf (writes : DataWrites l s set s.mem m) (wf : set.Wf l tramp s) :
    set.Wf l tramp { s with mem := m } :=
  wf.write fun ppn table => writes ppn (wf.table.inUse ppn table) fun data =>
    wf.notTable ppn data table

theorem DataWrites.changes (writes : DataWrites l s set s.mem m) (wf : set.Wf l tramp s) :
    Changes l s { s with mem := m } set.own set.own := by
  refine .write wf.table.ok wf.own_inUse fun ppn used notOwn => writes ppn used fun data => ?_
  exact notOwn (mem_own.mpr (.inr data))

theorem DataPlace.writeAt {size : Nat} (place : DataPlace l s set pa size) (data : List UInt8)
    (length : data.length = size) : DataWrites l s set m (m.writeAt pa data) := by
  intro ppn used notData i bound
  have inside := place.inside
  exact Memory.bytes_writeBytes_other m data (by omega) (place.other ppn used notData) bound

/-- A word of a data frame. -/
theorem DataWrites.setWord {ppn : Nat} (isFrame : ppn ∈ areaFrames set.areas)
    {index : Nat} (value : Nat)
    (small : index < 512) : DataWrites l s set m (m.setWord ppn index value) := by
  intro other _ notData i bound
  refine Memory.bytes_setWord_other m small ?_ bound
  rintro rfl
  exact notData isFrame

theorem DataWrites.setWords {ppn index : Nat} (words : List Nat)
    (isFrame : ppn ∈ areaFrames set.areas)
    (inside : index + words.length ≤ 512) : DataWrites l s set m (m.setWords ppn index words) := by
  induction words generalizing m index with
  | nil => exact .refl
  | cons word words ih =>
      rw [List.length_cons] at inside
      exact (DataWrites.setWord isFrame word (by omega)).trans (ih (by omega))

end Writes

/-! ## References -/

section References

variable {l tramp : Nat} {s : Phys} {set : MemorySet} {m m' : Memory} {ptr pa : Nat}

/-- A user address space with what is needed to write through it. -/
structure UserSpace (l tramp : Nat) (s : Phys) (set : MemorySet) : Prop where
  wf : set.Wf l tramp s
  framed : set.Framed
  small : tramp < 2 ^ 44
  low : tramp < l

theorem Machine.Inv.userSpace {layout : KernelLayout} {k : Machine} {id : Nat}
    (inv : Machine.Inv l tramp k) (above : Above layout l tramp)
    (isLive : k.live (.user id) = some set) : UserSpace l tramp k.phys set :=
  have ok := (inv.live isLive).2
  ⟨ok.wf rfl, ok.framed (by simp), above.small, above.low⟩

theorem translate_fromToken (wf : set.Wf l tramp s) (m : Memory) (vpn : Nat) :
    (PageTable.fromToken set.pageTable.token).translate m vpn = set.translate m vpn := by
  have root := ((wf.table.inUse _ wf.table.root_mem).lt wf.table.ok).2.2
  simp only [MemorySet.translate, PageTable.translate, PageTable.findPte,
    PageTable.rootPpn_fromToken root]

/-- The references that `translated_refmut` returns. -/
theorem UserSpace.refmut (user : UserSpace l tramp s set) (writes : DataWrites l s set s.mem m)
    (h : translatedRefmut m set.pageTable.token ptr = some pa) (size : Nat)
    (inside : ptr % 4096 + size ≤ 4096) : DataPlace l s set pa size := by
  obtain ⟨-, pte, found, isPa⟩ := translatedRefmut_eq_some_iff.mp h
  rw [translate_fromToken user.wf] at found
  have offset : pageOffset (virtAddr ptr) = ptr % 4096 := by
    simp only [pageOffset, virtAddr]
    omega
  rw [offset] at isPa
  have isFrame : floor pa = pte.ppn := by
    simp only [floor]
    omega
  have isOffset : pageOffset pa = ptr % 4096 := by
    simp only [pageOffset]
    omega
  refine ⟨fun ppn used notData => ?_, by rw [isOffset]; exact inside⟩
  rw [isFrame]
  exact (writes.wf user.wf).ne_target user.framed user.small user.low found used notData

/-- The loop over the bytes of an argument. -/
theorem UserSpace.pushBytes (user : UserSpace l tramp s set) {p : Nat} {bytes : List UInt8}
    (writes : DataWrites l s set s.mem m)
    (h : pushBytes m set.pageTable.token p bytes = some m') : DataWrites l s set s.mem m' := by
  induction bytes generalizing m p with
  | nil =>
      obtain rfl := Option.some.inj h
      exact writes
  | cons c rest ih =>
      obtain ⟨pa, isPa, h⟩ := Option.bind_eq_some_iff.mp h
      have place := user.refmut writes isPa 1 (by omega)
      exact ih (writes.trans (place.writeAt [c] rfl)) h

theorem usizeBytes_length (value : Nat) : (usizeBytes value).length = 8 := by
  simp [usizeBytes]

/-- The loop over the arguments. -/
theorem UserSpace.pushArgs (user : UserSpace l tramp s set) {userSp userSp' : Nat}
    {args : List (Nat × List UInt8)} (writes : DataWrites l s set s.mem m)
    (slots : ∀ arg ∈ args, DataPlace l s set arg.1 8)
    (h : pushArgs m set.pageTable.token userSp args = some (m', userSp')) :
    DataWrites l s set s.mem m' := by
  induction args generalizing m userSp with
  | nil =>
      obtain ⟨rfl, -⟩ := Prod.mk.inj (Option.some.inj h)
      exact writes
  | cons first rest ih =>
      obtain ⟨slot, arg⟩ := first
      obtain ⟨pushed, isPushed, h⟩ := Option.bind_eq_some_iff.mp h
      have place : DataPlace l s set slot 8 := slots (slot, arg) List.mem_cons_self
      have written := writes.trans
        (place.writeAt (usizeBytes (wrappingSub userSp (arg.length + 1))) (usizeBytes_length _))
      exact ih (user.pushBytes written isPushed)
        (fun arg mem => slots arg (List.mem_cons_of_mem _ mem)) h

theorem mem_of_mapM_eq_some {α β : Type} {f : α → Option β} {xs : List α} {ys : List β}
    (h : xs.mapM f = some ys) : ∀ y ∈ ys, ∃ x ∈ xs, f x = some y := by
  induction xs generalizing ys with
  | nil =>
      obtain rfl := Option.some.inj h
      exact fun y mem => absurd mem List.not_mem_nil
  | cons x xs ih =>
      rw [List.mapM_cons] at h
      obtain ⟨first, isFirst, h⟩ := Option.bind_eq_some_iff.mp h
      obtain ⟨rest, isRest, h⟩ := Option.bind_eq_some_iff.mp h
      obtain rfl := Option.some.inj h
      intro y mem
      rcases List.mem_cons.mp mem with rfl | mem
      · exact ⟨x, List.mem_cons_self, isFirst⟩
      · obtain ⟨x', isInput, isOutput⟩ := ih isRest y mem
        exact ⟨x', List.mem_cons_of_mem _ isInput, isOutput⟩

/-- What `exec` pushes on an aligned stack lies in data frames. -/
theorem UserSpace.pushArgv (user : UserSpace l tramp s set) {top userSp argvBase : Nat}
    {args : List (List UInt8)} (aligned : top % 8 = 0)
    (h : pushArgv s.mem set.pageTable.token top args = some (m', userSp, argvBase)) :
    DataWrites l s set s.mem m' := by
  obtain ⟨slots, isSlots, h⟩ := Option.bind_eq_some_iff.mp h
  obtain ⟨last, isLast, h⟩ := Option.bind_eq_some_iff.mp h
  obtain ⟨⟨pushed, sp⟩, isPushed, h⟩ := Option.map_eq_some_iff.mp h
  simp only [Prod.mk.injEq] at h
  obtain ⟨rfl, -, -⟩ := h
  have places : ∀ slot ∈ slots, DataPlace l s set slot 8 := by
    intro slot mem
    obtain ⟨arg, -, isSlot⟩ := mem_of_mapM_eq_some isSlots slot mem
    refine user.refmut .refl isSlot 8 ?_
    simp only [wrappingSub]
    omega
  have lastPlace := places last (List.mem_of_getElem? isLast)
  refine user.pushArgs (lastPlace.writeAt _ (usizeBytes_length 0)) ?_ isPushed
  rintro ⟨slot, arg⟩ mem
  exact places slot (List.of_mem_zip mem).1

end References

end CoreFromDust.Os.Mm
