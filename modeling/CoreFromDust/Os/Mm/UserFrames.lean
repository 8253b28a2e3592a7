import CoreFromDust.Os.Mm.Spaces
import CoreFromDust.Os.Mm.UserBuffer
import CoreFromDust.Os.Mm.UserRes

/-!
# The frames of user buffers

`translated_byte_buffer` takes the frame of an entry without a look at its flags. So the slices it
returns lie in frames of user pages when the pages of the buffer lie in user areas, and only
then: the pages of trap contexts, the trampoline and unmapped pages whose tables exist lead to
other frames.
-/

namespace CoreFromDust.Os.Mm

open SpaceWf

/-- The user may access the pages that the entry maps. -/
def PageTableEntry.user (pte : PageTableEntry) : Bool := pte.flags &&& PTEFlags.u ≠ 0

/-- A valid leaf entry of the address space maps the frame with the flag `U`. -/
def MemorySet.UserFrame (set : MemorySet) (m : Memory) (ppn : Nat) : Prop :=
  ∃ vpn < 2 ^ 27, ∃ pte, set.translate m vpn = some pte ∧ pte.isValid ∧ pte.ppn = ppn ∧ pte.user

/-- Every byte of the slices lies in a frame of the user. -/
def UserSlices (set : MemorySet) (m : Memory) (slices : List Slice) : Prop :=
  ∀ slice ∈ slices, ∀ offset, slice.start ≤ offset → offset < slice.stop → set.UserFrame m slice.ppn

/-- The bytes of the buffer lie on pages of areas with the permission `U`. -/
def UserPages (set : MemorySet) (ptr len : Nat) : Prop :=
  ∀ piece, Visits ((ptr + len) % 2 ^ 64) ptr piece → piece.start < piece.stop →
    ∃ area ∈ set.areas, area.Has piece.vpn ∧ area.mapPerm.u = true

theorem MapPermission.user_bits (permission : MapPermission) (ppn : Nat) (small : ppn < 2 ^ 44) :
    (PageTableEntry.new ppn (permission.bits ||| PTEFlags.v)).user = permission.u := by
  rw [PageTableEntry.user, PageTableEntry.flags_new _ small]
  rcases permission with ⟨r, w, x, u⟩
  cases r <;> cases w <;> cases x <;> cases u <;> rfl

section Frames

variable {l tramp vpn ppn : Nat} {s : Phys} {set : MemorySet}

/-- The frames of the user are those of the pages of areas with the permission `U`. -/
theorem SpaceWf.userFrame_iff (wf : set.Wf l tramp s) (framed : set.Framed) (small : tramp < 2 ^ 44)
    (low : tramp < l) {pte : PageTableEntry} (below : vpn < 2 ^ 27)
    (found : set.translate s.mem vpn = some pte) :
    set.UserFrame s.mem pte.ppn ↔ ∃ area ∈ set.areas, area.Has vpn ∧ area.mapPerm.u = true := by
  constructor
  · rintro ⟨vpn', below', pte', found', valid', samePpn, isUser⟩
    have lookup' : set.pageTable.lookup s.mem vpn' = some pte' := by
      rw [PageTable.lookup]
      exact Option.filter_eq_some_iff.mpr ⟨found', valid'⟩
    by_cases isTramp : vpn' = 2 ^ 27 - 1
    · -- the entry of the trampoline has no `U`
      rw [isTramp, wf.onTrampoline, Option.some.injEq] at lookup'
      rw [← lookup', PageTableEntry.user, PageTableEntry.flags_new _ small] at isUser
      exact absurd isUser (by decide)
    · by_cases inArea : ∃ area ∈ set.areas, area.Has vpn'
      · obtain ⟨area, mem, has⟩ := inArea
        obtain ⟨frame, isEntry, lookup⟩ := wf.framedPage mem (framed area mem) has
        obtain ⟨isFrame, used, frameSmall⟩ := wf.entry_inUse isEntry
        rw [lookup, Option.some.injEq] at lookup'
        subst lookup'
        rw [PageTableEntry.ppn_new _ frameSmall] at samePpn
        rw [area.mapPerm.user_bits frame frameSmall] at isUser
        subst samePpn
        have lower := used.1
        rcases wf.target framed small found with isEntry' | isTramp' | isZero
        · rw [Nat.mod_eq_of_lt below] at isEntry'
          rw [wf.page_unique isEntry' isEntry]
          exact ⟨area, mem, has, isUser⟩
        · omega
        · omega
      · rw [wf.onNone vpn' (by omega) fun area mem has => inArea ⟨area, mem, has⟩] at lookup'
        exact absurd lookup' (by simp)
  · rintro ⟨area, mem, has, isUser⟩
    obtain ⟨frame, isEntry, lookup⟩ := wf.framedPage mem (framed area mem) has
    have frameSmall := (wf.entry_inUse isEntry).2.2
    rw [PageTable.lookup, Option.filter_eq_some_iff] at lookup
    have found : set.pageTable.translate s.mem vpn = some pte := found
    rw [found, Option.some.injEq] at lookup
    refine ⟨vpn, below, pte, found, ?_, rfl, ?_⟩
    · rw [lookup.1]
      exact lookup.2
    · rw [lookup.1, area.mapPerm.user_bits frame frameSmall]
      exact isUser

theorem Visits.vpn_lt {stop start : Nat} {piece : Piece} (visits : Visits stop start piece) :
    piece.vpn < 2 ^ 27 := by
  induction visits with
  | here _ =>
      simp only [floor, virtAddr]
      omega
  | next _ _ ih => exact ih

/-- The slices of a buffer lie in user frames exactly when its pages lie in user areas. -/
theorem SpaceWf.userSlices_iff (wf : set.Wf l tramp s) (framed : set.Framed)
    (small : tramp < 2 ^ 44) (low : tramp < l) {ptr len fuel : Nat} {slices : List Slice}
    (returned : translatedByteBuffer s.mem set.pageTable.token ptr len fuel = .returned slices) :
    UserSlices set s.mem slices ↔ UserPages set ptr len := by
  have root := ((wf.table.inUse _ wf.table.root_mem).lt wf.table.ok).2.2
  have same : ∀ vpn, (PageTable.fromToken set.pageTable.token).translate s.mem vpn =
      set.translate s.mem vpn := by
    intro vpn
    simp only [MemorySet.translate, PageTable.translate, PageTable.findPte,
      PageTable.rootPpn_fromToken root]
  obtain ⟨new, isNew, fromPiece, fromVisits⟩ := byteBufferLoop_spec returned
  rw [List.nil_append] at isNew
  subst isNew
  constructor
  · intro user piece visits nonempty
    obtain ⟨pte, found, mem⟩ := fromVisits piece visits
    rw [same] at found
    exact (wf.userFrame_iff framed small low visits.vpn_lt found).mp
      (user _ mem piece.start (Nat.le_refl _) nonempty)
  · intro pages slice mem offset lower upper
    obtain ⟨vpn, pte, visits, found, isPpn⟩ := fromPiece slice mem
    rw [same] at found
    rw [isPpn, wf.userFrame_iff framed small low visits.vpn_lt found]
    exact pages _ visits (Nat.lt_of_le_of_lt lower upper)

end Frames

variable {layout : KernelLayout} {booted k : Machine} {set : MemorySet}

theorem Machine.Inv.userSlices_iff {l tramp id : Nat} (inv : Machine.Inv l tramp k)
    (above : Above layout l tramp) (isLive : k.live (.user id) = some set) {ptr len fuel : Nat}
    {slices : List Slice}
    (returned : translatedByteBuffer k.phys.mem set.pageTable.token ptr len fuel =
      .returned slices) :
    UserSlices set k.phys.mem slices ↔ UserPages set ptr len := by
  have ok := (inv.live isLive).2
  exact (ok.wf rfl).userSlices_iff (ok.framed (by simp)) above.small above.low returned

/-- In every run of the machine, when `translated_byte_buffer` returns for the address space of a
process, all of its bytes lie in user frames exactly when the buffer lies in user areas. -/
theorem userBuffer_frames_iff (mem : Memory) (boot : Machine.boot mem layout = some booted)
    (events : List SpaceEvent) (run : booted.steps layout events = some k) (id : Nat)
    (isLive : k.live (.user id) = some set) (ptr len fuel : Nat) (slices : List Slice)
    (returned : translatedByteBuffer k.phys.mem set.pageTable.token ptr len fuel =
      .returned slices) :
    UserSlices set k.phys.mem slices ↔ UserPages set ptr len := by
  obtain ⟨inv, above⟩ := Machine.inv_boot boot
  exact (inv.steps above run).userSlices_iff above isLive returned

/-! ## The pages of a thread -/

/-- The events of `alloc_user_res` for a thread of the process `id`. -/
def userResEvents (id ustackBase tid : Nat) : List SpaceEvent :=
  [.insertFramedArea (.user id) (ustackBottomFromTid ustackBase tid)
      ((ustackBottomFromTid ustackBase tid + 8192) % 2 ^ 64) ⟨true, true, false, true⟩,
    .insertFramedArea (.user id) (trapCxBottomFromTid tid)
      ((trapCxBottomFromTid tid + 4096) % 2 ^ 64) ⟨true, true, false, false⟩]

/-- They do what `alloc_user_res` does. -/
theorem steps_userResEvents {id ustackBase tid : Nat} (isLive : k.live (.user id) = some set) :
    k.steps layout (userResEvents id ustackBase tid) =
      (set.allocUserRes k.phys ustackBase tid).map fun (phys, set) =>
        k.put phys (.user id) (some ⟨set, false⟩) := by
  simp only [userResEvents, Machine.steps, Machine.step, isLive, Option.bind_some,
    MemorySet.allocUserRes]
  cases set.insertFramedArea k.phys (virtAddr (ustackBottomFromTid ustackBase tid))
      (virtAddr ((ustackBottomFromTid ustackBase tid + 8192) % 2 ^ 64))
      ⟨true, true, false, true⟩ with
  | none => rfl
  | some result =>
      obtain ⟨phys, withStack⟩ := result
      have nowLive : (k.put phys (.user id) (some ⟨withStack, false⟩)).live (.user id) =
          some withStack := by
        simp [Machine.live, Machine.put]
      have nowPhys : (k.put phys (.user id) (some ⟨withStack, false⟩)).phys = phys := rfl
      simp only [Option.map_some, Option.bind_some, nowLive, nowPhys]
      cases withStack.insertFramedArea phys (virtAddr (trapCxBottomFromTid tid))
          (virtAddr ((trapCxBottomFromTid tid + 4096) % 2 ^ 64)) ⟨true, true, false, false⟩ with
      | none => simp only [Option.map_none, Option.bind_none]
      | some result =>
          simp only [Option.map_some, Option.bind_some, Machine.put, Function.update_idem]

/-- A process with one page of code at `0x10000`, and the stack and trap context of its main
thread. -/
def mainThreadRun : List SpaceEvent :=
  .fromElf 0 ⟨[⟨0x10000, 0x1000, true, false, true, [19]⟩], 0x10000⟩ :: userResEvents 0 0x12000 0

/-- Its machine and address space. -/
def mainThread : Option (Machine × MemorySet) :=
  (Machine.boot (fun _ => 0) tinyLayout).bind fun booted =>
    (booted.steps tinyLayout mainThreadRun).bind fun k => (k.live (.user 0)).map fun set => (k, set)

theorem mainThread_eq_some {k : Machine} {set : MemorySet} (h : mainThread = some (k, set)) :
    ∃ booted, Machine.boot (fun _ => 0) tinyLayout = some booted ∧
      booted.steps tinyLayout mainThreadRun = some k ∧ k.live (.user 0) = some set := by
  obtain ⟨booted, boot, h⟩ := Option.bind_eq_some_iff.mp h
  obtain ⟨last, run, h⟩ := Option.bind_eq_some_iff.mp h
  obtain ⟨found, isLive, h⟩ := Option.map_eq_some_iff.mp h
  obtain ⟨rfl, rfl⟩ := Prod.mk.inj h
  exact ⟨booted, boot, run, isLive⟩

/-- The slices of a buffer of the process, with the areas that have the page of its start. -/
def mainThreadBuffer (ptr len fuel : Nat) : Option (Outcome (List Slice) × List MapPermission) :=
  mainThread.map fun (k, set) => (translatedByteBuffer k.phys.mem set.pageTable.token ptr len fuel,
    (set.areas.filter fun area => area.startVpn ≤ floor (virtAddr ptr) ∧
      floor (virtAddr ptr) < area.endVpn).map MapArea.mapPerm)

/-- The trap context of the main thread is returned as a user buffer. -/
theorem userBuffer_trapContext : ∃ booted k set slices,
    Machine.boot (fun _ => 0) tinyLayout = some booted ∧
    booted.steps tinyLayout mainThreadRun = some k ∧ k.live (.user 0) = some set ∧
    translatedByteBuffer k.phys.mem set.pageTable.token trapContextBase 8 2 = .returned slices ∧
    ¬ UserSlices set k.phys.mem slices := by
  have result : mainThreadBuffer trapContextBase 8 2 =
      some (.returned [⟨0x807f1, 0, 8⟩], [⟨true, true, false, false⟩]) := by decide +kernel
  obtain ⟨⟨k, set⟩, isMain, result⟩ := Option.map_eq_some_iff.mp result
  obtain ⟨returned, perms⟩ := Prod.mk.inj result
  obtain ⟨booted, boot, run, isLive⟩ := mainThread_eq_some isMain
  refine ⟨booted, k, set, _, boot, run, isLive, returned, fun user => ?_⟩
  obtain ⟨inv, above⟩ := Machine.inv_boot boot
  have pages := ((inv.steps above run).userSlices_iff above isLive returned).mp user
  obtain ⟨area, mem, has, isUser⟩ := pages _ (.here (by decide)) (by decide)
  have listed : area.mapPerm ∈ ([⟨true, true, false, false⟩] : List MapPermission) := by
    rw [← perms]
    exact List.mem_map_of_mem (List.mem_filter.mpr ⟨mem, by simpa [MapArea.Has] using has⟩)
  rw [List.mem_singleton.mp listed] at isUser
  exact absurd isUser (by decide)

/-- A buffer on the stack of the main thread that crosses a page. -/
theorem userBuffer_frames_iff_stack : ∃ booted k set slices,
    Machine.boot (fun _ => 0) tinyLayout = some booted ∧
    booted.steps tinyLayout mainThreadRun = some k ∧ k.live (.user 0) = some set ∧
    translatedByteBuffer k.phys.mem set.pageTable.token 0x12ffe 4 3 = .returned slices ∧
    (UserSlices set k.phys.mem slices ↔ UserPages set 0x12ffe 4) := by
  have result : mainThreadBuffer 0x12ffe 4 3 =
      some (.returned [⟨0x807ef, 4094, 4096⟩, ⟨0x807f0, 0, 2⟩], [⟨true, true, false, true⟩]) := by
    decide +kernel
  obtain ⟨⟨k, set⟩, isMain, result⟩ := Option.map_eq_some_iff.mp result
  obtain ⟨booted, boot, run, isLive⟩ := mainThread_eq_some isMain
  exact ⟨booted, k, set, _, boot, run, isLive, (Prod.mk.inj result).1,
    userBuffer_frames_iff _ boot mainThreadRun run 0 isLive 0x12ffe 4 3 _ (Prod.mk.inj result).1⟩

end CoreFromDust.Os.Mm
