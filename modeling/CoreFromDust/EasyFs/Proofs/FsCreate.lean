import CoreFromDust.EasyFs.Proofs.DirCreate
import CoreFromDust.EasyFs.Proofs.CacheTransparent

/-!
# A new file system

`EasyFileSystem::create` leaves a file system whose root directory is empty, and `open` finds
the layout that `create` chose in the super block.
-/

namespace CoreFromDust.EasyFs

open CoreFromDust.Lib CoreFromDust.Lib.CellProg DiskInode

variable {g : Geometry} {size cap : Nat}

/-- Zero one block. -/
def zeroBlock (id : Nat) : FsProg Unit := modifyCell id fun _ => pure (Block.zero, ())

theorem zeroBlock_wp {s : CellArray Block} {id : Nat} (lock : s.Lockable size cap id) :
    wp (fsHandler size cap) (zeroBlock id)
      (fun _ s' => s' = s.put id Block.zero) s := by
  unfold zeroBlock
  apply wp_modifyCell lock
  rw [wp_pure]
  exact ⟨rfl, rfl⟩

/-- The loop of `create` that zeroes blocks. -/
theorem zeroBlocks_wp (l : List Nat) {s : CellArray Block}
    (lock : ∀ id ∈ l, s.Lockable size cap id) :
    wp (fsHandler size cap) (forEach zeroBlock l) (fun _ s' => s'.held = s.held ∧
      (∀ id ∈ l, s'.cells id = Block.zero) ∧ ∀ id ∉ l, s'.cells id = s.cells id) s := by
  induction l generalizing s with
  | nil => simp [forEach]
  | cons id l ih =>
      simp only [forEach, wp_bind]
      refine wp_mono (zeroBlock_wp (lock id List.mem_cons_self)) ?_
      rintro - s₁ rfl
      refine wp_mono (ih fun other mem => (lock other (List.mem_cons_of_mem _ mem)).congr rfl) ?_
      rintro - s₂ ⟨heldEq, zero, still⟩
      refine ⟨heldEq, fun other mem => ?_, fun other notMem => ?_⟩
      · by_cases later : other ∈ l
        · exact zero other later
        · obtain rfl := (List.mem_cons.mp mem).resolve_right later
          rw [still other later, CellArray.put_cells, Function.update_self]
      · rw [List.mem_cons, not_or] at notMem
        obtain ⟨differ, notMem⟩ := notMem
        rw [still other notMem, CellArray.put_cells, Function.update_of_ne differ]

/-- The loop of `create`, on a device that nobody uses. -/
theorem zeroAll_wp {total : Nat} {s : CellArray Block} (device : total ≤ size) (room : 0 < cap)
    (held : s.held = []) :
    wp (fsHandler size cap)
      (forEach (fun id => modifyCell id fun _ => pure (Block.zero, ())) (List.range total))
      (fun _ s' => s'.held = [] ∧ (∀ id, id < total → s'.cells id = Block.zero) ∧
        ∀ id, total ≤ id → s'.cells id = s.cells id) s := by
  have zeroing := zeroBlocks_wp (List.range total) fun id mem =>
    CellArray.Lockable.of_held_nil held room ((List.mem_range.mp mem).trans_le device)
  unfold zeroBlock at zeroing
  refine wp_mono zeroing ?_
  rintro - s' ⟨heldEq, zero, still⟩
  exact ⟨heldEq.trans held, fun id below => zero id (List.mem_range.mpr below),
    fun id above => still id fun mem => absurd (List.mem_range.mp mem) (Nat.not_lt.mpr above)⟩

/-- A zeroed device with a super block. -/
theorem fsOk_zero {cells : Cells} (super : cells 0 = g.superBlock.toBlock Block.zero)
    (zero : ∀ id, 0 < id → id < g.total.toNat → cells id = Block.zero) : FsOk g 0 cells := by
  have fits : g.bitmapStart ≤ g.total.toNat := g.fits
  have start := g.dataStart_le
  have pos : 0 < g.bitmapStart := by
    unfold Geometry.bitmapStart
    omega
  refine ⟨super, ?_, Nat.zero_le _, by decide, by simp, ⟨by simp, by simp, by simp, by simp,
    ?_, ?_, ?_⟩⟩
  · intro n hn
    rw [g.efs_inodeBitmap, Bitmap.bit, zero]
    · simp
    · simp only
      omega
    · unfold Geometry.inodes Geometry.bitmapStart at *
      simp only
      omega
  · rintro id (⟨i, hi, -⟩ | mem)
    · omega
    · simp at mem
  · intro b hb
    rw [g.efs_dataBitmap, Bitmap.bit, zero]
    · simp [Owned]
    · simp only
      omega
    · unfold Geometry.dataStart at start
      simp only
      omega
  · intro id inData _
    have low := inData.low
    have le := g.bitmapStart_le
    exact zero id (by omega) inData.onDevice

/-- `EasyFileSystem::create` on a device that is large enough. -/
theorem createFs_wp {s : CellArray Block} (idle : Idle g size cap s)
    (hasInodes : 0 < g.inodeBlocks.toNat) :
    wp (fsHandler size cap) (EasyFileSystem.create g.total g.inodeBlocks)
      (fun efs s' => s'.held = [] ∧ efs = g.efs ∧ DirOk g [] s'.cells) s := by
  have enough : 0 < cap := Nat.zero_lt_of_lt idle.room
  have fits := g.fits
  simp only [EasyFileSystem.create, wp_bind]
  refine wp_mono (zeroAll_wp idle.device enough idle.held) ?_
  rintro - s₁ ⟨held₁, zero, -⟩
  have idle₁ : Idle g size cap s₁ := ⟨idle.device, idle.room, held₁⟩
  apply wp_modifyCell (idle₁.lockable (by omega))
  simp only [wp_pure, CellArray.hold_held, CellArray.hold_cells, true_and]
  generalize superEq : Function.update s₁.cells 0 _ = cells₂
  have super : cells₂ 0 = g.superBlock.toBlock Block.zero := by
    rw [← superEq, Function.update_self, zero 0 (by omega)]
    rfl
  have others : ∀ id, 0 < id → id < g.total.toNat → cells₂ id = Block.zero := by
    intro id pos below
    rw [← superEq, Function.update_of_ne (by omega)]
    exact zero id below
  have ok := fsOk_zero super others
  have idle₂ : Idle g size cap ⟨cells₂, s₁.held⟩ := ⟨idle.device, idle.room, held₁⟩
  have room : 0 < g.inodes := by
    unfold Geometry.inodes
    omega
  have alloc := FsOk.allocInode_wp (s := ⟨cells₂, s₁.held⟩) ok idle₂ room
  refine wp_mono alloc ?_
  rintro v s₃ ⟨held₃, rfl, marks⟩
  have idle₃ : Idle g size cap s₃ := ⟨idle.device, idle.room, held₃⟩
  rw [wp_check]
  refine ⟨rfl, ?_⟩
  have initRoot := ok.initInode_wp marks idle₃ (by decide)
  rw [if_pos rfl] at initRoot
  refine wp_mono initRoot ?_
  rintro - s₄ ⟨held₄, added⟩
  refine wp_flushAll held₄ ?_
  exact ⟨held₄, rfl, added.ok, added.empty, by simp⟩

/-- `create` panics without inode bitmap blocks, since there is no bit for the root inode. -/
theorem createFs_panics {s : CellArray Block} (idle : Idle g size cap s)
    (noInodes : g.inodeBlocks.toNat = 0) :
    Panics (fsHandler size cap) (EasyFileSystem.create g.total g.inodeBlocks) s := by
  have enough : 0 < cap := Nat.zero_lt_of_lt idle.room
  have fits := g.fits
  rw [EasyFileSystem.create]
  refine panics_do_second (wp_mono (zeroAll_wp idle.device enough idle.held) ?_)
  rintro - s₁ ⟨held₁, -⟩
  have idle₁ : Idle g size cap s₁ := ⟨idle.device, idle.room, held₁⟩
  apply panics_do_second
  apply wp_modifyCell (idle₁.lockable (by omega))
  rw [wp_pure]
  refine ⟨rfl, ?_⟩
  apply panics_do_first
  rw [EasyFileSystem.allocInode]
  apply panics_do_second
  have empty : (EasyFileSystem.layout g.total g.inodeBlocks).inodeBitmap.blocks = 0 := noInodes
  rw [Bitmap.alloc, empty, Bitmap.allocLoop, wp_pure]
  apply panics_do_first
  exact panics_unwrap _ _

/-- `open` recovers the layout from the super block. -/
theorem openFs_wp {entries : List DirEntry} {s : CellArray Block} (dir : DirOk g entries s.cells)
    (idle : Idle g size cap s) :
    wp (fsHandler size cap) EasyFileSystem.openFs (fun efs s' => s' = s ∧ efs = g.efs) s := by
  have fits := g.fits
  unfold EasyFileSystem.openFs
  apply wp_viewCell (idle.lockable (by omega))
  simp only [dir.fs.super, SuperBlock.ofBlock_toBlock, wp_bind, wp_check, wp_pure]
  refine ⟨rfl, rfl, rfl, rfl⟩

end CoreFromDust.EasyFs
