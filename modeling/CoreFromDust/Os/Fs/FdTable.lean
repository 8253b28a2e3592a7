import Mathlib.Data.List.Basic

/-!
# Descriptor tables

Embedding of `ProcessControlBlockInner::alloc_fd` and the copy of `fd_table` in
`ProcessControlBlock::fork` (`os/src/task/process.rs`), and of `sys_open`, `sys_close`, `sys_pipe`
and `sys_dup` (`os/src/syscall/fs.rs`), for one process. What is behind an `Arc` is known by its
address. The lemmas say what a call does to the file of each descriptor.
-/

namespace CoreFromDust.Os.Fs

/-- The `dyn File` of a descriptor. An end of a pipe is known by the buffer of the pipe. -/
inductive DynFile where
  | stdin
  | stdout
  | inode (addr : Nat)
  | pipeRead (buffer : Nat)
  | pipeWrite (buffer : Nat)
  deriving DecidableEq, Repr

/-- `fd_table`. -/
abbrev FdTable := List (Option DynFile)

/-- The file of a descriptor; there is none when it is not open. -/
def FdTable.file (t : FdTable) (fd : Nat) : Option DynFile := t[fd]?.join

/-- `OpenFlags`. -/
abbrev OpenFlags := UInt32

namespace OpenFlags

def rdonly : OpenFlags := 0
def wronly : OpenFlags := (1 : UInt32) <<< 0
def rdwr : OpenFlags := (1 : UInt32) <<< 1
def create : OpenFlags := (1 : UInt32) <<< 9
def trunc : OpenFlags := (1 : UInt32) <<< 10

/-- `OpenFlags::from_bits`. -/
def fromBits (bits : UInt32) : Option OpenFlags :=
  if bits &&& ~~~(rdonly ||| wronly ||| rdwr ||| create ||| trunc) = 0 then some bits else none

end OpenFlags

/-- `alloc_fd`. -/
def allocFd (t : FdTable) : Nat × FdTable :=
  match (List.range t.length).find? fun fd => (t.file fd).isNone with
  | some fd => (fd, t)
  | none => (t.length, t ++ [none])

/-- `alloc_fd`, and the assignment to the new entry that follows it everywhere. -/
def install (t : FdTable) (f : DynFile) : Nat × FdTable :=
  let (fd, t) := allocFd t
  (fd, t.set fd (some f))

/-- `sys_open`, where `openFile` is `open_file`; `none` is the panic of `from_bits`. -/
def sysOpen (openFile : String → OpenFlags → Option Nat) (path : String) (flags : UInt32)
    (t : FdTable) : Option (Int × FdTable) :=
  (OpenFlags.fromBits flags).map fun flags =>
    match openFile path flags with
    | some addr =>
        let (fd, t) := install t (.inode addr)
        ((fd : Int), t)
    | none => (-1, t)

/-- `sys_close`. -/
def sysClose (t : FdTable) (fd : Nat) : Int × FdTable :=
  if fd ≥ t.length then (-1, t)
  else if (t.file fd).isNone then (-1, t)
  else (0, t.set fd none)

/-- `sys_pipe`, for the pipe with the given buffer: what it writes at `pipe`, and the table. -/
def sysPipe (buffer : Nat) (t : FdTable) : (Nat × Nat) × FdTable :=
  let (readFd, t) := install t (.pipeRead buffer)
  let (writeFd, t) := install t (.pipeWrite buffer)
  ((readFd, writeFd), t)

/-- `sys_dup`. -/
def sysDup (t : FdTable) (fd : Nat) : Int × FdTable :=
  if fd ≥ t.length then (-1, t)
  else match t.file fd with
    | none => (-1, t)
    | some f =>
        let (newFd, t) := install t f
        ((newFd : Int), t)

/-- The loop of `fork` that copies the table. -/
def forkTable (t : FdTable) : FdTable :=
  t.map fun
    | some file => some file
    | none => none

namespace FdTable

variable {t : FdTable}

theorem file_of_ge {fd : Nat} (outside : t.length ≤ fd) : t.file fd = none := by
  rw [file, List.getElem?_eq_none outside]
  rfl

theorem lt_of_isSome {fd : Nat} (isOpen : (t.file fd).isSome) : fd < t.length := by
  by_contra outside
  rw [file_of_ge (Nat.le_of_not_lt outside)] at isOpen
  exact Bool.noConfusion isOpen

theorem file_set {fd : Nat} (inside : fd < t.length) (entry : Option DynFile) (x : Nat) :
    file (t.set fd entry) x = if x = fd then entry else t.file x := by
  unfold file
  by_cases same : x = fd
  · subst same
    rw [List.getElem?_set_self inside, if_pos rfl]
    rfl
  · rw [List.getElem?_set_ne (Ne.symm same), if_neg same]

theorem file_append_none (t : FdTable) (x : Nat) : file (t ++ [none]) x = t.file x := by
  unfold file
  rcases Nat.lt_trichotomy x t.length with inside | rfl | outside
  · rw [List.getElem?_append_left inside]
  · simp
  · rw [List.getElem?_eq_none (by simp; omega), List.getElem?_eq_none (by omega)]

/-- `alloc_fd` finds the lowest descriptor that is not open, and opens nothing. -/
theorem allocFd_spec (t : FdTable) :
    t.file (allocFd t).1 = none ∧ (∀ x, x < (allocFd t).1 → (t.file x).isSome) ∧
      (allocFd t).1 < (allocFd t).2.length ∧ ∀ x, (allocFd t).2.file x = t.file x := by
  unfold allocFd
  cases found : (List.range t.length).find? fun fd => (t.file fd).isNone with
  | some fd =>
      obtain ⟨hit, inRange, before⟩ := List.find?_range_eq_some.mp found
      refine ⟨by simpa using hit, fun x hx => ?_, List.mem_range.mp inRange, fun _ => rfl⟩
      simpa [Option.isSome_iff_ne_none] using before x hx
  | none =>
      refine ⟨file_of_ge (Nat.le_refl _), fun x hx => ?_, by simp, file_append_none t⟩
      have used := List.find?_eq_none.mp found x (List.mem_range.mpr hx)
      simpa [Option.isSome_iff_ne_none] using used

theorem install_file (t : FdTable) (f : DynFile) (x : Nat) :
    (install t f).2.file x = if x = (install t f).1 then some f else t.file x := by
  obtain ⟨-, -, inside, same⟩ := allocFd_spec t
  simp only [install, file_set inside, same]
  rfl

/-- The descriptor that `install` takes. -/
theorem install_fd (t : FdTable) (f : DynFile) :
    t.file (install t f).1 = none ∧ ∀ x, x < (install t f).1 → (t.file x).isSome := by
  obtain ⟨free, lower, -⟩ := allocFd_spec t
  exact ⟨free, lower⟩

/-- Descriptors that are open below a free one decide what `install` takes. -/
theorem install_fd_eq {fd : Nat} (f : DynFile) (free : t.file fd = none)
    (lower : ∀ x, x < fd → (t.file x).isSome) : (install t f).1 = fd := by
  obtain ⟨free', lower'⟩ := install_fd t f
  rcases Nat.lt_trichotomy (install t f).1 fd with below | same | above
  · have isOpen := lower _ below
    rw [free'] at isOpen
    exact Bool.noConfusion isOpen
  · exact same
  · have isOpen := lower' _ above
    rw [free] at isOpen
    exact Bool.noConfusion isOpen

/-- `install` takes a descriptor above those that are open. -/
theorem lt_install_fd {target : Nat} (f : DynFile) (isOpen : ∀ x, x ≤ target → (t.file x).isSome) :
    target < (install t f).1 := by
  by_contra below
  have taken := isOpen _ (Nat.le_of_not_lt below)
  rw [(install_fd t f).1] at taken
  exact Bool.noConfusion taken

theorem sysClose_file (t : FdTable) (fd x : Nat) :
    (sysClose t fd).2.file x = if x = fd then none else t.file x := by
  have absent : t.file fd = none → t.file x = if x = fd then none else t.file x := by
    intro closed
    split
    · next same => rw [same, closed]
    · rfl
  unfold sysClose
  split
  · next outside => exact absent (file_of_ge outside)
  · next inside =>
    split
    · next closed => exact absent (Option.isNone_iff_eq_none.mp closed)
    · exact file_set (Nat.lt_of_not_le inside) none x

theorem sysDup_eq {fd : Nat} {f : DynFile} (isOpen : t.file fd = some f) :
    sysDup t fd = (((install t f).1 : Int), (install t f).2) := by
  have inside : fd < t.length := lt_of_isSome (by rw [isOpen]; rfl)
  rw [sysDup, if_neg (Nat.not_le.mpr inside), isOpen]

/-- `sys_pipe` opens two descriptors that were free. -/
theorem sysPipe_spec (buffer : Nat) (t : FdTable) :
    t.file (sysPipe buffer t).1.1 = none ∧ t.file (sysPipe buffer t).1.2 = none ∧
      (sysPipe buffer t).1.2 ≠ (sysPipe buffer t).1.1 ∧
      ∀ x, (sysPipe buffer t).2.file x =
        if x = (sysPipe buffer t).1.2 then some (.pipeWrite buffer)
        else if x = (sysPipe buffer t).1.1 then some (.pipeRead buffer) else t.file x := by
  simp only [sysPipe]
  obtain ⟨free, -⟩ := install_fd t (.pipeRead buffer)
  obtain ⟨free', -⟩ := install_fd (install t (.pipeRead buffer)).2 (.pipeWrite buffer)
  rw [install_file] at free'
  split at free'
  · simp at free'
  · next differ =>
    refine ⟨free, free', differ, fun x => ?_⟩
    rw [install_file, install_file]
    rfl

theorem forkTable_eq (t : FdTable) : forkTable t = t := by
  have same : ∀ entry ∈ t, (match entry with | some file => some file | none => none) = entry := by
    intro entry _
    cases entry <;> rfl
  exact (List.map_congr_left same).trans (List.map_id t)

end FdTable

end CoreFromDust.Os.Fs
