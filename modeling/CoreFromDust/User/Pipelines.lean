import CoreFromDust.User.Shell

/-!
# Pipelines

The descriptors that the shell gives to the commands of a line. Each child that comes to `exec` has
its two pipe ends, or files, at descriptors 0 and 1 and no end elsewhere; the shell keeps none.
-/

namespace CoreFromDust.User

open CoreFromDust.Os.Fs

/-- The ends of the pipes. -/
def ends (pipesFd : List (Nat × Nat)) : List Nat :=
  pipesFd.flatMap fun pipeFd => [pipeFd.1, pipeFd.2]

@[simp] theorem ends_nil : ends [] = [] := rfl

@[simp] theorem mem_ends_cons {pipeFd : Nat × Nat} {pipesFd : List (Nat × Nat)} {x : Nat} :
    x ∈ ends (pipeFd :: pipesFd) ↔ x = pipeFd.1 ∨ x = pipeFd.2 ∨ x ∈ ends pipesFd := by
  simp [ends]

theorem mem_ends_of_mem {pipeFd : Nat × Nat} {pipesFd : List (Nat × Nat)} (mem : pipeFd ∈ pipesFd) :
    pipeFd.1 ∈ ends pipesFd ∧ pipeFd.2 ∈ ends pipesFd := by
  constructor <;> exact List.mem_flatMap.mpr ⟨pipeFd, mem, by simp⟩

/-- Closing the ends of all pipes. -/
theorem closeEnds_file (pipesFd : List (Nat × Nat)) (t : FdTable) (x : Nat) :
    (closeEnds pipesFd t).file x = if x ∈ ends pipesFd then none else t.file x := by
  induction pipesFd generalizing t with
  | nil => simp [closeEnds]
  | cons pipeFd pipesFd ih =>
      have step : closeEnds (pipeFd :: pipesFd) t =
          closeEnds pipesFd (sysClose (sysClose t pipeFd.1).2 pipeFd.2).2 := rfl
      rw [step, ih, FdTable.sysClose_file, FdTable.sysClose_file]
      by_cases later : x ∈ ends pipesFd
      · simp [later]
      · by_cases write : x = pipeFd.2
        · simp [write]
        · simp [later, write]

/-- The pipes of the shell: their ends are at descriptors that were not open. -/
theorem createPipes_spec (buffers : List Nat) (t : FdTable) :
    (createPipes buffers t).1.length = buffers.length ∧
    (∀ (j : Nat) (pipeFd : Nat × Nat) (buffer : Nat), (createPipes buffers t).1[j]? = some pipeFd →
      buffers[j]? = some buffer →
      (createPipes buffers t).2.file pipeFd.1 = some (.pipeRead buffer) ∧
        (createPipes buffers t).2.file pipeFd.2 = some (.pipeWrite buffer)) ∧
    (∀ x ∈ ends (createPipes buffers t).1, t.file x = none) ∧
    ∀ x, x ∉ ends (createPipes buffers t).1 → (createPipes buffers t).2.file x = t.file x := by
  induction buffers generalizing t with
  | nil => simp [createPipes]
  | cons buffer buffers ih =>
      obtain ⟨len, files, free, kept⟩ := ih (sysPipe buffer t).2
      obtain ⟨freeRead, freeWrite, differ, pipe⟩ := FdTable.sysPipe_spec buffer t
      simp only [createPipes]
      generalize (sysPipe buffer t).1 = pipeFd at freeRead freeWrite differ pipe ⊢
      generalize (sysPipe buffer t).2 = t₁ at len files free kept pipe ⊢
      -- the ends of the later pipes are not those of this one
      have read : t₁.file pipeFd.1 = some (.pipeRead buffer) := by
        rw [pipe, if_neg (Ne.symm differ), if_pos rfl]
      have write : t₁.file pipeFd.2 = some (.pipeWrite buffer) := by
        rw [pipe, if_pos rfl]
      have readApart : pipeFd.1 ∉ ends (createPipes buffers t₁).1 := by
        intro mem
        rw [free _ mem] at read
        simp at read
      have writeApart : pipeFd.2 ∉ ends (createPipes buffers t₁).1 := by
        intro mem
        rw [free _ mem] at write
        simp at write
      refine ⟨by simp [len], ?_, ?_, ?_⟩
      · intro j other b which same
        cases j with
        | zero =>
            simp only [List.getElem?_cons_zero, Option.some.injEq] at which same
            subst which same
            rw [kept _ readApart, kept _ writeApart]
            exact ⟨read, write⟩
        | succ j =>
            simp only [List.getElem?_cons_succ] at which same
            exact files j other b which same
      · intro x mem
        rw [mem_ends_cons] at mem
        rcases mem with rfl | rfl | mem
        · exact freeRead
        · exact freeWrite
        · have later := free x mem
          rw [pipe] at later
          split at later
          · simp at later
          · split at later
            · simp at later
            · exact later
      · intro x outside
        rw [mem_ends_cons, not_or, not_or] at outside
        rw [kept x outside.2.2, pipe, if_neg outside.2.1, if_neg outside.1]

/-- `attach` duplicates a descriptor to `target` when those below are open. -/
theorem attach_spec (target : Nat) {fd : Nat} {t : FdTable} {f : DynFile} (apart : fd ≠ target)
    (isOpen : t.file fd = some f) (lower : ∀ x, x < target → (t.file x).isSome) :
    ∃ t', attach target fd t = some t' ∧
      ∀ x, t'.file x = if x = target then some f else t.file x := by
  have source : (sysClose t target).2.file fd = some f := by
    rw [FdTable.sysClose_file, if_neg apart, isOpen]
  have free : (sysClose t target).2.file target = none := by
    rw [FdTable.sysClose_file, if_pos rfl]
  have below : ∀ x, x < target → ((sysClose t target).2.file x).isSome := by
    intro x hx
    rw [FdTable.sysClose_file, if_neg (Nat.ne_of_lt hx)]
    exact lower x hx
  have taken := FdTable.install_fd_eq f free below
  refine ⟨(install (sysClose t target).2 f).2, ?_, fun x => ?_⟩
  · simp only [attach, FdTable.sysDup_eq source, taken, ↓reduceIte]
  · rw [FdTable.install_file, taken, FdTable.sysClose_file]
    split <;> rfl

/-- The file that a redirection puts behind a descriptor, if there is one. -/
def redirected (openFile : String → OpenFlags → Option Nat) (path : String) (flags : OpenFlags)
    (inherited : Option DynFile) : Option DynFile :=
  if path.isEmpty then inherited else (openFile (cString path) flags).map .inode

/-- A redirection changes its descriptor only; the child returns when the file cannot be opened. -/
theorem redirectTo_spec (openFile : String → OpenFlags → Option Nat) (target : Nat) (path : String)
    {flags : OpenFlags} {t : FdTable} (known : OpenFlags.fromBits flags = some flags)
    (lower : ∀ x, x ≤ target → (t.file x).isSome) :
    (redirected openFile path flags (t.file target) = none ∧
      redirectTo openFile target path flags t = some (.exited (-4))) ∨
    ∃ f t', redirected openFile path flags (t.file target) = some f ∧
      redirectTo openFile target path flags t = some (.ready t') ∧
      ∀ x, t'.file x = if x = target then some f else t.file x := by
  unfold redirected redirectTo
  by_cases empty : path.isEmpty = true
  · rw [if_pos empty, if_pos empty]
    obtain ⟨f, same⟩ := Option.isSome_iff_exists.mp (lower target (Nat.le_refl _))
    refine .inr ⟨f, t, same, rfl, fun x => ?_⟩
    split
    · next eq => rw [eq, same]
    · rfl
  · rw [if_neg empty, if_neg empty, sysOpen, known]
    cases opened : openFile (cString path) flags with
    | none => exact .inl ⟨rfl, by simp [opened]⟩
    | some addr =>
        have above := FdTable.lt_install_fd (.inode addr) lower
        obtain ⟨free, -⟩ := FdTable.install_fd t (.inode addr)
        have files := FdTable.install_file t (.inode addr)
        have notError : (((install t (.inode addr)).1 : Nat) : Int) ≠ -1 := by omega
        have source : (install t (.inode addr)).2.file (install t (.inode addr)).1 =
            some (.inode addr) := by rw [files, if_pos rfl]
        have below : ∀ x, x < target → ((install t (.inode addr)).2.file x).isSome := by
          intro x hx
          rw [files, if_neg (by omega)]
          exact lower x (Nat.le_of_lt hx)
        obtain ⟨t₁, attached, files₁⟩ := attach_spec target (Nat.ne_of_gt above) source below
        refine .inr ⟨.inode addr, (sysClose t₁ (install t (.inode addr)).1).2, rfl, ?_, ?_⟩
        · simp [opened, notError, attached]
        · intro x
          rw [FdTable.sysClose_file, files₁, files]
          by_cases own : x = (install t (.inode addr)).1
          · rw [if_pos own, if_neg (by omega), own, free]
          · rw [if_neg own, if_neg own]

/-- A child between the redirections and the end of its branch: the pipe ends go to descriptors 0
and 1. -/
structure Plumbed (buffer : Nat → Nat) (len : Nat) (pipesFd : List (Nat × Nat)) (t : FdTable) :
    Prop where
  pipes : pipesFd.length = len - 1
  files : ∀ j pipeFd, pipesFd[j]? = some pipeFd →
    t.file pipeFd.1 = some (.pipeRead (buffer j)) ∧ t.file pipeFd.2 = some (.pipeWrite (buffer j))
  above : ∀ x ∈ ends pipesFd, 2 ≤ x
  standard : ∀ x, x < 2 → (t.file x).isSome

namespace Plumbed

variable {buffer : Nat → Nat} {len : Nat} {pipesFd : List (Nat × Nat)} {t : FdTable}

/-- Descriptors 0 and 1 may be put to another file. -/
theorem set (plumbed : Plumbed buffer len pipesFd t) {target : Nat} {f : DynFile} {t' : FdTable}
    (low : target < 2) (files : ∀ x, t'.file x = if x = target then some f else t.file x) :
    Plumbed buffer len pipesFd t' := by
  refine ⟨plumbed.pipes, fun j pipeFd which => ?_, plumbed.above, fun x hx => ?_⟩
  · have mem := mem_ends_of_mem (List.mem_of_getElem? which)
    have read := plumbed.above _ mem.1
    have write := plumbed.above _ mem.2
    rw [files, files, if_neg (by omega), if_neg (by omega)]
    exact plumbed.files j pipeFd which
  · rw [files]
    split
    · rfl
    · exact plumbed.standard x hx

/-- The step for the read end of the previous pipe. -/
theorem receive (plumbed : Plumbed buffer len pipesFd t) {i : Nat} (hi : i < len) :
    ∃ t', User.receive pipesFd i t = some t' ∧ Plumbed buffer len pipesFd t' ∧
      ∀ x, t'.file x = if x = 0 ∧ 0 < i then some (.pipeRead (buffer (i - 1))) else t.file x := by
  by_cases later : i > 0
  · have inside : i - 1 < pipesFd.length := by rw [plumbed.pipes]; omega
    have which : pipesFd[i - 1]? = some pipesFd[i - 1] := List.getElem?_eq_getElem inside
    have above := plumbed.above _ (mem_ends_of_mem (List.mem_of_getElem? which)).1
    obtain ⟨t', attached, files⟩ :=
      attach_spec 0 (by omega) (plumbed.files _ _ which).1 (by omega)
    refine ⟨t', ?_, plumbed.set (by decide) files, fun x => ?_⟩
    · rw [User.receive, if_pos later, which, Option.bind_some, attached]
    · rw [files]
      simp only [later, and_true]
  · refine ⟨t, if_neg later, plumbed, fun x => ?_⟩
    rw [if_neg fun both => later both.2]

/-- The step for the write end of the next pipe. -/
theorem send (plumbed : Plumbed buffer len pipesFd t) {i : Nat} :
    ∃ t', User.send len pipesFd i t = some t' ∧ Plumbed buffer len pipesFd t' ∧
      ∀ x, t'.file x = if x = 1 ∧ i < len - 1 then some (.pipeWrite (buffer i)) else t.file x := by
  by_cases earlier : i < len - 1
  · have inside : i < pipesFd.length := by rw [plumbed.pipes]; exact earlier
    have which : pipesFd[i]? = some pipesFd[i] := List.getElem?_eq_getElem inside
    have above := plumbed.above _ (mem_ends_of_mem (List.mem_of_getElem? which)).2
    obtain ⟨t', attached, files⟩ := attach_spec 1 (by omega)
      (plumbed.files _ _ which).2 fun x hx => plumbed.standard x (by omega)
    refine ⟨t', ?_, plumbed.set (by decide) files, fun x => ?_⟩
    · rw [User.send, if_pos earlier, which, Option.bind_some, attached]
    · rw [files]
      simp only [earlier, and_true]
  · refine ⟨t, if_neg earlier, plumbed, fun x => ?_⟩
    rw [if_neg fun both => earlier both.2]

end Plumbed

/-! ## Children -/

/-- What a child has at the descriptors of its `exec`, which are those of the shell but for 0 and 1,
and but for the ends of the pipes. -/
structure Wired (openFile : String → OpenFlags → Option Nat) (buffer : Nat → Nat) (len i : Nat)
    (processArgument : ProcessArguments) (shell t : FdTable) : Prop where
  stdin : t.file 0 = if 0 < i then some (.pipeRead (buffer (i - 1)))
    else redirected openFile processArgument.input OpenFlags.rdonly (shell.file 0)
  stdout : t.file 1 = if i < len - 1 then some (.pipeWrite (buffer i))
    else redirected openFile processArgument.output (OpenFlags.create ||| OpenFlags.wronly)
      (shell.file 1)
  others : ∀ fd, 2 ≤ fd → t.file fd = shell.file fd

/-- A file that is to be opened for the command cannot be opened. -/
def CannotOpen (openFile : String → OpenFlags → Option Nat) (processArgument : ProcessArguments) :
    Prop :=
  processArgument.input ≠ "" ∧
      openFile (cString processArgument.input) OpenFlags.rdonly = none ∨
    processArgument.output ≠ "" ∧
      openFile (cString processArgument.output) (OpenFlags.create ||| OpenFlags.wronly) = none

/-- A redirection of an open descriptor fails only when the file cannot be opened. -/
theorem redirected_none {openFile : String → OpenFlags → Option Nat} {path : String}
    {flags : OpenFlags} {inherited : Option DynFile}
    (fails : redirected openFile path flags inherited = none) (isOpen : inherited.isSome) :
    path ≠ "" ∧ openFile (cString path) flags = none := by
  unfold redirected at fails
  split at fails
  · rw [fails] at isOpen
    exact Bool.noConfusion isOpen
  · next given =>
    exact ⟨fun empty => given (by rw [empty]; rfl), Option.map_eq_none_iff.mp fails⟩

section Child

variable {buffer : Nat → Nat} {len : Nat}
  {pipesFd : List (Nat × Nat)} {shell t : FdTable}

/-- The branch of a child, on a copy `t` of the table that the shell has with its pipes. -/
theorem child_spec (openFile : String → OpenFlags → Option Nat)
    (plumbed : Plumbed buffer len pipesFd t)
    (free : ∀ x ∈ ends pipesFd, shell.file x = none)
    (kept : ∀ x, x ∉ ends pipesFd → t.file x = shell.file x) {i : Nat} (hi : i < len)
    (processArgument : ProcessArguments) :
    (CannotOpen openFile processArgument ∧
      child openFile len pipesFd i processArgument t = some (.exited (-4))) ∨
    ∃ t', child openFile len pipesFd i processArgument t = some (.ready t') ∧
      Wired openFile buffer len i processArgument shell t' := by
  have low : ∀ x, x < 2 → x ∉ ends pipesFd := fun x hx mem =>
    absurd (plumbed.above x mem) (Nat.not_le.mpr hx)
  have readable : OpenFlags.fromBits OpenFlags.rdonly = some OpenFlags.rdonly := by decide
  have writable : OpenFlags.fromBits (OpenFlags.create ||| OpenFlags.wronly) =
      some (OpenFlags.create ||| OpenFlags.wronly) := by decide
  rcases redirectTo_spec openFile 0 processArgument.input readable fun x hx =>
      plumbed.standard x (by omega) with
    ⟨fails, exits⟩ | ⟨input, t₁, found, goesOn, files₁⟩
  · refine .inl ⟨.inl (redirected_none fails (plumbed.standard 0 (by decide))), ?_⟩
    simp [child, exits, Child.andThen]
  have plumbed₁ := plumbed.set (by decide) files₁
  have second : t₁.file 1 = t.file 1 := by rw [files₁, if_neg (by decide)]
  rcases redirectTo_spec openFile 1 processArgument.output writable fun x hx =>
      plumbed₁.standard x (by omega) with
    ⟨fails, exits⟩ | ⟨output, t₂, found', goesOn', files₂⟩
  · refine .inl ⟨.inr (redirected_none fails (plumbed₁.standard 1 (by decide))), ?_⟩
    simp [child, goesOn, exits, Child.andThen]
  have plumbed₂ := plumbed₁.set (by decide) files₂
  obtain ⟨t₃, received, plumbed₃, files₃⟩ := plumbed₂.receive hi
  obtain ⟨t₄, sent, plumbed₄, files₄⟩ := plumbed₃.send (i := i)
  refine .inr ⟨closeEnds pipesFd t₄, ?_, ?_, ?_, fun fd high => ?_⟩
  · simp only [child, goesOn, goesOn', received, sent, Child.andThen, Option.bind_eq_bind,
      Option.bind_some]
  · rw [closeEnds_file, if_neg (low 0 (by decide)), files₄, files₃, files₂, files₁,
      ← kept 0 (low 0 (by decide)), found]
    simp
  · rw [closeEnds_file, if_neg (low 1 (by decide)), files₄, files₃, files₂,
      ← kept 1 (low 1 (by decide)), ← second, found']
    simp
  · rw [closeEnds_file]
    split
    · next mem => rw [free fd mem]
    · next outside =>
      rw [files₄, if_neg (by omega), files₃, if_neg (by omega), files₂, if_neg (by omega), files₁,
        if_neg (by omega), kept fd outside]

end Child

/-! ## The line -/

/-- The pipes that the kernel makes for a line are different ones, and new: no descriptor of the
shell is an end of them. -/
structure NewBuffers (buffer : Nat → Nat) (count : Nat) (shell : FdTable) : Prop where
  distinct : ∀ j k, j < count → k < count → buffer j = buffer k → j = k
  unused : ∀ j, j < count → ∀ fd,
    shell.file fd ≠ some (.pipeRead (buffer j)) ∧ shell.file fd ≠ some (.pipeWrite (buffer j))

namespace Wired

variable {openFile : String → OpenFlags → Option Nat} {buffer : Nat → Nat} {len i : Nat}
  {processArgument : ProcessArguments} {shell t : FdTable}

/-- A redirection leads to no pipe end. -/
theorem redirected_ne {path : String} {flags : OpenFlags} {fd : Nat} {f : DynFile}
    (notInode : ∀ addr, f ≠ .inode addr) (notShell : shell.file fd ≠ some f) :
    redirected openFile path flags (shell.file fd) ≠ some f := by
  unfold redirected
  split
  · exact notShell
  · intro found
    obtain ⟨addr, -, same⟩ := Option.map_eq_some_iff.mp found
    exact notInode addr same.symm

/-- The write end of a pipe is at descriptor 1 of the command before it. -/
theorem holds_write (wired : Wired openFile buffer len i processArgument shell t)
    (new : NewBuffers buffer (len - 1) shell) {j : Nat} (hj : j < len - 1) (fd : Nat) :
    t.file fd = some (.pipeWrite (buffer j)) ↔ fd = 1 ∧ i = j := by
  have unused := fun fd => (new.unused j hj fd).2
  constructor
  · intro holds
    match fd with
    | 0 =>
        rw [wired.stdin] at holds
        split at holds
        · simp at holds
        · exact absurd holds (redirected_ne (by simp) (unused 0))
    | 1 =>
        rw [wired.stdout] at holds
        split at holds
        · next earlier =>
          rw [Option.some.injEq, DynFile.pipeWrite.injEq] at holds
          exact ⟨rfl, new.distinct i j earlier hj holds⟩
        · exact absurd holds (redirected_ne (by simp) (unused 1))
    | fd + 2 =>
        rw [wired.others _ (by omega)] at holds
        exact absurd holds (unused _)
  · rintro ⟨rfl, rfl⟩
    rw [wired.stdout, if_pos hj]

/-- The read end of a pipe is at descriptor 0 of the command after it. -/
theorem holds_read (wired : Wired openFile buffer len i processArgument shell t) (hi : i < len)
    (new : NewBuffers buffer (len - 1) shell) {j : Nat} (hj : j < len - 1) (fd : Nat) :
    t.file fd = some (.pipeRead (buffer j)) ↔ fd = 0 ∧ i = j + 1 := by
  have unused := fun fd => (new.unused j hj fd).1
  constructor
  · intro holds
    match fd with
    | 0 =>
        rw [wired.stdin] at holds
        split at holds
        · next later =>
          rw [Option.some.injEq, DynFile.pipeRead.injEq] at holds
          have same := new.distinct (i - 1) j (by omega) hj holds
          exact ⟨rfl, by omega⟩
        · exact absurd holds (redirected_ne (by simp) (unused 0))
    | 1 =>
        rw [wired.stdout] at holds
        split at holds
        · simp at holds
        · exact absurd holds (redirected_ne (by simp) (unused 1))
    | fd + 2 =>
        rw [wired.others _ (by omega)] at holds
        exact absurd holds (unused _)
  · rintro ⟨rfl, rfl⟩
    rw [wired.stdin, if_pos (Nat.succ_pos j), Nat.add_sub_cancel]

end Wired

/-- The table of the shell with its pipes. -/
theorem plumbed_createPipes (buffer : Nat → Nat) (len : Nat) {shell : FdTable}
    (standard : ∀ fd, fd < 3 → (shell.file fd).isSome) :
    Plumbed buffer len (createPipes ((List.range (len - 1)).map buffer) shell).1
      (createPipes ((List.range (len - 1)).map buffer) shell).2 := by
  obtain ⟨count, files, free, kept⟩ := createPipes_spec ((List.range (len - 1)).map buffer) shell
  have above : ∀ x ∈ ends (createPipes ((List.range (len - 1)).map buffer) shell).1, 2 ≤ x := by
    intro x mem
    by_contra low
    have isOpen := standard x (by omega)
    rw [free x mem] at isOpen
    exact Bool.noConfusion isOpen
  refine ⟨by simpa using count, fun j pipeFd which => ?_, above, fun x hx => ?_⟩
  · have inside := (List.getElem?_eq_some_iff.mp which).1
    have below : j < len - 1 := by
      rw [count] at inside
      simpa using inside
    exact files j pipeFd (buffer j) which (by simp [below])
  · rw [kept x fun mem => absurd (above x mem) (by omega)]
    exact standard x (by omega)

/-- For every line that is accepted, every child exits because a file cannot be opened, or comes to
`exec` with its descriptors wired: 0 and 1 are the ends of the pipes beside it, or its files, or
inherited, and no descriptor of it is any other end. The shell has all its descriptors back. -/
theorem execLine_wired {openFile : Nat → String → OpenFlags → Option Nat} {buffer : Nat → Nat}
    {args : List ProcessArguments} {shell shell' : FdTable} {children : List (Option Child)}
    (standard : ∀ fd, fd < 3 → (shell.file fd).isSome)
    (new : NewBuffers buffer (args.length - 1) shell)
    (accepted : execLine openFile buffer args shell = some (children, shell')) :
    children.length = args.length ∧
    (∀ (i : Nat) (hi : i < args.length),
      (CannotOpen (openFile i) args[i] ∧ children[i]? = some (some (.exited (-4)))) ∨
      ∃ t, children[i]? = some (some (.ready t)) ∧
        Wired (openFile i) buffer args.length i args[i] shell t ∧
        ∀ j, j < args.length - 1 → ∀ fd,
          (t.file fd = some (.pipeWrite (buffer j)) ↔ fd = 1 ∧ i = j) ∧
          (t.file fd = some (.pipeRead (buffer j)) ↔ fd = 0 ∧ i = j + 1)) ∧
    (∀ fd, shell'.file fd = shell.file fd) ∧
    ∀ j, j < args.length - 1 → ∀ fd,
      shell'.file fd ≠ some (.pipeRead (buffer j)) ∧
      shell'.file fd ≠ some (.pipeWrite (buffer j)) := by
  have ran : runLine openFile buffer args shell = (children, shell') := by
    unfold execLine at accepted
    split at accepted
    · exact Option.some.inj accepted
    · simp at accepted
  obtain ⟨-, -, free, kept⟩ :=
    createPipes_spec ((List.range (args.length - 1)).map buffer) shell
  have plumbed := plumbed_createPipes buffer args.length standard
  simp only [runLine, Prod.mk.injEq, FdTable.forkTable_eq] at ran
  obtain ⟨rfl, rfl⟩ := ran
  have closed : ∀ fd, (closeEnds (createPipes ((List.range (args.length - 1)).map buffer) shell).1
      (createPipes ((List.range (args.length - 1)).map buffer) shell).2).file fd =
        shell.file fd := by
    intro fd
    rw [closeEnds_file]
    split
    · next mem => rw [free fd mem]
    · next outside => exact kept fd outside
  refine ⟨by simp, fun i hi => ?_, closed, fun j hj fd => ?_⟩
  · have which : args.zipIdx[i]? = some (args[i], i) := by simp [hi]
    rw [List.getElem?_map, which, Option.map_some]
    rcases child_spec (openFile i) plumbed free kept hi args[i] with
      ⟨fails, exits⟩ | ⟨t, ready, wired⟩
    · exact .inl ⟨fails, by rw [exits]⟩
    · exact .inr ⟨t, by rw [ready], wired, fun j hj fd =>
        ⟨wired.holds_write new hj fd, wired.holds_read hi new hj fd⟩⟩
  · rw [closed]
    exact new.unused j hj fd

/-- `cat < f | wc` of a shell with the standard descriptors only. -/
def catInto : List ProcessArguments :=
  [⟨"f\x00", "", [⟨"cat\x00", 16⟩], [16, 0]⟩, ⟨"", "", [⟨"wc\x00", 24⟩], [24, 0]⟩]

theorem execLine_wired_cat : ∃ children shell',
    execLine (fun _ _ _ => some 8) id catInto [some .stdin, some .stdout, some .stdout] =
        some (children, shell') ∧
      ∃ t, children[0]? = some (some (.ready t)) ∧ t.file 0 = some (.inode 8) ∧
        t.file 1 = some (.pipeWrite 0) := by
  have new : NewBuffers id (catInto.length - 1) [some .stdin, some .stdout, some .stdout] := by
    refine ⟨fun j k hj hk same => same, fun j _ fd => ?_⟩
    match fd with
    | 0 => exact ⟨by simp [FdTable.file], by simp [FdTable.file]⟩
    | 1 => exact ⟨by simp [FdTable.file], by simp [FdTable.file]⟩
    | 2 => exact ⟨by simp [FdTable.file], by simp [FdTable.file]⟩
    | fd + 3 => exact ⟨by simp [FdTable.file], by simp [FdTable.file]⟩
  have accepted :
      execLine (fun _ _ _ => some 8) id catInto [some .stdin, some .stdout, some .stdout]
      = some (runLine (fun _ _ _ => some 8) id catInto [some .stdin, some .stdout, some .stdout]) :=
    if_pos (by decide)
  refine ⟨_, _, accepted, ?_⟩
  obtain ⟨-, wired, -⟩ := execLine_wired (by decide) new accepted
  rcases wired 0 (by decide) with ⟨fails, -⟩ | ⟨t, ready, wired, -⟩
  · simp [CannotOpen] at fails
  · refine ⟨t, ready, ?_, ?_⟩
    · rw [wired.stdin]
      decide
    · rw [wired.stdout]
      decide

end CoreFromDust.User
