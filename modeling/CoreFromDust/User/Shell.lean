import CoreFromDust.Os.Fs.FdTable

/-!
# The shell

Embedding of `user/src/bin/user_shell.rs`: the arguments of a command, and what `main` does with a
line of commands up to the `exec` of the children. A process changes its own descriptors only, so
each of them runs on a table of its own. A `none` is a panic.
-/

namespace CoreFromDust.User

open CoreFromDust.Os.Fs

/-- `str::split` with a character. -/
def split (separator : Char) (s : String) : List String :=
  (s.toList.splitOn separator).map String.ofList

/-- An `alloc::string::String`: its text, and the address of its buffer. -/
structure HeapString where
  text : String
  ptr : Nat
  deriving DecidableEq, Repr

/-- `ProcessArguments`. Nobody takes the address of `input` or `output`. -/
structure ProcessArguments where
  input : String
  output : String
  argsCopy : List HeapString
  argsAddr : List Nat
  deriving DecidableEq, Repr

namespace ProcessArguments

/-- The two redirections of `ProcessArguments::new`: find the sign, clone the string after it, and
drain both. -/
def redirect (sign : String) (argsCopy : List HeapString) : Option (String × List HeapString) :=
  match argsCopy.findIdx? fun arg => arg.text == sign with
  | none => some ("", argsCopy)
  | some idx => argsCopy[idx + 1]?.map fun file =>
      (file.text, argsCopy.take idx ++ argsCopy.drop (idx + 2))

/-- `ProcessArguments::new`; `place i` is where the buffer of the string of argument `i` is. -/
def new (place : Nat → Nat) (command : String) : Option ProcessArguments := do
  let args := split ' ' command
  let argsCopy := (args.filter fun arg => !arg.isEmpty).mapIdx fun i arg =>
    HeapString.mk (("" ++ arg).push '\x00') (place i)
  let (input, argsCopy) ← redirect "<\x00" argsCopy
  let (output, argsCopy) ← redirect ">\x00" argsCopy
  let argsAddr := argsCopy.map HeapString.ptr ++ [0]
  some ⟨input, output, argsCopy, argsAddr⟩

end ProcessArguments

/-- The variable `valid` of `main`, as it is when it is tested. -/
def valid (processArgumentsList : List ProcessArguments) : Bool :=
  let len := processArgumentsList.length
  (processArgumentsList.zipIdx.all fun (processArgs, i) =>
    if i = 0 then processArgs.output.isEmpty
    else if i = len - 1 then processArgs.input.isEmpty
    else processArgs.output.isEmpty && processArgs.input.isEmpty) || len == 1

/-- A user string as the kernel reads it: up to its NUL. -/
def cString (s : String) : String := String.ofList (s.toList.takeWhile (· ≠ '\x00'))

/-- The loop that creates the pipes, for pipes with the given buffers. -/
def createPipes : List Nat → FdTable → List (Nat × Nat) × FdTable
  | [], t => ([], t)
  | buffer :: buffers, t =>
      let (pipeFd, t) := sysPipe buffer t
      let (pipesFd, t) := createPipes buffers t
      (pipeFd :: pipesFd, t)

/-- The loops that close all pipe ends. -/
def closeEnds (pipesFd : List (Nat × Nat)) (t : FdTable) : FdTable :=
  pipesFd.foldl (fun t pipeFd => (sysClose (sysClose t pipeFd.1).2 pipeFd.2).2) t

/-- `close(target)` and `assert_eq!(dup(fd), target)`. -/
def attach (target fd : Nat) (t : FdTable) : Option FdTable :=
  let (newFd, t) := sysDup (sysClose t target).2 fd
  if newFd = (target : Int) then some t else none

/-- What has become of a child. -/
inductive Child where
  | exited (code : Int)
  /-- it comes to `exec` with this table -/
  | ready (t : FdTable)
  deriving DecidableEq

/-- The two redirections of a child: of descriptor `target` to the file of that path, if there is
one. -/
def redirectTo (openFile : String → OpenFlags → Option Nat) (target : Nat) (path : String)
    (flags : OpenFlags) (t : FdTable) : Option Child :=
  if path.isEmpty then some (.ready t)
  else do
    let (fd, t) ← sysOpen openFile (cString path) flags t
    if fd = -1 then some (.exited (-4))
    else do
      let t ← attach target fd.toNat t
      some (.ready (sysClose t fd.toNat).2)

/-- Going on unless the child has returned. -/
def Child.andThen (child : Child) (rest : FdTable → Option Child) : Option Child :=
  match child with
  | .exited code => some (.exited code)
  | .ready t => rest t

/-- The part of a child marked `receive input from the previous process`. -/
def receive (pipesFd : List (Nat × Nat)) (i : Nat) (t : FdTable) : Option FdTable :=
  if i > 0 then pipesFd[i - 1]?.bind fun pipeFd => attach 0 pipeFd.1 t else some t

/-- The part of a child marked `send output to the next process`. -/
def send (len : Nat) (pipesFd : List (Nat × Nat)) (i : Nat) (t : FdTable) : Option FdTable :=
  if i < len - 1 then pipesFd[i]?.bind fun pipeFd => attach 1 pipeFd.2 t else some t

/-- The branch of `main` for child `i` of `len`, up to `exec`. -/
def child (openFile : String → OpenFlags → Option Nat) (len : Nat) (pipesFd : List (Nat × Nat))
    (i : Nat) (processArgument : ProcessArguments) (t : FdTable) : Option Child := do
  -- redirect input
  let state ← redirectTo openFile 0 processArgument.input OpenFlags.rdonly t
  state.andThen fun t => do
  -- redirect output
  let state ← redirectTo openFile 1 processArgument.output (OpenFlags.create ||| OpenFlags.wronly) t
  state.andThen fun t => do
  let t ← receive pipesFd i t
  let t ← send len pipesFd i t
  -- close all pipe ends inherited from the parent process
  some (.ready (closeEnds pipesFd t))

/-- The branch of `main` for a valid line: the children, and the table of the shell after it closed
its pipe ends. `openFile i` is `open_file` as child `i` finds it, and `buffer j` the buffer of
pipe `j`. -/
def runLine (openFile : Nat → String → OpenFlags → Option Nat) (buffer : Nat → Nat)
    (processArgumentsList : List ProcessArguments) (t : FdTable) : List (Option Child) × FdTable :=
  let len := processArgumentsList.length
  let (pipesFd, t) := createPipes ((List.range (len - 1)).map buffer) t
  let children := processArgumentsList.zipIdx.map fun (processArgument, i) =>
    child (openFile i) len pipesFd i processArgument (forkTable t)
  (children, closeEnds pipesFd t)

/-- What `main` does with a line of commands; `none` is the message that it is invalid. -/
def execLine (openFile : Nat → String → OpenFlags → Option Nat) (buffer : Nat → Nat)
    (processArgumentsList : List ProcessArguments) (t : FdTable) :
    Option (List (Option Child) × FdTable) :=
  if valid processArgumentsList then some (runLine openFile buffer processArgumentsList t) else none

end CoreFromDust.User
