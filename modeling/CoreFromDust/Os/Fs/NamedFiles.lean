import CoreFromDust.EasyFs.Proofs.Capacity
import CoreFromDust.Os.Fs.OpenFiles

/-!
# Files under names

What the file calls are for. A store keeps strings of bytes under names, an open file is a name with
a position, and descriptors that were duplicated or inherited share the position. The store has as
much room as the disk has inodes and blocks.
-/

namespace CoreFromDust.Os.Fs

open CoreFromDust.EasyFs DiskInode

/-- The names with their files, in the order in which they were created. -/
abbrev Store := List (String × List UInt8)

/-- The blocks that a file of `n` bytes takes, with those of its pointers. -/
def fileBlocks (n : Nat) : Nat := blocksFor ((n + 511) / 512)

theorem fileBlocks_mono {m n : Nat} (le : m ≤ n) : fileBlocks m ≤ fileBlocks n :=
  blocksFor_mono (by omega)

namespace Store

/-- Other bytes under a name. -/
def put (store : Store) (name : String) (bytes : List UInt8) : Store :=
  store.map fun p => if p.1 = name then (p.1, bytes) else p

/-- The blocks that the files take, and those of the directory, which has 32 bytes for each name. -/
def blocks (store : Store) : Nat :=
  fileBlocks (32 * store.length) + (store.map fun p => fileBlocks p.2.length).sum

/-- A disk has an inode for each file and for the directory, and the blocks that they take; no file
is larger than the pointers of an inode reach. -/
def Fits (g : Geometry) (store : Store) : Prop :=
  store.length < g.inodes ∧ 32 * store.length ≤ maxSize ∧ (∀ p ∈ store, p.2.length ≤ maxSize) ∧
    store.blocks ≤ g.dataBlocks

instance (g : Geometry) (store : Store) : Decidable (store.Fits g) :=
  inferInstanceAs (Decidable (_ ∧ _ ∧ _ ∧ _))

variable {store : Store} {name : String} {bytes : List UInt8}

theorem put_length : (store.put name bytes).length = store.length := List.length_map _

theorem put_of_not_mem (bytes : List UInt8) (absent : name ∉ store.map Prod.fst) :
    store.put name bytes = store := by
  rw [put]
  refine (List.map_congr_left fun p mem => if_neg ?_).trans (List.map_id _)
  rintro rfl
  exact absent (List.mem_map_of_mem mem)

/-- The blocks of a store after one file has changed. -/
theorem blocks_put (bytes : List UInt8) (names : (store.map Prod.fst).Nodup) {old : List UInt8}
    (found : store.lookup name = some old) :
    (store.put name bytes).blocks + fileBlocks old.length =
    store.blocks + fileBlocks bytes.length := by
  have sums :
      ((store.put name bytes).map fun p => fileBlocks p.2.length).sum + fileBlocks old.length =
      (store.map fun p => fileBlocks p.2.length).sum + fileBlocks bytes.length := by
    induction store with
    | nil => exact absurd found (by simp)
    | cons p store ih =>
        obtain ⟨first, content⟩ := p
        obtain ⟨fresh, names⟩ := List.nodup_cons.mp names
        rw [List.lookup_cons] at found
        by_cases same : name = first
        · subst same
          simp only [beq_self_eq_true, Option.some.injEq] at found
          subst found
          have rest := put_of_not_mem bytes fresh
          rw [put] at rest ⊢
          simp only [List.map_cons, if_true, rest, List.sum_cons]
          omega
        · rw [beq_false_of_ne same] at found
          have rest := ih names found
          rw [put] at rest ⊢
          simp only [List.map_cons, if_neg (Ne.symm same), List.sum_cons]
          omega
  unfold blocks
  rw [put_length]
  omega

/-- A file that is added to a store takes blocks, and an entry of the directory. -/
theorem blocks_append (store : Store) (name : String) (bytes : List UInt8) :
    (store ++ [(name, bytes)]).blocks + fileBlocks (32 * store.length) =
    store.blocks + fileBlocks (32 * (store.length + 1)) + fileBlocks bytes.length := by
  unfold blocks
  simp only [List.length_append, List.length_singleton, List.map_append, List.map_singleton,
    List.sum_append, List.sum_singleton]
  omega

end Store

/-- An open file. -/
structure Opened where
  readable : Bool
  writable : Bool
  offset : Nat
  name : String
  deriving DecidableEq, Repr

/-- The store, the open files with those that are not allocated from `nextOpened` on, and the
descriptors of each process. -/
structure NamedFiles where
  store : Store
  opened : Nat → Option Opened
  nextOpened : Nat
  fdTables : Nat → FdTable

namespace NamedFiles

variable (g : Geometry) (k : NamedFiles) (p : Nat)

/-- Other descriptors of a process. -/
def setTable (t : FdTable) : NamedFiles := { k with fdTables := Function.update k.fdTables p t }

/-- Another store, and another state of an open file. -/
def setOpened (store : Store) (addr : Nat) (o : Opened) : NamedFiles :=
  { k with store := store, opened := Function.update k.opened addr (some o) }

/-- The file can be read. -/
def readable (file : DynFile) : Bool :=
  file.readable fun addr => (k.opened addr).any Opened.readable

/-- The file can be written. -/
def writable (file : DynFile) : Bool :=
  file.writable fun addr => (k.opened addr).any Opened.writable

/-- A file is opened at its start, in a store; its descriptor is the result. -/
def install (store : Store) (name : String) (flags : OpenFlags) : FileResult × NamedFiles :=
  let o := ⟨flags.readWrite.1, flags.readWrite.2, 0, name⟩
  let (fd, t) := Fs.install (k.fdTables p) (.inode k.nextOpened)
  (.value fd,
    { (k.setOpened store k.nextOpened o).setTable p t with nextOpened := k.nextOpened + 1 })

/-- A file that exists is emptied if it is to be created or truncated; one that does not exist is
created if that is asked for. -/
def openNamed (name : String) (flags : UInt32) : Option (FileResult × NamedFiles) :=
  (OpenFlags.fromBits flags).bind fun flags =>
    match k.store.lookup name with
    | some _ =>
        some (k.install p
          (if flags.contains .create || flags.contains .trunc then k.store.put name [] else k.store)
          name flags)
    | none =>
        if flags.contains .create then
          if ShortName name ∧ Store.Fits g (k.store ++ [(name, [])]) then
            some (k.install p (k.store ++ [(name, [])]) name flags)
          else none
        else some (.value (-1), k)

/-- A descriptor that is not open, or not open for this, gives -1. -/
def onFile (fd : Nat) (may : DynFile → Bool) (act : Opened → Option (FileResult × Opened × Store)) :
    Option (FileResult × NamedFiles) :=
  match (k.fdTables p).file fd with
  | none => some (.value (-1), k)
  | some file =>
      if may file then
        match file with
        | .inode addr =>
            (k.opened addr).bind fun o =>
              (act o).map fun (r, o, store) => (r, k.setOpened store addr o)
        | _ => some (.elsewhere, k)
      else some (.value (-1), k)

/-- A read takes the bytes from the position on, as many as there are and as the buffer holds. -/
def read (fd : Nat) (buffer : List UInt8) : Option (FileResult × NamedFiles) :=
  k.onFile p fd k.readable fun o =>
    (k.store.lookup o.name).map fun bytes =>
      let got := Spec.read bytes o.offset buffer.length
      (.bytes got.length (got ++ buffer.drop got.length),
        { o with offset := o.offset + got.length }, k.store)

/-- A write of at least one byte puts the bytes at the position, behind as many zeros as are
missing. -/
def write (fd : Nat) (data : List UInt8) : Option (FileResult × NamedFiles) :=
  k.onFile p fd k.writable fun o =>
    (k.store.lookup o.name).bind fun bytes =>
      let store :=
        if data = [] then k.store else k.store.put o.name (Spec.write bytes o.offset data)
      if store.Fits g then
        some (.value data.length, { o with offset := o.offset + data.length }, store)
      else none

/-- One call; there is no answer where the code panics, and where the store has no room. -/
def call : FileCall → Option (FileResult × NamedFiles)
  | .new p => some (.value 0, k.setTable p [some .stdin, some .stdout, some .stdout])
  | .fork p child => some (.value 0, k.setTable child (k.fdTables p))
  | .exit p => some (.value 0, k.setTable p [])
  | .exec _ path => some ((k.store.lookup path).elim (.value (-1)) .program, k)
  | .open p path flags => k.openNamed g p path flags
  | .close p fd =>
      let (n, t) := sysClose (k.fdTables p) fd
      some (.value n, k.setTable p t)
  | .dup p fd =>
      let (n, t) := sysDup (k.fdTables p) fd
      some (.value n, k.setTable p t)
  | .pipe p buffer =>
      let ((readFd, writeFd), t) := sysPipe buffer (k.fdTables p)
      some (.pipe readFd writeFd, k.setTable p t)
  | .read p fd buf => k.read p fd buf.slices.flatten
  | .write p fd buf => k.write g p fd buf.slices.flatten

/-- The files before the first process. -/
def mounted (store : Store) : NamedFiles := ⟨store, fun _ => none, 0, fun _ => []⟩

/-- One event. Only the store outlasts a start of the machine. -/
def event : FileEvent → Option (FileResult × NamedFiles)
  | .boot => some (.value 0, mounted k.store)
  | .call c => k.call g c

end NamedFiles

end CoreFromDust.Os.Fs
