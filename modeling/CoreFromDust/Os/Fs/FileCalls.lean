import CoreFromDust.Lib.Answers
import CoreFromDust.EasyFs.Durability
import CoreFromDust.Os.Fs.NamedFiles
import CoreFromDust.Os.Fs.SplitCalls

/-!
# The file calls keep files under names

Whatever the processes do with their files, the calls give the answers that the store of named files
gives, as long as that has room: the file system behind the block cache, the `OSInode` values and
the `fd_table` of each process show its state. When the machine is started again, the store is what
it was.
-/

namespace CoreFromDust.Os.Fs

open CoreFromDust.Lib CoreFromDust.Lib.CellProg CoreFromDust.EasyFs DiskInode

/-! ## The store on the disk -/

/-- The store that a file system shows. -/
def shown (created : List (String × Inode)) (cells : Cells) : Store :=
  created.map fun p => (p.1, p.2.contents cells)

section Shown

variable {g : Geometry} {size : Nat} {efs : EasyFileSystem} {created : List (String × Inode)}
  {entries : List DirEntry} {s s' : CacheState Block} {name : String} {file : Inode}
  {cells cells' : Cells}

theorem shown_length : (shown created cells).length = created.length := List.length_map _

theorem lookup_shown (name : String) : (shown created cells).lookup name =
    (created.lookup name).map fun file => file.contents cells := by
  induction created with
  | nil => rfl
  | cons p created ih =>
      rw [shown, List.map_cons, List.lookup_cons, List.lookup_cons]
      cases name == p.1
      · exact ih
      · rfl

theorem mem_of_lookup (found : created.lookup name = some file) : (name, file) ∈ created := by
  obtain ⟨before, after, rfl, -⟩ := List.lookup_eq_some_iff.mp found
  simp

theorem lookup_of_mem (nodup : (created.map Prod.fst).Nodup) (mem : (name, file) ∈ created) :
    created.lookup name = some file := by
  cases found : created.lookup name with
  | none =>
      have absent := List.lookup_eq_none_iff.mp found _ mem
      simp at absent
  | some other =>
      have same := List.inj_on_of_nodup_map nodup (mem_of_lookup found) mem rfl
      rw [(Prod.mk.inj same).2]

theorem lookup_mem (found : created.lookup name = some file) : file ∈ created.map Prod.snd :=
  List.mem_map_of_mem (mem_of_lookup found)

/-- When one file changes, so does the store. -/
theorem shown_put (names : (created.map Prod.fst).Nodup) (inodes : (created.map Prod.snd).Nodup)
    (found : created.lookup name = some file)
    (others : ∀ other ∈ Inode.root efs :: created.map Prod.snd, other ≠ file →
      other.contents cells' = other.contents cells) :
    shown created cells' = (shown created cells).put name (file.contents cells') := by
  rw [shown, Store.put, shown, List.map_map]
  refine List.map_congr_left ?_
  rintro ⟨other, inode⟩ mem
  rw [Function.comp_apply]
  by_cases same : other = name
  · subst same
    rw [lookup_of_mem names mem, Option.some.injEq] at found
    rw [if_pos rfl, found]
  · rw [if_neg same]
    have differ : inode ≠ file := by
      rintro rfl
      have equal := List.inj_on_of_nodup_map inodes mem (mem_of_lookup found) rfl
      exact same (Prod.mk.inj equal).1
    have member : inode ∈ created.map Prod.snd := List.mem_map_of_mem mem
    rw [others inode (List.mem_cons_of_mem _ member) differ]

/-- A sum over the positions of a list is one over its elements. -/
theorem sum_range_length {α : Type} {l : List α} {f : α → Nat} {h : Nat → Nat}
    (each : ∀ i a, l[i]? = some a → h i = f a) :
    ∑ i ∈ Finset.range l.length, h i = (l.map f).sum := by
  induction l generalizing h with
  | nil => rfl
  | cons a l ih =>
      rw [List.length_cons, Finset.sum_range_succ', List.map_cons, List.sum_cons, each 0 a rfl,
        ih (h := fun i => h (i + 1)) fun i b found => each (i + 1) b found, Nat.add_comm]

/-- The free blocks are those that the store does not take. -/
theorem blocks_eq (inv : FsInv g size efs created entries s) :
    g.freeBlocks s.view + (shown created s.view).blocks = g.dataBlocks := by
  have counted := inv.dir.fs.own.dataBlocks_eq
  have root : (g.file s.view 0).length = 32 * entries.length := by
    rw [inv.dir.contents, length_dirBytes]
  have files : ∑ i ∈ Finset.range entries.length, ((g.inodeAt s.view (i + 1)).ids s.view).length =
      ((shown created s.view).map fun p => fileBlocks p.2.length).sum := by
    rw [shown, List.map_map, inv.len]
    refine sum_range_length fun i p found => ?_
    have below : i < created.length := (List.getElem?_eq_some_iff.mp found).1
    rw [← inv.len] at below
    rw [inv.dir.fs.length_ids (by omega), Function.comp_apply, inv.inodes i p found,
      inv.contents_ofId (by omega), fileBlocks]
  rw [Finset.sum_range_succ', inv.dir.fs.length_ids (Nat.succ_pos _), root, files] at counted
  rw [counted, Store.blocks, shown_length, ← inv.len]
  unfold fileBlocks
  omega

/-- Room for one more file. -/
theorem canCreate_of_fits (inv : FsInv g size efs created entries s)
    (fits : Store.Fits g (shown created s.view ++ [(name, [])])) : CanCreate g s.view := by
  obtain ⟨inodes, root, -, blocks⟩ := fits
  have free := blocks_eq inv
  have length : (shown created s.view).length = entries.length := shown_length.trans inv.len.symm
  have added := Store.blocks_append (shown created s.view) name []
  rw [List.length_append, List.length_singleton] at inodes root
  rw [length] at inodes root added
  have rootLength : (g.file s.view 0).length = 32 * entries.length := by
    rw [inv.dir.contents, length_dirBytes]
  refine ⟨inv.dir.fs.freeInodes_pos (by omega), ?_, ?_⟩
  · rw [rootLength, direntSz]
    omega
  · rw [rootLength, direntSz, blocksNeeded, ← fileBlocks, ← fileBlocks, ← Nat.mul_add_one]
    have empty : fileBlocks ([] : List UInt8).length = 0 := rfl
    omega

/-- Room for a write. -/
theorem canWrite_of_fits (inv : FsInv g size efs created entries s)
    (names : (created.map Prod.fst).Nodup) (found : created.lookup name = some file) {offset : Nat}
    {data : List UInt8} (fits : Store.Fits g
      ((shown created s.view).put name (Spec.write (file.contents s.view) offset data))) :
    CanWrite g file offset data.length s.view := by
  obtain ⟨-, -, small, blocks⟩ := fits
  have free := blocks_eq inv
  have shownNames : ((shown created s.view).map Prod.fst).Nodup := by
    rw [shown, List.map_map]
    exact names
  have lookup : (shown created s.view).lookup name = some (file.contents s.view) := by
    rw [lookup_shown, found]
    rfl
  have changed := Store.blocks_put (Spec.write (file.contents s.view) offset data) shownNames lookup
  have small := small (name, Spec.write (file.contents s.view) offset data) (by
    refine List.mem_map.mpr ⟨(name, file.contents s.view), ?_, if_pos rfl⟩
    exact List.mem_map.mpr ⟨(name, file), mem_of_lookup found, rfl⟩)
  rw [Spec.length_write] at changed small
  refine ⟨small, ?_⟩
  rw [blocksNeeded, ← fileBlocks, ← fileBlocks]
  omega

/-! ## Opening -/

/-- `Inode::find` on the root looks up the name. -/
theorem find_lookup (inv : FsInv g size efs created entries s)
    (short : ∀ p ∈ created, ShortName p.1)
    (name : String) : ∃ s', run (machine size) ((Inode.root efs).find efs name) s =
      some (created.lookup name, s') ∧ s'.view = s.view ∧ FsInv g size efs created entries s' := by
  obtain ⟨r, found, mapped⟩ := (inv.decoded short).scan_eq name
  obtain ⟨s', ran, viewEq, inv'⟩ := inv.find found
  exact ⟨s', mapped ▸ ran, viewEq, inv'⟩

variable {flags : OpenFlags}

/-- `open_file` of a file that exists. -/
theorem openFile_found (flags : OpenFlags) (inv : FsInv g size efs created entries s)
    (short : ∀ p ∈ created, ShortName p.1) (names : (created.map Prod.fst).Nodup)
    (found : created.lookup name = some file) :
    ∃ s', run (machine size) (openFile efs name flags) s =
        some (some (.new flags.readWrite.1 flags.readWrite.2 file), s') ∧
      FsInv g size efs created entries s' ∧ shown created s'.view =
        if flags.contains .create || flags.contains .trunc then (shown created s.view).put name []
        else shown created s.view := by
  obtain ⟨mid, ran, viewEq, invMid⟩ := find_lookup inv short name
  rw [found] at ran
  obtain ⟨last, ran', invLast, empty, others⟩ := invMid.clear (lookup_mem found)
  have cleared : shown created last.view = (shown created s.view).put name [] := by
    rw [← viewEq, ← empty]
    exact shown_put names inv.inodes_nodup found others
  unfold openFile
  simp only
  by_cases creates : flags.contains .create = true
  · refine ⟨last, ?_, invLast, ?_⟩
    · rw [if_pos creates, run_do ran, run_do ran', run_pure]
    · rw [creates, Bool.true_or, if_pos rfl, cleared]
  · rw [Bool.not_eq_true] at creates
    simp only [creates, Bool.false_eq_true, if_false, Bool.false_or]
    rw [run_do ran]
    by_cases truncates : flags.contains .trunc = true
    · refine ⟨last, ?_, invLast, ?_⟩
      · simp only [truncates, if_true]
        rw [run_do ran', run_pure]
      · rw [truncates, if_pos rfl, cleared]
    · rw [Bool.not_eq_true] at truncates
      refine ⟨mid, ?_, invMid, ?_⟩
      · simp only [truncates, Bool.false_eq_true, if_false]
        rfl
      · rw [truncates, if_neg (by simp), viewEq]

/-- `open_file` creates a file that does not exist. -/
theorem openFile_create (inv : FsInv g size efs created entries s)
    (short : ∀ p ∈ created, ShortName p.1) (absent : created.lookup name = none)
    (creates : flags.contains .create = true) (shortName : ShortName name)
    (fits : Store.Fits g (shown created s.view ++ [(name, [])])) :
    ∃ file entry s', run (machine size) (openFile efs name flags) s =
        some (some (.new flags.readWrite.1 flags.readWrite.2 file), s') ∧
      FsInv g size efs (created ++ [(name, file)]) (entries ++ [entry]) s' ∧
      shown (created ++ [(name, file)]) s'.view = shown created s.view ++ [(name, [])] := by
  obtain ⟨mid, ran, viewEq, invMid⟩ := find_lookup inv short name
  rw [absent] at ran
  rw [← viewEq] at fits
  obtain ⟨r, found, mapped⟩ := (invMid.decoded short).scan_eq name
  rw [absent, Option.map_eq_none_iff] at mapped
  subst mapped
  obtain ⟨entry, encoded⟩ := shortName.encodes (UInt32.ofNat (entries.length + 1))
  obtain ⟨last, ran', invLast, empty, others⟩ :=
    invMid.create_new found (canCreate_of_fits invMid fits) encoded
  refine ⟨_, entry, last, ?_, invLast, ?_⟩
  · unfold openFile
    simp only
    rw [if_pos creates, run_do ran, run_do ran', run_pure, Option.map_some]
  · rw [shown, List.map_append, List.map_singleton, empty, ← viewEq]
    refine congrArg (· ++ _) (List.map_congr_left fun p mem => ?_)
    rw [others p.2 (List.mem_map_of_mem mem)]

/-- `open_file` of a file that does not exist and is not to be created. -/
theorem openFile_absent (inv : FsInv g size efs created entries s)
    (short : ∀ p ∈ created, ShortName p.1) (absent : created.lookup name = none)
    (creates : flags.contains .create = false) :
    ∃ s', run (machine size) (openFile efs name flags) s = some (none, s') ∧
      FsInv g size efs created entries s' ∧ s'.view = s.view := by
  obtain ⟨mid, ran, viewEq, invMid⟩ := find_lookup inv short name
  rw [absent] at ran
  refine ⟨mid, ?_, invMid, viewEq⟩
  unfold openFile
  simp only
  rw [if_neg (by simp [creates]), run_do ran]
  rfl

/-- `open_file` for reading and then `read_all` give the whole file. -/
theorem readAll_found (inv : FsInv g size efs created entries s)
    (short : ∀ p ∈ created, ShortName p.1)
    (names : (created.map Prod.fst).Nodup) (found : created.lookup name = some file) {fuel : Nat}
    (enough : (file.contents s.view).length < fuel) :
    ∃ s₁ self' s₂, run (machine size) (openFile efs name .rdonly) s =
        some (some (.new true false file), s₁) ∧
      run (machine size) ((OSInode.new true false file).readAll fuel) s₁ =
        some ((file.contents s.view, self'), s₂) ∧
      FsInv g size efs created entries s₂ ∧ shown created s₂.view = shown created s.view := by
  obtain ⟨s₁, opened, inv₁, shown₁⟩ := openFile_found .rdonly inv short names found
  rw [if_neg (by decide)] at shown₁
  have contents : file.contents s₁.view = file.contents s.view := by
    have same := congrArg (fun store : Store => store.lookup name) shown₁
    simp only [lookup_shown, found, Option.map_some, Option.some.injEq] at same
    exact same
  rw [← contents] at enough ⊢
  obtain ⟨s₂, read, inv₂, viewEq⟩ := (OSInode.new true false file).readAllLoop_run inv₁
    (lookup_mem found) fuel (List.replicate 512 0) [] List.length_replicate enough
  exact ⟨s₁, _, s₂, opened, read, inv₂, by rw [viewEq, shown₁]⟩

end Shown

/-! ## The calls -/

/-- An `OSInode` is the open file. -/
structure SameFile (created : List (String × Inode)) (o : Opened) (file : OSInode) : Prop where
  readable : file.readable = o.readable
  writable : file.writable = o.writable
  offset : file.offset = o.offset
  inode : created.lookup o.name = some file.inode

/-- The kernel shows the store of files, for these names and entries of the directory. -/
structure ShowsAs (g : Geometry) (size : Nat) (efs : EasyFileSystem)
    (created : List (String × Inode))
    (entries : List DirEntry) (a : NamedFiles) (k : FileState) : Prop where
  inv : FsInv g size efs created entries k.cache
  short : ∀ p ∈ created, ShortName p.1
  names : (created.map Prod.fst).Nodup
  store : a.store = shown created k.cache.view
  opened : ∀ addr, Option.Rel (SameFile created) (a.opened addr) (k.osInodes addr)
  next : a.nextOpened = k.nextOSInode
  tables : a.fdTables = k.fdTables

/-- The kernel shows the store of files. -/
def Shows (g : Geometry) (size : Nat) (efs : EasyFileSystem) (a : NamedFiles)
    (k : FileState) : Prop :=
  ∃ created entries, ShowsAs g size efs created entries a k

namespace ShowsAs

variable {g : Geometry} {size : Nat} {efs : EasyFileSystem} {created : List (String × Inode)}
  {entries : List DirEntry} {a : NamedFiles} {k : FileState} {p : Nat} {cache : CacheState Block}

theorem setTable (shows : ShowsAs g size efs created entries a k) (p : Nat) (t : FdTable) :
    ShowsAs g size efs created entries (a.setTable p t) (k.setTable p t) :=
  ⟨shows.inv, shows.short, shows.names, shows.store, shows.opened, shows.next, by
    rw [NamedFiles.setTable, FileState.setTable, shows.tables]⟩

/-- The open file behind an address. -/
theorem opened_cases (shows : ShowsAs g size efs created entries a k) (addr : Nat) :
    (a.opened addr = none ∧ k.osInodes addr = none) ∨
      ∃ o self, a.opened addr = some o ∧ k.osInodes addr = some self ∧ SameFile created o self := by
  have related := shows.opened addr
  cases isOpened : a.opened addr with
  | none =>
      rw [isOpened] at related
      cases isInode : k.osInodes addr with
      | none => exact .inl ⟨rfl, rfl⟩
      | some self =>
          rw [isInode] at related
          cases related
  | some o =>
      rw [isOpened] at related
      cases isInode : k.osInodes addr with
      | none =>
          rw [isInode] at related
          cases related
      | some self =>
          rw [isInode] at related
          cases related with
          | some same => exact .inr ⟨o, self, rfl, rfl, same⟩

theorem readable_eq (shows : ShowsAs g size efs created entries a k) (file : DynFile) :
    k.readable file = a.readable file := by
  unfold FileState.readable NamedFiles.readable
  congr 1
  funext addr
  rcases shows.opened_cases addr with ⟨absent, absent'⟩ | ⟨o, self, isOpened, isInode, same⟩
  · rw [absent, absent']
    rfl
  · rw [isOpened, isInode]
    exact same.readable

theorem writable_eq (shows : ShowsAs g size efs created entries a k) (file : DynFile) :
    k.writable file = a.writable file := by
  unfold FileState.writable NamedFiles.writable
  congr 1
  funext addr
  rcases shows.opened_cases addr with ⟨absent, absent'⟩ | ⟨o, self, isOpened, isInode, same⟩
  · rw [absent, absent']
    rfl
  · rw [isOpened, isInode]
    exact same.writable

/-- An open file gets another state, and the store another content. -/
theorem setOpened (shows : ShowsAs g size efs created entries a k)
    {created' : List (String × Inode)}
    {entries' : List DirEntry} {store : Store} (addr : Nat) {o : Opened} {self : OSInode}
    (inv : FsInv g size efs created' entries' cache) (short : ∀ p ∈ created', ShortName p.1)
    (names : (created'.map Prod.fst).Nodup) (isStore : store = shown created' cache.view)
    (more : ∀ name file, created.lookup name = some file → created'.lookup name = some file)
    (same : SameFile created' o self) :
    ShowsAs g size efs created' entries' (a.setOpened store addr o)
    (k.setOSInode cache addr self) := by
  refine ⟨inv, short, names, isStore, fun other => ?_, shows.next, shows.tables⟩
  simp only [NamedFiles.setOpened, FileState.setOSInode]
  by_cases isAddr : other = addr
  · subst isAddr
    rw [Function.update_self, Function.update_self]
    exact .some same
  · rw [Function.update_of_ne isAddr, Function.update_of_ne isAddr]
    rcases shows.opened_cases other with ⟨absent, absent'⟩ | ⟨o', self', isOpened, isInode, same'⟩
    · rw [absent, absent']
      exact .none
    · rw [isOpened, isInode]
      exact .some ⟨same'.readable, same'.writable, same'.offset, more _ _ same'.inode⟩

/-- A file that has been opened gets a descriptor. -/
theorem install (shows : ShowsAs g size efs created entries a k) {created' : List (String × Inode)}
    {entries' : List DirEntry} {store : Store} {name : String} {file : Inode} {flags : OpenFlags}
    (inv : FsInv g size efs created' entries' cache) (short : ∀ p ∈ created', ShortName p.1)
    (names : (created'.map Prod.fst).Nodup) (isStore : store = shown created' cache.view)
    (more : ∀ name file, created.lookup name = some file → created'.lookup name = some file)
    (found : created'.lookup name = some file)
    (ran : run (machine size) (openFile efs name flags) k.cache =
      some (some (.new flags.readWrite.1 flags.readWrite.2 file), cache))
    {path : UInt32} (isFlags : OpenFlags.fromBits path = some flags) :
    ∃ k', k.sysOpen size efs p name path = some ((a.install p store name flags).1, k') ∧
      ShowsAs g size efs created' entries' (a.install p store name flags).2 k' := by
  have same : SameFile created' ⟨flags.readWrite.1, flags.readWrite.2, 0, name⟩
      (.new flags.readWrite.1 flags.readWrite.2 file) := ⟨rfl, rfl, rfl, found⟩
  refine ⟨{ (k.setOSInode cache k.nextOSInode
      (.new flags.readWrite.1 flags.readWrite.2 file)).setTable p
      (Fs.install (k.fdTables p) (.inode k.nextOSInode)).2 with
    nextOSInode := k.nextOSInode + 1 }, ?_, ?_⟩
  · rw [FileState.sysOpen, isFlags, Option.bind_some, ran, Option.map_some]
    simp only [NamedFiles.install, shows.tables, shows.next]
  · have shown := (shows.setOpened k.nextOSInode inv short names isStore more same).setTable p
      (Fs.install (k.fdTables p) (.inode k.nextOSInode)).2
    simp only [NamedFiles.install, shows.tables, shows.next]
    exact ⟨shown.inv, shown.short, shown.names, shown.store, shown.opened, rfl, shown.tables⟩

/-- `sys_open`. -/
theorem openNamed (shows : ShowsAs g size efs created entries a k) {name : String} {bits : UInt32}
    {r : FileResult} {a' : NamedFiles} (h : a.openNamed g p name bits = some (r, a')) :
    ∃ k', k.sysOpen size efs p name bits = some (r, k') ∧ Shows g size efs a' k' := by
  obtain ⟨flags, isFlags, h⟩ := Option.bind_eq_some_iff.mp h
  have lookup :
      a.store.lookup name = (created.lookup name).map fun file => file.contents k.cache.view := by
    rw [shows.store, lookup_shown]
  cases found : created.lookup name with
  | some file =>
      rw [lookup, found] at h
      simp only [Option.map_some, Option.some.injEq] at h
      obtain ⟨cache, ran, inv, isStore⟩ :=
        openFile_found flags shows.inv shows.short shows.names found
      rw [← shows.store] at isStore
      obtain ⟨k', opened, shows'⟩ := shows.install inv shows.short shows.names isStore.symm
        (fun _ _ same => same) found ran isFlags (p := p)
      rw [h] at opened shows'
      exact ⟨k', opened, created, entries, shows'⟩
  | none =>
      rw [lookup, found] at h
      simp only [Option.map_none] at h
      split at h
      · next creates =>
        split at h
        · next room =>
          obtain ⟨shortName, fits⟩ := room
          rw [shows.store] at fits
          obtain ⟨file, entry, cache, ran, inv, isStore⟩ :=
            openFile_create shows.inv shows.short found creates shortName fits
          have absent : name ∉ created.map Prod.fst := by
            intro mem
            obtain ⟨pair, isPair, rfl⟩ := List.mem_map.mp mem
            have missing := List.lookup_eq_none_iff.mp found pair isPair
            simp at missing
          have short : ∀ pair ∈ created ++ [(name, file)], ShortName pair.1 := by
            intro pair mem
            rcases List.mem_append.mp mem with old | new
            · exact shows.short pair old
            · rw [List.mem_singleton.mp new]
              exact shortName
          have names : ((created ++ [(name, file)]).map Prod.fst).Nodup := by
            simpa using shows.names.concat absent
          have more : ∀ other inode, created.lookup other = some inode →
              (created ++ [(name, file)]).lookup other = some inode := by
            intro other inode isFile
            rw [List.lookup_append, isFile]
            rfl
          have last : (created ++ [(name, file)]).lookup name = some file := by
            rw [List.lookup_append, found]
            simp
          rw [← shows.store] at isStore
          obtain ⟨k', opened, shows'⟩ :=
            shows.install inv short names isStore.symm more last ran isFlags (p := p)
          rw [Option.some.inj h] at opened shows'
          exact ⟨k', opened, _, _, shows'⟩
        · exact absurd h (by simp)
      · next creates =>
        obtain ⟨rfl, rfl⟩ := Prod.mk.inj (Option.some.inj h)
        rw [Bool.not_eq_true] at creates
        obtain ⟨cache, ran, inv, viewEq⟩ := openFile_absent shows.inv shows.short found creates
        refine ⟨{ k with cache := cache }, ?_, created, entries, inv, shows.short, shows.names, ?_,
          shows.opened, shows.next, shows.tables⟩
        · rw [FileState.sysOpen, isFlags, Option.bind_some, ran, Option.map_some]
        · rw [viewEq]
          exact shows.store

/-- `sys_exec`. -/
theorem exec (shows : ShowsAs g size efs created entries a k) (name : String) :
    ∃ k', k.sysExec size efs name =
        some ((a.store.lookup name).elim (.value (-1)) .program, k') ∧ Shows g size efs a k' := by
  rw [shows.store, lookup_shown]
  cases found : created.lookup name with
  | some file =>
      have enough : (file.contents k.cache.view).length < 2 ^ 32 := by
        rw [Inode.contents, length_contents]
        exact UInt32.toNat_lt _
      obtain ⟨s₁, self', s₂, opened, read, inv, isStore⟩ :=
        readAll_found shows.inv shows.short shows.names found enough
      refine ⟨{ k with cache := s₂ }, ?_, created, entries, inv, shows.short, shows.names, ?_,
        shows.opened, shows.next, shows.tables⟩
      · rw [FileState.sysExec, opened, Option.bind_some]
        simp only
        rw [read]
        rfl
      · rw [shows.store, isStore]
  | none =>
      have reading : OpenFlags.contains .rdonly .create = false := by decide
      obtain ⟨cache, ran, inv, viewEq⟩ := openFile_absent shows.inv shows.short found reading
      refine ⟨{ k with cache := cache }, ?_, created, entries, inv, shows.short, shows.names, ?_,
        shows.opened, shows.next, shows.tables⟩
      · rw [FileState.sysExec, ran, Option.bind_some]
        rfl
      · rw [shows.store, viewEq]

/-- A call on the file of a descriptor. -/
theorem onFile (shows : ShowsAs g size efs created entries a k) {fd : Nat}
    {may may' : DynFile → Bool} {act : OSInode → Option (FileResult × OSInode × CacheState Block)}
    {spec : Opened → Option (FileResult × Opened × Store)} (sameMay : may' = may)
    (acts : ∀ o file, SameFile created o file → ∀ r o' store, spec o = some (r, o', store) →
      ∃ file' cache, act file = some (r, file', cache) ∧ FsInv g size efs created entries cache ∧
        store = shown created cache.view ∧ SameFile created o' file')
    {r : FileResult} {a' : NamedFiles} (h : a.onFile p fd may spec = some (r, a')) :
    ∃ k', k.onFile p fd may' act = some (r, k') ∧ Shows g size efs a' k' := by
  subst sameMay
  -- in all cases but one, nothing happens
  have same : ∀ {x : FileResult}, some (x, a) = some (r, a') →
      ∃ k', some (x, k) = some (r, k') ∧ Shows g size efs a' k' := by
    intro x eq
    obtain ⟨rfl, rfl⟩ := Prod.mk.inj (Option.some.inj eq)
    exact ⟨k, rfl, created, entries, shows⟩
  unfold NamedFiles.onFile at h
  rw [shows.tables] at h
  unfold FileState.onFile
  split
  · next outside =>
    rw [FdTable.file_of_ge outside] at h
    exact same h
  · cases isOpen : (k.fdTables p).file fd with
    | none =>
        rw [isOpen] at h
        exact same h
    | some file =>
        rw [isOpen] at h
        simp only at h ⊢
        split at h
        · next isAllowed =>
          rw [if_pos isAllowed]
          cases file with
          | inode addr =>
              obtain ⟨o, isOpened, h⟩ := Option.bind_eq_some_iff.mp h
              obtain ⟨⟨x, o', store⟩, answered, h⟩ := Option.map_eq_some_iff.mp h
              obtain ⟨rfl, rfl⟩ := Prod.mk.inj h
              rcases shows.opened_cases addr with ⟨absent, -⟩ | ⟨_, f, isO, isInode, sameFile⟩
              · rw [absent] at isOpened
                exact absurd isOpened (by simp)
              · obtain rfl := Option.some.inj (isO.symm.trans isOpened)
                obtain ⟨f', cache, acted, inv, isStore, sameFile'⟩ :=
                  acts _ f sameFile x o' store answered
                refine ⟨k.setOSInode cache addr f', ?_, created, entries,
                  shows.setOpened addr inv shows.short shows.names isStore (fun _ _ found => found)
                    sameFile'⟩
                simp only [isInode, Option.bind_some, acted, Option.map_some]
          | stdin => exact same h
          | stdout => exact same h
          | pipeRead buffer => exact same h
          | pipeWrite buffer => exact same h
        · next notAllowed =>
          rw [if_neg notAllowed]
          exact same h

/-- `sys_read`. -/
theorem read (shows : ShowsAs g size efs created entries a k) {fd : Nat} {buf : UserSlices}
    {r : FileResult} {a' : NamedFiles} (h : a.read p fd buf.slices.flatten = some (r, a')) :
    ∃ k', k.sysRead size p fd buf = some (r, k') ∧ Shows g size efs a' k' := by
  refine shows.onFile (funext shows.readable_eq) (fun o file same x o' store answered => ?_) h
  obtain ⟨bytes, isBytes, answered⟩ := Option.map_eq_some_iff.mp answered
  simp only [Prod.mk.injEq] at answered
  obtain ⟨rfl, rfl, rfl⟩ := answered
  rw [shows.store, lookup_shown, same.inode, Option.map_some, Option.some.injEq] at isBytes
  subst isBytes
  obtain ⟨filled, cache, ran, inv, viewEq, flat, -⟩ := file.readLoop_run shows.inv
    (lookup_mem same.inode) 0 buf.slices buf.nonempty rfl
  rw [Nat.zero_add, same.offset] at ran
  rw [same.offset] at flat
  refine ⟨file.advance (Spec.read (file.inode.contents k.cache.view) o.offset
    buf.slices.flatten.length).length, cache, ?_, inv, by rw [viewEq, shows.store], same.readable,
    same.writable, ?_, same.inode⟩
  · rw [OSInode.read, ran, Option.map_some]
    simp only [flat, spliceAt, List.take_zero, List.nil_append, Nat.zero_add]
  · simp only [OSInode.advance, same.offset]

/-- `sys_write`. -/
theorem write (shows : ShowsAs g size efs created entries a k) {fd : Nat} {buf : UserSlices}
    {r : FileResult} {a' : NamedFiles} (h : a.write g p fd buf.slices.flatten = some (r, a')) :
    ∃ k', k.sysWrite size efs p fd buf = some (r, k') ∧ Shows g size efs a' k' := by
  refine shows.onFile (funext shows.writable_eq) (fun o file same x o' store answered => ?_) h
  obtain ⟨bytes, isBytes, answered⟩ := Option.bind_eq_some_iff.mp answered
  rw [shows.store, lookup_shown, same.inode, Option.map_some, Option.some.injEq] at isBytes
  subst isBytes
  by_cases fits : Store.Fits g (if buf.slices.flatten = [] then a.store
      else a.store.put o.name
      (Spec.write (file.inode.contents k.cache.view) o.offset buf.slices.flatten))
  · rw [if_pos fits, Option.some.injEq, Prod.mk.injEq, Prod.mk.injEq] at answered
    obtain ⟨rfl, rfl, rfl⟩ := answered
    by_cases empty : buf.slices.flatten = []
    · -- without a byte there is no slice
      have noSlice : buf.slices = [] := by
        rw [List.flatten_eq_nil_iff] at empty
        exact List.eq_nil_iff_forall_not_mem.mpr fun slice mem =>
          buf.nonempty slice mem (empty slice mem)
      refine ⟨file.advance 0, k.cache, ?_, shows.inv, ?_, same.readable, same.writable,
        ?_, same.inode⟩
      · rw [OSInode.write, noSlice]
        rfl
      · rw [if_pos empty, shows.store]
      · rw [empty]
        exact same.offset
    · rw [if_neg empty, shows.store] at fits
      have can := canWrite_of_fits shows.inv shows.names same.inode fits
      have some : buf.slices ≠ [] := by
        intro noSlice
        rw [noSlice] at empty
        exact empty rfl
      rw [← same.offset] at can ⊢
      obtain ⟨cache, ran, inv, contents, others⟩ :=
        file.writeLoop_run shows.inv (lookup_mem same.inode) 0 buf.slices (.inl some) can
      rw [Nat.zero_add] at ran
      refine ⟨file.advance buf.slices.flatten.length, cache, ?_, inv, ?_,
        same.readable, same.writable, rfl, same.inode⟩
      · rw [OSInode.write, ran, Option.map_some]
      · rw [if_neg empty, shows.store, ← contents]
        exact (shown_put shows.names shows.inv.inodes_nodup same.inode others).symm
  · rw [if_neg fits] at answered
    exact absurd answered (by simp)

/-- One call. -/
theorem call (shows : ShowsAs g size efs created entries a k) {call : FileCall} {r : FileResult}
    {a' : NamedFiles} (h : a.call g call = some (r, a')) :
    ∃ k', k.call size efs call = some (r, k') ∧ Shows g size efs a' k' := by
  -- a call that only changes a table
  have table : ∀ {x : FileResult} {p : Nat} {t : FdTable}, some (x, a.setTable p t) = some (r, a') →
      ∃ k', some (x, k.setTable p t) = some (r, k') ∧ Shows g size efs a' k' := by
    intro x p t eq
    obtain ⟨rfl, rfl⟩ := Prod.mk.inj (Option.some.inj eq)
    exact ⟨_, rfl, created, entries, shows.setTable p t⟩
  cases call with
  | new p => exact table h
  | fork p child =>
      simp only [NamedFiles.call, shows.tables] at h
      simp only [FileState.call, FdTable.forkTable_eq]
      exact table h
  | exit p => exact table h
  | exec p path =>
      obtain ⟨rfl, rfl⟩ := Prod.mk.inj (Option.some.inj h)
      exact shows.exec path
  | «open» p path flags => exact shows.openNamed h
  | close p fd =>
      simp only [NamedFiles.call, shows.tables] at h
      exact table h
  | dup p fd =>
      simp only [NamedFiles.call, shows.tables] at h
      exact table h
  | pipe p buffer =>
      simp only [NamedFiles.call, shows.tables] at h
      exact table h
  | read p fd buf => exact shows.read h
  | write p fd buf => exact shows.write h

/-- A mounted file system shows its files. -/
theorem mounted {s : CacheState Block} (inv : FsInv g size efs created entries s)
    (short : ∀ p ∈ created, ShortName p.1) (names : (created.map Prod.fst).Nodup) :
    ShowsAs g size efs created entries (.mounted (shown created s.view)) (.mounted s) :=
  ⟨inv, short, names, rfl, fun _ => .none, rfl, rfl⟩

/-- The machine is started again. -/
theorem boot (shows : ShowsAs g size efs created entries a k) :
    ∃ k', FileState.boot size k.cache.device = some (efs, k') ∧
      ShowsAs g size efs created entries (.mounted a.store) k' := by
  obtain ⟨t, ran, viewEq, inv⟩ := shows.inv.reopen
  refine ⟨.mounted t, by rw [FileState.boot, ran, Option.map_some], ?_⟩
  rw [shows.store, ← viewEq]
  exact mounted inv shows.short shows.names

end ShowsAs

/-- Event by event, the kernel refines the store. -/
theorem event_refines (g : Geometry) (size : Nat) (efs : EasyFileSystem) :
    Refines (fun a k => k.1 = efs ∧ Shows g size efs a k.2) (NamedFiles.event g)
      (FileState.event size) := by
  rintro a ⟨_, k⟩ event r a' ⟨rfl, created, entries, shows⟩ h
  cases event with
  | boot =>
      obtain ⟨rfl, rfl⟩ := Prod.mk.inj (Option.some.inj h)
      obtain ⟨k', booted, shows'⟩ := shows.boot
      exact ⟨(_, k'), by rw [FileState.event, booted, Option.map_some], rfl, _, _, shows'⟩
  | call c =>
      obtain ⟨k', called, shows'⟩ := shows.call h
      exact ⟨(_, k'), by rw [FileState.event, called, Option.map_some], rfl, shows'⟩

/-- From any state of a file system whose names are short, the file calls of all processes, with
starts of the machine between them, give the answers of the store of named files. -/
theorem fileCalls_refine_namedFiles {g : Geometry} {size : Nat} {efs : EasyFileSystem}
    {created : List (String × Inode)} {s : CacheState Block}
    (reach : Reachable g size efs created s)
    (short : ∀ p ∈ created, ShortName p.1) (events : List FileEvent) {results : List FileResult}
    {last : NamedFiles}
    (answered : answers (NamedFiles.event g) (.mounted (shown created s.view)) events =
      some (results, last)) :
    ∃ k, answers (FileState.event size) (efs, .mounted s) events = some (results, efs, k) ∧
      Shows g size efs last k := by
  obtain ⟨entries, inv⟩ := reach.inv
  obtain ⟨⟨_, k⟩, answered', rfl, shows⟩ :=
    (event_refines g size efs).answers (s := (efs, .mounted s))
    ⟨rfl, created, entries, .mounted inv short (reach.names_nodup short)⟩ answered
  exact ⟨k, answered', shows⟩

/-- A process creates a file and writes to it, opens it again, and shares that descriptor with its
child; the file is there after the machine was started again, and can be executed. -/
def shareAFile : List FileEvent :=
  [.call (.new 0), .call (.open 0 "a" 0x202), .call (.write 0 3 ⟨[[1, 2], [3]], by decide⟩),
    .call (.open 0 "a" 0), .call (.fork 0 1), .call (.read 1 4 ⟨[[0, 0]], by decide⟩),
    .call (.read 0 4 ⟨[[0], [0]], by decide⟩), .call (.write 0 4 ⟨[[9]], by decide⟩),
    .call (.close 1 4), .call (.read 1 4 ⟨[[0]], by decide⟩), .call (.open 1 "b" 0), .boot,
    .call (.new 0), .call (.open 0 "a" 0), .call (.read 0 3 ⟨[[0, 0, 0, 0]], by decide⟩),
    .call (.exec 0 "a"), .call (.exec 0 "b")]

theorem fileCalls_shareAFile : ∃ s k, Reachable fuseGeometry 32768 fuseGeometry.efs [] s ∧
    answers (FileState.event 32768) (fuseGeometry.efs, .mounted s) shareAFile =
      some ([.value 0, .value 3, .value 3, .value 4, .value 0, .bytes 2 [1, 2], .bytes 1 [3, 0],
        .value (-1), .value 0, .value (-1), .value (-1), .value 0, .value 0, .value 3,
        .bytes 3 [1, 2, 3, 0], .program [1, 2, 3], .value (-1)], fuseGeometry.efs, k) := by
  have large : fuseGeometry.total.toNat ≤ 32768 := by decide
  obtain ⟨s, reach⟩ := fuseGeometry.exists_reachable large (by decide) fun _ => Block.zero
  have spec : (answers (NamedFiles.event fuseGeometry) (.mounted []) shareAFile).map Prod.fst =
      some [.value 0, .value 3, .value 3, .value 4, .value 0, .bytes 2 [1, 2], .bytes 1 [3, 0],
        .value (-1), .value 0, .value (-1), .value (-1), .value 0, .value 0, .value 3,
        .bytes 3 [1, 2, 3, 0], .program [1, 2, 3], .value (-1)] := by decide
  obtain ⟨⟨results, last⟩, answered, rfl⟩ := Option.map_eq_some_iff.mp spec
  obtain ⟨k, ran, -⟩ := fileCalls_refine_namedFiles reach (by simp) shareAFile answered
  exact ⟨s, k, reach, ran⟩

end CoreFromDust.Os.Fs
