import CoreFromDust.Os.Fs.FileCalls

/-!
# The packer

Embedding of `easy_fs_pack` of `easy-fs-fuse/src/main.rs`: it formats `fs.img` and copies the apps
into it. The kernel that is started on the image has a file for each app, with the bytes of the app.
-/

namespace CoreFromDust.Fuse

open CoreFromDust.Lib CoreFromDust.Lib.CellProg CoreFromDust.EasyFs CoreFromDust.Os.Fs

/-- The name of an app: what stands before the first dot of the name of its source. -/
def appName (nameWithExt : String) : Option String :=
  if '.' ∈ nameWithExt.toList then some (String.ofList (nameWithExt.toList.takeWhile (· ≠ '.')))
  else none

/-- One round of the loop of `easy_fs_pack`. -/
def packApp (efs : EasyFileSystem) (app : String) (allData : List UInt8) : FsProg Unit := do
  let created ← (Inode.root efs).create efs app
  match created with
  | some inode => do
      let _ ← inode.writeAt efs 0 allData
      pure ()
  | none => panic

/-- `easy_fs_pack`, with the names in the source directory and the files of the target directory. -/
def easyFsPack (sources : List String) (target : String → Option (List UInt8)) : FsProg Unit := do
  let efs ← EasyFileSystem.create (16 * 2048) 1
  match sources.mapM appName with
  | some apps =>
      forEach (fun app => match target app with
        | some allData => packApp efs app allData
        | none => panic) apps
  | none => panic

/-- The apps with their bytes. -/
def appFiles (sources : List String) (target : String → Option (List UInt8)) : Option Store :=
  (sources.mapM appName).bind fun apps => apps.mapM fun app =>
  (target app).map fun data => (app, data)

/-! ## Room -/

section Room

variable {g : Geometry} {store rest : Store} {name : String} {bytes : List UInt8}

/-- A part of a store takes no more blocks. -/
theorem blocks_le_append : store.blocks ≤ Store.blocks (store ++ rest) := by
  unfold Store.blocks
  rw [List.length_append, List.map_append, List.sum_append]
  have directory :=
    fileBlocks_mono (show 32 * store.length ≤ 32 * (store.length + rest.length) by omega)
  omega

theorem fits_of_append (fits : Store.Fits g (store ++ rest)) : Store.Fits g store := by
  obtain ⟨inodes, directory, small, blocks⟩ := fits
  rw [List.length_append] at inodes directory
  exact ⟨by omega, by omega, fun p mem => small p (List.mem_append_left _ mem),
    blocks_le_append.trans blocks⟩

/-- There is room for a file before its bytes are written. -/
theorem fits_empty (fits : Store.Fits g (store ++ [(name, bytes)])) :
    Store.Fits g (store ++ [(name, [])]) := by
  obtain ⟨inodes, directory, small, blocks⟩ := fits
  rw [List.length_append, List.length_singleton] at inodes directory
  refine ⟨?_, ?_, ?_, ?_⟩
  · rwa [List.length_append, List.length_singleton]
  · rwa [List.length_append, List.length_singleton]
  · intro p mem
    rcases List.mem_append.mp mem with old | new
    · exact small p (List.mem_append_left _ old)
    · rw [List.mem_singleton.mp new]
      exact Nat.zero_le _
  · have before := Store.blocks_append store name []
    have after := Store.blocks_append store name bytes
    have none : fileBlocks ([] : List UInt8).length = 0 := rfl
    omega

end Room

/-! ## The image -/

section Image

variable {g : Geometry} {size : Nat} {efs : EasyFileSystem} {created : List (String × Inode)}
  {entries : List DirEntry} {s : CacheState Block}

/-- One app is packed. -/
theorem packApp_run (inv : FsInv g size efs created entries s)
    (short : ∀ p ∈ created, ShortName p.1)
    (names : (created.map Prod.fst).Nodup) {app : String} (shortApp : ShortName app)
    (fresh : app ∉ created.map Prod.fst) {data : List UInt8}
    (fits : Store.Fits g (shown created s.view ++ [(app, data)])) :
    ∃ file entry s', run (machine size) (packApp efs app data) s = some ((), s') ∧
      FsInv g size efs (created ++ [(app, file)]) (entries ++ [entry]) s' ∧
      shown (created ++ [(app, file)]) s'.view = shown created s.view ++ [(app, data)] := by
  have absent : created.lookup app = none := by
    rw [List.lookup_eq_none_iff]
    intro p mem
    have differ : app ≠ p.1 := by
      rintro rfl
      exact fresh (List.mem_map_of_mem mem)
    simpa using differ
  obtain ⟨r, found, mapped⟩ := (inv.decoded short).scan_eq app
  rw [absent, Option.map_eq_none_iff] at mapped
  subst mapped
  obtain ⟨entry, encoded⟩ := shortApp.encodes (UInt32.ofNat (entries.length + 1))
  obtain ⟨mid, ran, invMid, empty, others⟩ :=
    inv.create_new found (canCreate_of_fits inv (fits_empty fits)) encoded
  generalize Inode.ofId efs (UInt32.ofNat (entries.length + 1)) = file at ran invMid empty
  have shownMid :
      shown (created ++ [(app, file)]) mid.view = shown created s.view ++ [(app, [])] := by
    rw [shown, List.map_append, List.map_singleton, empty]
    refine congrArg (· ++ _) (List.map_congr_left fun p mem => ?_)
    rw [others p.2 (List.mem_map_of_mem mem)]
  have namesMid : ((created ++ [(app, file)]).map Prod.fst).Nodup := by
    simpa using names.concat fresh
  have isFile : (created ++ [(app, file)]).lookup app = some file := by
    rw [List.lookup_append, absent]
    simp
  have putLast : (shown (created ++ [(app, file)]) mid.view).put app data =
      shown created s.view ++ [(app, data)] := by
    rw [shownMid, Store.put, List.map_append, List.map_singleton, if_pos rfl]
    refine congrArg (· ++ _) (Store.put_of_not_mem data ?_)
    rwa [shown, List.map_map]
  have written : Spec.write (file.contents mid.view) 0 data = data := by
    rw [empty]
    exact Spec.write_end [] data
  have can : CanWrite g file 0 data.length mid.view := by
    refine canWrite_of_fits invMid namesMid isFile ?_
    rwa [written, putLast]
  obtain ⟨last, ran', invLast, contents, rest⟩ :=
    invMid.writeAt (lookup_mem isFile) 0 data can
  refine ⟨file, entry, last, ?_, invLast, ?_⟩
  · rw [packApp, run_do ran]
    simp only
    rw [run_do ran', run_pure]
  · rw [shown_put namesMid invMid.inodes_nodup isFile rest, contents, written, putLast]

/-- The loop of `easy_fs_pack`. -/
theorem packApps_run (target : String → Option (List UInt8)) {apps : List String} {files : Store}
    (isFiles : (apps.mapM fun app => (target app).map fun data => (app, data)) = some files)
    (inv : FsInv g size efs created entries s) (short : ∀ p ∈ created, ShortName p.1)
    (names : ((shown created s.view ++ files).map Prod.fst).Nodup)
    (shortApps : ∀ p ∈ files, ShortName p.1) (fits : Store.Fits g (shown created s.view ++ files)) :
    ∃ created' entries' s', run (machine size) (forEach (fun app => match target app with
        | some allData => packApp efs app allData
        | none => panic) apps) s = some ((), s') ∧
      FsInv g size efs created' entries' s' ∧
        shown created' s'.view = shown created s.view ++ files := by
  induction apps generalizing created entries s files with
  | nil =>
      obtain rfl := Option.some.inj isFiles
      exact ⟨created, entries, s, rfl, inv, (List.append_nil _).symm⟩
  | cons app apps ih =>
      rw [List.mapM_cons] at isFiles
      obtain ⟨first, isFirst, isFiles⟩ := Option.bind_eq_some_iff.mp isFiles
      obtain ⟨rest, isRest, isFiles⟩ := Option.bind_eq_some_iff.mp isFiles
      obtain rfl := Option.some.inj isFiles
      obtain ⟨data, isData, rfl⟩ := Option.map_eq_some_iff.mp isFirst
      have split : shown created s.view ++ (app, data) :: rest =
          (shown created s.view ++ [(app, data)]) ++ rest := by simp
      have shownNames : (shown created s.view).map Prod.fst = created.map Prod.fst := by
        rw [shown, List.map_map]
        rfl
      rw [split] at names fits
      have before : ((shown created s.view ++ [(app, data)]).map Prod.fst).Nodup := by
        rw [List.map_append] at names
        exact (List.nodup_append.mp names).1
      rw [List.map_append, shownNames, List.map_singleton] at before
      obtain ⟨namesCreated, -, apart⟩ := List.nodup_append.mp before
      have fresh : app ∉ created.map Prod.fst := fun mem =>
        apart _ mem _ (List.mem_singleton_self _) rfl
      obtain ⟨file, entry, mid, ran, invMid, shownMid⟩ := packApp_run inv short namesCreated
        (shortApps _ List.mem_cons_self) fresh (fits_of_append fits)
      rw [← shownMid] at names fits
      have shortMid : ∀ p ∈ created ++ [(app, file)], ShortName p.1 := by
        intro p mem
        rcases List.mem_append.mp mem with old | new
        · exact short p old
        · rw [List.mem_singleton.mp new]
          exact shortApps _ List.mem_cons_self
      obtain ⟨created', entries', last, ran', invLast, shownLast⟩ := ih isRest invMid shortMid names
        (fun p mem => shortApps p (List.mem_cons_of_mem _ mem)) fits
      refine ⟨created', entries', last, ?_, invLast, ?_⟩
      · rw [forEach]
        simp only [isData]
        rw [run_do ran, ran']
      · rw [shownLast, shownMid, split]

end Image

/-- The image that `easy_fs_pack` writes. -/
theorem easyFsPack_run (device : Cells) {sources : List String}
    {target : String → Option (List UInt8)}
    {files : Store} (isFiles : appFiles sources target = some files)
    (short : ∀ p ∈ files, ShortName p.1) (names : (files.map Prod.fst).Nodup)
    (fits : Store.Fits fuseGeometry files) :
    ∃ created entries s,
    run (machine 32768) (easyFsPack sources target) (.fresh device) = some ((), s) ∧
      FsInv fuseGeometry 32768 fuseGeometry.efs created entries s ∧
      shown created s.view = files := by
  obtain ⟨apps, isApps, isFiles⟩ := Option.bind_eq_some_iff.mp isFiles
  have rel : CacheRel 32768 ⟨device, []⟩ (CacheState.fresh device) := CacheRel.fresh device
  have idle : Idle fuseGeometry 32768 15 (⟨device, []⟩ : CellArray Block) :=
    ⟨by decide, by decide, rfl⟩
  obtain ⟨_, _, s, ran, -, -, rfl, -⟩ := rel.run_of_wp (createFs_wp idle (by decide))
  obtain ⟨created, entries, last, ran', inv, isStore⟩ :=
    packApps_run target isFiles (FsInv.start ran) (by simp) names short fits
  refine ⟨created, entries, last, ?_, inv, isStore⟩
  have start : run (machine 32768) (EasyFileSystem.create (16 * 2048) 1) (.fresh device) =
      some (fuseGeometry.efs, s) := ran
  rw [easyFsPack, run_do start, isApps, ran']

/-- The apps are in the image: the kernel that is started on it lists them, reads each to its last
byte, and answers all file calls, however often it is started, as the store of the apps does. -/
theorem packed_apps_boot (device : Cells) {sources : List String}
    {target : String → Option (List UInt8)} {files : Store}
    (isFiles : appFiles sources target = some files)
    (short : ∀ p ∈ files, ShortName p.1) (names : (files.map Prod.fst).Nodup)
    (fits : Store.Fits fuseGeometry files) :
    ∃ s efs k, run (machine 32768) (easyFsPack sources target) (.fresh device) = some ((), s) ∧
      FileState.boot 32768 s.device = some (efs, k) ∧
      outcome 32768 (Inode.root efs).ls k.cache = some (files.map Prod.fst) ∧
      (∀ app data, (app, data) ∈ files → ∀ fuel, data.length < fuel → ∃ self s₁ self' s₂,
        run (machine 32768) (openFile efs app .rdonly) k.cache = some (some self, s₁) ∧
          run (machine 32768) (self.readAll fuel) s₁ = some ((data, self'), s₂)) ∧
      ∀ events results last, answers (NamedFiles.event fuseGeometry) (.mounted files) events =
          some (results, last) →
        ∃ k', answers (FileState.event 32768) (efs, k) events = some (results, k') := by
  obtain ⟨created, entries, s, packed, inv, isStore⟩ :=
    easyFsPack_run device isFiles short names fits
  have createdNames : created.map Prod.fst = files.map Prod.fst := by
    rw [← isStore, shown, List.map_map]
    rfl
  have shortCreated : ∀ p ∈ created, ShortName p.1 := by
    intro p mem
    have name : p.1 ∈ files.map Prod.fst := createdNames ▸ List.mem_map_of_mem mem
    obtain ⟨q, isFile, same⟩ := List.mem_map.mp name
    exact same ▸ short q isFile
  obtain ⟨k, booted, shows⟩ :=
    (ShowsAs.mounted inv shortCreated (createdNames ▸ names)).boot
  refine ⟨s, fuseGeometry.efs, k, packed, booted, ?_, fun app data mem fuel enough => ?_,
    fun events results last answered => ?_⟩
  · rw [shows.inv.ls_outcome, (shows.inv.decoded shows.short).entryNames_eq, createdNames]
  · have isStore' : files = shown created k.cache.view := isStore ▸ shows.store
    rw [isStore'] at mem
    obtain ⟨⟨name, file⟩, isFile, same⟩ := List.mem_map.mp mem
    obtain ⟨rfl, rfl⟩ := Prod.mk.inj same
    have found := lookup_of_mem shows.names isFile
    obtain ⟨s₁, _, s₂, opened, read, -⟩ :=
      readAll_found shows.inv shows.short shows.names found enough
    exact ⟨_, s₁, _, s₂, opened, read⟩
  · obtain ⟨k', ran, -⟩ := (event_refines fuseGeometry 32768 fuseGeometry.efs).answers
      (s := (fuseGeometry.efs, k)) ⟨rfl, created, entries, by rw [← isStore]; exact shows⟩ answered
    exact ⟨k', ran⟩

/-- Two apps. -/
def twoApps : String → Option (List UInt8)
  | "initproc" => some [127, 69, 76, 70]
  | "sh" => some []
  | _ => none

theorem packed_apps_boot_twoApps : ∃ s efs k self s₁ self' s₂,
    run (machine 32768) (easyFsPack ["initproc.rs", "sh.rs"] twoApps) (.fresh fun _ => Block.zero) =
      some ((), s) ∧
      FileState.boot 32768 s.device = some (efs, k) ∧
      outcome 32768 (Inode.root efs).ls k.cache = some ["initproc", "sh"] ∧
      run (machine 32768) (openFile efs "initproc" .rdonly) k.cache = some (some self, s₁) ∧
      run (machine 32768) (self.readAll 5) s₁ = some (([127, 69, 76, 70], self'), s₂) := by
  have isFiles : appFiles ["initproc.rs", "sh.rs"] twoApps =
      some [("initproc", [127, 69, 76, 70]), ("sh", [])] := by decide
  obtain ⟨s, efs, k, packed, booted, listed, reads, -⟩ :=
    packed_apps_boot (fun _ => Block.zero) isFiles (by decide) (by decide) (by decide)
  obtain ⟨self, s₁, self', s₂, opened, read⟩ :=
    reads "initproc" [127, 69, 76, 70] (by decide) 5 (by decide)
  exact ⟨s, efs, k, self, s₁, self', s₂, packed, booted, listed, opened, read⟩

end CoreFromDust.Fuse
