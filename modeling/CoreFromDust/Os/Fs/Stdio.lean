import CoreFromDust.Os.Mm.UserStrings

/-!
# The standard output

Embedding of `os/src/fs/stdio.rs` and of `sys_write` of `os/src/syscall/fs.rs`. `Stdout::write`
decodes each slice of its buffer alone, so a text is printed exactly when every page that begins
inside of it begins with a character; otherwise the kernel panics.
-/

namespace CoreFromDust.Os.Fs

open CoreFromDust.Os.Mm
open EasyFs (strBytes fromUtf8)

/-- The arguments of the calls of `console_putchar`. -/
abbrev Console := List Nat

/-- `console_putchar`. -/
def consolePutchar (console : Console) (c : Nat) : Console := console ++ [c]

/-- `write_str` of `os/src/console.rs`. -/
def writeStr (console : Console) (s : String) : Console :=
  s.toList.foldl (fun console c => consolePutchar console c.toNat) console

/-- The bytes of a slice. -/
def sliceBytes (m : Memory) (slice : Slice) : List UInt8 := slice.addresses.map m

/-- What `sys_write` uses of a `File`. `none` is a panic. -/
structure File where
  writable : Bool
  write : Memory → Mm.UserBuffer → Console → Option (Nat × Console)

/-- The loop of `Stdout::write` over the slices that are left; `unwrap` panics at a slice that is
not UTF-8. -/
def stdoutLoop (m : Memory) : List Slice → Console → Option Console
  | [], console => some console
  | buffer :: later, console =>
      (fromUtf8 (sliceBytes m buffer)).bind fun s => stdoutLoop m later (writeStr console s)

/-- `Stdout::write`. -/
def stdoutWrite (m : Memory) (buf : Mm.UserBuffer) (console : Console) : Option (Nat × Console) :=
  (stdoutLoop m buf.buffers console).map fun console => (buf.len, console)

/-- `Stdin`, whose `write` panics. -/
def stdin : File where
  writable := false
  write _ _ _ := none

/-- `Stdout`. -/
def stdout : File where
  writable := true
  write := stdoutWrite

/-- `as isize` of a `usize`. -/
def asIsize (n : Nat) : Int := if n < 2 ^ 63 then n else n - 2 ^ 64

/-- `sys_write`, with the `fd_table` of the process; it takes the fuel of
`translated_byte_buffer`. -/
def sysWrite (m : Memory) (token : Nat) (fdTable : List (Option File)) (fd buf len fuel : Nat)
    (console : Console) : Outcome (Int × Console) :=
  if fd ≥ fdTable.length then .returned (-1, console)
  else
    match fdTable[fd]? with
    | some (some file) =>
        if file.writable then
          match translatedByteBuffer m token buf len fuel with
          | .returned buffers =>
              match file.write m ⟨buffers⟩ console with
              | some (count, console) => .returned (asIsize count, console)
              | none => .panicked
          | .panicked => .panicked
          | .running => .running
        else .returned (-1, console)
    | _ => .returned (-1, console)

/-- The program has stored bytes at `ptr`, on its pages. -/
def BytesAt (t : PageTable) (m : Memory) (ptr : Nat) (bytes : List UInt8) : Prop :=
  ∀ i, i < bytes.length → t.UserByte m (ptr + i) ∧ t.load m (ptr + i) = bytes[i]?

/-- Every page that begins inside of the text begins with a character. -/
def PagesBetweenChars (ptr : Nat) (text : String) : Prop :=
  ∀ i, 0 < i → i < (strBytes text).length → (ptr + i) % 4096 = 0 →
    (⟨i⟩ : String.Pos.Raw).IsValid text

/-! ## Pieces of a text -/

section Pieces

variable {text : String}

theorem length_strBytes (text : String) : (strBytes text).length = text.rawEndPos.byteIdx := by
  rw [strBytes, Array.length_toList, ByteArray.size_data, String.size_toByteArray]
  rfl

theorem strBytes_fromUtf8 {bytes : List UInt8} {s : String} (decoded : fromUtf8 bytes = some s) :
    strBytes s = bytes := by
  rw [fromUtf8, String.fromUTF8?] at decoded
  split at decoded
  · rw [Option.some.injEq] at decoded
    subst decoded
    rfl
  · exact absurd decoded (by simp)

theorem strBytes_inj {s s' : String} (same : strBytes s = strBytes s') : s = s' := by
  have decoded := EasyFs.fromUtf8_strBytes s
  rw [same, EasyFs.fromUtf8_strBytes, Option.some.injEq] at decoded
  exact decoded.symm

theorem strBytes_append (s later : String) :
    strBytes (s ++ later) = strBytes s ++ strBytes later := by
  rw [strBytes_eq, strBytes_eq, strBytes_eq, String.toList_append, List.flatMap_append]

/-- The piece of a text from a character on is UTF-8 if and only if it ends before a character. -/
theorem fromUtf8_piece_iff {a n : Nat} (start : (⟨a⟩ : String.Pos.Raw).IsValid text)
    (nonempty : 0 < n) (within : a + n ≤ (strBytes text).length) :
    (∃ s, fromUtf8 (((strBytes text).drop a).take n) = some s) ↔
      (⟨a + n⟩ : String.Pos.Raw).IsValid text := by
  have bytes : (⟨(((strBytes text).drop a).take n).toArray⟩ : ByteArray) =
      text.toByteArray.extract a (a + n) := by
    apply ByteArray.ext
    rw [ByteArray.data_extract, ← Array.toList_inj, Array.toList_extract, List.extract_eq_take_drop,
      Nat.add_sub_cancel_left]
    rfl
  rw [length_strBytes] at within
  have piece := String.Pos.Raw.isValidUTF8_extract_iff (s := text) ⟨a⟩ ⟨a + n⟩
    (Nat.le_add_right a n) within
  have differ : (⟨a⟩ : String.Pos.Raw) ≠ ⟨a + n⟩ := by
    intro same
    have := congrArg String.Pos.Raw.byteIdx same
    simp only at this
    omega
  rw [fromUtf8, bytes, String.fromUTF8?]
  constructor
  · rintro ⟨s, decoded⟩
    split at decoded
    · next isValid => exact ((piece.mp isValid).resolve_left differ).2
    · exact absurd decoded (by simp)
  · intro stop
    rw [dif_pos (piece.mpr (.inr ⟨start, stop⟩))]
    exact ⟨_, rfl⟩

end Pieces

theorem writeStr_eq (console : Console) (s : String) :
    writeStr console s = console ++ s.toList.map Char.toNat := by
  have each : ∀ (cs : List Char) (console : Console),
      cs.foldl (fun console c => consolePutchar console c.toNat) console =
        console ++ cs.map Char.toNat := by
    intro cs
    induction cs with
    | nil => simp
    | cons c cs ih =>
        intro console
        rw [List.foldl_cons, ih, consolePutchar, List.append_assoc,
          List.singleton_append, List.map_cons]
  exact each s.toList console

/-! ## The loop -/

section Loop

variable {t : PageTable} {m : Memory} {ptr : Nat} {text : String}

/-- The slices of a stored text hold its bytes. -/
theorem sliceBytes_eq (stored : BytesAt t m ptr (strBytes text)) {a n : Nat} {pte : PageTableEntry}
    (within : a + n ≤ (strBytes text).length) (onPage : (ptr + a) % 4096 + n ≤ 4096)
    (found : t.lookup m (floor (virtAddr (ptr + a))) = some pte) :
    sliceBytes m ⟨pte.ppn, (ptr + a) % 4096, (ptr + a) % 4096 + n⟩ =
      ((strBytes text).drop a).take n := by
  have length : (sliceBytes m ⟨pte.ppn, (ptr + a) % 4096, (ptr + a) % 4096 + n⟩).length = n := by
    simp [sliceBytes, Slice.addresses, Slice.len]
  apply List.ext_getElem?
  intro j
  rcases Nat.lt_or_ge j n with inside | beyond
  · obtain ⟨isUser, isByte⟩ := stored (a + j) (by omega)
    have samePage : floor (virtAddr (ptr + (a + j))) = floor (virtAddr (ptr + a)) := by
      unfold floor virtAddr
      omega
    have offset : pageOffset (ptr + (a + j)) = (ptr + a) % 4096 + j := by
      unfold pageOffset
      omega
    rw [PageTable.load, PageTable.byteAt, if_pos isUser.1, samePage, found, offset, Option.map_some,
      Option.map_some] at isByte
    rw [List.getElem?_take_of_lt inside, List.getElem?_drop, ← isByte, sliceBytes, Slice.addresses,
      List.map_map, List.getElem?_map, List.getElem?_range (by simpa [Slice.len] using inside)]
    simp [Slice.address, Nat.add_assoc]
  · rw [List.getElem?_eq_none (by omega), List.getElem?_eq_none]
    rw [List.length_take]
    omega

/-- The loop of `Stdout::write` over the slices of the text from a character on. -/
theorem stdoutLoop_iff (stored : BytesAt t m ptr (strBytes text)) {a : Nat} {slices : List Slice}
    (cut : PageSlices t m (ptr + (strBytes text).length) (ptr + a) slices)
    (within : a ≤ (strBytes text).length) (start : (⟨a⟩ : String.Pos.Raw).IsValid text)
    (console : Console) :
    (∀ console', stdoutLoop m slices console = some console' →
      ∃ later, strBytes later = (strBytes text).drop a ∧ console' = writeStr console later) ∧
    ((∃ console', stdoutLoop m slices console = some console') ↔
      ∀ i, a < i → i < (strBytes text).length → (ptr + i) % 4096 = 0 →
        (⟨i⟩ : String.Pos.Raw).IsValid text) := by
  generalize isStart : ptr + a = first at cut
  induction cut generalizing a console with
  | done =>
      have atEnd : a = (strBytes text).length := by omega
      refine ⟨fun console' returned => ⟨"", ?_, ?_⟩, ⟨fun _ i => by omega, fun _ => ⟨console, rfl⟩⟩⟩
      · rw [atEnd, List.drop_length]
        rfl
      · rw [stdoutLoop, Option.some.injEq] at returned
        rw [← returned]
        rfl
  | @page first pte later below found _ ih =>
      subst isStart
      -- the slice ends at the end of its page or of the text
      obtain ⟨n, isRest⟩ : ∃ n, n = pageRest (ptr + a) (ptr + (strBytes text).length) := ⟨_, rfl⟩
      have bounds : 0 < n ∧ a + n ≤ (strBytes text).length ∧ (ptr + a) % 4096 + n ≤ 4096 ∧
          (a + n < (strBytes text).length → (ptr + (a + n)) % 4096 = 0) := by
        rw [isRest]
        unfold pageRest
        omega
      obtain ⟨nonempty, inText, onPage, atPage⟩ := bounds
      rw [← isRest] at ih ⊢
      have piece := sliceBytes_eq stored inText onPage found
      have decodes := fromUtf8_piece_iff start nonempty inText
      have inside : ∀ i, a < i → i < a + n → (ptr + i) % 4096 ≠ 0 := by
        intro i lower upper
        omega
      rw [stdoutLoop, piece]
      by_cases stop : (⟨a + n⟩ : String.Pos.Raw).IsValid text
      · obtain ⟨s, decoded⟩ := decodes.mpr stop
        obtain ⟨printed, returns⟩ := ih inText stop (writeStr console s) (Nat.add_assoc _ _ _).symm
        rw [decoded, Option.bind_some]
        refine ⟨fun console' returned => ?_, returns.trans ⟨fun later i lower upper onStart => ?_,
          fun all i lower upper => all i (by omega) upper⟩⟩
        · obtain ⟨later, bytes, rfl⟩ := printed console' returned
          refine ⟨s ++ later, ?_, ?_⟩
          · rw [strBytes_append, strBytes_fromUtf8 decoded, bytes, ← List.drop_drop,
              List.take_append_drop]
          · rw [writeStr_eq, writeStr_eq, writeStr_eq, String.toList_append, List.map_append,
              List.append_assoc]
        · rcases Nat.lt_trichotomy i (a + n) with before | rfl | after
          · exact absurd onStart (inside i lower before)
          · exact stop
          · exact later i after upper onStart
      · have fails : fromUtf8 (((strBytes text).drop a).take n) = none := by
          rw [Option.eq_none_iff_forall_ne_some]
          exact fun s decoded => stop (decodes.mp ⟨s, decoded⟩)
        have before : a + n < (strBytes text).length := by
          refine Nat.lt_of_le_of_ne inText fun last => stop ?_
          rw [last, length_strBytes]
          exact String.Pos.Raw.isValid_rawEndPos
        rw [fails, Option.bind_none]
        refine ⟨by simp, ⟨by simp, fun all => ?_⟩⟩
        exact absurd (all (a + n) (by omega) before (atPage before)) stop

/-- The slices of the text have as many bytes as it. -/
theorem PageSlices.len {stop start : Nat} {slices : List Slice}
    (cut : PageSlices t m stop start slices)
    (upTo : start ≤ stop) : Mm.UserBuffer.len ⟨slices⟩ = stop - start := by
  induction cut with
  | done => simp [Mm.UserBuffer.len]
  | @page start pte later below _ _ ih =>
      have bound : start + pageRest start stop ≤ stop := by
        unfold pageRest
        omega
      have rest := ih bound
      rw [Mm.UserBuffer.len] at rest
      rw [Mm.UserBuffer.len, List.map_cons, List.sum_cons, rest, Slice.len]
      simp only
      omega

end Loop

section Write

variable {l tramp ptr : Nat} {s : Phys} {set : MemorySet} {text : String}

theorem lookup_fromToken (wf : set.Wf l tramp s) (m : Memory) (vpn : Nat) :
    (PageTable.fromToken set.pageTable.token).lookup m vpn = set.pageTable.lookup m vpn := by
  have same := Mm.translate_fromToken wf m vpn
  rw [MemorySet.translate] at same
  rw [PageTable.lookup, same, PageTable.lookup]

/-- `translated_byte_buffer` cuts a stored text at the ends of its pages. -/
theorem translatedByteBuffer_text (user : UserSpace l tramp s set)
    (stored : BytesAt set.pageTable s.mem ptr (strBytes text)) {fuel : Nat}
    (enough : (strBytes text).length < fuel) :
    ∃ slices, translatedByteBuffer s.mem set.pageTable.token ptr (strBytes text).length fuel =
        .returned slices ∧
      PageSlices (.fromToken set.pageTable.token) s.mem (ptr + (strBytes text).length)
        ptr slices := by
  rw [translatedByteBuffer]
  rcases Nat.eq_zero_or_pos (strBytes text).length with none | some
  · rw [none, Nat.add_zero]
    refine ⟨[], ?_, .done⟩
    obtain ⟨fuel, rfl⟩ := Nat.exists_eq_add_one_of_ne_zero (by omega : fuel ≠ 0)
    have notBelow : ¬ ptr < ptr % 2 ^ 64 := Nat.not_lt.mpr (Nat.mod_le _ _)
    rw [byteBufferLoop, if_neg notBelow]
  · obtain ⟨last, -⟩ := stored ((strBytes text).length - 1) (by omega)
    have notTramp := user.userByte_ne_trampoline last
    have canonical := canonical_iff.mp last.1
    have word : ptr + (strBytes text).length < 2 ^ 64 := by
      unfold floor virtAddr at notTramp
      omega
    rw [Nat.mod_eq_of_lt word]
    have onPage : ∀ va, ptr ≤ va → va < ptr + (strBytes text).length →
        set.pageTable.UserByte s.mem va := by
      intro va lower upper
      obtain ⟨isUser, -⟩ := stored (va - ptr) (by omega)
      rwa [Nat.add_sub_cancel' lower] at isUser
    have mapped : ∀ va, ptr ≤ va → va < ptr + (strBytes text).length →
        (PageTable.fromToken set.pageTable.token).Maps s.mem (floor (virtAddr va)) := by
      intro va lower upper
      obtain ⟨-, pte, found, -⟩ := onPage va lower upper
      rw [PageTable.Maps, lookup_fromToken user.wf, found]
      rfl
    obtain ⟨slices, returned, cut⟩ := byteBufferLoop_canonical word (Nat.le_add_right _ _)
      (show ptr + (strBytes text).length - ptr < fuel by omega)
      (fun va lower upper => (onPage va lower upper).1) mapped []
    exact ⟨slices, returned, cut⟩

/-- A text at canonical addresses lies in one half of them. -/
theorem BytesAt.length_le {t : PageTable} {m : Memory} {bytes : List UInt8}
    (stored : BytesAt t m ptr bytes) :
    bytes.length ≤ 2 ^ 38 := by
  by_contra longer
  obtain ⟨first, -⟩ := stored 0 (by omega)
  obtain ⟨second, -⟩ := stored (2 ^ 38) (by omega)
  have low := canonical_iff.mp first.1
  have high := canonical_iff.mp second.1
  omega

theorem BytesAt.fromToken (wf : set.Wf l tramp s) {bytes : List UInt8}
    (stored : BytesAt set.pageTable s.mem ptr bytes) :
    BytesAt (.fromToken set.pageTable.token) s.mem ptr bytes := by
  intro i bound
  obtain ⟨isUser, isByte⟩ := stored i bound
  refine ⟨⟨isUser.1, ?_⟩, ?_⟩
  · rw [lookup_fromToken wf]
    exact isUser.2
  · rw [PageTable.load, PageTable.byteAt, lookup_fromToken wf]
    exact isByte

/-- `sys_write` of a stored text to the standard output. -/
theorem sysWrite_text (user : UserSpace l tramp s set)
    (stored : BytesAt set.pageTable s.mem ptr (strBytes text))
    {fdTable : List (Option File)} {fd : Nat}
    (isStdout : fdTable[fd]? = some (some stdout)) (console : Console) :
    (PagesBetweenChars ptr text → ∀ fuel, (strBytes text).length < fuel →
      sysWrite s.mem set.pageTable.token fdTable fd ptr (strBytes text).length fuel console =
        .returned ((strBytes text).length, console ++ text.toList.map Char.toNat)) ∧
    (¬ PagesBetweenChars ptr text → ∀ fuel, (strBytes text).length < fuel →
      sysWrite s.mem set.pageTable.token fdTable fd ptr (strBytes text).length fuel console =
        .panicked) := by
  have isOpen : ¬ fd ≥ fdTable.length := Nat.not_le.mpr (List.getElem?_eq_some_iff.mp isStdout).1
  have isSigned : asIsize (strBytes text).length = (strBytes text).length := by
    exact if_pos (Nat.lt_of_le_of_lt stored.length_le (by decide))
  -- the loop over the slices decides
  have writes : ∀ fuel, (strBytes text).length < fuel → ∃ slices,
      PageSlices (.fromToken set.pageTable.token) s.mem (ptr + (strBytes text).length) ptr slices ∧
      sysWrite s.mem set.pageTable.token fdTable fd ptr (strBytes text).length fuel console =
        match stdoutLoop s.mem slices console with
        | some console' => .returned ((strBytes text).length, console')
        | none => .panicked := by
    intro fuel enough
    obtain ⟨slices, returned, cut⟩ := translatedByteBuffer_text user stored enough
    have length := PageSlices.len cut (Nat.le_add_right _ _)
    rw [Nat.add_sub_cancel_left] at length
    refine ⟨slices, cut, ?_⟩
    rw [sysWrite, if_neg isOpen, isStdout]
    simp only [stdout, if_true, returned, stdoutWrite, length]
    cases stdoutLoop s.mem slices console with
    | none => rfl
    | some console' => simp only [Option.map_some, isSigned]
  have bytes := stored.fromToken user.wf
  constructor
  · intro between fuel enough
    obtain ⟨slices, cut, written⟩ := writes fuel enough
    obtain ⟨printed, returns⟩ := stdoutLoop_iff bytes (a := 0) cut (Nat.zero_le _)
      String.Pos.Raw.isValid_zero console
    obtain ⟨console', returned⟩ := returns.mpr between
    obtain ⟨later, whole, rfl⟩ := printed console' returned
    rw [List.drop_zero] at whole
    rw [written, returned, writeStr_eq, strBytes_inj whole]
  · intro notBetween fuel enough
    obtain ⟨slices, cut, written⟩ := writes fuel enough
    obtain ⟨-, returns⟩ := stdoutLoop_iff bytes (a := 0) cut (Nat.zero_le _)
      String.Pos.Raw.isValid_zero console
    have stops : stdoutLoop s.mem slices console = none := by
      rw [Option.eq_none_iff_forall_ne_some]
      exact fun console' returned => notBetween (returns.mp ⟨console', returned⟩)
    rw [written, stops]

end Write

/-- In every run of the machine, for every text that a process has stored on its pages, `sys_write`
to the standard output returns the length of the text and prints its characters exactly when every
page that begins inside of the text begins with a character. -/
theorem sysWrite_stdout_iff {layout : KernelLayout} {booted k : Machine} {set : MemorySet}
    (mem : Memory) (boot : Machine.boot mem layout = some booted) (events : List SpaceEvent)
    (run : booted.steps layout events = some k) (id : Nat) (isLive : k.live (.user id) = some set)
    (ptr : Nat) (text : String) (stored : BytesAt set.pageTable k.phys.mem ptr (strBytes text))
    (fdTable : List (Option File)) (fd : Nat) (isStdout : fdTable[fd]? = some (some stdout))
    (console : Console) :
    (∀ fuel, (strBytes text).length < fuel →
      sysWrite k.phys.mem set.pageTable.token fdTable fd ptr (strBytes text).length fuel console =
        .returned ((strBytes text).length, console ++ text.toList.map Char.toNat)) ↔
      PagesBetweenChars ptr text := by
  obtain ⟨inv, above⟩ := Machine.inv_boot boot
  have user := (inv.steps above run).userSpace above isLive
  obtain ⟨returns, panics⟩ := sysWrite_text user stored isStdout console
  refine ⟨fun written => ?_, returns⟩
  by_contra notBetween
  have stopped := panics notBetween _ (Nat.lt_succ_self _)
  rw [written _ (Nat.lt_succ_self _)] at stopped
  exact absurd stopped (by simp)

/-- The descriptors of a new process. -/
def stdFds : List (Option File) := [some stdin, some stdout, some stdout]

theorem BytesAt.of_storedAt {t : PageTable} {m : Memory} {ptr : Nat} {text : String}
    (stored : StoredAt t m ptr text) : BytesAt t m ptr (strBytes text) := by
  intro i bound
  obtain ⟨isUser, isByte⟩ := stored i (Nat.le_of_lt bound)
  rw [List.getElem?_append_left bound] at isByte
  exact ⟨isUser, isByte⟩

/-- The text `sh`, whose second character begins a page, is printed. -/
theorem sysWrite_stdout_iff_sh : ∃ booted k set,
    Machine.boot (fun _ => 0) tinyLayout = some booted ∧
    booted.steps tinyLayout (twoBytesRun 115 104) = some k ∧ k.live (.user 0) = some set ∧
    BytesAt set.pageTable k.phys.mem 0x12fff (strBytes "sh") ∧
    sysWrite k.phys.mem set.pageTable.token stdFds 1 0x12fff 2 3 [] =
    .returned (2, [115, 104]) := by
  have bytes : strBytes "sh" = [115, 104] := by decide +kernel
  obtain ⟨booted, k, set, boot, run, isLive, stored⟩ := twoBytes_storedAt bytes (by decide +kernel)
  have placed := BytesAt.of_storedAt stored
  have between : PagesBetweenChars 0x12fff "sh" := by
    intro i some within onStart
    rw [bytes, List.length_cons, List.length_singleton] at within
    obtain rfl : i = 1 := by omega
    decide +kernel
  refine ⟨booted, k, set, boot, run, isLive, placed, ?_⟩
  have written :=
    (sysWrite_stdout_iff _ boot _ run 0 isLive 0x12fff "sh" placed stdFds 1 rfl []).mpr
    between 3 (by rw [bytes]; decide)
  rw [bytes] at written
  exact written

/-- The character `é` on two pages stops the kernel. -/
theorem sysWrite_stdout_accent : ∃ booted k set,
    Machine.boot (fun _ => 0) tinyLayout = some booted ∧
    booted.steps tinyLayout (twoBytesRun 0xc3 0xa9) = some k ∧ k.live (.user 0) = some set ∧
    BytesAt set.pageTable k.phys.mem 0x12fff (strBytes "é") ∧ (strBytes "é").length = 2 ∧
    ∀ fuel, 2 < fuel →
      sysWrite k.phys.mem set.pageTable.token stdFds 1 0x12fff 2 fuel [] = .panicked := by
  have bytes : strBytes "é" = [0xc3, 0xa9] := by decide +kernel
  obtain ⟨booted, k, set, boot, run, isLive, stored⟩ := twoBytes_storedAt bytes (by decide +kernel)
  have placed := BytesAt.of_storedAt stored
  obtain ⟨inv, above⟩ := Machine.inv_boot boot
  have user := (inv.steps above run).userSpace above isLive
  have inside : ¬ PagesBetweenChars 0x12fff "é" := by
    intro between
    have second := between 1 (by decide) (by rw [bytes]; decide) (by decide)
    exact absurd second (by decide +kernel)
  obtain ⟨-, panics⟩ := sysWrite_text user placed (show stdFds[1]? = some (some stdout) from rfl) []
  refine ⟨booted, k, set, boot, run, isLive, placed, by rw [bytes]; rfl, fun fuel enough => ?_⟩
  have stopped := panics inside fuel (by rw [bytes]; exact enough)
  rw [bytes] at stopped
  exact stopped

end CoreFromDust.Os.Fs
