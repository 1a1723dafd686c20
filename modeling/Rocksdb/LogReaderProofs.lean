import Rocksdb.LogWriterProofs

/-! Reading back what was written. A reader that stands in front of the placed
records of a record returns it; with every record one step further, it returns
all of them and nothing else, and it reports nothing. -/
namespace Rocksdb.LogReaderProofs
open Lib.LittleEndian Lib.Loop LogFormat LogWriter LogReader LogLayout LogWriterProofs List

variable {υ : Type} {options : LogReader.Options υ} {mode : WALRecoveryMode}

/-! ## Payloads -/

/-- What a payload becomes. -/
def feedOne (options : LogReader.Options υ) : Option υ → Bytes → Option (Bytes × Option υ)
  | none, payload => some (payload, none)
  | some state, payload =>
    match uncompressFragment options.streamingUncompress state payload with
    | (some output, state) => some (output, some state)
    | (none, _) => none

/-- What the payloads of a record become. -/
def feed (options : LogReader.Options υ) : Option υ → List Placed → Option (Bytes × Option υ)
  | state, [] => some ([], state)
  | state, p :: ps =>
    (feedOne options state p.payload).bind fun (output, state) =>
      (feed options state ps).map fun (more, state) => (output ++ more, state)

theorem feed_none (ps : List Placed) : feed options none ps = some (payloadOf ps, none) := by
  induction ps with
  | nil => rfl
  | cons _ _ ih => simp [feed, feedOne, ih]

variable {output : Bytes} {ps : List Placed} {p : Placed} {state : Option υ}

private theorem feed_cons (fed : feed options state (p :: ps) = some (output, state')) :
    ∃ first middle more, feedOne options state p.payload = some (first, middle) ∧
      feed options middle ps = some (more, state') ∧ output = first ++ more := by
  obtain ⟨⟨first, middle⟩, isFirst, rest⟩ := Option.bind_eq_some_iff.mp fed
  obtain ⟨⟨more, _⟩, isMore, same⟩ := Option.map_eq_some_iff.mp rest
  cases same
  exact ⟨first, middle, more, isFirst, isMore, rfl⟩

/-- A type that belongs to a fragment of a record. -/
def IsFragment (recycle : Bool) (t : RecordType) : Prop := ∃ atBegin atEnd, t = fragmentType recycle atBegin atEnd

variable {t : RecordType} {recycle : Bool}

theorem IsFragment.isLegacy (fragment : IsFragment recycle t) : isLegacy t = !recycle := by
  obtain ⟨atBegin, atEnd, rfl⟩ := fragment
  cases recycle <;> cases atBegin <;> cases atEnd <;> rfl

theorem IsFragment.notZero (fragment : IsFragment recycle t) : t ≠ .kZeroType := by
  obtain ⟨atBegin, atEnd, rfl⟩ := fragment
  cases recycle <;> cases atBegin <;> cases atEnd <;> decide

theorem IsFragment.compressed (fragment : IsFragment recycle t) : isUncompressedType t.toNat = false := by
  obtain ⟨atBegin, atEnd, rfl⟩ := fragment
  cases recycle <;> cases atBegin <;> cases atEnd <;> rfl

variable {r : Reader υ}

private theorem takeFragment_fed (fragment : IsFragment recycle t)
    (fed : feedOne options r.uncompress payload = some (output, state)) :
    takeFragment options r t.toNat payload = (⟨t.toNat, output, 0⟩, { r with uncompress := state }) := by
  unfold takeFragment
  cases isState : r.uncompress with
  | none =>
    rw [isState] at fed
    cases fed
    exact congrArg (Prod.mk _) (by rw [← isState])
  | some =>
    rw [isState, feedOne] at fed
    dsimp only
    rw [fragment.compressed, if_neg (by decide)]
    split at fed
    · next got =>
      cases fed
      rw [got]
    · cases fed

/-! ## One record -/

/-- The reader and the writer of a log agree. -/
structure Matches (options : LogReader.Options υ) (crc32c : Crc32c) (logNumber : Nat) (recycle : Bool) : Prop where
  crc32c : options.crc32c = crc32c
  logNumber : recycle = true → options.logNumber = logNumber ∧ logNumber < 2 ^ 32

variable {crc32c : Crc32c} {logNumber : Nat} {recycle : Bool}

theorem Matches.agrees (matched : Matches options crc32c logNumber recycle)
    (recyclable : isLegacy t = false → recycle = true) : Agrees options crc32c logNumber t :=
  ⟨matched.crc32c, fun notLegacy => matched.logNumber (recyclable notLegacy)⟩

/-- The reader has seen that the log is recycled when it has read from it. -/
def Ready (recycle : Bool) (r : Reader υ) : Prop := recycle = true → r.firstRecordRead = true → r.recycled = true

/-- The reader after a fragment. -/
def advanced (r : Reader υ) (recycle : Bool) (state : Option υ) : Reader υ :=
  { r with recycled := r.recycled || recycle, uncompress := state }

variable {o e : Nat}

/-- A fragment with little padding is read. -/
theorem readPhysicalRecord_fragment (matched : Matches options crc32c logNumber recycle)
    (ready : Ready recycle r) (fits : p.Fits o e) (short : p.pad < kHeaderSize)
    (fragment : IsFragment recycle p.type)
    (fed : feedOne options r.uncompress p.payload = some (output, state)) (tail : Bytes) :
    readPhysicalRecord options (readerAt r o (p.bytes crc32c logNumber ++ tail)) =
      (⟨p.type.toNat, output, 0⟩, readerAt (advanced r recycle state) e tail) := by
  have legacy := fragment.isLegacy
  rw [readPhysicalRecord_placed (matched.agrees fun notLegacy => by simpa [legacy] using notLegacy) fits short
    fragment.notZero fun notLegacy => ready (by simpa [legacy] using notLegacy), legacy, Bool.not_not]
  exact takeFragment_fed fragment fed

theorem caseOf_fragmentType (recycle atBegin atEnd : Bool) : caseOf (fragmentType recycle atBegin atEnd).toNat =
      if atBegin && atEnd then .full else if atBegin then .first else if atEnd then .last else .middle := by
  cases recycle <;> cases atBegin <;> cases atEnd <;> rfl

section Rounds
variable {r r' : Reader υ} {got : PhysicalRecord} {scratch : Bytes}

private theorem round_congr (same : readPhysicalRecord options r = readPhysicalRecord options r') :
    readRecordRound options mode ⟨r, inFragmentedRecord, scratch⟩ =
      readRecordRound options mode ⟨r', inFragmentedRecord, scratch⟩ := by
  unfold readRecordRound
  simp only [same]

section Read
variable (read : readPhysicalRecord options r = (got, r'))
include read

private theorem round_full (isCase : caseOf got.recordType = .full) :
    readRecordRound options mode ⟨r, false, []⟩ = .leave (some got.fragment, { r' with firstRecordRead := true }) := by
  simp [readRecordRound, read, isCase]

theorem round_first (isCase : caseOf got.recordType = .first) :
    readRecordRound options mode ⟨r, false, []⟩ = .again ⟨r', true, got.fragment⟩ := by
  simp [readRecordRound, read, isCase]

theorem round_middle (isCase : caseOf got.recordType = .middle) :
    readRecordRound options mode ⟨r, true, scratch⟩ = .again ⟨r', true, scratch ++ got.fragment⟩ := by
  simp [readRecordRound, read, isCase]

private theorem round_last (isCase : caseOf got.recordType = .last) : readRecordRound options mode ⟨r, true, scratch⟩ =
      .leave (some (scratch ++ got.fragment), { r' with firstRecordRead := true }) := by
  simp [readRecordRound, read, isCase]

theorem round_badRecord (isCase : caseOf got.recordType = .badRecord) :
    readRecordRound options mode ⟨r, false, []⟩ = .again ⟨r', false, []⟩ := by
  simp [readRecordRound, read, isCase, Reading.drop]

private theorem round_eof (isCase : caseOf got.recordType = .eof) :
    readRecordRound options mode ⟨r, false, []⟩ = .leave (none, r') := by
  simp [readRecordRound, read, isCase, Reading.atTail]

end Read

/-- At the end of the file nothing is returned. -/
theorem round_atEnd (mode : WALRecoveryMode) (inFragmentedRecord : Bool) (scratch : Bytes)
    (atEnd : AtEnd (readPhysicalRecord options r)) :
    ∃ r', readRecordRound options mode ⟨r, inFragmentedRecord, scratch⟩ = .leave (none, r') := by
  rcases read : readPhysicalRecord options r with ⟨_, _⟩
  rw [read] at atEnd
  rcases atEnd with isCase | isCase | ⟨isCase, eof⟩ <;> dsimp only at isCase
  · simp [readRecordRound, read, isCase]
  · simp [readRecordRound, read, isCase]
  · dsimp only at eof
    simp [readRecordRound, read, isCase, eof]

end Rounds

theorem Ready.after (recycle : Bool) (state : Option υ) : Ready recycle (advanced r recycle state) :=
  fun recycled _ => by simp [advanced, recycled]

private theorem advanced_twice (r : Reader υ) (recycle : Bool) (state state' : Option υ) :
    advanced (advanced r recycle state) recycle state' = advanced r recycle state' := by
  simp [advanced]

/-- The parts of a record, or those that are left of it, are read if they have little padding. -/
theorem returns_parts (matched : Matches options crc32c logNumber recycle)
    (laid : Laid recycle atBegin o ps e) (clean : ∀ p ∈ ps, p.pad < kHeaderSize)
    (ready : Ready recycle r) (fed : feed options r.uncompress ps = some (output, state))
    (fresh : atBegin = true → scratch = []) (tail : Bytes) :
    Returns (readRecordRound options mode) ⟨readerAt r o (bytesOf crc32c logNumber ps ++ tail), !atBegin, scratch⟩
      (some (scratch ++ output), readerAt { advanced r recycle state with firstRecordRead := true } e tail) := by
  induction ps generalizing atBegin o r scratch output with
  | nil => cases laid
  | cons p ps ih =>
    obtain ⟨first, middle, more, isFirst, isMore, rfl⟩ := feed_cons fed
    have short := clean p mem_cons_self
    rw [bytesOf_cons, append_assoc]
    cases laid with
    | last fits type =>
      have read := readPhysicalRecord_fragment matched ready fits short ⟨_, _, type⟩ isFirst tail
      cases isMore
      rw [append_nil]
      cases atBegin with
      | true =>
        obtain rfl := fresh rfl
        exact .leave (round_full read (by rw [type, caseOf_fragmentType]; rfl))
      | false => exact .leave (round_last read (by rw [type, caseOf_fragmentType]; rfl))
    | more fits type rest =>
      have read := readPhysicalRecord_fragment matched ready fits short ⟨_, _, type⟩ isFirst
        (bytesOf crc32c logNumber ps ++ tail)
      rw [← append_assoc scratch, ← advanced_twice r recycle middle state]
      have later := @ih more (advanced r recycle middle) _ false (scratch ++ first) rest
        (fun q member => clean q (mem_cons_of_mem _ member)) (.after recycle middle) isMore nofun
      cases atBegin with
      | true =>
        obtain rfl := fresh rfl
        exact .again (round_first read (by rw [type, caseOf_fragmentType]; rfl)) later
      | false => exact .again (round_middle read (by rw [type, caseOf_fragmentType]; rfl)) later

/-- A trailer of zeros between records is read over. -/
theorem returns_skipped (fits : p.Fits o e) (long : kHeaderSize ≤ p.pad) (later : Returns (readRecordRound options mode)
      ⟨readerAt r kBlockSize (physicalRecord crc32c logNumber p.type p.payload ++ rest), false, []⟩ result) :
    Returns (readRecordRound options mode) ⟨readerAt r o (p.bytes crc32c logNumber ++ rest), false, []⟩ result := by
  obtain ⟨-, ⟨none, -⟩ | ⟨fill, -⟩⟩ := fits
  · rw [none] at long
    cases long
  · rw [Placed.bytes, append_assoc]
    exact .again (round_badRecord (readPhysicalRecord_zeros fill long) rfl) later

/-- **A record is read back.** -/
theorem readsRecord (matched : Matches options crc32c logNumber recycle)
    (laid : Laid recycle true o ps e) (clean : ∀ p ∈ ps.tail, p.pad < kHeaderSize)
    (ready : Ready recycle r)
    (fed : feed options (r.uncompress.map fun _ => options.streamingUncompress.reset) ps = some (record, state))
    (tail : Bytes) :
    ReadsRecord options mode (readerAt r o (bytesOf crc32c logNumber ps ++ tail)) (some record)
      (readerAt { advanced r recycle state with firstRecordRead := true } e tail) := by
  set r₀ : Reader υ := { r with uncompress := r.uncompress.map fun _ => options.streamingUncompress.reset }
  show Returns (readRecordRound options mode) ⟨readerAt r₀ o (bytesOf crc32c logNumber ps ++ tail), false, []⟩
    (some record, readerAt { advanced r₀ recycle state with firstRecordRead := true } e tail)
  cases ps with
  | nil => cases laid
  | cons p ps =>
    by_cases short : p.pad < kHeaderSize
    · exact returns_parts (r := r₀) matched laid (forall_mem_cons.mpr ⟨short, clean⟩) ready fed (fun _ => rfl) tail
    · -- behind the zeros the record is one without padding
      have bare : bytesOf crc32c logNumber (⟨0, p.type, p.payload⟩ :: ps) =
          physicalRecord crc32c logNumber p.type p.payload ++ bytesOf crc32c logNumber ps := rfl
      have edge : Laid recycle true kBlockSize (⟨0, p.type, p.payload⟩ :: ps) e := by
        have moved {m : Nat} (fits : p.Fits o m) : Placed.Fits ⟨0, p.type, p.payload⟩ kBlockSize m := by
          obtain ⟨inBlock, ⟨none, -⟩ | ⟨-, size⟩⟩ := fits
          · exact absurd (none ▸ by decide) short
          · exact ⟨inBlock, .inr ⟨rfl, size⟩⟩
        cases laid with
        | last fits type => exact .last (moved fits) type
        | more fits type rest => exact .more (moved fits) type rest
      have later : Returns (readRecordRound options mode) ⟨readerAt r₀ kBlockSize
          (bytesOf crc32c logNumber (⟨0, p.type, p.payload⟩ :: ps) ++ tail), false, []⟩ _ :=
        returns_parts (r := r₀) matched edge (forall_mem_cons.mpr ⟨Nat.zero_lt_succ _, clean⟩)
          ready fed (fun _ => rfl) tail
      rw [bare, append_assoc] at later
      rw [bytesOf_cons, append_assoc]
      cases laid with
      | last fits type | more fits type rest => exact returns_skipped fits (not_lt.mp short) later

/-- The end of a block is the beginning of the next one. -/
theorem reads_edge (reads : Reads options mode (readerAt r 0 rest) records final) :
    Reads options mode (readerAt r kBlockSize rest) records final := by
  have first {record : Option Bytes} {r' : Reader υ} (read : ReadsRecord options mode (readerAt r 0 rest) record r') :
      ReadsRecord options mode (readerAt r kBlockSize rest) record r' := by
    have skipped : readPhysicalRecord options (readerAt
        { r with uncompress := r.uncompress.map fun _ => options.streamingUncompress.reset } kBlockSize
        ([] ++ rest)) = _ := readPhysicalRecord_skip rfl (by decide)
    exact Returns.of_round_eq (round_congr skipped.symm) read
  cases reads with
  | done last => exact .done (first last)
  | record read later => exact .record (first read) later

/-- Behind the last byte there is nothing. -/
theorem readPhysicalRecord_nil (options : LogReader.Options υ) (r : Reader υ) (inBlock : o ≤ kBlockSize) :
    ∃ o', readPhysicalRecord options (readerAt r o []) = (⟨kEof, [], 0⟩, readerAt r o' []) := by
  have inside {o : Nat} (inside : o < kBlockSize) :
      readPhysicalRecord options (readerAt r o []) = (⟨kEof, [], 0⟩, readerAt r o []) := by
    have short : ([] : Bytes).length < kBlockSize - o := by
      rw [length_nil]
      omega
    refine (readPhysicalRecord_error (parse_of_short (by simp [readerAt, kHeaderSize]))
      (readMore_readerAt_eof short)).trans ?_
    simp
  rcases inBlock.lt_or_eq with less | rfl
  · exact ⟨o, inside less⟩
  · have skipped : readPhysicalRecord options (readerAt r kBlockSize ([] ++ [])) = _ :=
      readPhysicalRecord_skip rfl (by decide)
    exact ⟨0, skipped.trans (inside (by decide))⟩

theorem readsRecord_end (options : LogReader.Options υ) (mode : WALRecoveryMode) (r : Reader υ)
    (inBlock : o ≤ kBlockSize) :
    ∃ r', ReadsRecord options mode (readerAt r o []) none r' ∧ r'.reports = r.reports := by
  obtain ⟨_, read⟩ := readPhysicalRecord_nil options
    { r with uncompress := r.uncompress.map fun _ => options.streamingUncompress.reset } inBlock
  exact ⟨_, .leave (round_eof read rfl), rfl⟩

end Rocksdb.LogReaderProofs
