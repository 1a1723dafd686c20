import Rocksdb.LogFormat
import Rocksdb.Lib.Loop

/-! The reader of write-ahead logs (`db/log_reader.cc`): `ReadPhysicalRecord`
takes physical records from the block in the buffer, and `ReadRecord` puts
records together from them. The file is read block by block and does not fail.
Offsets and hashes of records are left out. -/
namespace Rocksdb.LogReader
open Lib.LittleEndian Lib.Loop LogFormat

/-- `WALRecoveryMode`. -/
inductive WALRecoveryMode where
  | kTolerateCorruptedTailRecords
  | kAbsoluteConsistency
  | kPointInTimeRecovery
  | kSkipAnyCorruptedRecords
  deriving DecidableEq, Repr

/-- What the reporter is told. -/
inductive Report where
  | corruption (bytes : Nat) (reason : String)
  | oldLogRecord (bytes : Nat)
  deriving DecidableEq, Repr

/-- `StreamingUncompress`. `uncompress` gets a new input, or none to go on with the
last one; it returns what remains of it, negative for an error, and a piece of
output. The caller asks again while something remains or the output buffer was
filled, and this comes to an end: `pending` counts the pieces to come. -/
structure StreamingUncompress (υ : Type) where
  reset : υ
  uncompress : υ → Option Bytes → Int × Bytes × υ
  pending : υ → Nat
  progress : ∀ state, 0 < (uncompress state none).1 ∨ (uncompress state none).2.1.length = kBlockSize →
    pending (uncompress state none).2.2 < pending state

variable {υ : Type}

/-- The further calls of `Uncompress` for a fragment. -/
def uncompressMore (u : StreamingUncompress υ) (state : υ) : Option Bytes × υ :=
  let got := u.uncompress state none
  if got.1 < 0 then (none, got.2.2)
  else if again : 0 < got.1 ∨ got.2.1.length = kBlockSize then
    have := u.progress state again
    let more := uncompressMore u got.2.2
    (more.1.map (got.2.1 ++ ·), more.2)
  else (some got.2.1, got.2.2)
termination_by u.pending state

/-- The calls of `Uncompress` for a fragment, with all of their output. -/
def uncompressFragment (u : StreamingUncompress υ) (state : υ) (fragment : Bytes) : Option Bytes × υ :=
  let (remaining, output, state) := u.uncompress state (some fragment)
  if remaining < 0 then (none, state)
  else if 0 < remaining ∨ output.length = kBlockSize then
    let (more, state) := uncompressMore u state
    (more.map (output ++ ·), state)
  else (some output, state)

/-- What is fixed for a reader. -/
structure Options (υ : Type) where
  crc32c : Crc32c
  checksum : Bool
  logNumber : Nat
  streamingUncompress : StreamingUncompress υ

/-- `Reader`. `file` holds the bytes not read yet, `reports` what the reporter was
told, the last one first. -/
structure Reader (υ : Type) where
  file : Bytes
  buffer : Bytes
  eof : Bool
  eofOffset : Nat
  recycled : Bool
  firstRecordRead : Bool
  compressionTypeRecordRead : Bool
  uncompress : Option υ
  recordedCfToTsSz : List (Nat × Nat)
  reports : List Report

/-- A new reader of a file. -/
def Reader.new (file : Bytes) : Reader υ := ⟨file, [], false, 0, false, false, false, none, [], []⟩

def Reader.report (r : Reader υ) (report : Report) : Reader υ := { r with reports := report :: r.reports }

/-- `Reader::ReportCorruption`. -/
def Reader.reportCorruption (r : Reader υ) (bytes : Nat) (reason : String) : Reader υ :=
  r.report (.corruption bytes reason)

/-! ## Physical records -/

def kEof : Nat := kMaxRecordType + 1
def kBadRecord : Nat := kMaxRecordType + 2
def kBadHeader : Nat := kMaxRecordType + 3
def kOldRecord : Nat := kMaxRecordType + 4
def kBadRecordLen : Nat := kMaxRecordType + 5
def kBadRecordChecksum : Nat := kMaxRecordType + 6

/-- What `ReadPhysicalRecord` returns: a type or one of the values above, with
`result` and `drop_size`. -/
structure PhysicalRecord where
  recordType : Nat
  fragment : Bytes
  dropSize : Nat
  deriving DecidableEq

/-- `Reader::ReadMore`: nothing if there is more in the buffer now, or an
error. -/
def readMore (r : Reader υ) : Option PhysicalRecord × Reader υ :=
  if !r.eof then
    let buffer := r.file.take kBlockSize
    let r := { r with buffer := buffer, file := r.file.drop kBlockSize }
    (none, if buffer.length < kBlockSize then { r with eof := true, eofOffset := buffer.length } else r)
  else if r.buffer ≠ [] then
    (some ⟨kBadHeader, [], r.buffer.length⟩, { r with buffer := [] })
  else (some ⟨kEof, [], 0⟩, { r with buffer := [] })

/-- `header[6]`, a signed character. -/
def headerType (header : Bytes) : Nat :=
  let byte := (header.getD 6 0).toNat
  if byte < 128 then byte else byte + (2 ^ 32 - 256)

/-- `header[4]` and `header[5]`. -/
def headerLength (header : Bytes) : Nat := (header.getD 4 0).toNat + 256 * (header.getD 5 0).toNat

def isRecyclableType (type : Nat) : Bool :=
  (RecordType.kRecyclableFullType.toNat ≤ type && type ≤ RecordType.kRecyclableLastType.toNat) ||
    type = RecordType.kRecyclableUserDefinedTimestampSizeType.toNat

/-- The types whose payload is never compressed. -/
def isUncompressedType (type : Nat) : Bool :=
  type = RecordType.kSetCompressionType.toNat || type = RecordType.kUserDefinedTimestampSizeType.toNat ||
    type = RecordType.kRecyclableUserDefinedTimestampSizeType.toNat

variable (options : Options υ)

/-- The end of `ReadPhysicalRecord`: the payload as it is, or uncompressed. -/
def takeFragment (r : Reader υ) (type : Nat) (payload : Bytes) : PhysicalRecord × Reader υ :=
  match r.uncompress with
  | none => (⟨type, payload, 0⟩, r)
  | some state =>
    if isUncompressedType type then (⟨type, payload, 0⟩, r)
    else
      match uncompressFragment options.streamingUncompress state payload with
      | (none, state) => (⟨kBadRecord, [], 0⟩, { r with buffer := [], uncompress := some state })
      | (some output, state) => (⟨type, output, 0⟩, { r with uncompress := some state })

/-- `ReadPhysicalRecord` with a whole header in the buffer. -/
def parseRecord (r : Reader υ) (headerSize : Nat) : PhysicalRecord × Reader υ :=
  let header := r.buffer
  let type := headerType header
  let length := headerLength header
  if r.buffer.length < headerSize + length then
    (⟨kBadRecordLen, [], r.buffer.length⟩, { r with buffer := [] })
  else if isRecyclableType type ∧ decode ((header.drop 7).take 4) ≠ options.logNumber then
    (⟨kOldRecord, [], 0⟩, { r with buffer := r.buffer.drop (headerSize + length) })
  else if type = RecordType.kZeroType.toNat ∧ length = 0 then
    (⟨kBadRecord, [], 0⟩, { r with buffer := [] })
  else if options.checksum ∧ options.crc32c.value ((header.take (headerSize + length)).drop 6) ≠
      unmask (UInt32.ofNat (decode (header.take 4))) then
    (⟨kBadRecordChecksum, [], r.buffer.length⟩, { r with buffer := [] })
  else
    takeFragment options { r with buffer := r.buffer.drop (headerSize + length) } type
      ((header.drop headerSize).take length)

/-- One round of the loop of `ReadPhysicalRecord`, up to `ReadMore`: nothing if
more is needed. -/
def parse (r : Reader υ) : Option PhysicalRecord × Reader υ :=
  if r.buffer.length < kHeaderSize then (none, r)
  else if isRecyclableType (headerType r.buffer) then
    -- a recycled log should have started with a recycled record
    if r.firstRecordRead && !r.recycled then (some ⟨kBadRecord, [], 0⟩, r)
    else
      let r := { r with recycled := true }
      if r.buffer.length < kRecyclableHeaderSize then (none, r)
      else
        let (record, r) := parseRecord options r kRecyclableHeaderSize
        (some record, r)
  else
    let (record, r) := parseRecord options r kHeaderSize
    (some record, r)

private theorem parse_none (parsed : parse options r = (none, r')) : r'.file = r.file ∧ r'.eof = r.eof := by
  unfold parse at parsed
  split at parsed
  · cases parsed
    exact ⟨rfl, rfl⟩
  · split at parsed
    · split at parsed
      · cases parsed
      · dsimp only at parsed
        split at parsed
        · cases parsed
          exact ⟨rfl, rfl⟩
        · cases parsed
    · cases parsed

private theorem readMore_none (more : readMore r = (none, r')) :
    r.eof = false ∧ (r'.file.length < r.file.length ∨ r'.file.length = r.file.length ∧ r'.eof = true) := by
  unfold readMore at more
  split at more
  · next notEof =>
    refine ⟨by simpa using notEof, ?_⟩
    cases more
    split
    · next short =>
      rcases Nat.eq_zero_or_pos r.file.length with empty | nonempty
      · exact .inr ⟨by simp [empty], rfl⟩
      · exact .inl (by simp only [List.length_drop]; unfold kBlockSize; omega)
    · next full =>
      rw [List.length_take] at full
      refine .inl ?_
      simp only [List.length_drop]
      unfold kBlockSize at full ⊢
      omega
  · split at more <;> cases more

/-- `Reader::ReadPhysicalRecord`. -/
def readPhysicalRecord (r : Reader υ) : PhysicalRecord × Reader υ :=
  match _parsed : parse options r with
  | (some record, r) => (record, r)
  | (none, r') =>
    match _more : readMore r' with
    | (some error, r) => (error, r)
    | (none, r) => readPhysicalRecord r
termination_by (r.file.length, if r.eof then 0 else 1)
decreasing_by
  obtain ⟨file, eof⟩ := parse_none options _parsed
  obtain ⟨notEof, shrinks | ⟨same, atEof⟩⟩ := readMore_none _more
  · rw [file] at shrinks
    exact Prod.Lex.left _ _ shrinks
  · rw [← file, ← same, ← eof, notEof, atEof]
    exact Prod.Lex.right _ (by decide)

/-! ## Records -/

/-- The cases of the switch of `ReadRecord`. -/
inductive Case where
  | full
  | first
  | middle
  | last
  | setCompressionType
  | userDefinedTimestampSize
  | badHeader
  | eof
  | oldRecord
  | badRecord
  | badRecordLen
  | badRecordChecksum
  | unknown
  deriving DecidableEq

/-- Where the switch goes. A type that was read from the file may have one of the
values that stand for errors. -/
def caseOf (recordType : Nat) : Case :=
  if recordType = RecordType.kFullType.toNat ∨ recordType = RecordType.kRecyclableFullType.toNat then .full
  else if recordType = RecordType.kFirstType.toNat ∨ recordType = RecordType.kRecyclableFirstType.toNat then
    .first
  else if recordType = RecordType.kMiddleType.toNat ∨ recordType = RecordType.kRecyclableMiddleType.toNat then
    .middle
  else if recordType = RecordType.kLastType.toNat ∨ recordType = RecordType.kRecyclableLastType.toNat then
    .last
  else if recordType = RecordType.kSetCompressionType.toNat then .setCompressionType
  else if recordType = RecordType.kUserDefinedTimestampSizeType.toNat ∨
      recordType = RecordType.kRecyclableUserDefinedTimestampSizeType.toNat then .userDefinedTimestampSize
  else if recordType = kBadHeader then .badHeader
  else if recordType = kEof then .eof
  else if recordType = kOldRecord then .oldRecord
  else if recordType = kBadRecord then .badRecord
  else if recordType = kBadRecordLen then .badRecordLen
  else if recordType = kBadRecordChecksum then .badRecordChecksum
  else .unknown

/-- The modes in which an incomplete record at the end is reported. -/
def WALRecoveryMode.reportsTail (mode : WALRecoveryMode) : Bool :=
  mode = .kAbsoluteConsistency || mode = .kPointInTimeRecovery

/-- `CompressionTypeRecord::DecodeFrom`, and what is left of the input. -/
def decodeCompressionType (fragment : Bytes) : Option CompressionType × Bytes :=
  if fragment.length < 4 then (none, fragment)
  else
    let type := UInt8.ofNat (decode (fragment.take 4))
    (if type = kNoCompression ∨ type = kZSTD then some type else none, fragment.drop 4)

/-- `Reader::InitCompression`. -/
def initCompression (r : Reader υ) (type : CompressionType) : Reader υ :=
  { r with
    compressionTypeRecordRead := true
    uncompress := if type = kZSTD then some options.streamingUncompress.reset else none }

/-- The case of a compression type record. -/
def setCompressionType (r : Reader υ) (fragment : Bytes) : Reader υ :=
  let r := if r.compressionTypeRecordRead then
      r.reportCorruption fragment.length "read multiple SetCompressionType records" else r
  let r := if r.firstRecordRead then
      r.reportCorruption fragment.length "SetCompressionType not the first record" else r
  match decodeCompressionType fragment with
  | (none, rest) => r.reportCorruption rest.length "could not decode SetCompressionType record"
  | (some type, _) => initCompression options r type

/-- `UserDefinedTimestampSizeRecord::DecodeFrom`, for a whole number of entries. -/
def decodeTimestampSizes : Nat → Bytes → List (Nat × Nat)
  | 0, _ => []
  | n + 1, bytes =>
    (decode (bytes.take 4), decode ((bytes.drop 4).take 2)) :: decodeTimestampSizes n (bytes.drop 6)

/-- `Reader::UpdateRecordedTimestampSize`: the sizes up to the first error, and
that error. -/
def updateRecordedTimestampSize (recorded : List (Nat × Nat)) : List (Nat × Nat) → Option String × List (Nat × Nat)
  | [] => (none, recorded)
  | (cf, size) :: rest =>
    if size = 0 then
      (some "User-defined timestamp size record contains zero timestamp size.", recorded)
    else if recorded.any (·.1 = cf) then
      (some "User-defined timestamp size record contains update to recorded column family.", recorded)
    else updateRecordedTimestampSize (recorded ++ [(cf, size)]) rest

/-- The case of a record of timestamp sizes. -/
def userDefinedTimestampSize (r : Reader υ) (fragment : Bytes) : Reader υ :=
  if fragment.length % 6 ≠ 0 then
    r.reportCorruption fragment.length "could not decode user-defined timestamp size record"
  else
    let (error, recorded) := updateRecordedTimestampSize r.recordedCfToTsSz
      (decodeTimestampSizes (fragment.length / 6) fragment)
    let r := { r with recordedCfToTsSz := recorded }
    error.elim r (r.reportCorruption 0 ·)

/-- The local variables of `ReadRecord`. -/
structure Reading (υ : Type) where
  reader : Reader υ
  inFragmentedRecord : Bool
  scratch : Bytes

/-- Gives up the record that is being read, with a report if there is one. -/
def Reading.drop (s : Reading υ) : Reading υ :=
  if s.inFragmentedRecord then
    ⟨s.reader.reportCorruption s.scratch.length "error in middle of record", false, []⟩
  else s

/-- Leaves the loop at an end of the log inside of a record or not. -/
def Reading.atTail (mode : WALRecoveryMode) (s : Reading υ) (reason : String) : Reader υ :=
  if s.inFragmentedRecord && mode.reportsTail then s.reader.reportCorruption s.scratch.length reason
  else s.reader

/-- One round of the loop of `Reader::ReadRecord`. It leaves with a record or, at
the end, without one. -/
def readRecordRound (mode : WALRecoveryMode) (s : Reading υ) :
    Round (Reading υ) (Option Bytes × Reader υ) :=
  let (got, r) := readPhysicalRecord options s.reader
  let s := { s with reader := r }
  match caseOf got.recordType with
  | .full =>
    let r := if s.inFragmentedRecord && s.scratch ≠ [] then
        r.reportCorruption s.scratch.length "partial record without end(1)" else r
    .leave (some got.fragment, { r with firstRecordRead := true })
  | .first =>
    let r := if s.inFragmentedRecord && s.scratch ≠ [] then
        r.reportCorruption s.scratch.length "partial record without end(2)" else r
    .again ⟨r, true, got.fragment⟩
  | .middle =>
    if !s.inFragmentedRecord then
      .again { s with
        reader := r.reportCorruption got.fragment.length "missing start of fragmented record(1)" }
    else .again { s with scratch := s.scratch ++ got.fragment }
  | .last =>
    if !s.inFragmentedRecord then
      .again { s with
        reader := r.reportCorruption got.fragment.length "missing start of fragmented record(2)" }
    else .leave (some (s.scratch ++ got.fragment), { r with firstRecordRead := true })
  | .setCompressionType => .again ⟨setCompressionType options r got.fragment, s.inFragmentedRecord, []⟩
  | .userDefinedTimestampSize =>
    let r := if s.inFragmentedRecord && s.scratch ≠ [] then
        r.reportCorruption s.scratch.length "user-defined timestamp size record interspersed partial record" else r
    .again ⟨userDefinedTimestampSize r got.fragment, s.inFragmentedRecord, []⟩
  | .badHeader =>
    let r := if mode.reportsTail then r.reportCorruption got.dropSize "truncated header" else r
    .leave (none, { s with reader := r }.atTail mode "error reading trailing data due to encountering EOF")
  | .eof => .leave (none, s.atTail mode "error reading trailing data due to encountering EOF")
  | .oldRecord =>
    if mode ≠ .kSkipAnyCorruptedRecords then
      .leave (none, if s.inFragmentedRecord then
          s.atTail mode "error reading trailing data due to encountering old record"
        else if mode = .kPointInTimeRecovery then r.report (.oldLogRecord s.scratch.length)
        else r)
    else .again s.drop
  | .badRecord => .again s.drop
  | .badRecordLen =>
    if r.eof then
      .leave (none, if mode.reportsTail then r.reportCorruption got.dropSize "truncated record body" else r)
    else if r.recycled && mode = .kTolerateCorruptedTailRecords then .leave (none, r)
    else .again { s with reader := r.reportCorruption got.dropSize "bad record length" }.drop
  | .badRecordChecksum =>
    if r.recycled && mode = .kTolerateCorruptedTailRecords then .leave (none, r)
    else .again { s with reader := r.reportCorruption got.dropSize "checksum mismatch" }.drop
  | .unknown =>
    .again ⟨r.reportCorruption (got.fragment.length + if s.inFragmentedRecord then s.scratch.length else 0)
      ("unknown record type " ++ toString got.recordType), false, []⟩

/-- `Reader::ReadRecord`, up to its loop. -/
def readRecordStart (r : Reader υ) : Reading υ :=
  ⟨{ r with uncompress := r.uncompress.map fun _ => options.streamingUncompress.reset }, false, []⟩

/-- `Reader::ReadRecord` returns, with a record or without one. -/
def ReadsRecord (mode : WALRecoveryMode) (r : Reader υ) (record : Option Bytes)
    (r' : Reader υ) : Prop :=
  Returns (readRecordRound options mode) (readRecordStart options r) (record, r')

/-- The records that a reader returns until it returns none. -/
inductive Reads (options : Options υ) (mode : WALRecoveryMode) : Reader υ → List Bytes → Reader υ → Prop where
  | done {r r' : Reader υ} (last : ReadsRecord options mode r none r') : Reads options mode r [] r'
  | record {r next r' : Reader υ} {record : Bytes} {records : List Bytes}
      (read : ReadsRecord options mode r (some record) next) (later : Reads options mode next records r') :
      Reads options mode r (record :: records) r'

variable {options}

/-- What is read is determined by the reader. -/
theorem Reads.unique (first : Reads options mode r records₁ r₁) (second : Reads options mode r records₂ r₂) :
    records₁ = records₂ := by
  induction first generalizing records₂ with
  | done last =>
    cases second with
    | done => rfl
    | record read => cases last.unique read
  | record read _ ih =>
    cases second with
    | done last' => cases read.unique last'
    | record read' later' =>
      obtain ⟨same, rfl⟩ := Prod.mk.inj (read.unique read')
      rw [Option.some.inj same, ih later']

end Rocksdb.LogReader
