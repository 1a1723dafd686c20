import Rocksdb.LogReader
import Rocksdb.Lib.Memory

/-! The reader that follows a log while it is written (`FragmentBufferedReader` of
`db/log_reader.cc`). It keeps the fragments of a record that is not complete, and
where the file ended inside of a block it reads the rest of the block behind the
bytes it has. The file does not fail, and what is read from it is put into the
backing store. -/
namespace Rocksdb.LogTailing
open Lib.LittleEndian Lib.Loop Lib.Memory LogFormat LogReader

variable {υ : Type}

/-- `FragmentBufferedReader`: a reader with its backing store, the address of its
buffer in it, and the fragments of a record. -/
structure FragmentBufferedReader (υ : Type) extends Reader υ where
  backingStore : Nat → UInt8
  data : Nat
  fragments : Bytes
  inFragmentedRecord : Bool

/-- A new reader of a file. -/
def FragmentBufferedReader.new (file : Bytes) : FragmentBufferedReader υ := ⟨.new file, fun _ => 0, 0, [], false⟩

section State
variable (r : FragmentBufferedReader υ)

/-- The file gets longer. -/
def FragmentBufferedReader.grow (more : Bytes) : FragmentBufferedReader υ :=
  { r with file := r.file ++ more }

def FragmentBufferedReader.reportCorruption (bytes : Nat) (reason : String) : FragmentBufferedReader υ :=
  { r with toReader := r.toReader.reportCorruption bytes reason }

def FragmentBufferedReader.clear : FragmentBufferedReader υ :=
  { r with buffer := [] }

/-- `FragmentBufferedReader::UnmarkEOF` with `Reader::UnmarkEOFInternal`: the rest
of the block is read behind the bytes that are left of it. -/
def unmarkEOF : FragmentBufferedReader υ :=
  let consumedBytes := r.eofOffset - r.buffer.length
  let remaining := kBlockSize - r.eofOffset
  let readBuffer := r.file.take remaining
  { r with
    file := r.file.drop remaining
    backingStore := write (write r.backingStore consumedBytes r.buffer) r.eofOffset readBuffer
    data := consumedBytes
    buffer := r.buffer ++ readBuffer
    eof := decide (readBuffer.length < remaining)
    eofOffset := if readBuffer.length < remaining then r.eofOffset + readBuffer.length else 0 }

/-- `FragmentBufferedReader::TryReadMore`. -/
def tryReadMore : FragmentBufferedReader υ :=
  if !r.eof then
    let buffer := r.file.take kBlockSize
    { r with
      file := r.file.drop kBlockSize
      backingStore := write r.backingStore 0 buffer
      data := 0
      buffer := buffer
      eof := decide (buffer.length < kBlockSize)
      eofOffset := if buffer.length < kBlockSize then buffer.length else r.eofOffset }
  else unmarkEOF r

end State

theorem tryReadMore_shrinks (changed : r.buffer.length ≠ (tryReadMore r).buffer.length) :
    (tryReadMore r).file.length < r.file.length ∨
      (tryReadMore r).file.length = r.file.length ∧ r.eof = false ∧ (tryReadMore r).eof = true := by
  unfold tryReadMore at changed ⊢
  split at changed
  · next notEof =>
    rw [if_pos notEof]
    simp only [List.length_drop, List.length_take, decide_eq_true_eq, Bool.not_eq_true'] at notEof ⊢
    rcases Nat.eq_zero_or_pos r.file.length with empty | nonempty
    · exact .inr ⟨by omega, notEof, by rw [empty]; decide⟩
    · exact .inl (by unfold kBlockSize; omega)
  · next atEof =>
    rw [if_neg atEof]
    left
    simp only [unmarkEOF, List.length_append, List.length_take] at changed
    simp only [unmarkEOF, List.length_drop]
    omega

/-- The loops of `TryReadFragment` that wait for a number of bytes: whether they
are there. -/
def waitFor (n : Nat) (r : FragmentBufferedReader υ) : Bool × FragmentBufferedReader υ :=
  if r.buffer.length < n then
    if _changed : r.buffer.length = (tryReadMore r).buffer.length then (false, tryReadMore r)
    else waitFor n (tryReadMore r)
  else (true, r)
termination_by (r.file.length, if r.eof then 0 else 1)
decreasing_by
  rcases tryReadMore_shrinks _changed with shrinks | ⟨same, notEof, atEof⟩
  · exact Prod.Lex.left _ _ shrinks
  · rw [← same, notEof, atEof]
    exact Prod.Lex.right _ (by decide)

variable (options : Options υ) (r : FragmentBufferedReader υ)

/-- `TryReadFragment` behind the header, which stands at an address of the backing
store. -/
def tryReadPayload (header headerSize type length : Nat) :
    Option PhysicalRecord × FragmentBufferedReader υ :=
  match waitFor (headerSize + length) r with
  | (false, r) => (none, r)
  | (true, r) =>
    if type = RecordType.kZeroType.toNat ∧ length = 0 then (some ⟨kBadRecord, [], 0⟩, r.clear)
    else if options.checksum ∧ options.crc32c.value (slice r.backingStore (header + 6) (length + headerSize - 6)) ≠
        unmask (UInt32.ofNat (decode (slice r.backingStore header 4))) then
      (some ⟨kBadRecordChecksum, [], r.buffer.length⟩, r.clear)
    else
      let (record, base) := takeFragment options
        { r.toReader with buffer := r.buffer.drop (headerSize + length) } type
        (slice r.backingStore (header + headerSize) length)
      (some record, { r with toReader := base, data := r.data + (headerSize + length) })

/-- `FragmentBufferedReader::TryReadFragment`: a fragment or an error, or nothing
yet. -/
def tryReadFragment : Option PhysicalRecord × FragmentBufferedReader υ :=
  match waitFor kHeaderSize r with
  | (false, r) => (none, r)
  | (true, r) =>
    let header := r.data
    let type := headerType (slice r.backingStore header kHeaderSize)
    let length := headerLength (slice r.backingStore header kHeaderSize)
    if isRecyclableType type then
      -- a recycled log should have started with a recycled record
      if r.firstRecordRead && !r.recycled then (some ⟨kBadRecord, [], 0⟩, r)
      else
        match waitFor kRecyclableHeaderSize { r with recycled := true } with
        | (false, r) => (none, r)
        | (true, r) =>
          if decode (slice r.backingStore (header + 7) 4) ≠ options.logNumber then
            (some ⟨kOldRecord, [], 0⟩, r)
          else tryReadPayload options r header kRecyclableHeaderSize type length
    else tryReadPayload options r header kHeaderSize type length

/-- Gives up the fragments of a record, with a report if there is one. -/
def FragmentBufferedReader.drop : FragmentBufferedReader υ :=
  if r.inFragmentedRecord then
    { r.reportCorruption r.fragments.length "error in middle of record" with
      inFragmentedRecord := false, fragments := [] }
  else r

/-- One round of the loop of `FragmentBufferedReader::ReadRecord`. -/
def readRecordRound : Round (FragmentBufferedReader υ) (Option Bytes × FragmentBufferedReader υ) :=
  match tryReadFragment options r with
  | (none, r) => .leave (none, r)
  | (some got, r) =>
    match caseOf got.recordType with
    | .full =>
      let r := if r.inFragmentedRecord && r.fragments ≠ [] then
          r.reportCorruption r.fragments.length "partial record without end(1)" else r
      .leave (some got.fragment, { r with fragments := [], firstRecordRead := true, inFragmentedRecord := false })
    | .first =>
      let r := if r.inFragmentedRecord || r.fragments ≠ [] then
          r.reportCorruption r.fragments.length "partial record without end(2)" else r
      .again { r with fragments := got.fragment, inFragmentedRecord := true }
    | .middle =>
      if !r.inFragmentedRecord then
        .again (r.reportCorruption got.fragment.length "missing start of fragmented record(1)")
      else .again { r with fragments := r.fragments ++ got.fragment }
    | .last =>
      if !r.inFragmentedRecord then
        .again (r.reportCorruption got.fragment.length "missing start of fragmented record(2)")
      else
        .leave (some (r.fragments ++ got.fragment),
          { r with fragments := [], firstRecordRead := true, inFragmentedRecord := false })
    | .setCompressionType =>
      .again { r with
        toReader := setCompressionType options r.toReader got.fragment
        fragments := [], inFragmentedRecord := false }
    | .userDefinedTimestampSize =>
      -- the scratch whose size would be reported is still empty here
      .again { r with
        toReader := userDefinedTimestampSize r.toReader got.fragment
        fragments := [], inFragmentedRecord := false }
    | .badHeader | .badRecord | .eof | .oldRecord => .again r.drop
    | .badRecordChecksum =>
      if r.recycled then .leave (none, { r with fragments := [] })
      else .again (r.reportCorruption got.dropSize "checksum mismatch").drop
    | .badRecordLen | .unknown =>
      .again { r.reportCorruption (got.fragment.length + if r.inFragmentedRecord then r.fragments.length else 0)
          ("unknown record type " ++ toString got.recordType) with
        inFragmentedRecord := false, fragments := [] }

/-- `FragmentBufferedReader::ReadRecord`, up to its loop. -/
def readRecordStart : FragmentBufferedReader υ :=
  { r with uncompress := r.uncompress.map fun _ => options.streamingUncompress.reset }

/-- `FragmentBufferedReader::ReadRecord` returns, with a record or without one. -/
def ReadsRecord (record : Option Bytes) (r' : FragmentBufferedReader υ) : Prop :=
  Returns (readRecordRound options) (readRecordStart options r) (record, r')

/-- Calls of `ReadRecord`, each of them after the file got longer by some bytes,
and what they return. -/
inductive Tails (options : Options υ) :
    FragmentBufferedReader υ → List Bytes → List (Option Bytes) → FragmentBufferedReader υ → Prop where
  | done {r : FragmentBufferedReader υ} : Tails options r [] [] r
  | call {r next r' : FragmentBufferedReader υ} {more : Bytes} {record : Option Bytes} {mores : List Bytes}
      {records : List (Option Bytes)} (read : ReadsRecord options (r.grow more) record next)
      (later : Tails options next mores records r') : Tails options r (more :: mores) (record :: records) r'

end Rocksdb.LogTailing
