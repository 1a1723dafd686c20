import Rocksdb.LogRoundTrip
import Rocksdb.LogTailing

/-! Following a log while it is written. The reader stands at a position of the
log; what is visible behind it is in its buffer or in the file, and waiting for
more bytes moves it at most over the zeros at the end of a block. -/
namespace Rocksdb.LogTailingProofs
open Lib.LittleEndian Lib.Loop Lib.Memory LogFormat LogWriter LogTailing LogLayout LogWriterProofs List
open LogReaderProofs LogRoundTrip
open LogReader hiding readRecordRound readRecordStart ReadsRecord

variable {ζ υ : Type}

/-! ## Positions -/

/-- The reader stands at an offset of a block with some visible bytes behind it.
What it has of the block is in its buffer. -/
structure At (r : FragmentBufferedReader υ) (o : Nat) (visible : Bytes) : Prop where
  bytes : r.buffer ++ r.file = visible
  stored : slice r.backingStore r.data r.buffer.length = r.buffer
  data : r.buffer ≠ [] → r.data = o
  partly : r.eof = true → o + r.buffer.length = r.eofOffset ∧ r.eofOffset < kBlockSize
  whole : r.eof = false → o + r.buffer.length = kBlockSize

/-- What reading more bytes leaves as it is. -/
structure Kept (r r' : FragmentBufferedReader υ) : Prop where
  fragments : r'.fragments = r.fragments
  inFragmentedRecord : r'.inFragmentedRecord = r.inFragmentedRecord
  uncompress : r'.uncompress = r.uncompress
  reports : r'.reports = r.reports

theorem Kept.refl (r : FragmentBufferedReader υ) : Kept r r := ⟨rfl, rfl, rfl, rfl⟩

theorem Kept.trans (first : Kept r₁ r₂) (second : Kept r₂ r₃) : Kept r₁ r₃ :=
  ⟨second.fragments.trans first.fragments, second.inFragmentedRecord.trans first.inFragmentedRecord,
    second.uncompress.trans first.uncompress, second.reports.trans first.reports⟩

theorem kept_tryReadMore (r : FragmentBufferedReader υ) : Kept r (tryReadMore r) := by
  unfold tryReadMore
  split <;> exact ⟨rfl, rfl, rfl, rfl⟩

variable {r : FragmentBufferedReader υ} {o : Nat} {visible : Bytes} {pending : List (Bytes × Nat)}
  {items : List (Bytes × List Placed)}

section Waiting
variable (here : At r o visible)
include here

theorem At.inBlock : o ≤ kBlockSize := by
  cases eof : r.eof with
  | true => have := here.partly eof; omega
  | false => have := here.whole eof; omega

theorem At.buffer_le : r.buffer.length ≤ visible.length := by
  rw [← here.bytes, length_append]
  omega

theorem At.grow (more : Bytes) : At (r.grow more) o (visible ++ more) :=
  ⟨by rw [← here.bytes, append_assoc]; rfl, here.stored, here.data, here.partly, here.whole⟩

omit here in
private theorem at_new (file : Bytes) : At (.new file : FragmentBufferedReader υ) kBlockSize file :=
  ⟨rfl, rfl, fun nonempty => absurd rfl nonempty, nofun, fun _ => rfl⟩

/-- The cells of the backing store hold the buffer. -/
theorem At.slice_eq (inside : i + n ≤ r.buffer.length) :
    slice r.backingStore (r.data + i) n = (r.buffer.drop i).take n := by
  rw [slice_part inside, here.stored]

/-- Behind the end of the file the rest of the block is read. -/
theorem tryReadMore_eof (eof : r.eof = true) :
    At (tryReadMore r) o visible ∧ (tryReadMore r).buffer = visible.take (kBlockSize - o) := by
  obtain ⟨offset, _⟩ := here.partly eof
  have consumed : r.eofOffset - r.buffer.length = o := by omega
  have remaining : (r.file.take (kBlockSize - r.eofOffset)).length ≤ kBlockSize - r.eofOffset := by
    rw [length_take]
    omega
  have same : r.buffer ++ r.file.take (kBlockSize - r.eofOffset) = visible.take (kBlockSize - o) := by
    have all : r.buffer.take (kBlockSize - o) = r.buffer := take_of_length_le (by omega)
    rw [← here.bytes, take_append, all, show kBlockSize - o - r.buffer.length = kBlockSize - r.eofOffset by omega]
  rw [tryReadMore, if_neg (by simp [eof])]
  refine ⟨⟨?_, ?_, fun _ => consumed, ?_, ?_⟩, same⟩ <;> dsimp only [unmarkEOF]
  · rw [append_assoc, take_append_drop, here.bytes]
  · rw [consumed, length_append, slice_add, slice_write_before (by omega), slice_write_self, offset, slice_write_self]
  · intro short
    rw [decide_eq_true_eq] at short
    rw [if_pos short, length_append]
    omega
  · intro full
    rw [decide_eq_false_iff_not] at full
    rw [length_append]
    omega

/-- Behind the last whole block the next one is read. -/
theorem tryReadMore_full (notEof : r.eof = false) : At (tryReadMore r) 0 (visible.drop (kBlockSize - o)) ∧
      (tryReadMore r).buffer = (visible.drop (kBlockSize - o)).take kBlockSize := by
  have length := here.whole notEof
  have rest : visible.drop (kBlockSize - o) = r.file := by
    rw [← here.bytes, drop_left' (by omega)]
  rw [tryReadMore, if_pos (by simp [notEof]), rest]
  refine ⟨⟨take_append_drop .., ?_, fun _ => rfl, ?_, ?_⟩, rfl⟩ <;> dsimp only
  · exact slice_write_self _
  · intro short
    rw [decide_eq_true_eq] at short
    rw [if_pos short]
    omega
  · intro full
    rw [decide_eq_false_iff_not, length_take] at full
    rw [length_take]
    omega

/-! ## Waiting for bytes -/

/-- Bytes of the same block. -/
theorem waitFor_inside (inside : o + n ≤ kBlockSize) :
    ∃ r', waitFor n r = (decide (n ≤ visible.length), r') ∧ At r' o visible ∧ Kept r r' ∧
      (n ≤ visible.length → n ≤ r'.buffer.length) := by
  have bound := here.buffer_le
  have atEof {r : FragmentBufferedReader υ} (here : At r o visible) (few : r.buffer.length < n) : r.eof = true := by
    by_contra notEof
    have := here.whole (by simpa using notEof)
    omega
  induction r using waitFor.induct n with
  | case1 r few stuck =>
    have eof := atEof here few
    obtain ⟨there, buffer⟩ := tryReadMore_eof here eof
    rw [buffer, length_take] at stuck
    rw [waitFor, if_pos few, dif_pos (by rw [buffer, length_take]; exact stuck)]
    exact ⟨_, by rw [decide_eq_false (by omega)], there, kept_tryReadMore r, by omega⟩
  | case2 r few moved ih =>
    obtain ⟨there, -⟩ := tryReadMore_eof here (atEof here few)
    obtain ⟨r', waited, there', kept, enough⟩ := ih there there.buffer_le
    rw [waitFor, if_pos few, dif_neg moved]
    exact ⟨r', waited, there', (kept_tryReadMore r).trans kept, enough⟩
  | case3 r enough =>
    rw [waitFor, if_neg enough]
    exact ⟨r, by rw [decide_eq_true (by omega)], here, .refl r, fun _ => not_lt.mp enough⟩

/-- A header behind the end of the block. -/
theorem waitFor_behind (near : kBlockSize < o + kHeaderSize) : ∃ r', Kept r r' ∧
      let behind := visible.drop (kBlockSize - o)
      (visible.length < kBlockSize - o ∧ waitFor kHeaderSize r = (false, r') ∧ At r' o visible ∨
        kBlockSize - o ≤ visible.length ∧ waitFor kHeaderSize r = (decide (kHeaderSize ≤ behind.length), r') ∧
          At r' 0 behind ∧ (kHeaderSize ≤ behind.length → kHeaderSize ≤ r'.buffer.length)) := by
  have bound := here.buffer_le
  have inBlock := here.inBlock
  induction r using waitFor.induct kHeaderSize with
  | case1 r few stuck =>
    refine ⟨_, kept_tryReadMore r, ?_⟩
    rw [waitFor, if_pos few, dif_pos stuck]
    cases eof : r.eof with
    | true =>
      obtain ⟨there, buffer⟩ := tryReadMore_eof here eof
      obtain ⟨_, _⟩ := here.partly eof
      rw [buffer, length_take] at stuck
      exact .inl ⟨by omega, rfl, there⟩
    | false =>
      obtain ⟨there, buffer⟩ := tryReadMore_full here eof
      have length := here.whole eof
      have block : kHeaderSize < kBlockSize := by decide
      rw [buffer, length_take] at stuck
      have absent : ¬ kHeaderSize ≤ (visible.drop (kBlockSize - o)).length := by omega
      exact .inr ⟨by omega, by rw [decide_eq_false absent], there, fun enough => absurd enough absent⟩
  | case2 r few moved ih =>
    rw [waitFor, if_pos few, dif_neg moved]
    cases eof : r.eof with
    | true =>
      obtain ⟨there, -⟩ := tryReadMore_eof here eof
      obtain ⟨r', kept, result⟩ := ih there there.buffer_le
      exact ⟨r', (kept_tryReadMore r).trans kept, result⟩
    | false =>
      obtain ⟨there, -⟩ := tryReadMore_full here eof
      have length := here.whole eof
      obtain ⟨r', waited, there', kept, enough⟩ := waitFor_inside (n := kHeaderSize) there (by decide)
      exact ⟨r', (kept_tryReadMore r).trans kept, .inr ⟨by omega, waited, there', enough⟩⟩
  | case3 r =>
    cases eof : r.eof with
    | true => have := here.partly eof; omega
    | false => have := here.whole eof; omega

end Waiting

/-! ## Fragments -/

section Fragments
variable {options : LogReader.Options υ} {crc32c : Crc32c} {logNumber : Nat} {p : Placed} {m : Nat}
  {hidden tail : Bytes}

theorem drop_visible (stream : visible ++ hidden = row ++ tail) (isLength : row.length = n)
    (inside : n ≤ visible.length) : visible.drop n ++ hidden = tail := by
  rw [← drop_append_of_le_length inside, stream, drop_left' isLength]

private theorem headerType_take (header : Bytes) : headerType (header.take kHeaderSize) = headerType header := by
  simp [headerType, kHeaderSize, getD_eq_getElem?_getD]

private theorem headerLength_take (header : Bytes) : headerLength (header.take kHeaderSize) = headerLength header := by
  simp [headerLength, kHeaderSize, getD_eq_getElem?_getD]

/-- The reader stands in front of a fragment, before or behind the zeros. -/
structure Before (crc32c : Crc32c) (logNumber : Nat) (r : FragmentBufferedReader υ) (p : Placed) (o m : Nat)
    (visible hidden tail : Bytes) : Prop where
  fits : p.Fits o m
  short : p.pad < kHeaderSize
  here : At r o visible
  stream : visible ++ hidden = p.bytes crc32c logNumber ++ tail

/-- There is not enough of a fragment yet. -/
def Waits (crc32c : Crc32c) (logNumber : Nat) (r : FragmentBufferedReader υ) (p : Placed) (m : Nat)
    (hidden tail : Bytes) : Prop :=
  ∃ q o visible, Before crc32c logNumber r q o m visible hidden tail ∧ q.type = p.type ∧ q.payload = p.payload ∧
    visible.length < q.pad + q.size

theorem headerSizeOf_legacy {t : RecordType} (legacy : isLegacy t = true) : headerSizeOf t = kHeaderSize := by
  simp [headerSizeOf, legacy]

/-- Waiting for the header of a fragment. -/
theorem waitFor_header (before : Before crc32c logNumber r p o m visible hidden tail)
    (legacy : isLegacy p.type = true) :
    ∃ found r', waitFor kHeaderSize r = (found, r') ∧ Kept r r' ∧
      (found = false ∧ visible.length < p.pad + p.size ∧ Waits crc32c logNumber r' p m hidden tail ∨
        found = true ∧ p.pad ≤ visible.length ∧ kHeaderSize ≤ r'.buffer.length ∧
          ∃ o', Before crc32c logNumber r' ⟨0, p.type, p.payload⟩ o' m (visible.drop p.pad) hidden tail ∧
            m = o' + p.size) := by
  obtain ⟨fits, short, here, stream⟩ := before
  have size : kHeaderSize ≤ p.size := by
    rw [Placed.size, headerSizeOf_legacy legacy]
    omega
  obtain ⟨inBlock, ⟨none, isEnd⟩ | ⟨fill, isEnd⟩⟩ := fits
  · obtain ⟨r', waited, there, kept, enough⟩ := waitFor_inside (n := kHeaderSize) here (by omega)
    have before' : Before crc32c logNumber r' p o m visible hidden tail :=
      ⟨⟨inBlock, .inl ⟨none, isEnd⟩⟩, short, there, stream⟩
    have bare : p = ⟨0, p.type, p.payload⟩ := by rw [← none]
    refine ⟨_, r', waited, kept, ?_⟩
    by_cases found : kHeaderSize ≤ visible.length
    · refine .inr ⟨decide_eq_true found, by omega, enough found, o, ?_, isEnd⟩
      rw [none, drop_zero, ← bare]
      exact before'
    · exact .inl ⟨decide_eq_false found, by omega, p, o, visible, before', rfl, rfl, by omega⟩
  · obtain ⟨r', kept, ⟨_, waited, there⟩ | ⟨many, waited, there, enough⟩⟩ := waitFor_behind here (by omega)
    · refine ⟨_, r', waited, kept, .inl ⟨rfl, by omega, p, o, visible, ?_, rfl, rfl, by omega⟩⟩
      exact ⟨⟨inBlock, .inr ⟨fill, isEnd⟩⟩, short, there, stream⟩
    · have pad : kBlockSize - o = p.pad := by omega
      rw [pad] at many waited there enough
      have before' : Before crc32c logNumber r' ⟨0, p.type, p.payload⟩ 0 m (visible.drop p.pad) hidden tail := by
        refine ⟨⟨inBlock, .inl ⟨rfl, isEnd.trans (Nat.zero_add _).symm⟩⟩, Nat.zero_lt_succ _, there, ?_⟩
        rw [Placed.bytes, append_assoc] at stream
        exact drop_visible stream (length_zeros _) many
      refine ⟨_, r', waited, kept, ?_⟩
      by_cases found : kHeaderSize ≤ (visible.drop p.pad).length
      · exact .inr ⟨decide_eq_true found, many, enough found, 0, before', isEnd.trans (Nat.zero_add _).symm⟩
      · rw [length_drop] at found
        refine .inl ⟨by rw [length_drop, decide_eq_false found], by omega, _, _, _, before', rfl, rfl, ?_⟩
        show (visible.drop p.pad).length < 0 + p.size
        rw [length_drop]
        omega

private theorem takeFragment_plain {r : Reader υ} (uncompressed : r.uncompress = none) :
    takeFragment options r type payload = (⟨type, payload, 0⟩, r) := by
  rw [takeFragment]
  simp [uncompressed]

/-- The payload of a fragment whose header is there. -/
theorem tryReadPayload_fragment (same : options.crc32c = crc32c)
    (before : Before crc32c logNumber r ⟨0, p.type, p.payload⟩ o m visible hidden tail) (isEnd : m = o + p.size)
    (legacy : isLegacy p.type = true) (notZero : p.type ≠ .kZeroType) (header : kHeaderSize ≤ r.buffer.length)
    (uncompressed : r.uncompress = none) :
    ∃ got r', tryReadPayload options r r.data kHeaderSize p.type.toNat p.payload.length = (got, r') ∧ Kept r r' ∧
      (got = none ∧ visible.length < p.size ∧ Waits crc32c logNumber r' p m hidden tail ∨
        got = some ⟨p.type.toNat, p.payload, 0⟩ ∧ p.size ≤ visible.length ∧ At r' m (visible.drop p.size)) := by
  obtain ⟨fits, short, here, stream⟩ := before
  have size : kHeaderSize + p.payload.length = p.size := by rw [Placed.size, headerSizeOf_legacy legacy]
  have inBlock := fits.1
  obtain ⟨r', waited, there, kept, enough⟩ := waitFor_inside (n := p.size) here (by omega)
  have address : r.data = o := here.data fun empty => by rw [empty] at header; cases header
  rw [tryReadPayload, size, waited]
  by_cases whole : p.size ≤ visible.length
  · replace enough := enough whole
    have address' : r'.data = o := there.data fun empty => by
      rw [empty, length_nil] at enough
      omega
    have row : Placed.bytes crc32c logNumber ⟨0, p.type, p.payload⟩ =
        physicalRecord crc32c logNumber p.type p.payload := rfl
    have length : (physicalRecord crc32c logNumber p.type p.payload).length = p.size := by simp [Placed.size]
    -- the record stands at the head of the buffer
    obtain ⟨more, buffer⟩ : ∃ more, r'.buffer = physicalRecord crc32c logNumber p.type p.payload ++ more := by
      have head : r'.buffer.take p.size = physicalRecord crc32c logNumber p.type p.payload := by
        have front : (physicalRecord crc32c logNumber p.type p.payload ++ tail).take p.size = _ := take_left' length
        rw [row] at stream
        rw [← front, ← stream, ← there.bytes, append_assoc, take_append_of_le_length enough]
      exact ⟨r'.buffer.drop p.size, by rw [← head, take_append_drop]⟩
    have checked := checksum_physicalRecord crc32c logNumber p.type p.payload more
    have taken := payload_physicalRecord crc32c logNumber p.type p.payload more
    rw [← buffer, headerSizeOf_legacy legacy] at checked taken
    have covered : slice r'.backingStore (r.data + 6) (p.payload.length + kHeaderSize - 6) =
        (r'.buffer.take (kHeaderSize + p.payload.length)).drop 6 := by
      rw [address, ← address', there.slice_eq (by unfold kHeaderSize at *; omega), drop_take]
      congr 1
      omega
    have stored : slice r'.backingStore r.data 4 = r'.buffer.take 4 := by
      rw [address, ← address']
      exact there.slice_eq (i := 0) (by unfold kHeaderSize at *; omega)
    have payload : slice r'.backingStore (r.data + kHeaderSize) p.payload.length = p.payload := by
      rw [address, ← address', there.slice_eq (by omega), taken]
    have isType : p.type.toNat ≠ RecordType.kZeroType.toNat := by
      intro zero
      cases type : p.type <;> rw [type] at zero notZero <;> first | exact notZero rfl | cases zero
    simp only [decide_eq_true whole]
    rw [if_neg (fun both => isType both.1), covered, stored, if_neg (by rw [same, checked]; simp), payload,
      takeFragment_plain (by exact kept.uncompress.trans uncompressed)]
    refine ⟨_, _, rfl, ⟨kept.fragments, kept.inFragmentedRecord, kept.uncompress, kept.reports⟩,
      .inr ⟨rfl, whole, ?_⟩⟩
    refine ⟨?_, ?_, fun _ => ?_, fun eof => ?_, fun notEof => ?_⟩ <;> dsimp only
    · rw [← there.bytes, drop_append_of_le_length enough]
    · rw [there.slice_eq (by rw [length_drop]; omega)]
      exact take_of_length_le le_rfl
    · omega
    · have := there.partly eof
      rw [length_drop]
      omega
    · have := there.whole notEof
      rw [length_drop]
      omega
  · simp only [decide_eq_false whole]
    refine ⟨_, r', rfl, kept, .inl ⟨rfl, by omega, _, o, visible, ⟨fits, short, there, stream⟩, rfl, rfl, ?_⟩⟩
    show visible.length < 0 + p.size
    omega

/-- A fragment is read as soon as all of it is there. -/
theorem tryReadFragment_placed (same : options.crc32c = crc32c)
    (before : Before crc32c logNumber r p o m visible hidden tail) (legacy : isLegacy p.type = true)
    (notZero : p.type ≠ .kZeroType) (uncompressed : r.uncompress = none) :
    ∃ got r', tryReadFragment options r = (got, r') ∧ Kept r r' ∧
      (got = none ∧ visible.length < p.pad + p.size ∧ Waits crc32c logNumber r' p m hidden tail ∨
        got = some ⟨p.type.toNat, p.payload, 0⟩ ∧ p.pad + p.size ≤ visible.length ∧
          At r' m (visible.drop (p.pad + p.size))) := by
  obtain ⟨_, r₁, waited, kept, ⟨rfl, few, waits⟩ | ⟨rfl, _, header, _, before', isEnd⟩⟩ :=
    waitFor_header before legacy
  · refine ⟨none, r₁, ?_, kept, .inl ⟨rfl, few, waits⟩⟩
    rw [tryReadFragment, waited]
  · -- the header is that of the record
    have room : p.payload.length < 2 ^ 16 := by
      have bound := before.fits.1
      rw [isEnd, Placed.size] at bound
      unfold kBlockSize at bound
      omega
    have seen : slice r₁.backingStore r₁.data kHeaderSize =
        (physicalRecord crc32c logNumber p.type p.payload ++ tail).take kHeaderSize := by
      have stream : visible.drop p.pad ++ hidden = physicalRecord crc32c logNumber p.type p.payload ++ tail :=
        before'.stream
      rw [← stream, ← before'.here.bytes, append_assoc, take_append_of_le_length header]
      exact before'.here.slice_eq (i := 0) (by omega)
    have isType : headerType (slice r₁.backingStore r₁.data kHeaderSize) = p.type.toNat := by
      rw [seen, headerType_take, headerType_physicalRecord]
    have isLength : headerLength (slice r₁.backingStore r₁.data kHeaderSize) = p.payload.length := by
      rw [seen, headerLength_take, headerLength_physicalRecord _ _ _ _ _ room]
    obtain ⟨got, r', read, kept', result⟩ := tryReadPayload_fragment same before' isEnd legacy notZero header
      (kept.uncompress.trans uncompressed)
    refine ⟨got, r', ?_, kept.trans kept', ?_⟩
    · rw [tryReadFragment, waited]
      dsimp only
      rw [isType, isLength, if_neg (by rw [isRecyclableType_iff, legacy]; decide)]
      exact read
    · rw [length_drop] at result
      rcases result with ⟨none, _, waits⟩ | ⟨some, _, there⟩
      · exact .inl ⟨none, by omega, waits⟩
      · rw [drop_drop] at there
        exact .inr ⟨some, by omega, there⟩

/-! ## Records -/

/-- The reader stands in a record: it keeps what it has read of it, and the placed
records of the rest are visible or hidden. -/
structure Within (crc32c : Crc32c) (logNumber : Nat) (r : FragmentBufferedReader υ) (record : Bytes) (atBegin : Bool)
    (o : Nat) (ps : List Placed) (m : Nat) (visible hidden tail : Bytes) : Prop where
  laid : Laid false atBegin o ps m
  pads : ∀ p ∈ ps, p.pad < kHeaderSize
  here : At r o visible
  stream : visible ++ hidden = bytesOf crc32c logNumber ps ++ tail
  inside : r.inFragmentedRecord = !atBegin
  fresh : atBegin = true → r.fragments = []
  record : r.fragments ++ payloadOf ps = record
  uncompressed : r.uncompress = none

/-- The reader stands between two records. -/
structure Outside (r : FragmentBufferedReader υ) (o : Nat) (visible : Bytes) : Prop where
  here : At r o visible
  inside : r.inFragmentedRecord = false
  fresh : r.fragments = []
  uncompressed : r.uncompress = none

theorem Within.begin {record : Bytes} {ps : List Placed} (outside : Outside r o visible)
    (laid : Laid false true o ps m) (pads : ∀ p ∈ ps, p.pad < kHeaderSize)
    (stream : visible ++ hidden = bytesOf crc32c logNumber ps ++ tail) (isRecord : payloadOf ps = record) :
    Within crc32c logNumber r record true o ps m visible hidden tail :=
  ⟨laid, pads, outside.here, stream, outside.inside, fun _ => outside.fresh, by rw [outside.fresh]; exact isRecord,
    outside.uncompressed⟩

/-- The reader after it has returned a record. -/
def rested (r : FragmentBufferedReader υ) : FragmentBufferedReader υ :=
  { r with fragments := [], firstRecordRead := true, inFragmentedRecord := false }

theorem At.rested (there : At r o visible) (uncompressed : r.uncompress = none) : Outside (rested r) o visible :=
  ⟨⟨there.bytes, there.stored, there.data, there.partly, there.whole⟩, rfl, rfl, uncompressed⟩

section Rounds
variable {r' : FragmentBufferedReader υ} {got : PhysicalRecord}

theorem round_none (read : tryReadFragment options r = (none, r')) :
    readRecordRound options r = .leave (none, r') := by
  simp [readRecordRound, read]

variable (read : tryReadFragment options r = (some got, r'))
include read

private theorem round_full (isCase : caseOf got.recordType = .full) (outside : r'.inFragmentedRecord = false) :
    readRecordRound options r = .leave (some got.fragment, rested r') := by
  simp [readRecordRound, read, isCase, outside, rested]

private theorem round_first (isCase : caseOf got.recordType = .first)
    (outside : r'.inFragmentedRecord = false) (fresh : r'.fragments = []) :
    readRecordRound options r = .again { r' with fragments := got.fragment, inFragmentedRecord := true } := by
  simp [readRecordRound, read, isCase, outside, fresh]

private theorem round_middle (isCase : caseOf got.recordType = .middle) (inside : r'.inFragmentedRecord = true) :
    readRecordRound options r = .again { r' with fragments := r'.fragments ++ got.fragment } := by
  simp [readRecordRound, read, isCase, inside]

private theorem round_last (isCase : caseOf got.recordType = .last) (inside : r'.inFragmentedRecord = true) :
    readRecordRound options r = .leave (some (r'.fragments ++ got.fragment), rested r') := by
  simp [readRecordRound, read, isCase, inside, rested]

end Rounds

/-- What a call makes of a record with this many bytes left: it is returned when all of
it is visible, and else the reader waits inside of it. -/
abbrev Answers (options : LogReader.Options υ) (crc32c : Crc32c) (logNumber : Nat) (r : FragmentBufferedReader υ)
    (record : Bytes) (left m : Nat) (visible hidden tail : Bytes) : Prop :=
  ∃ got r', Returns (readRecordRound options) r (got, r') ∧ r'.reports = r.reports ∧
    (left ≤ visible.length ∧ got = some record ∧ Outside r' m (visible.drop left) ∨
      visible.length < left ∧ got = none ∧
        ∃ atBegin o ps visible', Within crc32c logNumber r' record atBegin o ps m visible' hidden tail)

/-- **A record is returned when all of it is visible.** -/
theorem returns_call (same : options.crc32c = crc32c)
    (within : Within crc32c logNumber r record atBegin o ps m visible hidden tail) :
    Answers options crc32c logNumber r record (bytesOf crc32c logNumber ps).length m visible hidden tail := by
  induction ps generalizing r atBegin o visible with
  | nil => cases within.laid
  | cons p ps ih =>
    obtain ⟨laid, pads, here, stream, inside, fresh, isRecord, uncompressed⟩ := within
    have fragment : ∃ atEnd e, p.type = fragmentType false atBegin atEnd ∧ p.Fits o e ∧
        (∀ q o', q.Fits o' e → q.type = p.type → Laid false atBegin o' (q :: ps) m) ∧
        (atEnd = true ∧ ps = [] ∧ e = m ∨ atEnd = false ∧ Laid false false e ps m) := by
      cases laid with
      | last fits type =>
        exact ⟨true, m, type, fits, fun _ _ fits' type' => .last fits' (type'.trans type), .inl ⟨rfl, rfl, rfl⟩⟩
      | more fits type rest =>
        exact ⟨false, _, type, fits, fun _ _ fits' type' => .more fits' (type'.trans type) rest, .inr ⟨rfl, rest⟩⟩
    obtain ⟨atEnd, e, isType, fits, relaid, isEnd⟩ := fragment
    have isFragment : IsFragment false p.type := ⟨_, _, isType⟩
    rw [bytesOf_cons, append_assoc] at stream
    rw [bytesOf_cons, length_append, length_bytes]
    obtain ⟨got, r', read, kept, ⟨rfl, few, q, o', visible', before, sameType, samePayload, _⟩ |
      ⟨rfl, whole, there⟩⟩ := tryReadFragment_placed same ⟨fits, pads p mem_cons_self, here, stream⟩
        isFragment.isLegacy isFragment.notZero uncompressed
    · refine ⟨none, r', .leave (round_none read), kept.reports, .inr ⟨by omega, rfl, atBegin, o', q :: ps, visible', ?_⟩⟩
      refine ⟨relaid q o' before.fits sameType, ?_, before.here, ?_, kept.inFragmentedRecord.trans inside,
        fun begins => kept.fragments.trans (fresh begins), ?_, kept.uncompress.trans uncompressed⟩
      · exact forall_mem_cons.mpr ⟨before.short, fun q member => pads q (mem_cons_of_mem _ member)⟩
      · rw [bytesOf_cons, append_assoc]
        exact before.stream
      · rw [kept.fragments, payloadOf_cons, samePayload]
        exact isRecord
    · have rest := drop_visible stream (length_bytes ..) whole
      have kept' := kept.uncompress.trans uncompressed
      have begun := kept.inFragmentedRecord.trans inside
      have isCase : caseOf p.type.toNat = _ := isType ▸ caseOf_fragmentType false atBegin atEnd
      rcases isEnd with ⟨rfl, rfl, rfl⟩ | ⟨rfl, laid⟩
      · -- the last part of the record
        have outside : Outside (rested r') e (visible.drop (p.pad + p.size + (bytesOf crc32c logNumber []).length)) :=
          there.rested kept'
        rw [payloadOf_cons, payloadOf_nil, append_nil] at isRecord
        cases atBegin with
        | true =>
          rw [fresh rfl, nil_append] at isRecord
          exact ⟨_, _, .leave (round_full read isCase begun), kept.reports,
            .inl ⟨whole, congrArg some isRecord, outside⟩⟩
        | false =>
          rw [← kept.fragments] at isRecord
          exact ⟨_, _, .leave (round_last read isCase begun), kept.reports,
            .inl ⟨whole, congrArg some isRecord, outside⟩⟩
      · have later {next : FragmentBufferedReader υ} (round : readRecordRound options r = .again next)
            (there' : At next e (visible.drop (p.pad + p.size))) (inside' : next.inFragmentedRecord = true)
            (isRecord' : next.fragments ++ payloadOf ps = record)
            (uncompressed' : next.uncompress = none) (reports' : next.reports = r.reports) :
            Answers options crc32c logNumber r record (p.pad + p.size + (bytesOf crc32c logNumber ps).length) m visible
              hidden tail := by
          obtain ⟨got, r'', returns, reports, result⟩ := ih ⟨laid, fun q member => pads q (mem_cons_of_mem _ member),
            there', rest, inside', nofun, isRecord', uncompressed'⟩
          refine ⟨got, r'', .again round returns, reports.trans reports', ?_⟩
          rw [length_drop, drop_drop] at result
          rcases result with ⟨_, isGot, outside⟩ | ⟨_, isGot, waits⟩
          · exact .inl ⟨by omega, isGot, outside⟩
          · exact .inr ⟨by omega, isGot, waits⟩
        have moved : At r' e (visible.drop (p.pad + p.size)) := there
        cases atBegin with
        | true =>
          rw [fresh rfl, nil_append, payloadOf_cons] at isRecord
          exact later (round_first read isCase begun (kept.fragments.trans (fresh rfl)))
            ⟨moved.bytes, moved.stored, moved.data, moved.partly, moved.whole⟩ rfl isRecord kept' kept.reports
        | false =>
          rw [← kept.fragments, payloadOf_cons, ← append_assoc] at isRecord
          exact later (round_middle read isCase begun)
            ⟨moved.bytes, moved.stored, moved.data, moved.partly, moved.whole⟩ begun isRecord kept' kept.reports

/-- Behind the last record nothing is returned. -/
theorem returns_nothing (options : LogReader.Options υ) (outside : Outside r o []) :
    ∃ o' r', Returns (readRecordRound options) r (none, r') ∧ r'.reports = r.reports ∧ Outside r' o' [] := by
  obtain ⟨here, inside, fresh, uncompressed⟩ := outside
  have waited : ∃ o' r', waitFor kHeaderSize r = (false, r') ∧ Kept r r' ∧ At r' o' [] := by
    by_cases near : kBlockSize < o + kHeaderSize
    · obtain ⟨r', kept, ⟨-, waited, there⟩ | ⟨-, waited, there, -⟩⟩ := waitFor_behind here near
      · exact ⟨o, r', waited, kept, there⟩
      · rw [drop_nil] at waited there
        exact ⟨0, r', waited, kept, there⟩
    · obtain ⟨r', waited, there, kept, -⟩ := waitFor_inside here (not_lt.mp near)
      exact ⟨o, r', waited, kept, there⟩
  obtain ⟨o', r', waited, kept, there⟩ := waited
  refine ⟨o', r', .leave (round_none (by rw [tryReadFragment, waited])), kept.reports, there, ?_, ?_, ?_⟩
  · exact kept.inFragmentedRecord.trans inside
  · exact kept.fragments.trans fresh
  · exact kept.uncompress.trans uncompressed

end Fragments

/-! ## Logs -/

/-- What a call should return when some bytes of the log are visible: the next
record if it ends among them. -/
def deliver : List (Bytes × Nat) → Nat → Option Bytes × List (Bytes × Nat)
  | [], _ => (none, [])
  | (record, isEnd) :: later, visible =>
    if isEnd ≤ visible then (some record, later) else (none, (record, isEnd) :: later)

/-- What calls should return, each of them after some more bytes have become
visible. -/
def delivered (pending : List (Bytes × Nat)) (visible : Nat) : List Bytes → List (Option Bytes)
  | [] => []
  | more :: mores =>
    (deliver pending (visible + more.length)).1 ::
      delivered (deliver pending (visible + more.length)).2 (visible + more.length) mores

section Logs
variable {woptions : LogWriter.Options ζ} {hidden : Bytes} {n : Nat}

/-- The reader is where it should be when `n` bytes are visible and some records
have not been returned yet. -/
inductive Follows (woptions : LogWriter.Options ζ) (hidden : Bytes) (n : Nat) (r : FragmentBufferedReader υ) :
    List (Bytes × Nat) → Prop where
  | done {o : Nat} (outside : Outside r o []) (nothing : hidden = []) : Follows woptions hidden n r []
  | within {record : Bytes} {atBegin : Bool} {o isEnd : Nat} {ps : List Placed} {next w' : Writer ζ}
      {items : List (Bytes × List Placed)} {visible : Bytes}
      (within : Within woptions.crc32c woptions.logNumber r record atBegin o ps next.blockOffset visible hidden
        (itemBytes woptions.crc32c woptions.logNumber items))
      (laidOut : LaidOut woptions next items w') (isPlain : next.compress = none)
      (count : n + (bytesOf woptions.crc32c woptions.logNumber ps).length = isEnd + visible.length) :
      Follows woptions hidden n r ((record, isEnd) ::
        (recordsOf items).zip (endsFrom woptions.crc32c woptions.logNumber isEnd items))

theorem Follows.grow (follows : Follows woptions (more ++ hidden) n r pending) :
    Follows woptions hidden (n + more.length) (r.grow more) pending := by
  cases follows with
  | done outside nothing =>
    obtain ⟨rfl, rfl⟩ := append_eq_nil_iff.mp nothing
    exact .done ⟨outside.here.grow [], outside.inside, outside.fresh, outside.uncompressed⟩ rfl
  | within within laidOut isPlain =>
    obtain ⟨laid, pads, here, stream, inside, fresh, isRecord, uncompressed⟩ := within
    refine .within ⟨laid, pads, here.grow more, ?_, inside, fresh, isRecord, uncompressed⟩ laidOut isPlain ?_
    · rw [append_assoc, stream]
    · rw [length_append]
      omega

/-- The end of a block is the beginning of the next one. -/
theorem laid_edge (laid : Laid recycle atBegin 0 ps m)
    (pads : ∀ p ∈ ps, p.pad < kHeaderSize) : Laid recycle atBegin kBlockSize ps m := by
  have moved {p : Placed} {e : Nat} (fits : p.Fits 0 e) (short : p.pad < kHeaderSize) : p.Fits kBlockSize e := by
    obtain ⟨inBlock, ⟨none, _⟩ | ⟨_, -⟩⟩ := fits
    · exact ⟨inBlock, .inr ⟨by rw [none, Nat.add_zero], by omega⟩⟩
    · unfold kBlockSize kHeaderSize at *
      omega
  cases laid with
  | last fits type => exact .last (moved fits (pads _ mem_cons_self)) type
  | more fits type rest => exact .more (moved fits (pads _ mem_cons_self)) type rest

/-- Between two records. -/
theorem follows_outside (legacy : woptions.recycleLogFiles = false) {w w' : Writer ζ}
    (laidOut : LaidOut woptions w items w') (isPlain : w.compress = none)
    (outside : Outside r o visible) (isOffset : o = w.blockOffset ∨ o = kBlockSize ∧ w.blockOffset = 0)
    (stream : visible ++ hidden = itemBytes woptions.crc32c woptions.logNumber items)
    (count : n = start + visible.length) :
    Follows woptions hidden n r
      ((recordsOf items).zip (endsFrom woptions.crc32c woptions.logNumber start items)) := by
  cases laidOut with
  | nil =>
    obtain ⟨rfl, rfl⟩ := append_eq_nil_iff.mp stream
    exact .done outside rfl
  | @cons _ next _ record ps items added emitted later =>
    have pads : ∀ p ∈ ps, p.pad < kHeaderSize := by
      simpa [Options.headerSize, legacy] using emitted.pads
    have laid : Laid false true o ps next.blockOffset := by
      rw [← legacy]
      rcases isOffset with rfl | ⟨rfl, isZero⟩
      · exact emitted.laid
      · exact laid_edge (isZero ▸ emitted.laid) pads
    exact .within (.begin outside laid pads stream emitted.payload) later (emitted_plain isPlain emitted)
      (by dsimp only; omega)

theorem Follows.uncompressed (follows : Follows woptions hidden n r pending) : r.uncompress = none := by
  cases follows with
  | done outside => exact outside.uncompressed
  | within within => exact within.uncompressed

private theorem readsRecord_iff (uncompressed : r.uncompress = none) :
    ReadsRecord options r got r' ↔ Returns (readRecordRound options) r (got, r') := by
  have start : readRecordStart options r = r := by
    rw [readRecordStart, uncompressed, Option.map_none, ← uncompressed]
  rw [ReadsRecord, start]

/-- One call returns what it should. -/
theorem Follows.call (same : options.crc32c = woptions.crc32c) (legacy : woptions.recycleLogFiles = false)
    (follows : Follows woptions hidden n r pending) :
    ∃ r', ReadsRecord options r (deliver pending n).1 r' ∧ r'.reports = r.reports ∧
      Follows woptions hidden n r' (deliver pending n).2 := by
  have start := follows.uncompressed
  simp only [readsRecord_iff start]
  cases follows with
  | done outside nothing =>
    obtain ⟨_, r', returns, reports, outside'⟩ := returns_nothing options outside
    exact ⟨r', returns, reports, .done outside' nothing⟩
  | @within record _ _ isEnd ps next _ items visible within laidOut isPlain count =>
    have stream := within.stream
    obtain ⟨_, r', returns, reports, ⟨whole, rfl, outside⟩ | ⟨_, rfl, _, _, _, _, within'⟩⟩ :=
      returns_call same within
    · rw [deliver, if_pos (by omega)]
      refine ⟨r', returns, reports, follows_outside legacy laidOut isPlain outside (.inl rfl)
        (drop_visible stream rfl whole) ?_⟩
      rw [length_drop]
      omega
    · rw [deliver, if_neg (by omega)]
      refine ⟨r', returns, reports, .within within' laidOut isPlain ?_⟩
      have before := congrArg length stream
      have after := congrArg length within'.stream
      simp only [length_append] at before after
      omega

/-- All calls return what they should. -/
theorem Follows.tails (same : options.crc32c = woptions.crc32c) (legacy : woptions.recycleLogFiles = false)
    (follows : Follows woptions (mores.flatten ++ hidden) n r pending) :
    ∃ r', Tails options r mores (delivered pending n mores) r' ∧ r'.reports = r.reports := by
  induction mores generalizing r n pending with
  | nil => exact ⟨r, .done, rfl⟩
  | cons _ _ ih =>
    rw [flatten_cons, append_assoc] at follows
    obtain ⟨next, read, reports, follows'⟩ := follows.grow.call same legacy
    obtain ⟨r', later, reports'⟩ := ih follows'
    exact ⟨r', .call read later, reports'.trans reports⟩

end Logs

/-! ## What is delivered -/

theorem deliver_append (pending : List (Bytes × Nat)) (visible : Nat) :
    (deliver pending visible).1.toList ++ (deliver pending visible).2.map Prod.fst = pending.map Prod.fst := by
  cases pending with
  | nil => rfl
  | cons =>
    rw [deliver]
    split <;> rfl

private theorem deliver_suffix (pending : List (Bytes × Nat)) (visible : Nat) :
    (deliver pending visible).2 <:+ pending := by
  cases pending with
  | nil => exact suffix_refl _
  | cons =>
    rw [deliver]
    split
    · exact suffix_cons _ _
    · exact suffix_refl _

theorem reduceOption_cons (record : Option Bytes) (records : List (Option Bytes)) :
    (record :: records).reduceOption = record.toList ++ records.reduceOption := by
  cases record <;> rfl

/-- Records are delivered in order and at most once. -/
theorem delivered_initial (pending : List (Bytes × Nat)) (visible : Nat) (mores : List Bytes) :
    (delivered pending visible mores).reduceOption <+: pending.map Prod.fst := by
  induction mores generalizing pending visible with
  | nil => exact nil_prefix
  | cons more _ ih =>
    rw [← deliver_append pending (visible + more.length), delivered, reduceOption_cons, prefix_append_right_inj]
    exact ih _ _

/-- Calls after the whole log has become visible deliver all that is left. -/
theorem delivered_rest {visible calls : Nat}
    (all : ∀ record ∈ pending, record.2 ≤ visible) (enough : pending.length ≤ calls) :
    (delivered pending visible (replicate calls [])).reduceOption = pending.map Prod.fst := by
  induction pending generalizing calls with
  | nil => exact prefix_nil.mp (delivered_initial [] visible _)
  | cons _ later ih =>
    obtain ⟨first, others⟩ := forall_mem_cons.mp all
    obtain ⟨calls, rfl⟩ := Nat.exists_eq_add_of_le enough
    have one : later.length + 1 + calls = later.length + calls + 1 := by omega
    rw [length_cons, one, replicate_succ, delivered, deliver, length_nil, Nat.add_zero, if_pos first,
      reduceOption_cons, ih others (Nat.le_add_right _ _)]
    rfl

/-- Every record is delivered. -/
theorem delivered_all {visible calls : Nat} {mores : List Bytes}
    (all : ∀ record ∈ pending, record.2 ≤ visible + mores.flatten.length) (enough : pending.length ≤ calls) :
    (delivered pending visible (mores ++ replicate calls [])).reduceOption = pending.map Prod.fst := by
  induction mores generalizing pending visible with
  | nil => exact delivered_rest all enough
  | cons more _ ih =>
    have suffix := deliver_suffix pending (visible + more.length)
    rw [cons_append, delivered, reduceOption_cons, ih _ (suffix.length_le.trans enough), deliver_append]
    intro record member
    have bound := all record (suffix.subset member)
    rw [flatten_cons, length_append] at bound
    omega

private theorem endsFrom_le :
    ∀ isEnd ∈ endsFrom crc32c logNumber start items, isEnd ≤ start + (itemBytes crc32c logNumber items).length := by
  induction items generalizing start with
  | nil => exact fun _ none => absurd none not_mem_nil
  | cons _ _ ih =>
    intro isEnd member
    rw [itemBytes_cons, length_append]
    rcases mem_cons.mp member with rfl | member
    · omega
    · have bound := ih isEnd member
      omega

private theorem length_endsFrom : (endsFrom crc32c logNumber start items).length = items.length := by
  induction items generalizing start with
  | nil => rfl
  | cons _ _ ih => rw [endsFrom, length_cons, ih, length_cons]

/-- **Following a log loses nothing.** However the file becomes visible between the
calls of `ReadRecord`, a call returns the next record if all of it is visible and
nothing otherwise, and nothing is reported. So the records come in order, each at
most once, and all of them once the log is visible and calls go on. -/
theorem tailed_log_reads (log : LegacyLog ζ υ) (records : List Bytes) :
    ∃ ends w, Writes log.writer (addCompressionTypeRecord log.writer .new) (records.map .record) ends w ∧
      ∀ mores : List Bytes, mores.flatten <+: w.dest →
        (∃ r, Tails log.reader (.new []) mores (delivered (records.zip ends) 0 mores) r ∧ r.reports = []) ∧
        (delivered (records.zip ends) 0 mores).reduceOption <+: records ∧
        (mores.flatten = w.dest → ∀ calls ≥ records.length,
          (delivered (records.zip ends) 0 (mores ++ List.replicate calls [])).reduceOption = records) := by
  obtain ⟨items, w, rfl, laidOut⟩ := exists_laidOut log.writer records (w := .new) rfl (Nat.zero_le _)
  have written : w.dest = itemBytes log.writer.crc32c log.writer.logNumber items := laidOut.dest
  have names : ((recordsOf items).zip (endsFrom log.writer.crc32c log.writer.logNumber 0 items)).map Prod.fst =
      recordsOf items := map_fst_zip (by rw [length_endsFrom, recordsOf, length_map])
  refine ⟨_, w, by rw [log.start]; exact laidOut.writes, fun mores initial => ?_⟩
  obtain ⟨hidden, visible⟩ := initial
  refine ⟨?_, ?_, fun whole _ _ => ?_⟩
  · have outside : Outside (.new [] : FragmentBufferedReader υ) kBlockSize [] := ⟨at_new [], rfl, rfl, rfl⟩
    have follows : Follows log.writer (mores.flatten ++ hidden) 0 (.new [] : FragmentBufferedReader υ) _ :=
      follows_outside log.legacy laidOut rfl outside (.inr ⟨rfl, rfl⟩) (visible.trans written) rfl
    exact follows.tails log.crc32c log.legacy
  · have inOrder := delivered_initial ((recordsOf items).zip
      (endsFrom log.writer.crc32c log.writer.logNumber 0 items)) 0 mores
    rw [names] at inOrder
    exact inOrder
  · refine (delivered_all (fun _ member => ?_) ?_).trans names
    · rw [whole, written]
      exact endsFrom_le _ (of_mem_zip member).2
    · rw [length_zip]
      omega

/-- A log that becomes visible in two parts, cut anywhere. -/
theorem tailed_log_reads_in_two_parts : ∃ ends w,
    Writes legacyLog.writer (addCompressionTypeRecord legacyLog.writer .new)
        ([[5], replicate 70000 1].map .record) ends w ∧
      ∀ cut, (∃ r, Tails legacyLog.reader (.new []) [w.dest.take cut, w.dest.drop cut]
          (delivered ([[5], replicate 70000 1].zip ends) 0 [w.dest.take cut, w.dest.drop cut]) r ∧ r.reports = []) ∧
        (delivered ([[5], replicate 70000 1].zip ends) 0 ([w.dest.take cut, w.dest.drop cut] ++
          List.replicate 2 [])).reduceOption = [[5], replicate 70000 1] := by
  obtain ⟨ends, w, writes, follows⟩ := tailed_log_reads legacyLog [[5], replicate 70000 1]
  refine ⟨ends, w, writes, fun cut => ?_⟩
  have whole : [w.dest.take cut, w.dest.drop cut].flatten = w.dest := by simp
  obtain ⟨tails, -, all⟩ := follows [w.dest.take cut, w.dest.drop cut] (by simp)
  exact ⟨tails, all whole 2 le_rfl⟩

/-! ## Any file -/

section Progress
variable {options : LogReader.Options υ} {r' : FragmentBufferedReader υ}

/-- How many bytes the reader has not passed yet. -/
def unread (r : FragmentBufferedReader υ) : Nat := r.buffer.length + r.file.length

private theorem unread_tryReadMore (r : FragmentBufferedReader υ) : unread (tryReadMore r) ≤ unread r := by
  unfold tryReadMore unread
  split
  · simp only [length_take, length_drop]
    omega
  · simp only [unmarkEOF, length_append, length_take, length_drop]
    omega

private theorem file_tryReadMore (r : FragmentBufferedReader υ) : (tryReadMore r).file.length ≤ r.file.length := by
  unfold tryReadMore
  split <;> simp only [unmarkEOF, length_drop] <;> omega

theorem unread_waitFor (waited : waitFor n r = (found, r')) :
    unread r' ≤ unread r ∧ r'.file.length ≤ r.file.length ∧ (found = true → n ≤ r'.buffer.length) := by
  induction r using waitFor.induct n with
  | case1 r few stuck =>
    rw [waitFor, if_pos few, dif_pos stuck] at waited
    cases waited
    exact ⟨unread_tryReadMore r, file_tryReadMore r, nofun⟩
  | case2 r few moved ih =>
    rw [waitFor, if_pos few, dif_neg moved] at waited
    obtain ⟨less, file, enough⟩ := ih waited
    exact ⟨less.trans (unread_tryReadMore r), file.trans (file_tryReadMore r), enough⟩
  | case3 _ enough =>
    rw [waitFor, if_neg enough] at waited
    cases waited
    exact ⟨le_rfl, le_rfl, fun _ => not_lt.mp enough⟩

/-- What was waited for came from the file. -/
theorem file_waitFor (few : r.buffer.length < n) (waited : waitFor n r = (true, r')) :
    r'.file.length < r.file.length := by
  induction r using waitFor.induct n with
  | case1 r few stuck =>
    rw [waitFor, if_pos few, dif_pos stuck] at waited
    cases waited
  | case2 r few moved ih =>
    rw [waitFor, if_pos few, dif_neg moved] at waited
    rcases tryReadMore_shrinks moved with shrinks | ⟨same, notEof, -⟩
    · exact (unread_waitFor waited).2.1.trans_lt shrinks
    · -- the file is at its end, and the buffer is empty
      have empty : (tryReadMore r).buffer.length < n := by
        rw [tryReadMore, if_pos (by simp [notEof])] at same ⊢
        simp only [length_drop, length_take] at same ⊢
        unfold kBlockSize at same ⊢
        omega
      exact (ih empty waited).trans_le same.le
  | case3 _ enough => exact absurd few enough

theorem waitFor_enough (enough : n ≤ r.buffer.length) : waitFor n r = (true, r) := by
  rw [waitFor, if_neg (not_lt.mpr enough)]

theorem takeFragment_shrinks {r r' : Reader υ} (taken : takeFragment options r type payload = (got, r')) :
    r'.buffer.length ≤ r.buffer.length ∧ r'.file = r.file := by
  unfold takeFragment at taken
  split at taken
  · cases taken
    exact ⟨le_rfl, rfl⟩
  · split at taken
    · cases taken
      exact ⟨le_rfl, rfl⟩
    · split at taken <;> cases taken
      · exact ⟨Nat.zero_le _, rfl⟩
      · exact ⟨le_rfl, rfl⟩

private theorem file_tryReadPayload {header headerSize type length : Nat}
    (read : tryReadPayload options r header headerSize type length = (some got, r')) :
    r'.file.length ≤ r.file.length := by
  unfold tryReadPayload at read
  split at read
  · cases read
  next waited =>
  refine le_trans ?_ (unread_waitFor waited).2.1
  split at read
  · cases read
    exact le_rfl
  · split at read
    · cases read
      exact le_rfl
    · split at read
      next taken =>
      cases read
      rw [(takeFragment_shrinks taken).2]

/-- Behind the header, a fragment or an error passes the header. -/
theorem unread_tryReadPayload {header headerSize type length : Nat} (positive : 0 < headerSize)
    (read : tryReadPayload options r header headerSize type length = (some got, r')) : unread r' < unread r := by
  unfold tryReadPayload at read
  split at read
  · cases read
  next r waited =>
  obtain ⟨le, -, enough⟩ := unread_waitFor waited
  have enough := enough rfl
  have cleared : unread r.clear < unread r := by
    simp only [unread, FragmentBufferedReader.clear, length_nil]
    omega
  refine lt_of_lt_of_le ?_ le
  split at read
  · cases read
    exact cleared
  · split at read
    · cases read
      exact cleared
    · split at read
      next taken =>
      cases read
      obtain ⟨shorter, file⟩ := takeFragment_shrinks taken
      rw [length_drop] at shorter
      simp only [unread, file]
      omega

/-- The buffer begins with a recyclable header that the reader turns down and does not
pass: the log did not start with a recyclable record, or the record is of another log. -/
def TurnsDown (options : LogReader.Options υ) (r : FragmentBufferedReader υ) : Prop :=
  kHeaderSize ≤ r.buffer.length ∧ isRecyclableType (headerType (slice r.backingStore r.data kHeaderSize)) = true ∧
    ((r.firstRecordRead && !r.recycled) = true ∨
      kRecyclableHeaderSize ≤ r.buffer.length ∧ decode (slice r.backingStore (r.data + 7) 4) ≠ options.logNumber)

/-- The bytes not passed yet, those not read yet counted twice: a round that only reads
more bytes lowers it too. -/
def remaining (r : FragmentBufferedReader υ) : Nat := unread r + r.file.length

private theorem remaining_waitFor (waited : waitFor n r = (true, r')) :
    remaining r' ≤ remaining r ∧ (r.buffer.length < n → remaining r' < remaining r) := by
  obtain ⟨less, file, -⟩ := unread_waitFor waited
  unfold remaining
  exact ⟨by omega, fun few => by have := file_waitFor few waited; omega⟩

private theorem remaining_tryReadPayload {header headerSize type length : Nat} (positive : 0 < headerSize)
    (read : tryReadPayload options r header headerSize type length = (some got, r')) : remaining r' < remaining r := by
  have := unread_tryReadPayload positive read
  have := file_tryReadPayload read
  unfold remaining
  omega

private theorem remaining_tryReadFragment (read : tryReadFragment options r = (some got, r'))
    (passes : ¬ TurnsDown options r) :
    remaining r' < remaining r := by
  unfold tryReadFragment at read
  split at read
  · cases read
  next header waited =>
  obtain ⟨le, less⟩ := remaining_waitFor waited
  have here (enough : kHeaderSize ≤ r.buffer.length) : header = r := by
    rw [waitFor_enough enough] at waited
    cases waited
    rfl
  dsimp only at read
  split at read
  · next recyclable =>
    split at read
    · next late =>
      -- the header was not in the buffer yet
      cases read
      refine less (not_le.mp fun enough => passes ?_)
      rw [here enough] at recyclable late
      exact ⟨enough, recyclable, .inl late⟩
    · split at read
      · cases read
      next longer waited' =>
      obtain ⟨le', less'⟩ := remaining_waitFor waited'
      have le' : remaining longer ≤ remaining header := le'
      split at read
      · next old =>
        cases read
        by_cases enough : kRecyclableHeaderSize ≤ r.buffer.length
        · have short : kHeaderSize ≤ r.buffer.length := le_trans (by decide) enough
          obtain rfl := here short
          have same : r' = { header with recycled := true } := by
            have kept : waitFor kRecyclableHeaderSize { header with recycled := true } = _ := waitFor_enough enough
            rw [kept] at waited'
            cases waited'
            rfl
          rw [same] at old
          exact absurd ⟨short, recyclable, .inr ⟨enough, old⟩⟩ passes
        · by_cases short : r.buffer.length < kHeaderSize
          · exact le'.trans_lt (less short)
          · obtain rfl := here (not_lt.mp short)
            exact less' (not_le.mp enough)
      · exact (remaining_tryReadPayload (by decide) read).trans_le (le'.trans le)
  · exact (remaining_tryReadPayload (by decide) read).trans_le le

/-- A header that is turned down is found again in the next round. -/
theorem tryReadFragment_turnsDown (turned : TurnsDown options r) :
    ∃ got next, tryReadFragment options r = (some got, next) ∧
      (caseOf got.recordType = .badRecord ∨ caseOf got.recordType = .oldRecord) ∧ TurnsDown options next := by
  obtain ⟨enough, recyclable, why⟩ := turned
  have header : waitFor kHeaderSize r = (true, r) := waitFor_enough enough
  by_cases late : (r.firstRecordRead && !r.recycled) = true
  · refine ⟨⟨kBadRecord, [], 0⟩, r, ?_, .inl (by decide), enough, recyclable, .inl late⟩
    simp only [tryReadFragment, header, if_pos recyclable, if_pos late]
  · obtain ⟨room, other⟩ := why.resolve_left late
    have longer : waitFor kRecyclableHeaderSize { r with recycled := true } = (true, { r with recycled := true }) :=
      waitFor_enough room
    refine ⟨⟨kOldRecord, [], 0⟩, { r with recycled := true }, ?_, .inr (by decide), enough, recyclable,
      .inr ⟨room, other⟩⟩
    simp only [tryReadFragment, header, if_pos recyclable, if_neg late, longer, if_pos other]

/-- What a reader holds of the file. -/
def held (r : FragmentBufferedReader υ) : Bytes × Bytes × Bool × Nat × (Nat → UInt8) × Nat :=
  (r.file, r.buffer, r.eof, r.eofOffset, r.backingStore, r.data)

private theorem held_setCompressionType (fragment : Bytes) :
    held { r with toReader := setCompressionType options r.toReader fragment } = held r := by
  unfold setCompressionType
  dsimp only
  split <;> split <;> split <;> rfl

private theorem held_userDefinedTimestampSize (fragment : Bytes) :
    held { r with toReader := userDefinedTimestampSize r.toReader fragment } = held r := by
  unfold userDefinedTimestampSize
  dsimp only
  cases (updateRecordedTimestampSize _ _).1 <;> split <;> rfl

private theorem held_drop (r : FragmentBufferedReader υ) : held r.drop = held r := by
  unfold FragmentBufferedReader.drop
  split <;> rfl

/-- A round that is not the last one leaves the bytes as `TryReadFragment` does. -/
theorem round_again (again : readRecordRound options r = .again r') :
    ∃ got next, tryReadFragment options r = (some got, next) ∧ held r' = held next := by
  unfold readRecordRound at again
  split at again
  · cases again
  next got next read =>
  refine ⟨got, next, read, ?_⟩
  cases isCase : caseOf got.recordType <;> simp only [isCase] at again
  case full => cases again
  case first =>
    cases again
    split <;> rfl
  case middle => split at again <;> cases again <;> rfl
  case last =>
    split at again <;> cases again
    rfl
  case setCompressionType =>
    cases again
    exact held_setCompressionType got.fragment
  case userDefinedTimestampSize =>
    cases again
    exact held_userDefinedTimestampSize got.fragment
  case badRecordChecksum =>
    split at again <;> cases again
    exact held_drop _
  case badRecordLen | unknown =>
    cases again
    rfl
  all_goals
    cases again
    exact held_drop next

/-- A round of the loop is followed by another one. -/
abbrev GoesOn (options : LogReader.Options υ) (r r' : FragmentBufferedReader υ) : Prop :=
  readRecordRound options r = .again r'

/-- The fragments that are given up do not matter to the header. -/
theorem turnsDown_drop (turned : TurnsDown options r) : TurnsDown options r.drop := by
  unfold FragmentBufferedReader.drop
  split <;> exact turned

theorem goesOn_turnsDown (turned : TurnsDown options r) : ∃ r', GoesOn options r r' ∧ TurnsDown options r' := by
  obtain ⟨_, next, read, isCase, again⟩ := tryReadFragment_turnsDown turned
  refine ⟨next.drop, ?_, turnsDown_drop again⟩
  rcases isCase with isCase | isCase <;> rw [GoesOn, readRecordRound, read] <;> simp only [isCase]

/-- **`ReadRecord` returns**, whatever the file holds, exactly when none of its rounds
begins at a header that it turns down: every other round passes or reads some bytes. -/
theorem read_record_returns (options : LogReader.Options υ) (r : FragmentBufferedReader υ) :
    (∃ record r', ReadsRecord options r record r') ↔
      ∀ next, Relation.ReflTransGen (GoesOn options) (readRecordStart options r) next → ¬ TurnsDown options next := by
  constructor
  · rintro ⟨record, r', returns⟩ next reached turned
    refine not_returns_of_cycle (P := fun s => ∃ t, Relation.ReflTransGen (GoesOn options) s t ∧ TurnsDown options t)
      ?_ ⟨next, reached, turned⟩ _ returns
    rintro s ⟨t, reached, turned⟩
    rcases reached.cases_head with rfl | ⟨s', again, later⟩
    · obtain ⟨s', again, turned⟩ := goesOn_turnsDown turned
      exact ⟨s', again, s', .refl, turned⟩
    · exact ⟨s', again, t, later, turned⟩
  · intro passes
    have progress : ∀ s s', Relation.ReflTransGen (GoesOn options) (readRecordStart options r) s → GoesOn options s s' →
        Relation.ReflTransGen (GoesOn options) (readRecordStart options r) s' ∧ remaining s' < remaining s := by
      intro s _ reached again
      obtain ⟨got, next, read, same⟩ := round_again again
      simp only [held, Prod.mk.injEq] at same
      refine ⟨reached.tail again, ?_⟩
      rw [remaining, unread, same.1, same.2.1]
      exact remaining_tryReadFragment read (passes s reached)
    obtain ⟨⟨record, r'⟩, returns⟩ := returns_of_measure remaining progress .refl
    exact ⟨record, r', returns⟩

/-- A round that has to read first. -/
theorem round_more (few : r.buffer.length < kHeaderSize) (moved : r.buffer.length ≠ (tryReadMore r).buffer.length) :
    readRecordRound options r = readRecordRound options (tryReadMore r) := by
  have header : waitFor kHeaderSize r = waitFor kHeaderSize (tryReadMore r) := by rw [waitFor, if_pos few, dif_neg moved]
  have same : tryReadFragment options r = tryReadFragment options (tryReadMore r) := by
    unfold tryReadFragment
    rw [header]
  rw [readRecordRound, same, readRecordRound]

/-- A header of log 0. -/
def otherHeader : Bytes := [0, 0, 0, 0, 0, 0, 5, 0, 0, 0, 0]

/-- A record of log 1, and behind it a header that will be turned down. -/
def ownFile : Bytes := physicalRecord castagnoli 1 .kRecyclableFullType [7] ++ otherHeader

private theorem own_round_leaves :
    ∃ b, readRecordRound (plainLog 1 true).reader (tryReadMore (.new ownFile)) = .leave b := by
  set r : FragmentBufferedReader Unit := tryReadMore (.new ownFile)
  have header : waitFor kHeaderSize r = (true, r) := waitFor_enough (by decide +kernel)
  have longer : waitFor kRecyclableHeaderSize { r with recycled := true } = (true, { r with recycled := true }) :=
    waitFor_enough (by decide +kernel)
  have recyclable : isRecyclableType (headerType (slice r.backingStore r.data kHeaderSize)) = true := by decide +kernel
  have same : ¬ decode (slice r.backingStore (r.data + 7) 4) ≠ (plainLog 1 true).reader.logNumber := by decide +kernel
  have early : ¬ (r.firstRecordRead && !r.recycled) = true := by decide +kernel
  have whole : waitFor (kRecyclableHeaderSize + headerLength (slice r.backingStore r.data kHeaderSize))
      { r with recycled := true } = (true, { r with recycled := true }) := waitFor_enough (by decide +kernel)
  have good : ¬ ((plainLog 1 true).reader.checksum = true ∧ (plainLog 1 true).reader.crc32c.value
      (slice r.backingStore (r.data + 6) (headerLength (slice r.backingStore r.data kHeaderSize) +
        kRecyclableHeaderSize - 6)) ≠ unmask (UInt32.ofNat (decode (slice r.backingStore r.data 4)))) := by
    decide +kernel
  have typed : ¬ (headerType (slice r.backingStore r.data kHeaderSize) = RecordType.kZeroType.toNat ∧
      headerLength (slice r.backingStore r.data kHeaderSize) = 0) := by decide +kernel
  simp only [readRecordRound, tryReadFragment, header, if_pos recyclable, if_neg early, longer, if_neg same,
    tryReadPayload, whole, if_neg typed, if_neg good]
  exact ⟨_, rfl⟩

/-- The call that returns the record of its own log does not come to the header behind it. -/
theorem read_record_returns_own : ∃ record r', ReadsRecord (plainLog 1 true).reader (.new ownFile) record r' := by
  refine (read_record_returns (plainLog 1 true).reader (.new ownFile)).mpr fun next reached => ?_
  rcases reached.cases_head with rfl | ⟨r, again, -⟩
  · exact fun turned => absurd turned.1 (by decide)
  · obtain ⟨_, left⟩ := own_round_leaves
    rw [← round_more (by decide) (by decide +kernel)] at left
    cases left.symm.trans again

/-- **A record of another log is never passed.** -/
theorem other_log_never_returns : ¬ ∃ record r', ReadsRecord (plainLog 1 true).reader (.new otherHeader) record r' := by
  rintro ⟨_, _, returns⟩
  have turned : TurnsDown (plainLog 1 true).reader (tryReadMore (.new otherHeader)) :=
    ⟨by decide, by decide, .inr ⟨by decide, by decide⟩⟩
  exact not_returns_of_cycle (fun _ => goesOn_turnsDown) turned _
    (returns.of_round_eq (round_more (by decide) (by decide)))

end Progress
end Rocksdb.LogTailingProofs
