import Rocksdb.LogWriter
import Rocksdb.LogReader

/-! How physical records lie in a log. A placed record has the zeros in front of
it with it, and it either follows the record before it in the same block or
fills that block up and begins a new one. Where a reader stands in such a log is
one position: everything else of its buffer follows from the position. -/
namespace Rocksdb.LogLayout
open Lib.LittleEndian LogFormat LogWriter LogReader
open List hiding tail

variable {υ : Type}

/-! ## Placed records -/

/-- A physical record and the zeros in front of it. -/
structure Placed where
  pad : Nat
  type : RecordType
  payload : Bytes

/-- The size of the header of a type. -/
def headerSizeOf (t : RecordType) : Nat := if isLegacy t then kHeaderSize else kRecyclableHeaderSize

/-- The size without the zeros. -/
def Placed.size (p : Placed) : Nat := headerSizeOf p.type + p.payload.length

def Placed.bytes (crc32c : Crc32c) (logNumber : Nat) (p : Placed) : Bytes :=
  zeros p.pad ++ physicalRecord crc32c logNumber p.type p.payload

/-- The record is placed from one offset to another: it follows at once, or after
the end of the block. -/
def Placed.Fits (p : Placed) (o e : Nat) : Prop :=
  e ≤ kBlockSize ∧ (p.pad = 0 ∧ e = o + p.size ∨ o + p.pad = kBlockSize ∧ e = p.size)

@[simp] theorem length_physicalRecord (crc32c : Crc32c) (logNumber : Nat) (t : RecordType) (payload : Bytes) :
    (physicalRecord crc32c logNumber t payload).length = headerSizeOf t + payload.length := by
  unfold physicalRecord headerSizeOf kHeaderSize kRecyclableHeaderSize
  cases isLegacy t <;> simp <;> omega

@[simp] theorem length_zeros (n : Nat) : (zeros n).length = n := length_replicate

@[simp] theorem length_bytes (crc32c : Crc32c) (logNumber : Nat) (p : Placed) :
    (p.bytes crc32c logNumber).length = p.pad + p.size := by
  simp [Placed.bytes, Placed.size]

/-! ## Positions of a reader -/

/-- The reader at an offset of a block, with some bytes to come. -/
def readerAt (r : Reader υ) (o : Nat) (rest : Bytes) : Reader υ :=
  { r with
    buffer := rest.take (kBlockSize - o)
    file := rest.drop (kBlockSize - o)
    eof := decide (rest.length < kBlockSize - o)
    eofOffset := if rest.length < kBlockSize - o then o + rest.length else 0 }

theorem new_eq_readerAt (file : Bytes) : (Reader.new file : Reader υ) = readerAt (.new file) kBlockSize file := by
  simp [readerAt, Reader.new]

variable {r : Reader υ}

theorem buffer_readerAt (room : o + bytes.length ≤ kBlockSize) :
    (readerAt r o (bytes ++ tail)).buffer = bytes ++ tail.take (kBlockSize - o - bytes.length) := by
  simp only [readerAt]
  rw [take_append, take_of_length_le (by omega)]

private theorem drop_buffer (inBlock : o + n ≤ kBlockSize) (enough : n ≤ rest.length) :
    { readerAt r o rest with buffer := (readerAt r o rest).buffer.drop n } = readerAt r (o + n) (rest.drop n) := by
  have left : kBlockSize - o = n + (kBlockSize - (o + n)) := by omega
  have eof : rest.length < kBlockSize - o ↔ rest.length - n < kBlockSize - (o + n) := by omega
  simp only [readerAt, drop_take, drop_drop, length_drop, ← left, eof]
  congr 1
  · congr 1
    omega
  · split <;> omega

theorem clear_buffer (full : kBlockSize - o ≤ rest.length) :
    { readerAt r o rest with buffer := [] } = readerAt r kBlockSize (rest.drop (kBlockSize - o)) := by
  simp [readerAt, not_lt.mpr full]

theorem clear_buffer_eof (short : rest.length < kBlockSize - o) :
    { readerAt r o rest with buffer := [] } = readerAt r (o + rest.length) [] := by
  have more : 0 < kBlockSize - (o + rest.length) := by omega
  simp [readerAt, short, more, drop_eq_nil_of_le short.le]

theorem readMore_readerAt (full : kBlockSize - o ≤ rest.length) :
    readMore (readerAt r o rest) = (none, readerAt r 0 (rest.drop (kBlockSize - o))) := by
  unfold readMore
  have notEof : (readerAt r o rest).eof = false := decide_eq_false (not_lt.mpr full)
  rw [if_pos (by simp [notEof])]
  simp only [readerAt, Nat.sub_zero, length_take, Nat.zero_add]
  by_cases short : (rest.drop (kBlockSize - o)).length < kBlockSize
  · rw [if_pos (by omega), if_pos short, decide_eq_true short, Nat.min_eq_right short.le]
  · rw [if_neg (by omega), if_neg short, decide_eq_false short, decide_eq_false (not_lt.mpr full),
      if_neg (not_lt.mpr full)]

theorem readMore_readerAt_eof (short : rest.length < kBlockSize - o) : readMore (readerAt r o rest) =
      (some (if rest ≠ [] then ⟨kBadHeader, [], rest.length⟩ else ⟨kEof, [], 0⟩),
        readerAt r (o + rest.length) []) := by
  have atEof : (readerAt r o rest).eof = true := decide_eq_true short
  have buffer : (readerAt r o rest).buffer = rest := take_of_length_le short.le
  rw [readMore, if_neg (by simp [atEof]), buffer, clear_buffer_eof short]
  split <;> rfl

/-! ## Reading one physical record -/

section Header
variable (crc32c : Crc32c) (logNumber : Nat) (t : RecordType) (payload more : Bytes)

theorem headerType_physicalRecord : headerType (physicalRecord crc32c logNumber t payload ++ more) = t.toNat := by
  cases t <;> simp [headerType, physicalRecord, encode] <;> rfl

theorem headerLength_physicalRecord (short : payload.length < 2 ^ 16) :
    headerLength (physicalRecord crc32c logNumber t payload ++ more) = payload.length := by
  simp [headerLength, physicalRecord, encode]
  omega

/-- The checksum of a record is stored in front of what it covers. -/
theorem checksum_physicalRecord :
    let stored := physicalRecord crc32c logNumber t payload ++ more
    crc32c.value ((stored.take (headerSizeOf t + payload.length)).drop 6) =
      unmask (UInt32.ofNat (decode (stored.take 4))) := by
  intro stored
  have whole : stored.take (headerSizeOf t + payload.length) = physicalRecord crc32c logNumber t payload :=
    take_left' (length_physicalRecord ..)
  rw [whole]
  unfold stored physicalRecord
  have masked (crc : UInt32) (a b c : Bytes) : unmask (UInt32.ofNat
      (decode ((encode 4 (mask crc).toNat ++ a ++ b ++ c ++ payload ++ more).take 4))) = crc := by
    rw [append_assoc, append_assoc, append_assoc, append_assoc,
      take_left' (length_encode ..), decode_encode_of_lt (UInt32.toNat_lt _), UInt32.ofNat_toNat,
      unmask_mask]
  have covered (crc : Nat) (log : Bytes) (typeByte : UInt8) :
      (encode 4 crc ++ encode 2 payload.length ++ [typeByte] ++ log ++ payload).drop 6 =
        [typeByte] ++ log ++ payload := by
    simp [encode]
  rw [masked, covered]
  cases isLegacy t
  · rw [if_neg (by decide), if_neg (by decide), crc32c.extend_value, crc32c.combine_value]
  · rw [if_pos rfl, if_pos rfl, crc32c.combine_value, append_nil]

theorem logNumber_physicalRecord (recyclable : isLegacy t = false) :
    decode (((physicalRecord crc32c logNumber t payload ++ more).drop 7).take 4) = logNumber % 2 ^ 32 := by
  have log : ((physicalRecord crc32c logNumber t payload ++ more).drop 7).take 4 = encode 4 logNumber := by
    simp [physicalRecord, encode, recyclable]
  rw [log, decode_encode]
  norm_num

theorem payload_physicalRecord :
    ((physicalRecord crc32c logNumber t payload ++ more).drop (headerSizeOf t)).take payload.length = payload := by
  have header : (physicalRecord crc32c logNumber t payload ++ more).drop (headerSizeOf t) = payload ++ more := by
    unfold headerSizeOf kHeaderSize kRecyclableHeaderSize
    cases recyclable : isLegacy t <;> simp [physicalRecord, encode, recyclable]
  rw [header, take_left']
  rfl

theorem isRecyclableType_iff : isRecyclableType t.toNat = !isLegacy t := by
  cases t <;> rfl

end Header

/-- The writer of a log and the reader of it agree. -/
structure Agrees (options : LogReader.Options υ) (crc32c : Crc32c) (logNumber : Nat) (t : RecordType) : Prop where
  crc32c : options.crc32c = crc32c
  logNumber : isLegacy t = false → options.logNumber = logNumber ∧ logNumber < 2 ^ 32

section Physical
variable {options : LogReader.Options υ}

variable {r : Reader υ}

theorem parse_of_short (short : r.buffer.length < kHeaderSize) : parse options r = (none, r) := if_pos short

theorem parse_of_legacy (whole : kHeaderSize ≤ r.buffer.length)
    (legacy : isRecyclableType (headerType r.buffer) = false) :
    parse options r = Prod.map some id (parseRecord options r kHeaderSize) := by
  rw [parse, if_neg (not_lt.mpr whole), if_neg (by simp [legacy])]
  rfl

theorem parse_of_recyclable (whole : kRecyclableHeaderSize ≤ r.buffer.length)
    (recyclable : isRecyclableType (headerType r.buffer) = true)
    (ready : r.firstRecordRead = true → r.recycled = true) :
    parse options r = Prod.map some id (parseRecord options { r with recycled := true } kRecyclableHeaderSize) := by
  rw [parse, if_neg (not_lt.mpr (le_trans (by decide) whole)), if_pos recyclable, if_neg (by simpa using ready)]
  exact if_neg (not_lt.mpr whole)

theorem parse_of_short_recyclable (whole : kHeaderSize ≤ r.buffer.length)
    (short : r.buffer.length < kRecyclableHeaderSize) (recyclable : isRecyclableType (headerType r.buffer) = true)
    (ready : r.firstRecordRead = true → r.recycled = true) :
    parse options r = (none, { r with recycled := true }) := by
  rw [parse, if_neg (not_lt.mpr whole), if_pos recyclable, if_neg (by simpa using ready)]
  exact if_pos short

private theorem parseRecord_record (agrees : Agrees options crc32c logNumber t)
    (buffer : r.buffer = physicalRecord crc32c logNumber t payload ++ more) (short : payload.length < 2 ^ 16)
    (notZero : t ≠ .kZeroType) :
    parseRecord options r (headerSizeOf t) =
      takeFragment options { r with buffer := r.buffer.drop (headerSizeOf t + payload.length) } t.toNat payload := by
  have type : headerType r.buffer = t.toNat := buffer ▸ headerType_physicalRecord ..
  have length : headerLength r.buffer = payload.length :=
    buffer ▸ headerLength_physicalRecord _ _ _ _ _ short
  have checked := checksum_physicalRecord crc32c logNumber t payload more
  rw [← buffer] at checked
  have taken := payload_physicalRecord crc32c logNumber t payload more
  rw [← buffer] at taken
  unfold parseRecord
  simp only [type, length, taken]
  rw [if_neg, if_neg, if_neg, if_neg]
  · rw [agrees.crc32c, checked]
    exact fun both => both.2 rfl
  · rintro ⟨isZero, -⟩
    cases t <;> first | exact notZero rfl | cases isZero
  · rintro ⟨recyclable, different⟩
    rw [isRecyclableType_iff, Bool.not_eq_true'] at recyclable
    obtain ⟨same, small⟩ := agrees.logNumber recyclable
    refine different ?_
    rw [buffer, logNumber_physicalRecord _ _ _ _ _ recyclable, Nat.mod_eq_of_lt small, same]
  · rw [buffer, length_append, length_physicalRecord]
    omega

/-- What is left when a record has been taken from the buffer. -/
theorem drop_record (room : o + (headerSizeOf t + payload.length) ≤ kBlockSize) :
    { readerAt r o (physicalRecord crc32c logNumber t payload ++ tail) with
      buffer := (readerAt r o (physicalRecord crc32c logNumber t payload ++ tail)).buffer.drop
        (headerSizeOf t + payload.length) } = readerAt r (o + (headerSizeOf t + payload.length)) tail := by
  rw [drop_buffer room (by simp), drop_left' (length_physicalRecord ..)]

private theorem parse_buffered (agrees : Agrees options crc32c logNumber t)
    (buffer : r.buffer = physicalRecord crc32c logNumber t payload ++ more) (short : payload.length < 2 ^ 16)
    (notZero : t ≠ .kZeroType) (ready : isLegacy t = false → r.firstRecordRead = true → r.recycled = true) :
    parse options r = Prod.map some id (takeFragment options { r with
      recycled := r.recycled || !isLegacy t
      buffer := r.buffer.drop (headerSizeOf t + payload.length) } t.toNat payload) := by
  have type : headerType r.buffer = t.toNat := buffer ▸ headerType_physicalRecord ..
  have size : headerSizeOf t ≤ r.buffer.length := by
    rw [buffer, length_append, length_physicalRecord]
    omega
  cases legacy : isLegacy t with
  | false =>
    have header : headerSizeOf t = kRecyclableHeaderSize := by simp [headerSizeOf, legacy]
    rw [parse_of_recyclable (header ▸ size) (by rw [type, isRecyclableType_iff, legacy]; rfl) (ready legacy), ← header,
      parseRecord_record (r := { r with recycled := true }) agrees buffer short notZero, Bool.not_false, Bool.or_true]
  | true =>
    have header : headerSizeOf t = kHeaderSize := by simp [headerSizeOf, legacy]
    rw [parse_of_legacy (header ▸ size) (by rw [type, isRecyclableType_iff, legacy]; rfl), ← header,
      parseRecord_record agrees buffer short notZero, Bool.not_true, Bool.or_false]

/-- A record in the buffer is taken from it. -/
theorem parse_record (agrees : Agrees options crc32c logNumber t)
    (room : o + (headerSizeOf t + payload.length) ≤ kBlockSize) (notZero : t ≠ .kZeroType)
    (ready : isLegacy t = false → r.firstRecordRead = true → r.recycled = true) :
    parse options (readerAt r o (physicalRecord crc32c logNumber t payload ++ tail)) =
      Prod.map some id (takeFragment options (readerAt { r with recycled := r.recycled || !isLegacy t }
          (o + (headerSizeOf t + payload.length)) tail) t.toNat payload) := by
  rw [parse_buffered agrees (buffer_readerAt (by rw [length_physicalRecord]; exact room))
    (by unfold kBlockSize at room; omega) notZero ready, ← drop_record room]
  rfl

theorem readPhysicalRecord_eq (options : LogReader.Options υ) (r : Reader υ) : readPhysicalRecord options r =
    match parse options r with
    | (some record, r') => (record, r')
    | (none, r') =>
      match readMore r' with
      | (some error, r'') => (error, r'')
      | (none, r'') => readPhysicalRecord options r'' := by
  rw [readPhysicalRecord]
  split
  · next same => rw [same]
  · next same =>
    rw [same]
    dsimp only
    split
    · next same => rw [same]
    · next same => rw [same]

theorem readPhysicalRecord_some
    (parsed : parse options r = (some record, r')) : readPhysicalRecord options r = (record, r') := by
  rw [readPhysicalRecord_eq, parsed]

theorem readPhysicalRecord_more (parsed : parse options r = (none, r'))
    (more : readMore r' = (none, r'')) : readPhysicalRecord options r = readPhysicalRecord options r'' := by
  rw [readPhysicalRecord_eq, parsed]
  dsimp only
  rw [more]

theorem readPhysicalRecord_error (parsed : parse options r = (none, r')) (more : readMore r' = (some error, r'')) :
    readPhysicalRecord options r = (error, r'') := by
  rw [readPhysicalRecord_eq, parsed]
  dsimp only
  rw [more]

/-- The rest of a block that has no room for a header is skipped. -/
theorem readPhysicalRecord_skip (fill : o + skipped.length = kBlockSize) (short : skipped.length < kHeaderSize) :
    readPhysicalRecord options (readerAt r o (skipped ++ rest)) = readPhysicalRecord options (readerAt r 0 rest) := by
  have left : kBlockSize - o = skipped.length := by omega
  refine readPhysicalRecord_more (parse_of_short ?_) ?_
  · simp only [readerAt, left, take_left']
    exact short
  · rw [readMore_readerAt (by simp [left]), left, drop_left' rfl]

/-- Zeros that could hold a header are a bad record of their own. -/
theorem readPhysicalRecord_zeros (fill : o + pad = kBlockSize) (long : kHeaderSize ≤ pad) :
    readPhysicalRecord options (readerAt r o (zeros pad ++ rest)) =
      (⟨kBadRecord, [], 0⟩, readerAt r kBlockSize rest) := by
  have left : kBlockSize - o = pad := by omega
  have buffer : (readerAt r o (zeros pad ++ rest)).buffer = zeros pad := by
    simp only [readerAt, left]
    exact take_left' (length_zeros pad)
  have zero (i : Nat) : (zeros pad).getD i 0 = 0 := by
    rw [getD_eq_getElem?_getD, zeros, getElem?_replicate]
    split <;> rfl
  have type : headerType (zeros pad) = 0 := by
    rw [headerType, zero]
    rfl
  have length : headerLength (zeros pad) = 0 := by
    rw [headerLength, zero, zero]
    rfl
  refine readPhysicalRecord_some ?_
  rw [parse_of_legacy (by rw [buffer, length_zeros]; exact long) (by rw [buffer, type]; rfl), parseRecord]
  simp only [buffer, type, length, length_zeros]
  rw [if_neg (by omega), if_neg (by simp [isRecyclableType, RecordType.toNat]), if_pos ⟨rfl, trivial⟩,
    clear_buffer (by simp [left]), left, drop_left' (length_zeros pad)]
  rfl

/-- **A placed record is read back.** -/
theorem readPhysicalRecord_placed {p : Placed} (agrees : Agrees options crc32c logNumber p.type) (fits : p.Fits o e)
    (short : p.pad < kHeaderSize) (notZero : p.type ≠ .kZeroType)
    (ready : isLegacy p.type = false → r.firstRecordRead = true → r.recycled = true) :
    readPhysicalRecord options (readerAt r o (p.bytes crc32c logNumber ++ tail)) =
      takeFragment options (readerAt { r with recycled := r.recycled || !isLegacy p.type } e tail) p.type.toNat
        p.payload := by
  obtain ⟨inBlock, ⟨none, rfl⟩ | ⟨fill, rfl⟩⟩ := fits
  · rw [Placed.bytes, none, zeros, replicate_zero, nil_append]
    exact readPhysicalRecord_some (parse_record agrees inBlock notZero ready)
  · rw [Placed.bytes, append_assoc, readPhysicalRecord_skip (by rw [length_zeros, fill])
      (by rw [length_zeros]; exact short)]
    refine readPhysicalRecord_some ?_
    rw [parse_record agrees (by rw [Nat.zero_add]; exact inBlock) notZero ready, Nat.zero_add]
    rfl

/-! ## Reading a record that is cut off -/

private theorem headerType_append (whole : kHeaderSize ≤ header.length) (more : Bytes) :
    headerType (header ++ more) = headerType header := by
  unfold kHeaderSize at whole
  simp only [headerType]
  rw [getD_append _ _ _ _ (by omega)]

private theorem headerLength_append (whole : kHeaderSize ≤ header.length) (more : Bytes) :
    headerLength (header ++ more) = headerLength header := by
  unfold kHeaderSize at whole
  simp only [headerLength]
  rw [getD_append _ _ _ _ (by omega), getD_append _ _ _ _ (by omega)]

/-- The reader has met the end of the file. -/
def AtEnd (got : PhysicalRecord × Reader υ) : Prop :=
  caseOf got.1.recordType = .eof ∨ caseOf got.1.recordType = .badHeader ∨
    caseOf got.1.recordType = .badRecordLen ∧ got.2.eof = true

theorem readPhysicalRecord_short (fewer : rest.length < kHeaderSize) (short : rest.length < kBlockSize - o) :
    AtEnd (readPhysicalRecord options (readerAt r o rest)) := by
  have buffer : (readerAt r o rest).buffer = rest := take_of_length_le short.le
  rw [readPhysicalRecord_error (parse_of_short (by rw [buffer]; exact fewer)) (readMore_readerAt_eof short)]
  unfold AtEnd
  split
  · exact .inr (.inl (by rfl))
  · exact .inl (by rfl)

private theorem readPhysicalRecord_body_cut (legacy : isLegacy t = true)
    (room : o + (headerSizeOf t + payload.length) ≤ kBlockSize)
    (cut : k < headerSizeOf t + payload.length) :
    AtEnd (readPhysicalRecord options (readerAt r o ((physicalRecord crc32c logNumber t payload).take k))) := by
  have whole := take_append_drop k (physicalRecord crc32c logNumber t payload)
  have size : ((physicalRecord crc32c logNumber t payload).take k).length = k := by
    rw [length_take, length_physicalRecord]
    omega
  generalize (physicalRecord crc32c logNumber t payload).take k = part at whole size ⊢
  have short : part.length < kBlockSize - o := by omega
  by_cases fewer : k < kHeaderSize
  · exact readPhysicalRecord_short (by rw [size]; exact fewer) short
  have hasHeader : kHeaderSize ≤ part.length := by omega
  have header : headerSizeOf t = kHeaderSize := by simp [headerSizeOf, legacy]
  have buffer : (readerAt r o part).buffer = part := take_of_length_le short.le
  have type : headerType part = t.toNat := by
    rw [← headerType_append hasHeader, whole, ← headerType_physicalRecord crc32c logNumber t payload [], append_nil]
  have length : headerLength part = payload.length := by
    rw [← headerLength_append hasHeader, whole,
      ← headerLength_physicalRecord crc32c logNumber t payload [] (by unfold kBlockSize at room; omega), append_nil]
  have parsed : parse options (readerAt r o part) =
    (some ⟨kBadRecordLen, [], k⟩, { readerAt r o part with buffer := [] }) := by
    rw [parse_of_legacy (by rw [buffer]; exact hasHeader) (by rw [buffer, type, isRecyclableType_iff, legacy]; rfl),
      parseRecord]
    simp only [buffer, type, length, size]
    rw [if_pos (by omega)]
    rfl
  rw [readPhysicalRecord_some parsed]
  exact .inr (.inr ⟨by rfl, decide_eq_true short⟩)

/-- **A placed record that is cut off is the end of the log.** -/
theorem readPhysicalRecord_cut {p : Placed} (legacy : isLegacy p.type = true) (fits : p.Fits o e)
    (padding : p.pad < kHeaderSize) (cut : k < p.pad + p.size) :
    AtEnd (readPhysicalRecord options (readerAt r o ((p.bytes crc32c logNumber).take k))) := by
  obtain ⟨inBlock, ⟨none, rfl⟩ | ⟨fill, rfl⟩⟩ := fits
  · rw [Placed.bytes, none, zeros, replicate_zero, nil_append]
    exact readPhysicalRecord_body_cut legacy inBlock (by rw [none, Nat.zero_add] at cut; exact cut)
  · rw [Placed.bytes, take_append, length_zeros]
    by_cases inside : k < p.pad
    · have skipped : ((zeros p.pad).take k ++ (physicalRecord crc32c logNumber p.type p.payload).take (k - p.pad)) =
          zeros k := by
        rw [Nat.sub_eq_zero_of_le inside.le, take_zero, append_nil, zeros, take_replicate,
          Nat.min_eq_left inside.le, zeros]
      rw [skipped]
      exact readPhysicalRecord_short (by rw [length_zeros]; omega) (by rw [length_zeros]; omega)
    · rw [take_of_length_le (by rw [length_zeros]; omega),
        readPhysicalRecord_skip (by rw [length_zeros, fill]) (by rw [length_zeros]; exact padding)]
      refine readPhysicalRecord_body_cut legacy (by rw [Nat.zero_add]; exact inBlock) ?_
      unfold Placed.size at cut
      omega

end Physical

end Rocksdb.LogLayout
