import Rocksdb.LogReaderProofs

/-! Logs without compression, read back: whole logs, logs that are followed by what
an older log left in a recycled file, and logs that are cut off anywhere. -/
namespace Rocksdb.LogRoundTrip
open Lib.LittleEndian Lib.Loop LogFormat LogWriter LogReader LogLayout LogWriterProofs LogReaderProofs
open List hiding tail

variable {ζ υ : Type}

/-! ## Rows of records -/

/-- Records and the placed records they became, one record after the other. -/
inductive LaidOut (options : LogWriter.Options ζ) : Writer ζ → List (Bytes × List Placed) → Writer ζ → Prop where
  | nil {w : Writer ζ} : LaidOut options w [] w
  | cons {w next last : Writer ζ} {record : Bytes} {ps : List Placed} {items : List (Bytes × List Placed)}
      (added : AddsRecord options w record .ok next) (emitted : Emitted options w true record ps next)
      (later : LaidOut options next items last) : LaidOut options w ((record, ps) :: items) last

def recordsOf (items : List (Bytes × List Placed)) : List Bytes := items.map Prod.fst

def itemBytes (crc32c : Crc32c) (logNumber : Nat) (items : List (Bytes × List Placed)) : Bytes :=
  items.flatMap fun item => bytesOf crc32c logNumber item.2

variable (crc32c : Crc32c)

@[simp] theorem itemBytes_cons (logNumber : Nat) (item : Bytes × List Placed) (items : List (Bytes × List Placed)) :
    itemBytes crc32c logNumber (item :: items) = bytesOf crc32c logNumber item.2 ++ itemBytes crc32c logNumber items :=
  rfl

/-- Where the records end in the file. -/
def endsFrom (crc32c : Crc32c) (logNumber : Nat) : Nat → List (Bytes × List Placed) → List Nat
  | _, [] => []
  | start, item :: items =>
    (start + (bytesOf crc32c logNumber item.2).length) ::
      endsFrom crc32c logNumber (start + (bytesOf crc32c logNumber item.2).length) items

variable {o e : Nat} {ps : List Placed} {recycle atBegin : Bool}

theorem laid_inBlock (laid : Laid recycle atBegin o ps e) : e ≤ kBlockSize := by
  induction laid with
  | last fits => exact fits.1
  | more _ _ _ ih => exact ih

private theorem laid_aligned (logNumber : Nat) (laid : Laid recycle atBegin o ps e) :
    (o + (bytesOf crc32c logNumber ps).length) % kBlockSize = e % kBlockSize := by
  have one {p : Placed} {o e : Nat} (fits : p.Fits o e) : (o + (p.pad + p.size)) % kBlockSize = e % kBlockSize := by
    obtain ⟨-, ⟨none, rfl⟩ | ⟨fill, rfl⟩⟩ := fits
    · rw [none, Nat.zero_add]
    · rw [← Nat.add_assoc, fill, Nat.add_mod_left]
  induction laid with
  | last fits =>
    rw [bytesOf_cons, bytesOf_nil, append_nil, length_bytes]
    exact one fits
  | more fits _ _ ih =>
    rw [bytesOf_cons, length_append, length_bytes, ← Nat.add_assoc, Nat.add_mod, one fits, ← Nat.add_mod]
    exact ih

variable {woptions : LogWriter.Options ζ} {w w' : Writer ζ} {items : List (Bytes × List Placed)}

theorem LaidOut.dest (laidOut : LaidOut woptions w items w') :
    w'.dest = w.dest ++ itemBytes woptions.crc32c woptions.logNumber items := by
  induction laidOut with
  | nil => simp [itemBytes]
  | cons _ emitted _ ih => rw [ih, emitted.dest, itemBytes_cons, append_assoc]

theorem LaidOut.writes (laidOut : LaidOut woptions w items w') : Writes woptions w ((recordsOf items).map .record)
      (endsFrom woptions.crc32c woptions.logNumber w.dest.length items) w' := by
  induction laidOut with
  | nil => exact .done
  | @cons w next last record ps items added emitted _ ih =>
    have length : next.dest.length = w.dest.length + (bytesOf woptions.crc32c woptions.logNumber ps).length := by
      rw [emitted.dest, length_append]
    rw [endsFrom, ← length]
    exact .record added ih

/-- Records that are not compressed can always be written. -/
theorem exists_laidOut (woptions : LogWriter.Options ζ) (records : List Bytes)
    (isPlain : w.compress = none) (inBlock : w.blockOffset ≤ kBlockSize) :
    ∃ items w', recordsOf items = records ∧ LaidOut woptions w items w' := by
  induction records generalizing w with
  | nil => exact ⟨[], w, rfl, .nil⟩
  | cons record _ ih =>
    obtain ⟨next, ps, added, emitted⟩ : ∃ next ps, AddsRecord woptions w record .ok next ∧
        Emitted woptions w true record ps next := addsRecord_plain isPlain inBlock record
    obtain ⟨items, w', same, laidOut⟩ := ih (by simpa [isPlain] using emitted.compress) (laid_inBlock emitted.laid)
    exact ⟨(record, ps) :: items, w', by rw [recordsOf, map_cons, ← same]; rfl, .cons added emitted laidOut⟩

theorem emitted_plain {record : Bytes} (isPlain : w.compress = none)
    (emitted : Emitted woptions w true record ps w') : w'.compress = none := by
  simpa [isPlain] using emitted.compress

/-! ## Whole logs -/

variable {options : LogReader.Options υ} {mode : WALRecoveryMode}

/-- The reader after some records. -/
def afterItems (recycle : Bool) (items : List (Bytes × List Placed)) (r : Reader υ) : Reader υ :=
  items.foldl (fun r _ => { r with recycled := r.recycled || recycle, firstRecordRead := true }) r

private theorem afterItems_reports (recycle : Bool) (items : List (Bytes × List Placed)) (r : Reader υ) :
    (afterItems recycle items r).reports = r.reports := by
  induction items generalizing r with
  | nil => rfl
  | cons _ _ ih => exact ih _

variable {r : Reader υ}

/-- **Written records are read back**, and the reader goes on behind them. -/
theorem reads_items (matched : Matches options woptions.crc32c woptions.logNumber woptions.recycleLogFiles)
    (laidOut : LaidOut woptions w items w') (isPlain : w.compress = none)
    (ready : Ready woptions.recycleLogFiles r) (uncompressed : r.uncompress = none)
    (later : Reads options mode
      (readerAt (afterItems woptions.recycleLogFiles items r) w'.blockOffset tail) more final) :
    Reads options mode (readerAt r w.blockOffset (itemBytes woptions.crc32c woptions.logNumber items ++ tail))
      (recordsOf items ++ more) final := by
  induction laidOut generalizing r with
  | nil => exact later
  | @cons w next last record ps items added emitted laidOut ih =>
    have fed : feed options (r.uncompress.map fun _ => options.streamingUncompress.reset) ps =
        some (record, none) := by
      rw [uncompressed, Option.map_none, feed_none, emitted.payload]
    have same : { advanced r woptions.recycleLogFiles none with firstRecordRead := true } =
        { r with recycled := r.recycled || woptions.recycleLogFiles, firstRecordRead := true } := by
      simp [advanced, uncompressed]
    rw [itemBytes_cons, append_assoc]
    refine .record (readsRecord matched emitted.laid
      (fun p member => by rw [emitted.tail isPlain p member]; decide) ready fed _) ?_
    rw [same]
    exact ih (emitted_plain isPlain emitted) (fun recycled _ => by simp [recycled]) uncompressed later

/-! ## What an older log left behind -/

/-- A physical record of this log stands in the buffer, with a good checksum. -/
def Passes (options : LogReader.Options υ) (buffer : Bytes) : Prop :=
  let headerSize := if isRecyclableType (headerType buffer) then kRecyclableHeaderSize else kHeaderSize
  headerSize + headerLength buffer ≤ buffer.length ∧
    ¬ (isRecyclableType (headerType buffer) ∧ decode ((buffer.drop 7).take 4) ≠ options.logNumber) ∧
    ¬ (headerType buffer = RecordType.kZeroType.toNat ∧ headerLength buffer = 0) ∧
    options.crc32c.value ((buffer.take (headerSize + headerLength buffer)).drop 6) =
      unmask (UInt32.ofNat (decode (buffer.take 4)))

/-- From an offset of a block on, no position holds a physical record of this
log. -/
def Detected (options : LogReader.Options υ) (o : Nat) (rest : Bytes) : Prop :=
  ∀ n, ¬ Passes options ((rest.drop n).take (kBlockSize - (o + n) % kBlockSize))

variable {rest : Bytes}

theorem Detected.drop (detected : Detected options o rest) (n : Nat)
    (aligned : (o + n) % kBlockSize = o' % kBlockSize) : Detected options o' (rest.drop n) := by
  intro m
  rw [drop_drop, Nat.add_mod, ← aligned, ← Nat.add_mod, Nat.add_assoc]
  exact detected (n + m)

/-- How reading ends inside of what an older log left. -/
inductive Stops : Case → Prop where
  | eof : Stops .eof
  | badHeader : Stops .badHeader
  | oldRecord : Stops .oldRecord
  | badRecordLen : Stops .badRecordLen
  | badRecordChecksum : Stops .badRecordChecksum

/-- The reader stops, or it goes on further behind. -/
def StopsOrSkips (options : LogReader.Options υ) (r : Reader υ) (rest : Bytes) (got : PhysicalRecord × Reader υ) :
    Prop :=
  (Stops (caseOf got.1.recordType) ∧ got.2.reports = r.reports ∧ got.2.recycled = true) ∨
    (caseOf got.1.recordType = .badRecord ∧ ∃ o' rest', got.2 = readerAt r o' rest' ∧ o' ≤ kBlockSize ∧
      rest'.length < rest.length ∧ Detected options o' rest')

/-- The default mode stops without a report. -/
theorem round_stops (read : readPhysicalRecord options r = (got, r')) (stops : Stops (caseOf got.recordType))
    (recycled : r'.recycled = true) :
    readRecordRound options .kTolerateCorruptedTailRecords ⟨r, false, []⟩ = .leave (none, r') := by
  generalize isCase : caseOf got.recordType = which at stops
  cases stops <;> simp [readRecordRound, read, isCase, Reading.atTail, WALRecoveryMode.reportsTail, recycled]

section Stale
variable (checks : options.checksum = true) (recycled : r.recycled = true)
include checks recycled

private theorem parseRecord_stale (inBlock : o < kBlockSize) (detected : Detected options o rest) (headerSize : Nat)
    (isSize : headerSize = if isRecyclableType (headerType (rest.take (kBlockSize - o))) then kRecyclableHeaderSize
      else kHeaderSize) :
    StopsOrSkips options r rest (parseRecord options (readerAt r o rest) headerSize) := by
  have here := detected 0
  rw [Nat.add_zero, Nat.mod_eq_of_lt inBlock, drop_zero] at here
  unfold Passes at here
  rw [← isSize] at here
  unfold parseRecord
  have buffer : (readerAt r o rest).buffer = rest.take (kBlockSize - o) := rfl
  simp only [buffer]
  split
  · exact .inl ⟨.badRecordLen, rfl, recycled⟩
  next whole =>
  split
  · exact .inl ⟨.oldRecord, rfl, recycled⟩
  next current =>
  split
  · refine .inr ⟨rfl, ?_⟩
    have nonempty : 0 < rest.length := by
      rw [length_take] at whole
      have size : 0 < headerSize := by
        rw [isSize]
        split <;> decide
      omega
    by_cases short : rest.length < kBlockSize - o
    · have atEnd : Detected options (o + rest.length) (rest.drop rest.length) := detected.drop _ rfl
      exact ⟨o + rest.length, [], clear_buffer_eof short, by omega, nonempty, by simpa using atEnd⟩
    · refine ⟨kBlockSize, rest.drop (kBlockSize - o), clear_buffer (not_lt.mp short), le_rfl, ?_,
        detected.drop _ (by rw [Nat.add_sub_of_le inBlock.le])⟩
      rw [length_drop]
      omega
  next real =>
  split
  · exact .inl ⟨.badRecordChecksum, rfl, recycled⟩
  next passed =>
  refine absurd ⟨not_lt.mp whole, current, real, ?_⟩ here
  by_contra wrong
  exact passed ⟨checks, wrong⟩

private theorem readPhysicalRecord_stale (inBlock : o < kBlockSize) (detected : Detected options o rest) :
    StopsOrSkips options r rest (readPhysicalRecord options (readerAt r o rest)) := by
  induction size : rest.length using Nat.strong_induction_on generalizing o rest with
  | h size' ih =>
    have same : ({ readerAt r o rest with recycled := true } : Reader υ) = readerAt r o rest := by
      simp [readerAt, recycled]
    -- what is left of the block is too short for a header
    have skips (needed : parse options (readerAt r o rest) = (none, readerAt r o rest)) :
        StopsOrSkips options r rest (readPhysicalRecord options (readerAt r o rest)) := by
      by_cases short : rest.length < kBlockSize - o
      · rw [readPhysicalRecord_error needed (readMore_readerAt_eof short)]
        refine .inl ⟨?_, rfl, recycled⟩
        split
        · exact .badHeader
        · exact .eof
      · have shorter : (rest.drop (kBlockSize - o)).length < size' := by
          rw [length_drop, size]
          omega
        rw [readPhysicalRecord_more needed (readMore_readerAt (not_lt.mp short))]
        rcases ih _ shorter (o := 0) (by decide)
          (detected.drop (kBlockSize - o) (by rw [Nat.add_sub_of_le inBlock.le, Nat.mod_self, Nat.zero_mod])) rfl
          with stops | ⟨isCase, o', rest', isReader, inBlock', less, detected'⟩
        · exact .inl stops
        · refine .inr ⟨isCase, o', rest', isReader, inBlock', less.trans ?_, detected'⟩
          rwa [size]
    by_cases short : (readerAt r o rest).buffer.length < kHeaderSize
    · exact skips (parse_of_short short)
    cases type : isRecyclableType (headerType (readerAt r o rest).buffer) with
    | false =>
      rw [readPhysicalRecord_some (parse_of_legacy (not_lt.mp short) type)]
      exact parseRecord_stale checks recycled inBlock detected kHeaderSize
        (if_neg (ne_of_eq_of_ne type Bool.false_ne_true)).symm
    | true =>
      by_cases header : (readerAt r o rest).buffer.length < kRecyclableHeaderSize
      · refine skips ((parse_of_short_recyclable (not_lt.mp short) header type fun _ => recycled).trans ?_)
        rw [same]
      · rw [readPhysicalRecord_some (parse_of_recyclable (not_lt.mp header) type fun _ => recycled), same]
        exact parseRecord_stale checks recycled inBlock detected kRecyclableHeaderSize (if_pos type).symm

/-- **Stale bytes are the end of the log.** -/
theorem returns_stale (inBlock : o ≤ kBlockSize) (detected : Detected options o rest) :
    ∃ r', Returns (readRecordRound options .kTolerateCorruptedTailRecords) ⟨readerAt r o rest, false, []⟩ (none, r') ∧
      r'.reports = r.reports := by
  induction size : rest.length using Nat.strong_induction_on generalizing o rest with
  | h _ ih =>
    have outcome : StopsOrSkips options r rest (readPhysicalRecord options (readerAt r o rest)) := by
      rcases inBlock.lt_or_eq with inside | rfl
      · exact readPhysicalRecord_stale checks recycled inside detected
      · have skipped : readPhysicalRecord options (readerAt r kBlockSize ([] ++ rest)) = _ :=
          readPhysicalRecord_skip rfl (by decide)
        rw [nil_append] at skipped
        rw [skipped]
        refine readPhysicalRecord_stale checks recycled (by decide) ?_
        exact detected.drop 0 (by simp)
    rcases read : readPhysicalRecord options (readerAt r o rest) with ⟨_, r'⟩
    rw [read] at outcome
    rcases outcome with ⟨stops, reports, recycled'⟩ | ⟨isCase, _, _, rfl, inBlock', less, detected'⟩
    · exact ⟨r', .leave (round_stops read stops recycled'), reports⟩
    · obtain ⟨final, returns, reports⟩ := ih _ (size ▸ less) inBlock' detected' rfl
      exact ⟨final, .again (round_badRecord read isCase) returns, reports⟩

private theorem readsRecord_stale (inBlock : o ≤ kBlockSize) (detected : Detected options o rest) :
    ∃ r', ReadsRecord options .kTolerateCorruptedTailRecords (readerAt r o rest) none r' ∧ r'.reports = r.reports :=
  returns_stale (r := { r with uncompress := r.uncompress.map fun _ => options.streamingUncompress.reset }) checks
    recycled inBlock detected

end Stale

/-- The content of a file that was used for logs with ascending numbers, each of
them written over the beginning of the one before it. -/
inductive FileOf (options : LogWriter.Options ζ) : Nat → Bytes → Prop where
  | fresh {n : Nat} {records : List Bytes} {ends : List Nat} {w : Writer ζ}
      (writes : Writes { options with logNumber := n } .new (records.map .record) ends w) : FileOf options n w.dest
  | recycled {m n : Nat} {older : Bytes} {records : List Bytes} {ends : List Nat} {w : Writer ζ}
      (old : FileOf options m older) (ascending : m < n)
      (writes : Writes { options with logNumber := n } .new (records.map .record) ends w) :
      FileOf options n (w.dest ++ older.drop w.dest.length)

variable {n : Nat}

/-- The first physical record of a log. -/
theorem writes_head (woptions : LogWriter.Options ζ) {records : List Bytes} {w : Writer ζ}
    (writes : Writes { woptions with logNumber := n } .new (records.map .record) ends w) :
    w.dest = [] ∨ ∃ t payload rest, w.dest = physicalRecord woptions.crc32c n t payload ++ rest ∧
      IsFragment woptions.recycleLogFiles t ∧ headerSizeOf t + payload.length ≤ kBlockSize := by
  obtain ⟨items, _, same, laidOut⟩ :=
    exists_laidOut { woptions with logNumber := n } records (w := .new) rfl (Nat.zero_le _)
  have written := laidOut.writes
  rw [same] at written
  obtain rfl := writes.unique written
  rw [laidOut.dest]
  cases laidOut with
  | nil => exact .inl rfl
  | @cons _ _ _ _ ps items _ emitted =>
    refine .inr ?_
    have first {p : Placed} {e : Nat} (fits : p.Fits 0 e) (pad : p.pad < kRecyclableHeaderSize) :
        p.pad = 0 ∧ p.size ≤ kBlockSize := by
      obtain ⟨inBlock, ⟨none, rfl⟩ | ⟨fill, rfl⟩⟩ := fits
      · exact ⟨none, by rwa [Nat.zero_add] at inBlock⟩
      · rw [Nat.zero_add] at fill
        rw [fill] at pad
        exact absurd pad (by decide)
    obtain ⟨p, qs, e, rfl, fits, isFragment⟩ : ∃ p qs e, ps = p :: qs ∧ p.Fits 0 e ∧
        IsFragment woptions.recycleLogFiles p.type := by
      cases emitted.laid with
      | last fits type | more fits type => exact ⟨_, _, _, rfl, fits, _, _, type⟩
    obtain ⟨none, room⟩ := first fits ((emitted.pads p mem_cons_self).trans_le (headerSize_bounds _).2)
    refine ⟨p.type, p.payload, bytesOf woptions.crc32c n qs ++ itemBytes woptions.crc32c n items, ?_, isFragment, room⟩
    rw [itemBytes_cons, bytesOf_cons, Placed.bytes, none, append_assoc]
    rfl

private theorem fileOf_head (fileOf : FileOf woptions n file) :
    file = [] ∨ ∃ m t payload rest, m ≤ n ∧ file = physicalRecord woptions.crc32c m t payload ++ rest ∧
      IsFragment woptions.recycleLogFiles t ∧ headerSizeOf t + payload.length ≤ kBlockSize := by
  induction fileOf with
  | @fresh n _ _ _ writes =>
    refine (writes_head woptions writes).imp id ?_
    rintro ⟨t, payload, rest, same, facts⟩
    exact ⟨n, t, payload, rest, le_rfl, same, facts⟩
  | @recycled _ n older _ _ w _ ascending writes ih =>
    rcases writes_head woptions writes with empty | ⟨t, payload, rest, same, facts⟩
    · rw [empty, nil_append, length_nil, drop_zero]
      refine ih.imp id ?_
      rintro ⟨k, t, payload, rest, le, facts⟩
      exact ⟨k, t, payload, rest, le.trans ascending.le, facts⟩
    · exact .inr ⟨n, t, payload, rest ++ older.drop w.dest.length, le_rfl, by rw [same]; simp, facts⟩

/-- A physical record of another log is known by the low half of its log number. -/
theorem parse_old (recyclable : isLegacy t = false) (different : m % 2 ^ 32 ≠ options.logNumber)
    (buffer : r.buffer = physicalRecord crc32c m t payload ++ more) (short : payload.length < 2 ^ 16)
    (ready : r.firstRecordRead = true → r.recycled = true) :
    parse options r = (some ⟨kOldRecord, [], 0⟩,
      { r with recycled := true, buffer := r.buffer.drop (headerSizeOf t + payload.length) }) := by
  have header : headerSizeOf t = kRecyclableHeaderSize := by simp [headerSizeOf, recyclable]
  have whole : headerSizeOf t + payload.length ≤ r.buffer.length := by
    rw [buffer, length_append, length_physicalRecord]
    omega
  have type : headerType r.buffer = t.toNat := buffer ▸ headerType_physicalRecord ..
  have length : headerLength r.buffer = payload.length := buffer ▸ headerLength_physicalRecord _ _ _ _ _ short
  have log : decode ((r.buffer.drop 7).take 4) = m % 2 ^ 32 := buffer ▸ logNumber_physicalRecord _ _ _ _ _ recyclable
  have isRecyclable : isRecyclableType t.toNat = true := by rw [isRecyclableType_iff, recyclable]; rfl
  rw [parse_of_recyclable (header ▸ (Nat.le_add_right _ _).trans whole) (by rw [type, isRecyclable]) ready, ← header,
    parseRecord]
  simp only [type, length, log]
  rw [if_neg (not_lt.mpr whole), if_pos ⟨isRecyclable, different⟩]
  rfl

theorem readPhysicalRecord_old (rest : Bytes) (recyclable : isLegacy t = false)
    (different : m % 2 ^ 32 ≠ options.logNumber) (room : o + (headerSizeOf t + payload.length) ≤ kBlockSize)
    (ready : r.firstRecordRead = true → r.recycled = true) :
    readPhysicalRecord options (readerAt r o (physicalRecord crc32c m t payload ++ rest)) =
      (⟨kOldRecord, [], 0⟩, readerAt { r with recycled := true } (o + (headerSizeOf t + payload.length)) rest) := by
  rw [readPhysicalRecord_some (parse_old crc32c recyclable different
    (buffer_readerAt (by rw [length_physicalRecord]; exact room)) (by unfold kBlockSize at room; omega) ready),
    ← drop_record room]
  rfl

/-- A physical record of another log stops the reader. -/
theorem readsRecord_old {t : RecordType} (rest : Bytes)
    (recyclable : isLegacy t = false) (different : m % 2 ^ 32 ≠ options.logNumber)
    (room : headerSizeOf t + payload.length ≤ kBlockSize) (r : Reader υ) (unread : r.firstRecordRead = false) :
    ∃ r', ReadsRecord options .kTolerateCorruptedTailRecords
        (readerAt r kBlockSize (physicalRecord crc32c m t payload ++ rest)) none r' ∧ r'.reports = r.reports := by
  set r₀ : Reader υ := { r with uncompress := r.uncompress.map fun _ => options.streamingUncompress.reset }
  have skipped : readPhysicalRecord options (readerAt r₀ kBlockSize
      ([] ++ (physicalRecord crc32c m t payload ++ rest))) = _ := readPhysicalRecord_skip rfl (by decide)
  have read := skipped.trans (readPhysicalRecord_old crc32c rest recyclable different ((Nat.zero_add _).trans_le room)
    fun read => absurd (unread.symm.trans read) Bool.false_ne_true)
  exact ⟨_, .leave (round_stops read .oldRecord rfl), rfl⟩

theorem LaidOut.aligned (laidOut : LaidOut woptions w items w')
    (aligned : w.dest.length % kBlockSize = w.blockOffset % kBlockSize) :
    w'.dest.length % kBlockSize = w'.blockOffset % kBlockSize := by
  induction laidOut with
  | nil => exact aligned
  | cons _ emitted _ ih =>
    refine ih ?_
    rw [emitted.dest, length_append, Nat.add_mod, aligned, ← Nat.add_mod]
    exact laid_aligned _ _ emitted.laid

theorem LaidOut.inBlock (laidOut : LaidOut woptions w items w') (inBlock : w.blockOffset ≤ kBlockSize) :
    w'.blockOffset ≤ kBlockSize := by
  induction laidOut with
  | nil => exact inBlock
  | cons _ emitted _ ih => exact ih (laid_inBlock emitted.laid)

private theorem afterItems_recycled (isRecycled : recycle = true) (nonempty : items ≠ [])
    (r : Reader υ) : (afterItems recycle items r).recycled = true := by
  have keeps (items : List (Bytes × List Placed)) {r : Reader υ} (recycled : r.recycled = true) :
      (afterItems recycle items r).recycled = true := by
    induction items generalizing r with
    | nil => exact recycled
    | cons _ _ ih => exact ih (by simp [recycled])
  cases items with
  | nil => exact absurd rfl nonempty
  | cons _ items => exact keeps items (by simp [isRecycled])

/-- A writer and a reader of one log without compression. -/
structure PlainLog (ζ υ : Type) where
  writer : LogWriter.Options ζ
  reader : LogReader.Options υ
  plain : writer.compressionType = kNoCompression
  crc32c : reader.crc32c = writer.crc32c
  logNumber : reader.logNumber = writer.logNumber

section Plain
variable (log : PlainLog ζ υ)

/-- The reader compares the whole log number with the 32 bits of it that are stored. -/
theorem PlainLog.matched (small : log.writer.recycleLogFiles = true → log.writer.logNumber < 2 ^ 32) :
    Matches log.reader log.writer.crc32c log.writer.logNumber log.writer.recycleLogFiles :=
  ⟨log.crc32c, fun recycle => ⟨log.logNumber, small recycle⟩⟩

theorem PlainLog.start : addCompressionTypeRecord log.writer .new = (.new : Writer ζ) :=
  if_pos log.plain

/-- Reading a file returns some records and then nothing, and reports nothing, in every
recovery mode. So does reading it in the default mode with what earlier logs left behind
it, when no position of that holds a physical record of this log with a good checksum. -/
def ReadsBack (records : List Bytes) (file : Bytes) : Prop :=
  (∀ mode, ∃ r, Reads log.reader mode (.new file) records r ∧ r.reports = []) ∧
    ∀ m older, FileOf log.writer m older → m < log.writer.logNumber → log.writer.recycleLogFiles = true →
      log.reader.checksum = true → Detected log.reader (file.length % kBlockSize) (older.drop file.length) →
      ∃ r, Reads log.reader .kTolerateCorruptedTailRecords (.new (file ++ older.drop file.length)) records r ∧
        r.reports = []

/-- An empty log is read back from any file of earlier logs. -/
theorem readsBack_empty : ReadsBack log [] [] := by
  refine ⟨fun mode => ?_, fun _ older fileOf earlier recycle _ _ => ?_⟩
  · obtain ⟨r, last, reports⟩ := readsRecord_end log.reader mode (.new []) le_rfl
    exact ⟨r, .done last, reports⟩
  · rcases fileOf_head fileOf with rfl | ⟨n, t, payload, rest, le, rfl, isFragment, room⟩
    · obtain ⟨r, last, reports⟩ := readsRecord_end log.reader .kTolerateCorruptedTailRecords (.new []) le_rfl
      exact ⟨r, .done last, reports⟩
    · have different : n % 2 ^ 32 ≠ log.reader.logNumber := by
        have low := Nat.mod_le n (2 ^ 32)
        rw [log.logNumber]
        omega
      obtain ⟨r, last, reports⟩ := readsRecord_old log.writer.crc32c rest
        (by rw [isFragment.isLegacy, recycle]; rfl) different room
        (.new (physicalRecord log.writer.crc32c n t payload ++ rest)) rfl
      exact ⟨r, .done last, reports⟩

/-- A log number of at most 32 bits: what was written is read back. -/
theorem readsBack_items (small : log.writer.recycleLogFiles = true → log.writer.logNumber < 2 ^ 32)
    (laidOut : LaidOut log.writer .new items w) (nonempty : items ≠ []) : ReadsBack log (recordsOf items) w.dest := by
  have ready (file : Bytes) : Ready log.writer.recycleLogFiles (.new file : Reader υ) := fun _ => nofun
  have aligned := laidOut.aligned rfl
  refine ⟨fun mode => ?_, fun _ older _ _ recycle checks detected => ?_⟩
  · obtain ⟨r, last, reports⟩ :=
      readsRecord_end log.reader mode (afterItems log.writer.recycleLogFiles items (.new w.dest))
      (laidOut.inBlock (Nat.zero_le _))
    have reads := reads_items (log.matched small) laidOut rfl (ready w.dest) rfl (.done last)
    rw [append_nil, append_nil] at reads
    refine ⟨r, ?_, by rw [reports, afterItems_reports]; rfl⟩
    rw [new_eq_readerAt]
    exact reads_edge (laidOut.dest ▸ reads)
  · obtain ⟨r, last, reports⟩ := readsRecord_stale checks (afterItems_recycled recycle nonempty
      (.new (w.dest ++ older.drop w.dest.length))) (laidOut.inBlock (Nat.zero_le _))
      (detected.drop 0 (by rw [Nat.add_zero, Nat.mod_mod, aligned]))
    have reads := reads_items (log.matched small) laidOut rfl (ready _) rfl (.done last)
    rw [append_nil] at reads
    refine ⟨r, ?_, by rw [reports, afterItems_reports]; rfl⟩
    rw [new_eq_readerAt]
    exact reads_edge (laidOut.dest ▸ reads)

/-- A log number of more than 32 bits: the writer stores its low 32 bits and the
reader compares them with all of it, so the log is read as an older one. -/
theorem wide_log_unread (records : List Bytes) {w : Writer ζ} (recycle : log.writer.recycleLogFiles = true)
    (wide : 2 ^ 32 ≤ log.writer.logNumber) (writes : Writes log.writer .new (records.map .record) ends w) :
    ∃ r, Reads log.reader .kTolerateCorruptedTailRecords (.new w.dest) [] r := by
  rcases writes_head log.writer writes with empty | ⟨t, payload, rest, isDest, isFragment, room⟩
  · rw [empty]
    obtain ⟨r, last, -⟩ := readsRecord_end log.reader .kTolerateCorruptedTailRecords (.new []) le_rfl
    exact ⟨r, .done last⟩
  · have different : log.writer.logNumber % 2 ^ 32 ≠ log.reader.logNumber := by
      have low := Nat.mod_lt log.writer.logNumber (Nat.two_pow_pos 32)
      rw [log.logNumber]
      omega
    obtain ⟨r, last, -⟩ := readsRecord_old log.writer.crc32c rest (by rw [isFragment.isLegacy, recycle]; rfl)
      different room (.new w.dest) rfl
    rw [← isDest] at last
    exact ⟨r, .done last⟩

/-- **Logs without compression are read back** exactly when the log number fits in what is
stored of it, or nothing of it is stored. -/
theorem log_round_trip (records : List Bytes) :
    ∃ ends w, Writes log.writer (addCompressionTypeRecord log.writer .new) (records.map .record) ends w ∧
      (ReadsBack log records w.dest ↔
        (log.writer.recycleLogFiles = true → log.writer.logNumber < 2 ^ 32 ∨ records = [])) := by
  obtain ⟨items, w, rfl, laidOut⟩ := exists_laidOut log.writer records (w := .new) rfl (Nat.zero_le _)
  refine ⟨_, w, log.start ▸ laidOut.writes, fun ⟨back, _⟩ recycle => ?_, fun fits => ?_⟩
  · refine or_iff_not_imp_left.mpr fun wide => ?_
    obtain ⟨_, nothing⟩ := wide_log_unread log _ recycle (not_lt.mp wide) laidOut.writes
    obtain ⟨_, reads, -⟩ := back .kTolerateCorruptedTailRecords
    exact reads.unique nothing
  · rcases eq_or_ne items [] with rfl | nonempty
    · cases laidOut
      exact readsBack_empty log
    · refine readsBack_items log (fun recycle => (fits recycle).resolve_right fun none => nonempty ?_) laidOut nonempty
      exact map_eq_nil_iff.mp none

end Plain

/-- A log that is not compressed. -/
def plainLog (logNumber : Nat) (recycleLogFiles : Bool) : PlainLog Unit Unit where
  writer := ⟨castagnoli, logNumber, recycleLogFiles, kNoCompression, ⟨(), fun _ _ => (0, [], ())⟩⟩
  reader :=
    { crc32c := castagnoli
      checksum := true
      logNumber := logNumber
      streamingUncompress := ⟨(), fun _ _ => (0, [], ()), fun _ => 0, fun _ again => by simp [kBlockSize] at again⟩ }
  plain := rfl
  crc32c := rfl
  logNumber := rfl

/-- A recyclable log with an empty record and a record over three blocks. -/
theorem log_round_trip_of_two : ∃ ends w, Writes (plainLog 7 true).writer
      (addCompressionTypeRecord (plainLog 7 true).writer .new) ([[], replicate 70000 1].map .record) ends w ∧
    ReadsBack (plainLog 7 true) [[], replicate 70000 1] w.dest := by
  obtain ⟨ends, w, writes, back⟩ := log_round_trip (plainLog 7 true) [[], replicate 70000 1]
  exact ⟨ends, w, writes, back.mpr fun _ => .inl (by decide)⟩

/-- **A record written under a log number of more than 32 bits is not returned.** -/
theorem wide_log_number_reads_nothing : ∃ ends w, Writes (plainLog (2 ^ 32) true).writer
        (addCompressionTypeRecord (plainLog (2 ^ 32) true).writer .new) [.record []] ends w ∧
      (∃ r, Reads (plainLog (2 ^ 32) true).reader .kTolerateCorruptedTailRecords (.new w.dest) [] r) ∧
      ¬ ∃ r, Reads (plainLog (2 ^ 32) true).reader .kTolerateCorruptedTailRecords (.new w.dest) [[]] r := by
  set log := plainLog (2 ^ 32) true
  obtain ⟨_, w, same, laidOut⟩ := exists_laidOut log.writer [[]] (w := .new) rfl (Nat.zero_le _)
  have writes := laidOut.writes
  rw [same] at writes
  have nothing := wide_log_unread log [[]] rfl le_rfl writes
  refine ⟨_, w, writes, nothing, fun ⟨r, reads⟩ => ?_⟩
  obtain ⟨_, none⟩ := nothing
  cases reads.unique none

/-- A fragment that is taken is not an old one. -/
theorem takeFragment_not_old (r : Reader υ) (t : RecordType) (payload : Bytes) :
    (takeFragment options r t.toNat payload).1.recordType ≠ kOldRecord := by
  have known : t.toNat ≠ kOldRecord := by cases t <;> decide
  unfold takeFragment
  split
  · exact known
  · split
    · exact known
    · split
      · exact (by decide : kBadRecord ≠ kOldRecord)
      · exact known

/-- **Recyclable records and their log numbers.** What a writer emits is accepted by a reader with
the same log number exactly when that has at most 32 bits, and is old to a reader with a larger log
number and another low half. -/
theorem recyclable_record_detected {t : RecordType} {payload : Bytes} (w : Writer ζ) (rest : Bytes)
    (crc : options.crc32c = woptions.crc32c) (recyclable : isLegacy t = false)
    (room : o + (headerSizeOf t + payload.length) ≤ kBlockSize) (ready : r.firstRecordRead = true → r.recycled = true) :
    let read := readPhysicalRecord options
      (readerAt r o ((emitPhysicalRecord woptions w t payload).dest.drop w.dest.length ++ rest))
    let after := readerAt { r with recycled := true } (o + (headerSizeOf t + payload.length)) rest
    (woptions.logNumber = options.logNumber →
        (read = takeFragment options after t.toNat payload ↔ options.logNumber < 2 ^ 32)) ∧
      (woptions.logNumber < options.logNumber → woptions.logNumber % 2 ^ 32 ≠ options.logNumber % 2 ^ 32 →
        read = (⟨kOldRecord, [], 0⟩, after)) := by
  dsimp only [emitPhysicalRecord]
  rw [drop_left]
  have old (different : woptions.logNumber % 2 ^ 32 ≠ options.logNumber) :=
    readPhysicalRecord_old woptions.crc32c rest recyclable different room ready
  refine ⟨fun same => ⟨fun taken => ?_, fun small => ?_⟩, fun _ _ => old (by omega)⟩
  · by_contra wide
    rw [old (by omega)] at taken
    exact takeFragment_not_old _ t payload (congrArg (·.1.recordType) taken).symm
  · have agrees : Agrees options woptions.crc32c woptions.logNumber t := ⟨crc, fun _ => ⟨same.symm, same ▸ small⟩⟩
    apply readPhysicalRecord_some
    rw [parse_record agrees room (by rintro rfl; cases recyclable) fun _ => ready, recyclable, Bool.not_false,
      Bool.or_true]
    rfl

/-- Log number 1 accepts its own records, and not those of log number 0. -/
theorem recyclable_record_detected_one :
    let read (logNumber : Nat) := readPhysicalRecord (plainLog 1 true).reader (readerAt (.new []) 0
      ((emitPhysicalRecord (plainLog logNumber true).writer .new .kRecyclableFullType [7, 8]).dest ++ [9]))
    ∃ r r', read 1 = (⟨RecordType.kRecyclableFullType.toNat, [7, 8], 0⟩, r) ∧ read 0 = (⟨kOldRecord, [], 0⟩, r') :=
  ⟨_, _, ((recyclable_record_detected .new [9] rfl rfl (by decide) (by decide)).1 rfl).mpr (by decide),
    (recyclable_record_detected .new [9] rfl rfl (by decide) (by decide)).2 (by decide) (by decide)⟩

/-- The writer of log number `2 ^ 32` stores a zero, so its reader takes the record for an old one. -/
theorem wide_record_old :
    ∃ r, readPhysicalRecord (plainLog (2 ^ 32) true).reader (readerAt (.new []) 0
        ((emitPhysicalRecord (plainLog (2 ^ 32) true).writer .new .kRecyclableFullType []).dest ++ [])) =
      (⟨kOldRecord, [], 0⟩, r) := by
  have written : (emitPhysicalRecord (plainLog (2 ^ 32) true).writer .new .kRecyclableFullType []).dest =
      physicalRecord castagnoli (2 ^ 32) .kRecyclableFullType [] := nil_append _
  rw [written]
  exact ⟨_, readPhysicalRecord_old castagnoli [] rfl (by decide) (by decide) (by decide)⟩

/-! ## Logs that are cut off -/

/-- A record that is cut off is not returned. -/
theorem returns_cut {logNumber : Nat} (mode : WALRecoveryMode) (matched : Matches options crc32c logNumber false)
    (laid : Laid false atBegin o ps e) (pads : ∀ p ∈ ps, p.pad < kHeaderSize)
    (uncompressed : r.uncompress = none) {k : Nat}
    (cut : k < (bytesOf crc32c logNumber ps).length) {scratch : Bytes}
    (fresh : atBegin = true → scratch = []) :
    ∃ r', Returns (readRecordRound options mode)
      ⟨readerAt r o ((bytesOf crc32c logNumber ps).take k), !atBegin, scratch⟩ (none, r') := by
  induction ps generalizing atBegin o r k scratch with
  | nil => cases laid
  | cons p ps ih =>
    have fragment : ∃ atEnd m, p.type = fragmentType false atBegin atEnd ∧ p.Fits o m := by
      cases laid with
      | last fits type => exact ⟨_, _, type, fits⟩
      | more fits type => exact ⟨_, _, type, fits⟩
    obtain ⟨atEnd, _, type, fits⟩ := fragment
    have short := pads p mem_cons_self
    rw [bytesOf_cons, length_append, length_bytes] at cut
    rw [bytesOf_cons, take_append, length_bytes]
    by_cases inside : k < p.pad + p.size
    · have atEnd : AtEnd (readPhysicalRecord options (readerAt r o
          ((p.bytes crc32c logNumber).take k))) := by
        refine readPhysicalRecord_cut ?_ fits short inside
        rw [IsFragment.isLegacy ⟨_, _, type⟩]
        rfl
      obtain ⟨r', round⟩ := round_atEnd mode (!atBegin) scratch atEnd
      rw [Nat.sub_eq_zero_of_le inside.le, take_zero, append_nil]
      exact ⟨r', .leave round⟩
    · -- the first part is whole, so it is not the last one
      cases laid with
      | last => rw [bytesOf_nil, length_nil] at cut; omega
      | @more _ _ _ _ _ _ fits type rest =>
        have fed : feedOne options r.uncompress p.payload = some (p.payload, none) := by rw [uncompressed]; rfl
        have read := readPhysicalRecord_fragment matched (fun recycled => by cases recycled) fits short
          ⟨_, _, type⟩ fed ((bytesOf crc32c logNumber ps).take (k - (p.pad + p.size)))
        have later (scratch : Bytes) : ∃ r', Returns (readRecordRound options mode) ⟨readerAt (advanced r false none) _
            ((bytesOf crc32c logNumber ps).take (k - (p.pad + p.size))), true, scratch⟩ (none, r') :=
          ih rest (fun q member => pads q (mem_cons_of_mem _ member)) rfl (by omega) nofun
        rw [take_of_length_le (by rw [length_bytes]; omega)]
        cases atBegin with
        | true =>
          obtain ⟨r', returns⟩ := later p.payload
          rw [fresh rfl]
          exact ⟨r', .again (round_first read (by rw [type, caseOf_fragmentType]; rfl)) returns⟩
        | false =>
          obtain ⟨r', returns⟩ := later (scratch ++ p.payload)
          exact ⟨r', .again (round_middle read (by rw [type, caseOf_fragmentType]; rfl)) returns⟩

private theorem le_of_mem_endsFrom {crc32c : Crc32c} {logNumber start : Nat} {items : List (Bytes × List Placed)}
    (member : n ∈ endsFrom crc32c logNumber start items) : start ≤ n := by
  induction items generalizing start with
  | nil => cases member
  | cons _ _ ih =>
    rcases mem_cons.mp member with rfl | member
    · exact Nat.le_add_right _ _
    · exact (Nat.le_add_right _ _).trans (ih member)

/-- The records that end before a cut. -/
def recordsBefore (cut : Nat) (records : List Bytes) (ends : List Nat) : List Bytes :=
  ((records.zip ends).filter fun record => record.2 ≤ cut).map Prod.fst

private theorem reads_cut (mode : WALRecoveryMode) (matched : Matches options woptions.crc32c woptions.logNumber false)
    (legacy : woptions.recycleLogFiles = false) (laidOut : LaidOut woptions w items w') (isPlain : w.compress = none)
    (inBlock : w.blockOffset ≤ kBlockSize) (uncompressed : r.uncompress = none) (start k : Nat) :
    ∃ final, Reads options mode
      (readerAt r w.blockOffset ((itemBytes woptions.crc32c woptions.logNumber items).take k))
      (recordsBefore (start + k) (recordsOf items) (endsFrom woptions.crc32c woptions.logNumber start items))
      final := by
  induction laidOut generalizing r start k with
  | nil =>
    obtain ⟨final, last, -⟩ := readsRecord_end options mode r inBlock
    refine ⟨final, ?_⟩
    rw [itemBytes, flatMap_nil, take_nil]
    exact .done last
  | @cons w next last record ps items added emitted laidOut ih =>
    have pads : ∀ p ∈ ps, p.pad < kHeaderSize := by
      simpa [Options.headerSize, legacy] using emitted.pads
    have laid := emitted.laid
    rw [legacy] at laid
    rw [itemBytes_cons, take_append]
    set size := (bytesOf woptions.crc32c woptions.logNumber ps).length
    by_cases whole : size ≤ k
    · have fed : feed options (r.uncompress.map fun _ => options.streamingUncompress.reset) ps =
          some (record, none) := by
        rw [uncompressed, Option.map_none, feed_none, emitted.payload]
      obtain ⟨final, later⟩ := ih (emitted_plain isPlain emitted) (laid_inBlock emitted.laid)
        (r := { advanced r false none with firstRecordRead := true }) rfl (start + size) (k - size)
      rw [show start + size + (k - size) = start + k by omega] at later
      refine ⟨final, ?_⟩
      have included : recordsBefore (start + k) (recordsOf ((record, ps) :: items))
          (endsFrom woptions.crc32c woptions.logNumber start ((record, ps) :: items)) =
          record :: recordsBefore (start + k) (recordsOf items)
            (endsFrom woptions.crc32c woptions.logNumber (start + size) items) := by
        simp [recordsBefore, recordsOf, endsFrom, size, whole]
      rw [included, take_of_length_le whole]
      exact .record (readsRecord matched laid (fun p member => pads p (mem_of_mem_tail member))
        (fun recycled => by cases recycled) fed _) later
    · obtain ⟨final, returns⟩ := returns_cut _ mode matched laid pads
        (r := { r with uncompress := r.uncompress.map fun _ => options.streamingUncompress.reset })
        (by rw [uncompressed]; rfl) (not_le.mp whole) (fun _ => rfl)
      have excluded : recordsBefore (start + k) (recordsOf ((record, ps) :: items))
          (endsFrom woptions.crc32c woptions.logNumber start ((record, ps) :: items)) = [] := by
        rw [recordsBefore, map_eq_nil_iff, filter_eq_nil_iff]
        intro item member
        have late : start + k < item.2 := by
          rcases mem_cons.mp (of_mem_zip member).2 with same | member
          · rw [same]
            dsimp only
            omega
          · have later := le_of_mem_endsFrom member
            dsimp only at later
            omega
        simp only [decide_eq_true_eq]
        omega
      refine ⟨final, ?_⟩
      rw [excluded, Nat.sub_eq_zero_of_le (not_le.mp whole).le, take_zero, append_nil]
      exact .done returns

/-- A log without compression whose records have the legacy header. -/
structure LegacyLog (ζ υ : Type) extends PlainLog ζ υ where
  legacy : writer.recycleLogFiles = false

theorem LegacyLog.matched_legacy (log : LegacyLog ζ υ) :
    Matches log.reader log.writer.crc32c log.writer.logNumber false :=
  ⟨log.crc32c, nofun⟩

/-- **A log that is cut off gives up only what is cut.** Wherever the file ends, the
reader returns exactly the records all of whose bytes are there, in every recovery
mode. -/
theorem truncated_log_reads (log : LegacyLog ζ υ) (records : List Bytes) :
    ∃ ends w, Writes log.writer (addCompressionTypeRecord log.writer .new) (records.map .record) ends w ∧
      ∀ mode cut, ∃ r, Reads log.reader mode (.new (w.dest.take cut)) (recordsBefore cut records ends) r := by
  obtain ⟨items, w, rfl, laidOut⟩ := exists_laidOut log.writer records (w := .new) rfl (Nat.zero_le _)
  have written : w.dest = itemBytes log.writer.crc32c log.writer.logNumber items := laidOut.dest
  refine ⟨_, w, by rw [log.start]; exact laidOut.writes, fun mode cut => ?_⟩
  obtain ⟨r, reads⟩ := reads_cut mode log.matched_legacy log.legacy laidOut rfl (Nat.zero_le _)
    (r := .new (w.dest.take cut)) rfl 0 cut
  rw [Nat.zero_add, ← written] at reads
  refine ⟨r, ?_⟩
  exact reads_edge reads

/-- A log with the legacy header. -/
def legacyLog : LegacyLog Unit Unit := ⟨plainLog 7 false, rfl⟩

/-- A short record and a record over three blocks, cut off anywhere. -/
theorem truncated_log_reads_of_two : ∃ ends w, Writes legacyLog.writer (addCompressionTypeRecord legacyLog.writer .new)
      ([[5], replicate 70000 1].map .record) ends w ∧
    ∀ mode cut, ∃ r, Reads legacyLog.reader mode (.new (w.dest.take cut))
      (recordsBefore cut [[5], replicate 70000 1] ends) r :=
  truncated_log_reads legacyLog [[5], replicate 70000 1]

end Rocksdb.LogRoundTrip
