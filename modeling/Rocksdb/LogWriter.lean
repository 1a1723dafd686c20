import Rocksdb.LogFormat
import Rocksdb.Lib.Loop

/-! The writer of write-ahead logs (`db/log_writer.cc`): records are cut into
physical records that do not cross blocks, and the rest of a block that is too
short for a header is filled with zeros. A compressor may be put in front; it
turns a record into a stream of pieces. The file behind the writer does not
fail, so the only error is that of the compressor. -/
namespace Rocksdb.LogWriter
open Lib.LittleEndian Lib.Loop LogFormat

/-- `StreamingCompress`. `compress` is called again and again with the same
record; it returns what remains of it, negative for an error, and a piece of
output. `reset` is the state after `Reset`. -/
structure StreamingCompress (ζ : Type) where
  reset : ζ
  compress : ζ → Bytes → Int × Bytes × ζ

/-- What is fixed for a writer. -/
structure Options (ζ : Type) where
  crc32c : Crc32c
  logNumber : Nat
  recycleLogFiles : Bool
  compressionType : CompressionType
  streamingCompress : StreamingCompress ζ

variable {ζ : Type}

/-- `header_size_`. -/
def Options.headerSize (options : Options ζ) : Nat :=
  if options.recycleLogFiles then kRecyclableHeaderSize else kHeaderSize

/-- `Writer`. `dest` holds the bytes appended so far, and `compress` the state of
the compressor once there is one. -/
structure Writer (ζ : Type) where
  dest : Bytes
  blockOffset : Nat
  compress : Option ζ
  recordedCfToTsSz : List (Nat × Nat)

/-- A new writer. -/
def Writer.new : Writer ζ := ⟨[], 0, none, []⟩

inductive IOStatus where
  | ok
  | ioError (message : String)
  deriving DecidableEq

/-- `\x00` again and again. -/
def zeros (n : Nat) : Bytes := List.replicate n 0

/-- The types whose header has no log number. -/
def isLegacy (t : RecordType) : Bool :=
  t.toNat < RecordType.kRecyclableFullType.toNat || t = .kSetCompressionType || t = .kUserDefinedTimestampSizeType

/-- The bytes of a physical record. The checksum covers the type, the log number
if there is one, and the payload. -/
def physicalRecord (crc32c : Crc32c) (logNumber : Nat) (t : RecordType) (payload : Bytes) : Bytes :=
  let typeByte := UInt8.ofNat t.toNat
  let log := if isLegacy t then [] else encode 4 logNumber
  let crc := crc32c.value [typeByte]
  let crc := if isLegacy t then crc else crc32c.extend crc log
  let crc := crc32c.combine crc (crc32c.value payload) payload.length
  encode 4 (mask crc).toNat ++ encode 2 payload.length ++ [typeByte] ++ log ++ payload

variable (options : Options ζ)

/-- `Writer::EmitPhysicalRecord`. -/
def emitPhysicalRecord (w : Writer ζ) (t : RecordType) (payload : Bytes) : Writer ζ :=
  { w with
    dest := w.dest ++ physicalRecord options.crc32c options.logNumber t payload
    blockOffset := w.blockOffset + ((if isLegacy t then kHeaderSize else kRecyclableHeaderSize) + payload.length) }

/-- Fills the trailer and goes on with a new block. -/
def switchBlock (w : Writer ζ) : Writer ζ :=
  { w with dest := w.dest ++ zeros (kBlockSize - w.blockOffset), blockOffset := 0 }

/-- The type of the next fragment of a record. -/
def fragmentType (recycleLogFiles atBegin atEnd : Bool) : RecordType :=
  if atBegin && atEnd then if recycleLogFiles then .kRecyclableFullType else .kFullType
  else if atBegin then if recycleLogFiles then .kRecyclableFirstType else .kFirstType
  else if atEnd then if recycleLogFiles then .kRecyclableLastType else .kLastType
  else if recycleLogFiles then .kRecyclableMiddleType else .kMiddleType

/-- The local variables of `AddRecord`: `left` is what `ptr` and `left` of the
source point to. -/
structure Adding (ζ : Type) where
  writer : Writer ζ
  left : Bytes
  atBegin : Bool
  compressStart : Bool
  compressRemaining : Int

/-- How a call of the compressor ends: in an error, with nothing left, or with
something to write. -/
inductive Compressed (ζ : Type) where
  | failed (w : Writer ζ)
  | finished (w : Writer ζ)
  | chunk (w : Writer ζ) (left : Bytes) (remaining : Int)

/-- The call of `Compress`, once at the start and then after each piece. -/
def compressIfNeeded (slice : Bytes) (a : Adding ζ) (w : Writer ζ) : Compressed ζ :=
  match w.compress with
  | none => .chunk w a.left a.compressRemaining
  | some state =>
    if a.compressStart || a.left.isEmpty then
      let (remaining, left, state) := options.streamingCompress.compress state slice
      let w := { w with compress := some state }
      if remaining < 0 then .failed w
      else if left.isEmpty && !a.compressStart then .finished w
      else .chunk w left remaining
    else .chunk w a.left a.compressRemaining

/-- One round of the loop of `Writer::AddRecord`. -/
def addRecordRound (slice : Bytes) (a : Adding ζ) : Round (Adding ζ) (IOStatus × Writer ζ) :=
  let w := if kBlockSize - a.writer.blockOffset < options.headerSize then switchBlock a.writer else a.writer
  let avail := kBlockSize - w.blockOffset - options.headerSize
  match compressIfNeeded options slice a w with
  | .failed w => .leave (.ioError "Unexpected WAL compression error", w)
  | .finished w => .leave (.ok, w)
  | .chunk w left remaining =>
    let fragmentLength := if left.length < avail then left.length else avail
    let atEnd := left.length = fragmentLength ∧ remaining = 0
    let t := fragmentType options.recycleLogFiles a.atBegin atEnd
    let w := emitPhysicalRecord options w t (left.take fragmentLength)
    let left := left.drop fragmentLength
    if left ≠ [] ∨ 0 < remaining then .again ⟨w, left, false, false, remaining⟩ else .leave (.ok, w)

/-- `Writer::AddRecord`, up to its loop. -/
def addRecordStart (w : Writer ζ) (slice : Bytes) : Adding ζ :=
  match w.compress with
  | none => ⟨w, slice, true, false, 0⟩
  | some _ => ⟨{ w with compress := some options.streamingCompress.reset }, slice, true, true, 0⟩

/-- `Writer::AddRecord` returns. -/
def AddsRecord (w : Writer ζ) (slice : Bytes) (status : IOStatus) (w' : Writer ζ) : Prop :=
  Returns (addRecordRound options slice) (addRecordStart options w slice) (status, w')

/-- `Writer::AddCompressionTypeRecord`. -/
def addCompressionTypeRecord (w : Writer ζ) : Writer ζ :=
  if options.compressionType = kNoCompression then w
  else
    { emitPhysicalRecord options w .kSetCompressionType (encode 4 options.compressionType.toNat) with
      compress := some options.streamingCompress.reset }

/-- `UserDefinedTimestampSizeRecord::EncodeTo`. -/
def encodeTimestampSizes (sizes : List (Nat × Nat)) : Bytes :=
  sizes.flatMap fun (cf, size) => encode 4 cf ++ encode 2 size

/-- The sizes that are still to be recorded, in the order of the map. -/
def timestampSizesToRecord (recorded cfToTsSz : List (Nat × Nat)) : List (Nat × Nat) :=
  cfToTsSz.filter fun (cf, size) => !recorded.any (·.1 = cf) && size ≠ 0

/-- `Writer::MaybeAddUserDefinedTimestampSizeRecord`. -/
def maybeAddUserDefinedTimestampSizeRecord (w : Writer ζ)
    (cfToTsSz : List (Nat × Nat)) : Writer ζ :=
  let sizes := timestampSizesToRecord w.recordedCfToTsSz cfToTsSz
  let w := { w with recordedCfToTsSz := w.recordedCfToTsSz ++ sizes }
  if sizes = [] then w
  else
    let encoded := encodeTimestampSizes sizes
    let t : RecordType := if options.recycleLogFiles then .kRecyclableUserDefinedTimestampSizeType
      else .kUserDefinedTimestampSizeType
    let w := if kBlockSize - w.blockOffset < options.headerSize + encoded.length then switchBlock w else w
    emitPhysicalRecord options w t encoded

/-- What is asked of a writer. -/
inductive Entry where
  | record (slice : Bytes)
  | timestampSizes (cfToTsSz : List (Nat × Nat))

/-- The calls of a writer that all succeed, with the length of the file after each
of them. -/
inductive Writes (options : Options ζ) : Writer ζ → List Entry → List Nat → Writer ζ → Prop where
  | done {w : Writer ζ} : Writes options w [] [] w
  | record {w next last : Writer ζ} {slice : Bytes} {entries : List Entry} {ends : List Nat}
      (added : AddsRecord options w slice .ok next) (later : Writes options next entries ends last) :
      Writes options w (.record slice :: entries) (next.dest.length :: ends) last
  | timestampSizes {w last : Writer ζ} {cfToTsSz : List (Nat × Nat)} {entries : List Entry} {ends : List Nat}
      (later : Writes options (maybeAddUserDefinedTimestampSizeRecord options w cfToTsSz) entries ends last) :
      Writes options w (.timestampSizes cfToTsSz :: entries)
        ((maybeAddUserDefinedTimestampSizeRecord options w cfToTsSz).dest.length :: ends) last

variable {options}

/-- What is written is determined by the writer. -/
theorem Writes.unique (first : Writes options w entries ends₁ w₁) (second : Writes options w entries ends₂ w₂) :
    w₁ = w₂ := by
  induction first generalizing ends₂ with
  | done =>
    cases second
    rfl
  | record added _ ih =>
    cases second with
    | record added' later' =>
      obtain ⟨-, rfl⟩ := Prod.mk.inj (added.unique added')
      exact ih later'
  | timestampSizes _ ih =>
    cases second with
    | timestampSizes later' => exact ih later'

end Rocksdb.LogWriter
