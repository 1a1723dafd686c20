import Rocksdb.Coding
import Rocksdb.DbFormat
import Rocksdb.Lib.KeyedList
import Rocksdb.Lib.Parsing

/-! The encoding of version edits in the manifest (`db/version_edit.h`,
`db/version_edit.cc`), with that of blob file additions and garbage
(`db/blob/blob_file_addition.cc`, `db/blob/blob_file_garbage.cc`) and of WAL
additions and deletions (`db/wal_edit.cc`). An edit is written as a sequence of
tagged fields; a new file and a blob file hold tagged custom fields of their own. -/
namespace Rocksdb.Manifest
open Coding Lib Lib.LittleEndian Lib.Parsing Shrinks

/-- `Status::Corruption` of a class, with its message. -/
structure Corruption where
  className : String
  message : String
  deriving DecidableEq, Repr

/-! ## Internal keys -/

/-- `IsExtendedValueType`. -/
def isExtendedValueType (t : Nat) : Bool :=
  t ≤ ValueType.kTypeMerge.toNat || t == ValueType.kTypeSingleDeletion.toNat ||
    t == ValueType.kTypeBlobIndex.toNat || t == ValueType.kTypeDeletionWithTimestamp.toNat ||
    t == ValueType.kTypeWideColumnEntity.toNat || t == ValueType.kTypeValuePreferredSeqno.toNat ||
    t == ValueType.kTypeRangeDeletion.toNat || t == ValueType.kTypeMaxValid.toNat

def kNumInternalBytes : Nat := 8

/-- `InternalKey::Valid`, by way of `ParseInternalKey`. -/
def validInternalKey (key : Bytes) : Bool :=
  kNumInternalBytes ≤ key.length &&
    isExtendedValueType (LittleEndian.decode (key.drop (key.length - kNumInternalBytes)) &&& 0xff)

/-- `StripTimestampFromInternalKey`; no result where its assertion fails. -/
def stripTimestampFromInternalKey (key : Bytes) (tsSz : Nat) : Option Bytes :=
  if tsSz + kNumInternalBytes ≤ key.length then
    some (key.take (key.length - kNumInternalBytes - tsSz) ++ key.drop (key.length - kNumInternalBytes))
  else none

/-! ## Edits -/

def kFileNumberMask : UInt64 := 0x3FFFFFFFFFFFFFFF

def packFileNumberAndPathId (number pathId : UInt64) : UInt64 := number ||| pathId * (kFileNumberMask + 1)

structure FileDescriptor where
  packedNumberAndPathId : UInt64 := 0
  fileSize : UInt64 := 0
  smallestSeqno : UInt64 := UInt64.ofNat kMaxSequenceNumber
  largestSeqno : UInt64 := 0
  deriving DecidableEq

namespace FileDescriptor

def getNumber (fd : FileDescriptor) : UInt64 := fd.packedNumberAndPathId &&& kFileNumberMask

def getPathId (fd : FileDescriptor) : UInt32 := (fd.packedNumberAndPathId / (kFileNumberMask + 1)).toUInt32

end FileDescriptor

def kUnknownFileChecksumFuncName : Bytes := "Unknown".toList.map fun c => UInt8.ofNat c.toNat

def kUnknownEpochNumber : UInt64 := 0

/-- `Temperature::kCold`, the last of the temperatures. -/
def kCold : UInt8 := 0x0C

/-- The part of `FileMetaData` that is written to the manifest. -/
structure FileMetaData where
  fd : FileDescriptor := {}
  smallest : Bytes := []
  largest : Bytes := []
  compensatedRangeDeletionSize : UInt64 := 0
  markedForCompaction : Bool := false
  temperature : UInt8 := 0
  oldestBlobFileNumber : UInt64 := 0
  oldestAncesterTime : UInt64 := 0
  fileCreationTime : UInt64 := 0
  epochNumber : UInt64 := kUnknownEpochNumber
  fileChecksum : Bytes := []
  fileChecksumFuncName : Bytes := kUnknownFileChecksumFuncName
  uniqueId : UInt64 × UInt64 := (0, 0)
  tailSize : UInt64 := 0
  userDefinedTimestampsPersisted : Bool := true
  deriving DecidableEq

structure BlobFileAddition where
  blobFileNumber : UInt64 := 0
  totalBlobCount : UInt64 := 0
  totalBlobBytes : UInt64 := 0
  checksumMethod : Bytes := []
  checksumValue : Bytes := []
  deriving DecidableEq

structure BlobFileGarbage where
  blobFileNumber : UInt64 := 0
  garbageBlobCount : UInt64 := 0
  garbageBlobBytes : UInt64 := 0
  deriving DecidableEq

def kUnknownWalSize : UInt64 := 0xFFFFFFFFFFFFFFFF

structure WalAddition where
  number : UInt64 := 0
  syncedSizeBytes : UInt64 := kUnknownWalSize
  deriving DecidableEq

/-- A field with a `has_` or `is_` flag is an option. Levels are C++ `int`s. -/
structure VersionEdit where
  dbId : Option Bytes := none
  comparator : Option Bytes := none
  logNumber : Option UInt64 := none
  prevLogNumber : Option UInt64 := none
  nextFileNumber : Option UInt64 := none
  maxColumnFamily : Option UInt32 := none
  minLogNumberToKeep : Option UInt64 := none
  lastSequence : Option UInt64 := none
  compactCursors : List (Int32 × Bytes) := []
  /-- A set, in its order. -/
  deletedFiles : List (Int32 × UInt64) := []
  newFiles : List (Int32 × FileMetaData) := []
  blobFileAdditions : List BlobFileAddition := []
  blobFileGarbages : List BlobFileGarbage := []
  walAdditions : List WalAddition := []
  /-- Zero when it is empty. -/
  walDeletion : UInt64 := 0
  columnFamily : UInt32 := 0
  /-- The name of the column family that is added. -/
  columnFamilyAdd : Option Bytes := none
  isColumnFamilyDrop : Bool := false
  /-- The entries that remain of the atomic group. -/
  inAtomicGroup : Option UInt32 := none
  /-- Empty when there is none. -/
  fullHistoryTsLow : Bytes := []
  persistUserDefinedTimestamps : Option Bool := none
  deriving DecidableEq

/-- The order of `deleted_files_`: by level, then by number. -/
def deletedFileOrder (file : Int32 × UInt64) : Nat := (file.1.toInt + 2 ^ 31).toNat * 2 ^ 64 + file.2.toNat

/-! ## Tags -/

/-- The tags that `DecodeFrom` knows. -/
inductive Tag where
  | kComparator
  | kLogNumber
  | kNextFileNumber
  | kLastSequence
  | kCompactCursor
  | kDeletedFile
  | kNewFile
  | kPrevLogNumber
  | kMinLogNumberToKeep
  | kNewFile2
  | kNewFile3
  | kNewFile4
  | kColumnFamily
  | kColumnFamilyAdd
  | kColumnFamilyDrop
  | kMaxColumnFamily
  | kInAtomicGroup
  | kBlobFileAddition
  | kBlobFileGarbage
  | kDbId
  | kBlobFileAdditionDeprecated
  | kBlobFileGarbageDeprecated
  | kWalAddition
  | kWalDeletion
  | kFullHistoryTsLow
  | kWalAddition2
  | kWalDeletion2
  | kPersistUserDefinedTimestamps
  deriving DecidableEq, Repr

def kTagSafeIgnoreMask : Nat := 1 <<< 13

namespace Tag

def number : Tag → Nat
  | kComparator => 1
  | kLogNumber => 2
  | kNextFileNumber => 3
  | kLastSequence => 4
  | kCompactCursor => 5
  | kDeletedFile => 6
  | kNewFile => 7
  | kPrevLogNumber => 9
  | kMinLogNumberToKeep => 10
  | kNewFile2 => 100
  | kNewFile3 => 102
  | kNewFile4 => 103
  | kColumnFamily => 200
  | kColumnFamilyAdd => 201
  | kColumnFamilyDrop => 202
  | kMaxColumnFamily => 203
  | kInAtomicGroup => 300
  | kBlobFileAddition => 400
  | kBlobFileGarbage => 401
  | kDbId => 8193
  | kBlobFileAdditionDeprecated => 8194
  | kBlobFileGarbageDeprecated => 8195
  | kWalAddition => 8196
  | kWalDeletion => 8197
  | kFullHistoryTsLow => 8198
  | kWalAddition2 => 8199
  | kWalDeletion2 => 8200
  | kPersistUserDefinedTimestamps => 8201

def all : List Tag :=
  [kComparator, kLogNumber, kNextFileNumber, kLastSequence, kCompactCursor, kDeletedFile, kNewFile, kPrevLogNumber,
    kMinLogNumberToKeep, kNewFile2, kNewFile3, kNewFile4, kColumnFamily, kColumnFamilyAdd, kColumnFamilyDrop,
    kMaxColumnFamily, kInAtomicGroup, kBlobFileAddition, kBlobFileGarbage, kDbId, kBlobFileAdditionDeprecated,
    kBlobFileGarbageDeprecated, kWalAddition, kWalDeletion, kFullHistoryTsLow, kWalAddition2, kWalDeletion2,
    kPersistUserDefinedTimestamps]

/-- The case of the switch that a number selects, if any. -/
def ofNumber (n : Nat) : Option Tag := all.find? (number · == n)

end Tag

/-- The tags of custom fields that `DecodeNewFile4From` knows. -/
inductive CustomTag where
  | kTerminate
  | kNeedCompaction
  | kMinLogNumberToKeepHack
  | kOldestBlobFileNumber
  | kOldestAncesterTime
  | kFileCreationTime
  | kFileChecksum
  | kFileChecksumFuncName
  | kTemperature
  | kUniqueId
  | kEpochNumber
  | kCompensatedRangeDeletionSize
  | kTailSize
  | kUserDefinedTimestampsPersisted
  | kPathId
  deriving DecidableEq, Repr

def kCustomTagNonSafeIgnoreMask : Nat := 1 <<< 6

namespace CustomTag

def number : CustomTag → Nat
  | kTerminate => 1
  | kNeedCompaction => 2
  | kMinLogNumberToKeepHack => 3
  | kOldestBlobFileNumber => 4
  | kOldestAncesterTime => 5
  | kFileCreationTime => 6
  | kFileChecksum => 7
  | kFileChecksumFuncName => 8
  | kTemperature => 9
  | kUniqueId => 12
  | kEpochNumber => 13
  | kCompensatedRangeDeletionSize => 14
  | kTailSize => 15
  | kUserDefinedTimestampsPersisted => 16
  | kPathId => 65

def all : List CustomTag :=
  [kTerminate, kNeedCompaction, kMinLogNumberToKeepHack, kOldestBlobFileNumber, kOldestAncesterTime, kFileCreationTime,
    kFileChecksum, kFileChecksumFuncName, kTemperature, kUniqueId, kEpochNumber, kCompensatedRangeDeletionSize,
      kTailSize,
    kUserDefinedTimestampsPersisted, kPathId]

def ofNumber (n : Nat) : Option CustomTag := all.find? (number · == n)

end CustomTag

/-- `BlobFileAddition::CustomFieldTags` and `BlobFileGarbage::CustomFieldTags`. -/
def kEndMarker : Nat := 0

def kForwardIncompatibleMask : Nat := 1 <<< 6

/-- `WalAdditionTag`. -/
def kWalTerminate : Nat := 1

def kSyncedSize : Nat := 2

/-! ## Encoding -/

/-- A custom field, whose value is prefixed by its length. -/
structure CustomField where
  tag : Nat
  value : Bytes
  deriving DecidableEq

def CustomField.bytes (field : CustomField) : Bytes := putVarint32 field.tag ++ putLengthPrefixedSlice field.value

/-- What is appended to the record for one tag. -/
inductive Field where
  | plain (tag : Nat) (body : Bytes)
  | newFile4 (head : Bytes) (custom : List CustomField)
  | blobFile (tag : Tag) (head : Bytes) (custom : List CustomField)
  deriving DecidableEq

def Field.bytes : Field → Bytes
  | .plain tag body => putVarint32 tag ++ body
  | .newFile4 head custom =>
    putVarint32 Tag.kNewFile4.number ++
      (head ++ (custom.flatMap CustomField.bytes ++ putVarint32 CustomTag.kTerminate.number))
  | .blobFile tag head custom =>
    putVarint32 tag.number ++ (head ++ (custom.flatMap CustomField.bytes ++ putVarint32 kEndMarker))

def putNumber (v : UInt64) : Bytes := putVarint64 v.toNat

def putLevel (level : Int32) : Bytes := putVarint32 level.toUInt32.toNat

def field (tag : Tag) (body : Bytes) : Field := .plain tag.number body

def customField (tag : CustomTag) (value : Bytes) : CustomField := ⟨tag.number, value⟩

/-- A custom field that is only written where a condition holds. -/
def customFieldIf (condition : Bool) (tag : CustomTag) (value : Bytes) : List CustomField :=
  if condition then [customField tag value] else []

/-- `VersionEdit::EncodeFileBoundaries`. -/
def encodeFileBoundaries (f : FileMetaData) (tsSz : Nat) : Option Bytes :=
  if tsSz = 0 ∨ f.userDefinedTimestampsPersisted then
    some (putLengthPrefixedSlice f.smallest ++ putLengthPrefixedSlice f.largest)
  else do
    let smallest ← stripTimestampFromInternalKey f.smallest tsSz
    let largest ← stripTimestampFromInternalKey f.largest tsSz
    return putLengthPrefixedSlice smallest ++ putLengthPrefixedSlice largest

/-- `EncodeUniqueIdBytes`. -/
def encodeUniqueIdBytes (id : UInt64 × UInt64) : Bytes := putFixed64 id.1.toNat ++ putFixed64 id.2.toNat

/-- The custom fields of a new file, and the log number that goes with the first of them. -/
def customFields (minLogNumberToKeep : Option UInt64) (f : FileMetaData) : List CustomField :=
  [customField .kOldestAncesterTime (putNumber f.oldestAncesterTime)] ++
  [customField .kFileCreationTime (putNumber f.fileCreationTime)] ++
  [customField .kEpochNumber (putNumber f.epochNumber)] ++
  [customField .kFileChecksum f.fileChecksum] ++
  [customField .kFileChecksumFuncName f.fileChecksumFuncName] ++
  customFieldIf (f.fd.getPathId ≠ 0) .kPathId [f.fd.getPathId.toUInt8] ++
  customFieldIf (f.temperature ≠ 0) .kTemperature [f.temperature] ++
  customFieldIf f.markedForCompaction .kNeedCompaction [1] ++
  (minLogNumberToKeep.toList.map fun number => customField .kMinLogNumberToKeepHack (putFixed64 number.toNat)) ++
  customFieldIf (f.oldestBlobFileNumber ≠ 0) .kOldestBlobFileNumber (putNumber f.oldestBlobFileNumber) ++
  customFieldIf (f.uniqueId ≠ (0, 0)) .kUniqueId (encodeUniqueIdBytes f.uniqueId) ++
  customFieldIf (f.compensatedRangeDeletionSize ≠ 0) .kCompensatedRangeDeletionSize
    (putNumber f.compensatedRangeDeletionSize) ++
  customFieldIf (f.tailSize ≠ 0) .kTailSize (putNumber f.tailSize) ++
  customFieldIf (!f.userDefinedTimestampsPersisted) .kUserDefinedTimestampsPersisted [0]

def newFileHead (level : Int32) (f : FileMetaData) (boundaries : Bytes) : Bytes :=
  putLevel level ++ (putNumber f.fd.getNumber ++ (putNumber f.fd.fileSize ++ (boundaries ++
    (putNumber f.fd.smallestSeqno ++ putNumber f.fd.largestSeqno))))

/-- One round of the loop over `new_files_`; no result where the source returns false. -/
def newFileField (tsSz : Nat) (minLogNumberToKeep : Option UInt64) (level : Int32) (f : FileMetaData) : Option Field :=
  if !validInternalKey f.smallest || !validInternalKey f.largest || f.epochNumber == kUnknownEpochNumber then none
  else (encodeFileBoundaries f tsSz).map fun boundaries =>
    .newFile4 (newFileHead level f boundaries) (customFields minLogNumberToKeep f)

/-- The loop over `new_files_`. The log number is written with the first file. -/
def newFileFields (tsSz : Nat) : Option UInt64 → List (Int32 × FileMetaData) → Option (List Field)
  | _, [] => some []
  | minLogNumberToKeep, (level, f) :: files => do
    let first ← newFileField tsSz minLogNumberToKeep level f
    let rest ← newFileFields tsSz none files
    return first :: rest

/-- `BlobFileAddition::EncodeTo`, up to the end marker. -/
def BlobFileAddition.head (addition : BlobFileAddition) : Bytes :=
  putNumber addition.blobFileNumber ++ (putNumber addition.totalBlobCount ++ (putNumber addition.totalBlobBytes ++
    (putLengthPrefixedSlice addition.checksumMethod ++ putLengthPrefixedSlice addition.checksumValue)))

/-- `BlobFileGarbage::EncodeTo`, up to the end marker. -/
def BlobFileGarbage.head (garbage : BlobFileGarbage) : Bytes :=
  putNumber garbage.blobFileNumber ++ (putNumber garbage.garbageBlobCount ++ putNumber garbage.garbageBlobBytes)

/-- `WalAddition::EncodeTo`. -/
def WalAddition.encode (addition : WalAddition) : Bytes :=
  putNumber addition.number ++
    ((if addition.syncedSizeBytes ≠ kUnknownWalSize then putVarint32 kSyncedSize ++ putNumber addition.syncedSizeBytes
      else []) ++ putVarint32 kWalTerminate)

namespace VersionEdit

/-- The fields that `EncodeTo` writes, in their order. -/
def fields (edit : VersionEdit) (tsSz : Option Nat) : Option (List Field) :=
  let newFiles :=
    if edit.newFiles = [] then some []
    else tsSz.bind fun tsSz => newFileFields tsSz edit.minLogNumberToKeep edit.newFiles
  newFiles.map fun newFiles =>
    (edit.dbId.toList.map fun id => field .kDbId (putLengthPrefixedSlice id)) ++
    (edit.comparator.toList.map fun name => field .kComparator (putLengthPrefixedSlice name)) ++
    (edit.logNumber.toList.map fun number => field .kLogNumber (putNumber number)) ++
    (edit.prevLogNumber.toList.map fun number => field .kPrevLogNumber (putNumber number)) ++
    (edit.nextFileNumber.toList.map fun number => field .kNextFileNumber (putNumber number)) ++
    (edit.maxColumnFamily.toList.map fun id => field .kMaxColumnFamily (putVarint32 id.toNat)) ++
    (edit.minLogNumberToKeep.toList.map fun number => field .kMinLogNumberToKeep (putNumber number)) ++
    (edit.lastSequence.toList.map fun number => field .kLastSequence (putNumber number)) ++
    ((edit.compactCursors.filter fun cursor => validInternalKey cursor.2).map fun cursor =>
      field .kCompactCursor (putLevel cursor.1 ++ putLengthPrefixedSlice cursor.2)) ++
    (edit.deletedFiles.map fun file => field .kDeletedFile (putLevel file.1 ++ putNumber file.2)) ++
    newFiles ++
    (edit.blobFileAdditions.map fun addition => .blobFile .kBlobFileAddition addition.head []) ++
    (edit.blobFileGarbages.map fun garbage => .blobFile .kBlobFileGarbage garbage.head []) ++
    (edit.walAdditions.map fun addition => field .kWalAddition2 (putLengthPrefixedSlice addition.encode)) ++
    (if edit.walDeletion ≠ 0 then [field .kWalDeletion2 (putLengthPrefixedSlice (putNumber edit.walDeletion))]
      else []) ++
    (if edit.columnFamily ≠ 0 then [field .kColumnFamily (putVarint32 edit.columnFamily.toNat)] else []) ++
    (edit.columnFamilyAdd.toList.map fun name => field .kColumnFamilyAdd (putLengthPrefixedSlice name)) ++
    (if edit.isColumnFamilyDrop then [field .kColumnFamilyDrop []] else []) ++
    (edit.inAtomicGroup.toList.map fun entries => field .kInAtomicGroup (putVarint32 entries.toNat)) ++
    (if edit.fullHistoryTsLow ≠ [] then [field .kFullHistoryTsLow (putLengthPrefixedSlice edit.fullHistoryTsLow)]
      else []) ++
    (edit.persistUserDefinedTimestamps.toList.map fun persist =>
      field .kPersistUserDefinedTimestamps (putLengthPrefixedSlice [if persist then 1 else 0]))

end VersionEdit

def bytesOf (fields : List Field) : Bytes := fields.flatMap Field.bytes

/-- `VersionEdit::EncodeTo`; no result where it returns false. -/
def VersionEdit.encodeTo (edit : VersionEdit) (tsSz : Option Nat) : Option Bytes := (edit.fields tsSz).map bytesOf

/-! ## Decoding -/

abbrev Decoder (α : Type) : Type := Parser UInt8 Corruption α

/-- What `DecodeFrom` reports for a message. -/
def corrupt (message : String) : Corruption := ⟨"VersionEdit", message⟩

variable (e : Corruption)

def varint32 : Decoder UInt32 := do
  let v ← orFail e getVarint32
  return UInt32.ofNat v

def varint64 : Decoder UInt64 := do
  let v ← orFail e getVarint64
  return UInt64.ofNat v

def slice : Decoder Bytes := orFail e getLengthPrefixedSlice

/-- `VersionEdit::GetLevel`. -/
def getLevel : Decoder Int32 := do
  let v ← varint32 e
  return v.toInt32

/-- `GetInternalKey`. -/
def getInternalKey : Decoder Bytes := do
  let key ← slice e
  if validInternalKey key then return key else throw e

/-- What a decoder reads from a value. What is left over is ignored. -/
def within (value : Bytes) (decoder : Decoder α) : Except Corruption α := (decoder value).map Prod.fst

/-- A value of one byte. -/
def oneByte : Bytes → Except Corruption UInt8
  | [byte] => .ok byte
  | _ => .error e

/-- `DecodeUniqueIdBytes`. -/
def decodeUniqueIdBytes (bytes : Bytes) : Except Corruption (UInt64 × UInt64) :=
  if bytes.length ≠ 16 then .error e
  else .ok (UInt64.ofNat (LittleEndian.decode (bytes.take 8)), UInt64.ofNat (LittleEndian.decode (bytes.drop 8)))

/-- The variables of `DecodeNewFile4From` that its loop changes. -/
structure CustomState where
  f : FileMetaData
  pathId : UInt32 := 0
  minLogNumberToKeep : Option UInt64

/-- One case of the switch over custom tags. -/
def decodeKnownCustomField (s : CustomState) (value : Bytes) : CustomTag → Except Corruption CustomState
  | .kPathId => do
    let byte ← oneByte (corrupt "path_id field wrong size") value
    if byte.toUInt32 > 3 then .error (corrupt "path_id wrong vaue") else return { s with pathId := byte.toUInt32 }
  | .kOldestAncesterTime => do
    let v ← within value (varint64 (corrupt "invalid oldest ancester time"))
    return { s with f.oldestAncesterTime := v }
  | .kFileCreationTime => do
    let v ← within value (varint64 (corrupt "invalid file creation time"))
    return { s with f.fileCreationTime := v }
  | .kEpochNumber => do
    let v ← within value (varint64 (corrupt "invalid epoch number"))
    return { s with f.epochNumber := v }
  | .kFileChecksum => return { s with f.fileChecksum := value }
  | .kFileChecksumFuncName => return { s with f.fileChecksumFuncName := value }
  | .kNeedCompaction => do
    let byte ← oneByte (corrupt "need_compaction field wrong size") value
    return { s with f.markedForCompaction := byte == 1 }
  | .kMinLogNumberToKeepHack => do
    let v ← within value (orFail (corrupt "deleted log number malformatted") getFixed64)
    return { s with minLogNumberToKeep := some (UInt64.ofNat v) }
  | .kOldestBlobFileNumber => do
    let v ← within value (varint64 (corrupt "invalid oldest blob file number"))
    return { s with f.oldestBlobFileNumber := v }
  | .kTemperature => do
    let byte ← oneByte (corrupt "temperature field wrong size") value
    return if byte ≤ kCold then { s with f.temperature := byte } else s
  | .kUniqueId => do
    let id ← decodeUniqueIdBytes (corrupt "invalid unique id") value
    return { s with f.uniqueId := id }
  | .kCompensatedRangeDeletionSize => do
    let v ← within value (varint64 (corrupt "Invalid compensated range deletion size"))
    return { s with f.compensatedRangeDeletionSize := v }
  | .kTailSize => do
    let v ← within value (varint64 (corrupt "invalid tail start offset"))
    return { s with f.tailSize := v }
  | .kUserDefinedTimestampsPersisted => do
    let byte ← oneByte (corrupt "user-defined timestamps persisted field wrong size") value
    return { s with f.userDefinedTimestampsPersisted := byte == 1 }
  -- The loop ends before the switch.
  | .kTerminate => return s

/-- The switch over custom tags. -/
def decodeCustomField (s : CustomState) (custom : CustomField) : Except Corruption CustomState :=
  match CustomTag.ofNumber custom.tag with
  | some tag => decodeKnownCustomField s custom.value tag
  | none =>
    if custom.tag &&& kCustomTagNonSafeIgnoreMask ≠ 0 then .error (corrupt "new-file4 custom field not supported")
    else return s

/-- One round of the loop of `DecodeNewFile4From`. -/
def customFieldRound (s : CustomState) : Decoder (CustomState ⊕ CustomState) := do
  let tag ← orFail (corrupt "new-file4 custom field") getVarint32
  if tag = CustomTag.kTerminate.number then return .inr s
  else do
    let value ← slice (corrupt "new-file4 custom field length prefixed slice error")
    let s ← StateT.lift (decodeCustomField s ⟨tag, value⟩)
    return .inl s

theorem progresses_varint32 : Progresses (orFail e getVarint32) := Progresses.orFail getVarint32_length

theorem shrinks_slice : Shrinks (slice e) := (Progresses.orFail getLengthPrefixedSlice_length).shrinks

theorem shrinks_varint32 : Shrinks (varint32 e) := (progresses_varint32 e).shrinks.bind fun _ => pure _

theorem shrinks_varint64 : Shrinks (varint64 e) :=
  (Progresses.orFail getVarint64_length).shrinks.bind fun _ => pure _

theorem shrinks_getLevel : Shrinks (getLevel e) := (shrinks_varint32 e).bind fun _ => pure _

theorem shrinks_getInternalKey : Shrinks (getInternalKey e) := by
  refine (shrinks_slice e).bind fun _ => ?_
  split
  · exact pure _
  · exact throw _

theorem progresses_customFieldRound (s : CustomState) : Progresses (customFieldRound s) := by
  refine (progresses_varint32 _).bind fun _ => ?_
  split
  · exact pure _
  · exact (shrinks_slice _).bind fun _ => (lift _).bind fun _ => pure _

/-- The loop of `DecodeNewFile4From`. -/
def decodeCustomFields (s : CustomState) : Decoder CustomState :=
  loop customFieldRound (Progresses.again progresses_customFieldRound) s

/-- `DecodeNewFile4From`. -/
def decodeNewFile4From (edit : VersionEdit) : Decoder VersionEdit := do
  let e := corrupt "new-file4 entry"
  let level ← getLevel e
  let number ← varint64 e
  let fileSize ← varint64 e
  let smallest ← getInternalKey e
  let largest ← getInternalKey e
  let smallestSeqno ← varint64 e
  let largestSeqno ← varint64 e
  let s ← decodeCustomFields { f := { smallest, largest }, minLogNumberToKeep := edit.minLogNumberToKeep }
  let fd : FileDescriptor :=
    { packedNumberAndPathId := packFileNumberAndPathId number s.pathId.toUInt64
      fileSize, smallestSeqno, largestSeqno }
  return { edit with
    minLogNumberToKeep := s.minLogNumberToKeep
    newFiles := edit.newFiles ++ [(level, { s.f with fd })] }

/-- One round of the loops that end `BlobFileAddition::DecodeFrom` and `BlobFileGarbage::DecodeFrom`. -/
def blobCustomFieldRound (className : String) (_ : Unit) : Decoder (Unit ⊕ Unit) := do
  let tag ← orFail ⟨className, "Error decoding custom field tag"⟩ getVarint32
  if tag = kEndMarker then return .inr ()
  else if tag &&& kForwardIncompatibleMask ≠ 0 then
    throw ⟨className, "Forward incompatible custom field encountered"⟩
  else do
    let _ ← slice ⟨className, "Error decoding custom field value"⟩
    return .inl ()

theorem progresses_blobCustomFieldRound (className : String) (s : Unit) :
    Progresses (blobCustomFieldRound className s) := by
  refine (progresses_varint32 _).bind fun _ => ?_
  split
  · exact pure _
  split
  · exact throw _
  · exact (shrinks_slice _).bind fun _ => pure _

def skipBlobCustomFields (className : String) : Decoder Unit :=
  loop (blobCustomFieldRound className) (Progresses.again (progresses_blobCustomFieldRound className)) ()

/-- `BlobFileAddition::DecodeFrom`. -/
def BlobFileAddition.decodeFrom : Decoder BlobFileAddition := do
  let className := "BlobFileAddition"
  let blobFileNumber ← varint64 ⟨className, "Error decoding blob file number"⟩
  let totalBlobCount ← varint64 ⟨className, "Error decoding total blob count"⟩
  let totalBlobBytes ← varint64 ⟨className, "Error decoding total blob bytes"⟩
  let checksumMethod ← slice ⟨className, "Error decoding checksum method"⟩
  let checksumValue ← slice ⟨className, "Error decoding checksum value"⟩
  let _ ← skipBlobCustomFields className
  return { blobFileNumber, totalBlobCount, totalBlobBytes, checksumMethod, checksumValue }

/-- `BlobFileGarbage::DecodeFrom`. -/
def BlobFileGarbage.decodeFrom : Decoder BlobFileGarbage := do
  let className := "BlobFileGarbage"
  let blobFileNumber ← varint64 ⟨className, "Error decoding blob file number"⟩
  let garbageBlobCount ← varint64 ⟨className, "Error decoding garbage blob count"⟩
  let garbageBlobBytes ← varint64 ⟨className, "Error decoding garbage blob bytes"⟩
  let _ ← skipBlobCustomFields className
  return { blobFileNumber, garbageBlobCount, garbageBlobBytes }

/-- One round of the loop of `WalAddition::DecodeFrom`. -/
def walAdditionRound (addition : WalAddition) : Decoder (WalAddition ⊕ WalAddition) := do
  let tag ← orFail ⟨"WalAddition", "Error decoding tag"⟩ getVarint32
  if tag = kSyncedSize then do
    let size ← varint64 ⟨"WalAddition", "Error decoding WAL file size"⟩
    return .inl { addition with syncedSizeBytes := size }
  else if tag = kWalTerminate then return .inr addition
  else throw ⟨"WalAddition", "Unknown tag " ++ toString tag⟩

theorem progresses_walAdditionRound (addition : WalAddition) : Progresses (walAdditionRound addition) := by
  refine (progresses_varint32 _).bind fun _ => ?_
  split
  · exact (shrinks_varint64 _).bind fun _ => pure _
  split
  · exact pure _
  · exact throw _

/-- `WalAddition::DecodeFrom`. -/
def WalAddition.decodeFrom : Decoder WalAddition := do
  let number ← varint64 ⟨"WalAddition", "Error decoding WAL log number"⟩
  loop walAdditionRound (Progresses.again progresses_walAdditionRound) { number }

/-- `WalDeletion::DecodeFrom`. -/
def decodeWalDeletion : Decoder UInt64 := varint64 ⟨"WalDeletion", "Error decoding WAL log number"⟩

def decodeOldPathId (withPathId : Bool) : Decoder UInt32 :=
  if withPathId then varint32 e else return 0

/-- A new file of the older formats: the entry up to its keys. -/
def decodeOldNewFile (withPathId : Bool) : Decoder (Int32 × FileMetaData) := do
  let level ← getLevel e
  let number ← varint64 e
  let pathId ← decodeOldPathId e withPathId
  let fileSize ← varint64 e
  let smallest ← getInternalKey e
  let largest ← getInternalKey e
  let fd : FileDescriptor := { packedNumberAndPathId := packFileNumberAndPathId number pathId.toUInt64, fileSize }
  return (level, { fd, smallest, largest })

/-- The sequence numbers that follow in all but the oldest format. -/
def decodeOldSeqnos (file : Int32 × FileMetaData) : Decoder (Int32 × FileMetaData) := do
  let smallestSeqno ← varint64 e
  let largestSeqno ← varint64 e
  let fd := { file.2.fd with smallestSeqno, largestSeqno }
  return (file.1, { file.2 with fd })

namespace VersionEdit
variable (edit : VersionEdit)

def addFile (file : Int32 × FileMetaData) : VersionEdit :=
  { edit with newFiles := edit.newFiles ++ [file] }

/-- One case of the switch of `DecodeFrom`. -/
def decodeKnownField : Tag → Decoder VersionEdit
  | .kDbId => do
    let str ← slice (corrupt "db id")
    return { edit with dbId := some str }
  | .kComparator => do
    let str ← slice (corrupt "comparator name")
    return { edit with comparator := some str }
  | .kLogNumber => do
    let v ← varint64 (corrupt "log number")
    return { edit with logNumber := some v }
  | .kPrevLogNumber => do
    let v ← varint64 (corrupt "previous log number")
    return { edit with prevLogNumber := some v }
  | .kNextFileNumber => do
    let v ← varint64 (corrupt "next file number")
    return { edit with nextFileNumber := some v }
  | .kMaxColumnFamily => do
    let v ← varint32 (corrupt "max column family")
    return { edit with maxColumnFamily := some v }
  | .kMinLogNumberToKeep => do
    let v ← varint64 (corrupt "min log number to kee")
    return { edit with minLogNumberToKeep := some v }
  | .kLastSequence => do
    let v ← varint64 (corrupt "last sequence number")
    return { edit with lastSequence := some v }
  | .kCompactCursor => do
    let level ← getLevel (corrupt "compaction cursor")
    let key ← getInternalKey (corrupt "compaction cursor")
    return { edit with compactCursors := edit.compactCursors ++ [(level, key)] }
  | .kDeletedFile => do
    let level ← getLevel (corrupt "deleted file")
    let number ← varint64 (corrupt "deleted file")
    return { edit with deletedFiles := KeyedList.insert deletedFileOrder (level, number) edit.deletedFiles }
  | .kNewFile => do
    let file ← decodeOldNewFile (corrupt "new-file entry") false
    return edit.addFile file
  | .kNewFile2 => do
    let file ← decodeOldNewFile (corrupt "new-file2 entry") false
    let file ← decodeOldSeqnos (corrupt "new-file2 entry") file
    return edit.addFile file
  | .kNewFile3 => do
    let file ← decodeOldNewFile (corrupt "new-file3 entry") true
    let file ← decodeOldSeqnos (corrupt "new-file3 entry") file
    return edit.addFile file
  | .kNewFile4 => decodeNewFile4From edit
  | .kBlobFileAddition | .kBlobFileAdditionDeprecated => do
    let addition ← BlobFileAddition.decodeFrom
    return { edit with blobFileAdditions := edit.blobFileAdditions ++ [addition] }
  | .kBlobFileGarbage | .kBlobFileGarbageDeprecated => do
    let garbage ← BlobFileGarbage.decodeFrom
    return { edit with blobFileGarbages := edit.blobFileGarbages ++ [garbage] }
  | .kWalAddition => do
    let addition ← WalAddition.decodeFrom
    return { edit with walAdditions := edit.walAdditions ++ [addition] }
  | .kWalAddition2 => do
    let encoded ← slice (corrupt "WalAddition not prefixed by length")
    let addition ← StateT.lift (within encoded WalAddition.decodeFrom)
    return { edit with walAdditions := edit.walAdditions ++ [addition] }
  | .kWalDeletion => do
    let deletion ← decodeWalDeletion
    return { edit with walDeletion := deletion }
  | .kWalDeletion2 => do
    let encoded ← slice (corrupt "WalDeletion not prefixed by length")
    let deletion ← StateT.lift (within encoded decodeWalDeletion)
    return { edit with walDeletion := deletion }
  | .kColumnFamily => do
    let v ← varint32 (corrupt "set column family id")
    return { edit with columnFamily := v }
  | .kColumnFamilyAdd => do
    let str ← slice (corrupt "column family add")
    return { edit with columnFamilyAdd := some str }
  | .kColumnFamilyDrop => return { edit with isColumnFamilyDrop := true }
  | .kInAtomicGroup => do
    let v ← varint32 (corrupt "remaining entries")
    return { edit with inAtomicGroup := some v }
  | .kFullHistoryTsLow => do
    let str ← slice (corrupt "full_history_ts_low")
    if str = [] then throw (corrupt "full_history_ts_low: empty") else return { edit with fullHistoryTsLow := str }
  | .kPersistUserDefinedTimestamps => do
    let str ← slice (corrupt "persist_user_defined_timestamps")
    let byte ← StateT.lift (oneByte (corrupt "persist_user_defined_timestamps field wrong size") str)
    return { edit with persistUserDefinedTimestamps := some (byte == 1) }

/-- The switch of `DecodeFrom`. A tag that can be ignored is followed by the length of its entry. -/
def decodeField (tag : Nat) : Decoder VersionEdit :=
  match Tag.ofNumber tag with
  | some tag => edit.decodeKnownField tag
  | none =>
    if tag &&& kTagSafeIgnoreMask ≠ 0 then do
      let _ ← slice (corrupt "safely ignoreable tag length error")
      return edit
    else throw (corrupt "unknown tag")

/-- One round of the loop of `DecodeFrom`, which ends where no tag can be read. -/
def decodeRound : Decoder (VersionEdit ⊕ VersionEdit) := fun input =>
  match getVarint32 input with
  | none => if input ≠ [] then .error (corrupt "invalid tag") else .ok (.inr edit, [])
  | some (tag, rest) => (edit.decodeField tag >>= fun edit => pure (.inl edit)) rest

end VersionEdit

variable (edit : VersionEdit)

private theorem shrinks_decodeNewFile4From : Shrinks (decodeNewFile4From edit) :=
  (shrinks_getLevel _).bind fun _ => (shrinks_varint64 _).bind fun _ => (shrinks_varint64 _).bind fun _ =>
    (shrinks_getInternalKey _).bind fun _ => (shrinks_getInternalKey _).bind fun _ =>
    (shrinks_varint64 _).bind fun _ => (shrinks_varint64 _).bind fun _ =>
    (loop progresses_customFieldRound).bind fun _ => pure _

private theorem shrinks_decodeOldNewFile (withPathId : Bool) : Shrinks (decodeOldNewFile e withPathId) := by
  have pathId : Shrinks (decodeOldPathId e withPathId) := by
    unfold decodeOldPathId
    split
    · exact shrinks_varint32 e
    · exact pure _
  exact (shrinks_getLevel e).bind fun _ => (shrinks_varint64 e).bind fun _ => pathId.bind fun _ =>
    (shrinks_varint64 e).bind fun _ => (shrinks_getInternalKey e).bind fun _ =>
    (shrinks_getInternalKey e).bind fun _ => pure _

private theorem shrinks_decodeOldSeqnos (file : Int32 × FileMetaData) : Shrinks (decodeOldSeqnos e file) :=
  (shrinks_varint64 e).bind fun _ => (shrinks_varint64 e).bind fun _ => pure _

theorem shrinks_skipBlobCustomFields (className : String) : Shrinks (skipBlobCustomFields className) :=
  loop (progresses_blobCustomFieldRound className)

theorem BlobFileAddition.shrinks_decodeFrom : Shrinks BlobFileAddition.decodeFrom :=
  (shrinks_varint64 _).bind fun _ => (shrinks_varint64 _).bind fun _ => (shrinks_varint64 _).bind fun _ =>
    (shrinks_slice _).bind fun _ => (shrinks_slice _).bind fun _ =>
    (shrinks_skipBlobCustomFields _).bind fun _ => pure _

theorem BlobFileGarbage.shrinks_decodeFrom : Shrinks BlobFileGarbage.decodeFrom :=
  (shrinks_varint64 _).bind fun _ => (shrinks_varint64 _).bind fun _ => (shrinks_varint64 _).bind fun _ =>
    (shrinks_skipBlobCustomFields _).bind fun _ => pure _

theorem WalAddition.shrinks_decodeFrom : Shrinks WalAddition.decodeFrom :=
  (shrinks_varint64 _).bind fun _ => loop progresses_walAdditionRound

namespace VersionEdit

private theorem shrinks_decodeKnownField (tag : Tag) : Shrinks (edit.decodeKnownField tag) := by
  cases tag with
  | kNewFile4 => exact shrinks_decodeNewFile4From edit
  | kCompactCursor =>
    exact (shrinks_getLevel _).bind fun _ => (shrinks_getInternalKey _).bind fun _ => pure _
  | kDeletedFile => exact (shrinks_getLevel _).bind fun _ => (shrinks_varint64 _).bind fun _ => pure _
  | kNewFile => exact (shrinks_decodeOldNewFile _ _).bind fun _ => pure _
  | kNewFile2 | kNewFile3 =>
    exact (shrinks_decodeOldNewFile _ _).bind fun _ => (shrinks_decodeOldSeqnos _ _).bind fun _ => pure _
  | kBlobFileAddition | kBlobFileAdditionDeprecated =>
    exact BlobFileAddition.shrinks_decodeFrom.bind fun _ => pure _
  | kBlobFileGarbage | kBlobFileGarbageDeprecated =>
    exact BlobFileGarbage.shrinks_decodeFrom.bind fun _ => pure _
  | kWalAddition => exact WalAddition.shrinks_decodeFrom.bind fun _ => pure _
  | kWalAddition2 | kWalDeletion2 | kPersistUserDefinedTimestamps =>
    exact (shrinks_slice _).bind fun _ => (lift _).bind fun _ => pure _
  | kColumnFamilyDrop => exact pure _
  | kFullHistoryTsLow =>
    refine (shrinks_slice _).bind fun _ => ?_
    split
    · exact throw _
    · exact pure _
  | kDbId | kComparator | kColumnFamilyAdd => exact (shrinks_slice _).bind fun _ => pure _
  | kMaxColumnFamily | kColumnFamily | kInAtomicGroup => exact (shrinks_varint32 _).bind fun _ => pure _
  | _ => exact (shrinks_varint64 _).bind fun _ => pure _

private theorem shrinks_decodeField (tag : Nat) : Shrinks (edit.decodeField tag) := by
  unfold decodeField
  split
  · exact edit.shrinks_decodeKnownField _
  split
  · exact (shrinks_slice _).bind fun _ => pure _
  · exact throw _

theorem progress_decodeRound (input : Bytes) (edit' : VersionEdit) (rest : Bytes)
    (read : edit.decodeRound input = .ok (.inl edit', rest)) : rest.length < input.length := by
  unfold decodeRound at read
  split at read
  · split at read <;> cases read
  · next tag _ got =>
    have shrinks := (edit.shrinks_decodeField tag).bind fun edit =>
      pure (.inl edit : VersionEdit ⊕ VersionEdit)
    exact (shrinks _ _ _ read).trans_lt (getVarint32_length got)

/-- `VersionEdit::DecodeFrom`. -/
def decodeFrom (src : Bytes) : Except Corruption VersionEdit :=
  (loop decodeRound progress_decodeRound {} src).map Prod.fst

end VersionEdit

end Rocksdb.Manifest
