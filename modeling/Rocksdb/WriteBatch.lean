import Rocksdb.Coding
import Rocksdb.Lib.Parsing
import Mathlib.Data.UInt

/-! Batches of writes (`db/write_batch.cc`, `db/write_batch_internal.h`): the
operations are appended to a byte string behind a header, together with a count,
flags for the kinds of operations, and a checksum for each operation. Save points
and the limit on the size roll all four of them back. Column families have no
user-defined timestamps here. -/
namespace Rocksdb.WriteBatchInternal
open Lib.LittleEndian Lib.Parsing Coding Shrinks

/-- `Status` as the functions of a batch return it. After a failed assertion
anything may happen. -/
inductive Status where
  | ok
  | notFound
  | memoryLimit
  | tryAgain
  | corruption (message : String)
  | invalidArgument (message : String)
  | notSupported (message : String)
  | assertionFailed (condition : String)
  deriving DecidableEq, Repr

/-! ## Tags -/

/-- The operations that have a column family, a key and perhaps a value. -/
inductive Kind where
  | value
  | deletion
  | singleDeletion
  | rangeDeletion
  | merge
  | blobIndex
  | wideColumnEntity
  | valuePreferredSeqno
  deriving DecidableEq, Repr

/-- `kTypeValue` and so on: the tag in the default column family. -/
def Kind.type : Kind → UInt8
  | value => 0x1
  | deletion => 0x0
  | singleDeletion => 0x7
  | rangeDeletion => 0xF
  | merge => 0x2
  | blobIndex => 0x11
  | wideColumnEntity => 0x16
  | valuePreferredSeqno => 0x18

/-- `kTypeColumnFamilyValue` and so on: the tag in any other column family. -/
def Kind.columnFamilyType : Kind → UInt8
  | value => 0x5
  | deletion => 0x4
  | singleDeletion => 0x8
  | rangeDeletion => 0xE
  | merge => 0x6
  | blobIndex => 0x10
  | wideColumnEntity => 0x17
  | valuePreferredSeqno => 0x19

/-- Deletions have a key only. -/
def Kind.hasValue : Kind → Bool
  | deletion | singleDeletion => false
  | _ => true

/-- What is said of a record that cannot be read. -/
def Kind.message : Kind → String
  | value => "bad WriteBatch Put"
  | deletion | singleDeletion => "bad WriteBatch Delete"
  | rangeDeletion => "bad WriteBatch DeleteRange"
  | merge => "bad WriteBatch Merge"
  | blobIndex => "bad WriteBatch BlobIndex"
  | wideColumnEntity => "bad WriteBatch PutEntity"
  | valuePreferredSeqno => "bad WriteBatch TimedPut"

def Kind.all : List Kind :=
  [.value, .deletion, .singleDeletion, .rangeDeletion, .merge, .blobIndex, .wideColumnEntity, .valuePreferredSeqno]

/-- The tags of records. -/
inductive Tag where
  | entry (kind : Kind) (columnFamily : Bool)
  | logData
  | noop
  | beginPrepareXID
  | beginPersistedPrepareXID
  | beginUnprepareXID
  | endPrepareXID
  | commitXID
  | commitXIDAndTimestamp
  | rollbackXID
  deriving DecidableEq, Repr

def Tag.toByte : Tag → UInt8
  | entry kind false => kind.type
  | entry kind true => kind.columnFamilyType
  | logData => 0x3
  | noop => 0xD
  | beginPrepareXID => 0x9
  | beginPersistedPrepareXID => 0x12
  | beginUnprepareXID => 0x13
  | endPrepareXID => 0xA
  | commitXID => 0xB
  | commitXIDAndTimestamp => 0x15
  | rollbackXID => 0xC

def Tag.all : List Tag :=
  Kind.all.map (entry · false) ++ Kind.all.map (entry · true) ++
    [logData, noop, beginPrepareXID, beginPersistedPrepareXID, beginUnprepareXID, endPrepareXID, commitXID,
      commitXIDAndTimestamp, rollbackXID]

/-- The tag a byte stands for in the switches over tags. -/
def Tag.ofByte (byte : UInt8) : Option Tag := Tag.all.find? (·.toByte = byte)

/-! ## Batches -/

/-- `ContentFlags`. -/
inductive ContentFlag where
  | HAS_PUT
  | HAS_DELETE
  | HAS_SINGLE_DELETE
  | HAS_MERGE
  | HAS_DELETE_RANGE
  | HAS_BLOB_INDEX
  | HAS_PUT_ENTITY
  | HAS_TIMED_PUT
  deriving DecidableEq, Repr

def Kind.flag : Kind → ContentFlag
  | value => .HAS_PUT
  | deletion => .HAS_DELETE
  | singleDeletion => .HAS_SINGLE_DELETE
  | rangeDeletion => .HAS_DELETE_RANGE
  | merge => .HAS_MERGE
  | blobIndex => .HAS_BLOB_INDEX
  | wideColumnEntity => .HAS_PUT_ENTITY
  | valuePreferredSeqno => .HAS_TIMED_PUT

/-- `SavePoint`. -/
structure SavePoint where
  size : Nat
  count : Nat
  contentFlags : Finset ContentFlag

/-- `WriteBatch`. A limit of zero is none; the save point that was set last comes
first. -/
structure WriteBatch where
  rep : Bytes
  contentFlags : Finset ContentFlag
  maxBytes : Nat
  protInfo : Option (List UInt64)
  savePoints : List SavePoint

/-- `WriteBatchInternal::kHeader`: a sequence number and the count. -/
def kHeader : Nat := 12

/-- A new batch. -/
def WriteBatch.new (maxBytes : Nat) (isProtected : Bool) : WriteBatch :=
  ⟨List.replicate kHeader 0, ∅, maxBytes, if isProtected then some [] else none, []⟩

/-- `WriteBatchInternal::Count`. -/
def WriteBatch.count (b : WriteBatch) : Nat := decode ((b.rep.drop 8).take 4)

/-- `WriteBatchInternal::SetCount`. -/
def WriteBatch.setCount (b : WriteBatch) (n : Nat) : WriteBatch :=
  { b with rep := b.rep.take 8 ++ encode 4 n ++ b.rep.drop kHeader }

/-- The state of the batch that a save point keeps. -/
def WriteBatch.savePoint (b : WriteBatch) : SavePoint := ⟨b.rep.length, b.count, b.contentFlags⟩

/-- Takes a batch back to a save point. -/
def WriteBatch.rollBackTo (b : WriteBatch) (save : SavePoint) : WriteBatch :=
  { { b with rep := b.rep.take save.size }.setCount save.count with
    protInfo := b.protInfo.map (·.take save.count)
    contentFlags := save.contentFlags }

/-- `LocalSavePoint::commit`. -/
def commit (save : SavePoint) (b : WriteBatch) : Status × WriteBatch :=
  if b.maxBytes ≠ 0 ∧ b.maxBytes < b.rep.length then (.memoryLimit, b.rollBackTo save) else (.ok, b)

/-! ## Checksums of operations -/

/-- `NPHash64` with its seed. -/
abbrev Hash : Type := Bytes → UInt64 → UInt64

def kSeedK : UInt64 := 0
def kSeedV : UInt64 := 0xD28AAD72F49BD50B
def kSeedO : UInt64 := 0xA5155AE5E937AA16
def kSeedC : UInt64 := 0x4A2AB5CBD26F542C

/-- `ProtectKVO` and `StripKVO`. -/
def protectKVO (hash : Hash) (val : UInt64) (key value : Bytes) (opType : UInt8) : UInt64 :=
  val ^^^ hash key kSeedK ^^^ hash value kSeedV ^^^ hash [opType] kSeedO

/-- `ProtectC` and `StripC`. -/
def protectC (hash : Hash) (val : UInt64) (columnFamily : UInt32) : UInt64 :=
  val ^^^ hash (encode 4 columnFamily.toNat) kSeedC

/-! ## Operations -/

section Operations
variable (hash : Hash) (b : WriteBatch)

/-- What the functions that add an operation have in common. -/
def addEntry (kind : Kind) (b : WriteBatch) (columnFamily : UInt32) (key value : Bytes) : Status × WriteBatch :=
  let save := b.savePoint
  let b := b.setCount (b.count + 1)
  let tag := if columnFamily = 0 then [kind.type] else kind.columnFamilyType :: putVarint32 columnFamily.toNat
  let slices := putLengthPrefixedSlice key ++ if kind.hasValue then putLengthPrefixedSlice value else []
  commit save { b with
    rep := b.rep ++ tag ++ slices
    contentFlags := insert kind.flag b.contentFlags
    protInfo := b.protInfo.map (· ++ [protectC hash (protectKVO hash 0 key value kind.type) columnFamily]) }

/-- The checks of the sizes of a key and a value. -/
def withinLimits (key value : Bytes) (b : WriteBatch) (add : WriteBatch → Status × WriteBatch) : Status × WriteBatch :=
  if 2 ^ 32 - 1 < key.length then (.invalidArgument "key is too large", b)
  else if 2 ^ 32 - 1 < value.length then (.invalidArgument "value is too large", b)
  else add b

/-- `WriteBatchInternal::Put`. -/
def put (columnFamily : UInt32) (key value : Bytes) : Status × WriteBatch :=
  withinLimits key value b fun b => addEntry hash .value b columnFamily key value

/-- `PackValueAndWriteTime`. -/
def packValueAndWriteTime (value : Bytes) (writeUnixTime : UInt64) : Bytes := value ++ encode 8 writeUnixTime.toNat

/-- `WriteBatchInternal::TimedPut`. -/
def timedPut (columnFamily : UInt32) (key value : Bytes) (writeUnixTime : UInt64) :
    Status × WriteBatch :=
  withinLimits key value b fun b =>
    if writeUnixTime = 2 ^ 64 - 1 then put hash b columnFamily key value
    else addEntry hash .valuePreferredSeqno b columnFamily key (packValueAndWriteTime value writeUnixTime)

/-- `Slice::compare`. -/
def compare : Bytes → Bytes → Ordering
  | [], [] => .eq
  | [], _ :: _ => .lt
  | _ :: _, [] => .gt
  | a :: as, b :: bs => if a < b then .lt else if b < a then .gt else compare as bs

/-- Wide columns: names and values. -/
abbrev WideColumns : Type := List (Bytes × Bytes)

/-- `WideColumnsHelper::SortColumns`. -/
def sortColumns (columns : WideColumns) : WideColumns := columns.mergeSort fun a b => compare b.1 a.1 ≠ .lt

/-- The loop over the columns of `WideColumnSerialization::Serialize`. -/
def serializeColumns (prevName : Option Bytes) : WideColumns → Except Status Bytes
  | [] => .ok []
  | (name, value) :: columns =>
    if 2 ^ 32 - 1 < name.length then .error (.invalidArgument "Wide column name too long")
    else if prevName.any (compare · name ≠ .lt) then .error (.corruption "Wide columns out of order")
    else if 2 ^ 32 - 1 < value.length then .error (.invalidArgument "Wide column value too long")
    else
      (serializeColumns (some name) columns).map fun rest =>
        putLengthPrefixedSlice name ++ putVarint32 (value.length % 2 ^ 32) ++ rest

/-- `WideColumnSerialization::Serialize`, with the version 1. -/
def serialize (columns : WideColumns) : Except Status Bytes :=
  if 2 ^ 32 - 1 < columns.length then .error (.invalidArgument "Too many wide columns")
  else
    (serializeColumns none columns).map fun index =>
      putVarint32 1 ++ putVarint32 (columns.length % 2 ^ 32) ++ index ++ columns.flatMap Prod.snd

/-- `WriteBatchInternal::PutEntity`. -/
def putEntity (columnFamily : UInt32) (key : Bytes) (columns : WideColumns) : Status × WriteBatch :=
  if 2 ^ 32 - 1 < key.length then (.invalidArgument "key is too large", b)
  else
    match serialize (sortColumns columns) with
    | .error status => (status, b)
    | .ok entity =>
      if 2 ^ 32 - 1 < entity.length then (.invalidArgument "wide column entity is too large", b)
      else addEntry hash .wideColumnEntity b columnFamily key entity

/-- The loop of `WriteBatch::PutEntity` over attribute groups, each for a column family. -/
def putEntityLoop (key : Bytes) (b : WriteBatch) : List (UInt32 × WideColumns) → Status × WriteBatch
  | [] => (.ok, b)
  | (columnFamily, columns) :: groups =>
    match putEntity hash b columnFamily key columns with
    | (.ok, b) => putEntityLoop key b groups
    | failed => failed

/-- `WriteBatch::PutEntity` over attribute groups. -/
def putEntityGroups (key : Bytes) (groups : List (UInt32 × WideColumns)) : Status × WriteBatch :=
  if groups = [] then (.invalidArgument "Cannot call this method with empty attribute groups", b)
  else putEntityLoop hash key b groups

/-- `WriteBatchInternal::Delete`. -/
def delete (columnFamily : UInt32) (key : Bytes) : Status × WriteBatch :=
  addEntry hash .deletion b columnFamily key []

/-- `WriteBatchInternal::SingleDelete`. -/
def singleDelete (columnFamily : UInt32) (key : Bytes) : Status × WriteBatch :=
  addEntry hash .singleDeletion b columnFamily key []

/-- `WriteBatchInternal::DeleteRange`. -/
def deleteRange (columnFamily : UInt32) (beginKey endKey : Bytes) : Status × WriteBatch :=
  addEntry hash .rangeDeletion b columnFamily beginKey endKey

/-- `WriteBatchInternal::Merge`. -/
def merge (columnFamily : UInt32) (key value : Bytes) : Status × WriteBatch :=
  withinLimits key value b fun b => addEntry hash .merge b columnFamily key value

end Operations

/-- `WriteBatch::PutLogData`. -/
def putLogData (b : WriteBatch) (blob : Bytes) : Status × WriteBatch :=
  commit b.savePoint { b with rep := b.rep ++ [Tag.logData.toByte] ++ putLengthPrefixedSlice blob }

/-- `WriteBatch::SetSavePoint`. -/
def setSavePoint (b : WriteBatch) : WriteBatch := { b with savePoints := b.savePoint :: b.savePoints }

/-- `WriteBatch::Clear`. -/
def clear (b : WriteBatch) : WriteBatch :=
  { b with
    rep := List.replicate kHeader 0
    contentFlags := ∅
    savePoints := []
    protInfo := b.protInfo.map fun _ => [] }

/-- `WriteBatch::RollbackToSavePoint`. -/
def rollbackToSavePoint (b : WriteBatch) : Status × WriteBatch :=
  match b.savePoints with
  | [] => (.notFound, b)
  | save :: savePoints =>
    let b := { b with savePoints := savePoints }
    (.ok, if save.size = b.rep.length then b else if save.size = 0 then clear b else b.rollBackTo save)

/-- `WriteBatch::PopSavePoint`. -/
def popSavePoint (b : WriteBatch) : Status × WriteBatch :=
  match b.savePoints with
  | [] => (.notFound, b)
  | _ :: savePoints => (.ok, { b with savePoints := savePoints })

/-! ## Reading -/

/-- What `ReadRecordFromWriteBatch` sets. -/
structure Record where
  tag : Tag
  columnFamily : UInt32
  key : Bytes
  value : Bytes
  blob : Bytes
  xid : Bytes
  writeUnixTime : UInt64

def getSlice (message : String) : Parser UInt8 Status Bytes := orFail (.corruption message) getLengthPrefixedSlice

/-- `ParsePackedValueWithWriteTime`, which asserts that there are eight bytes. -/
def parsePackedValueWithWriteTime (packed : Bytes) : Except Status (Bytes × UInt64) :=
  if packed.length < 8 then .error (.assertionFailed "value.size() >= sizeof(uint64_t)")
  else .ok (packed.take (packed.length - 8), UInt64.ofNat (decode (packed.drop (packed.length - 8))))

/-- The column family of a record, which stands only behind a tag of its own. -/
def readColumnFamily (kind : Kind) (isColumnFamily : Bool) : Parser UInt8 Status Nat :=
  if isColumnFamily then orFail (.corruption kind.message) getVarint32 else pure 0

def readValue (kind : Kind) : Parser UInt8 Status Bytes :=
  if kind.hasValue then getSlice kind.message else pure []

/-- The value of a timed put, with its write time if the caller wants it. -/
def unpackValue (unpack : Bool) (kind : Kind) (value : Bytes) : Except Status (Bytes × UInt64) :=
  if kind = .valuePreferredSeqno ∧ unpack then parsePackedValueWithWriteTime value else .ok (value, 0)

/-- The cases of `ReadRecordFromWriteBatch` with a column family. -/
def readEntry (unpack : Bool) (kind : Kind) (isColumnFamily : Bool) : Parser UInt8 Status Record := do
  let columnFamily ← readColumnFamily kind isColumnFamily
  let key ← getSlice kind.message
  let value ← readValue kind
  let unpacked ← StateT.lift (unpackValue unpack kind value)
  return ⟨.entry kind isColumnFamily, UInt32.ofNat columnFamily, key, unpacked.1, [], [], unpacked.2⟩

/-- What follows the tag of a record. -/
def readBody (unpack : Bool) : Tag → Parser UInt8 Status Record
  | .entry kind isColumnFamily => readEntry unpack kind isColumnFamily
  | .logData => do
    let blob ← getSlice "bad WriteBatch Blob"
    return ⟨.logData, 0, [], [], blob, [], 0⟩
  | .endPrepareXID => do
    let xid ← getSlice "bad EndPrepare XID"
    return ⟨.endPrepareXID, 0, [], [], [], xid, 0⟩
  | .commitXID => do
    let xid ← getSlice "bad Commit XID"
    return ⟨.commitXID, 0, [], [], [], xid, 0⟩
  | .commitXIDAndTimestamp => do
    let key ← getSlice "bad commit timestamp"
    let xid ← getSlice "bad Commit XID"
    return ⟨.commitXIDAndTimestamp, 0, key, [], [], xid, 0⟩
  | .rollbackXID => do
    let xid ← getSlice "bad Rollback XID"
    return ⟨.rollbackXID, 0, [], [], [], xid, 0⟩
  | tag => pure ⟨tag, 0, [], [], [], [], 0⟩

/-- `ReadRecordFromWriteBatch`. `unpack` says whether the caller wants the write
time of a timed put. -/
def readRecord (unpack : Bool) : Parser UInt8 Status Record
  | [] => .error (.assertionFailed "n < size()")
  | byte :: input =>
    match Tag.ofByte byte with
    -- the tag is a signed character
    | none => .error (.corruption ("unknown WriteBatch tag: " ++
        toString (if byte < 0x80 then byte.toNat else 2 ^ 32 - 2 ^ 8 + byte.toNat)))
    | some tag => readBody unpack tag input

theorem getSlice_progresses (message : String) : Progresses (getSlice message) :=
  Progresses.orFail getLengthPrefixedSlice_length

private theorem readEntry_shrinks (unpack : Bool) (kind : Kind) (isColumnFamily : Bool) :
    Shrinks (readEntry unpack kind isColumnFamily) := by
  have columnFamily : Shrinks (readColumnFamily kind isColumnFamily) := by
    unfold readColumnFamily
    split
    · exact (Progresses.orFail getVarint32_length).shrinks
    · exact pure _
  have value : Shrinks (readValue kind) := by
    unfold readValue
    split
    · exact (getSlice_progresses _).shrinks
    · exact pure _
  exact columnFamily.bind fun _ => (getSlice_progresses _).shrinks.bind fun _ => value.bind fun _ =>
    (lift _).bind fun _ => pure _

private theorem readBody_shrinks (unpack : Bool) (tag : Tag) : Shrinks (readBody unpack tag) := by
  have slice (message : String) := (getSlice_progresses message).shrinks
  cases tag with
  | entry => exact readEntry_shrinks _ _ _
  | logData | endPrepareXID | commitXID | rollbackXID => exact (slice _).bind fun _ => pure _
  | commitXIDAndTimestamp => exact (slice _).bind fun _ => (slice _).bind fun _ => pure _
  | noop | beginPrepareXID | beginPersistedPrepareXID | beginUnprepareXID => exact pure _

theorem readRecord_progresses (unpack : Bool) : Progresses (readRecord unpack) := by
  intro _ _ _ read
  unfold readRecord at read
  split at read
  · cases read
  · split at read
    · cases read
    · exact Nat.lt_succ_of_le (readBody_shrinks _ _ _ _ _ read)

/-! ## Iterating -/

/-- The calls of a `WriteBatch::Handler`. -/
inductive Event where
  | putCF (columnFamily : UInt32) (key value : Bytes)
  | timedPutCF (columnFamily : UInt32) (key value : Bytes) (writeTime : UInt64)
  | putEntityCF (columnFamily : UInt32) (key entity : Bytes)
  | deleteCF (columnFamily : UInt32) (key : Bytes)
  | singleDeleteCF (columnFamily : UInt32) (key : Bytes)
  | deleteRangeCF (columnFamily : UInt32) (beginKey endKey : Bytes)
  | mergeCF (columnFamily : UInt32) (key value : Bytes)
  | putBlobIndexCF (columnFamily : UInt32) (key value : Bytes)
  | logData (blob : Bytes)
  | markBeginPrepare (unprepare : Bool)
  | markEndPrepare (xid : Bytes)
  | markCommit (xid : Bytes)
  | markCommitWithTimestamp (xid timestamp : Bytes)
  | markRollback (xid : Bytes)
  | markNoop (emptyBatch : Bool)
  deriving DecidableEq, Repr

/-- `Handler::OptionState`. -/
inductive OptionState where
  | kUnknown
  | kDisabled
  | kEnabled
  deriving DecidableEq, Repr

/-- `WriteBatch::Handler` with a state. What `logData` returns is ignored. -/
structure Handler (σ : Type) where
  continues : σ → Bool
  call : σ → Event → Status × σ
  writeAfterCommit : OptionState
  writeBeforePrepare : OptionState

variable {σ : Type}

def Record.event (r : Record) (emptyBatch : Bool) : Event :=
  match r.tag with
  | .entry .value _ => .putCF r.columnFamily r.key r.value
  | .entry .deletion _ => .deleteCF r.columnFamily r.key
  | .entry .singleDeletion _ => .singleDeleteCF r.columnFamily r.key
  | .entry .rangeDeletion _ => .deleteRangeCF r.columnFamily r.key r.value
  | .entry .merge _ => .mergeCF r.columnFamily r.key r.value
  | .entry .blobIndex _ => .putBlobIndexCF r.columnFamily r.key r.value
  | .entry .wideColumnEntity _ => .putEntityCF r.columnFamily r.key r.value
  | .entry .valuePreferredSeqno _ => .timedPutCF r.columnFamily r.key r.value r.writeUnixTime
  | .logData => .logData r.blob
  | .noop => .markNoop emptyBatch
  | .beginPrepareXID | .beginPersistedPrepareXID => .markBeginPrepare false
  | .beginUnprepareXID => .markBeginPrepare true
  | .endPrepareXID => .markEndPrepare r.xid
  | .commitXID => .markCommit r.xid
  | .commitXIDAndTimestamp => .markCommitWithTimestamp r.xid r.key
  | .rollbackXID => .markRollback r.xid

/-- The variables of `WriteBatchInternal::Iterate`. -/
structure Iterating (σ : Type) where
  input : Bytes
  record : Record
  status : Status
  lastWasTryAgain : Bool
  emptyBatch : Bool
  found : Nat
  state : σ

/-- The refusal of a marker of one write policy under the options of another. -/
def unsupportedTag (policy option mode : String) : Status :=
  .notSupported (policy ++ " txn tag when " ++ option ++ " (in " ++ mode ++
    " mode). If it is not due to corruption, the WAL must be emptied before changing the WritePolicy.")

variable (handler : Handler σ)

/-- What the markers of transactions ask of the options of the handler. -/
def Handler.supports (tag : Tag) (status : Status) : Status :=
  match tag with
  | .beginPrepareXID =>
    if handler.writeBeforePrepare = .kEnabled then
      unsupportedTag "WriteCommitted" "write_before_prepare_ is enabled" "WriteUnprepared"
    else if handler.writeAfterCommit = .kDisabled then
      unsupportedTag "WriteCommitted" "write_after_commit_ is disabled" "WritePrepared/WriteUnprepared"
    else status
  | .beginPersistedPrepareXID =>
    if handler.writeAfterCommit = .kEnabled then
      unsupportedTag "WritePrepared/WriteUnprepared" "write_after_commit_ is enabled" "default WriteCommitted"
    else status
  | .beginUnprepareXID =>
    if handler.writeBeforePrepare = .kDisabled then
      unsupportedTag "WriteUnprepared" "write_before_prepare_ is disabled" "WriteCommitted/WritePrepared"
    else if handler.writeAfterCommit = .kEnabled then
      unsupportedTag "WriteUnprepared" "write_after_commit_ is enabled" "default WriteCommitted"
    else status
  | _ => status

/-- The switch of the loop of `Iterate`: one call of the handler. -/
def handle (s : Iterating σ) : Iterating σ :=
  let (status, state) := handler.call s.state (s.record.event s.emptyBatch)
  let s := { s with state := state, status := status }
  match s.record.tag with
  | .entry kind _ =>
    if status = .ok then
      { s with
        emptyBatch := if kind = .blobIndex then s.emptyBatch else false
        found := (s.found + 1) % 2 ^ 32 }
    else s
  | .logData => { s with status := .ok, emptyBatch := false }
  | .beginPrepareXID | .beginPersistedPrepareXID | .beginUnprepareXID =>
    { s with status := handler.supports s.record.tag status, emptyBatch := false }
  | .commitXIDAndTimestamp => if status = .ok then { s with emptyBatch := true } else s
  | .endPrepareXID | .commitXID | .rollbackXID | .noop => { s with emptyBatch := true }

@[simp] theorem handle_input (s : Iterating σ) : (handle handler s).input = s.input := by
  unfold handle
  dsimp only
  split <;> (try split) <;> rfl

@[simp] theorem handle_lastWasTryAgain (s : Iterating σ) :
    (handle handler s).lastWasTryAgain = s.lastWasTryAgain := by
  unfold handle
  dsimp only
  split <;> (try split) <;> rfl

/-- The loop of `Iterate`, until the function returns, the handler stops it or the
input is read. A handler that asks for the record again gets it once more. -/
def iterateLoop (s : Iterating σ) : Except Status Bool × Iterating σ :=
  if (s.status = .ok ∧ s.input ≠ []) ∨ s.status = .tryAgain then
    if handler.continues s.state then
      if s.status = .tryAgain then
        if _ : s.lastWasTryAgain then
          (.error (.corruption ("two consecutive TryAgain in WriteBatch handler; this is either a " ++
            "software bug or data corruption.")), s)
        else iterateLoop (handle handler { s with lastWasTryAgain := true, status := .ok })
      else
        match _ : readRecord true s.input with
        | .error status => (.error status, s)
        | .ok (record, input) =>
          iterateLoop (handle handler { s with input, record, lastWasTryAgain := false, status := .ok })
    else (.ok false, s)
  else (.ok true, s)
termination_by 2 * s.input.length + if s.lastWasTryAgain then 0 else 1
decreasing_by
  · simp [*]
  · have shorter := readRecord_progresses true _ _ _ ‹_›
    simp only [handle_input, handle_lastWasTryAgain]
    split <;> omega

/-- `WriteBatchInternal::Iterate`. -/
def iterateRange (state : σ) (b : WriteBatch) (first last : Nat) : Status × σ :=
  if first > b.rep.length ∨ last > b.rep.length ∨ last < first then
    (.corruption "Invalid start/end bounds for Iterate", state)
  else
    let wholeBatch := first = kHeader ∧ last = b.rep.length
    let start : Iterating σ :=
      { input := (b.rep.drop first).take (last - first), record := ⟨.noop, 0, [], [], [], [], 0⟩, status := .ok
        lastWasTryAgain := false, emptyBatch := true, found := 0, state }
    match iterateLoop handler start with
    | (.error status, s) => (status, s.state)
    | (.ok handlerContinue, s) =>
      if s.status ≠ .ok then (s.status, s.state)
      else if handlerContinue ∧ wholeBatch ∧ s.found ≠ b.count then (.corruption "WriteBatch has wrong count", s.state)
      else (.ok, s.state)

/-- `WriteBatch::Iterate`. -/
def iterate (state : σ) (b : WriteBatch) : Status × σ :=
  if b.rep.length < kHeader then (.corruption "malformed WriteBatch (too small)", state)
  else iterateRange handler state b kHeader b.rep.length

/-! ## Checksums of a batch -/

/-- The loop of `VerifyChecksum`: how many of the checksums were compared. -/
def verifyLoop (hash : Hash) (entries : List UInt64) (index : Nat) (input : Bytes) : Except Status Nat :=
  if input ≠ [] ∧ index < entries.length then
    match _ : readRecord false input with
    | .error status => .error status
    | .ok (record, rest) =>
      match record.tag with
      | .entry kind _ =>
        let val := protectC hash (entries.getD index 0) record.columnFamily
        if protectKVO hash val record.key record.value kind.type = 0 then verifyLoop hash entries (index + 1) rest
        else .error (.corruption "ProtectionInfo mismatch")
      | _ => verifyLoop hash entries index rest
  else .ok index
termination_by input.length
decreasing_by all_goals exact readRecord_progresses false _ _ _ ‹_›

/-- `WriteBatch::VerifyChecksum`. -/
def verifyChecksum (hash : Hash) (b : WriteBatch) : Status :=
  match b.protInfo with
  | none => .ok
  | some entries =>
    match verifyLoop hash entries 0 (b.rep.drop kHeader) with
    | .error status => status
    | .ok index => if index ≠ b.count then .corruption "WriteBatch has wrong count" else .ok

end Rocksdb.WriteBatchInternal
