import Rocksdb.Coding
import Rocksdb.MergeHelper

/-! The row cache: `TableCache::Get` (`db/table_cache.cc`) keeps, for a user key of a file,
a log of the calls of `GetContext::SaveValue` (`table/get_context.cc`) that a lookup made,
and replays it on the context of a later lookup. The file has no range tombstones and no
newer component has one over the key, since `Version::Get` stops at the first. Reading the
file does not fail; reading a blob may. User timestamps are left out. -/
namespace Rocksdb.RowCache
open MergeHelper Coding Lib.LittleEndian

variable {κ : Type} [LinearOrder κ]

/-! ## Lookups -/

/-- `GetContext::GetState`. -/
inductive GetState where
  | kNotFound
  | kFound
  | kDeleted
  | kCorrupt
  | kMerge
  | kUnexpectedBlobIndex
  | kMergeOperatorFailed
  deriving DecidableEq

/-- How `FetchBlob` fails. -/
inductive FetchFailure where
  | incomplete
  | failed
  deriving DecidableEq

/-- What stays fixed during one lookup: its options, the internal key, and the members of its `GetContext` that only
`Get` sets. `sequence` is the sequence number of the internal key. -/
structure Lookup (κ : Type) where
  format : ValueFormat κ Bytes
  mergeOperator : Option (MergeOperator κ Bytes)
  /-- `ShouldMerge` of the merge operator, given the operands newest first. -/
  shouldMerge : List Bytes → Bool
  /-- `continue_cb` of the `GetMergeOperandsOptions`. -/
  continueCb : Option (Bytes → Bool)
  fetchBlob : κ → Bytes → Except FetchFailure Bytes
  target : Option Target
  doMerge : Bool
  key : κ
  sequence : Nat
  snapshot : Option Nat
  /-- `IsVisible` of the read callback. -/
  callback : Option (Nat → Bool)
  needToReadSequence : Bool

/-- The changing members of a `GetContext` apart from the replay log, which is only written to. Operands come newest
first; `isBlobIndex` is none when the caller does not ask for it. -/
structure GetContext where
  state : GetState
  operands : List Bytes
  result : Option (Found Bytes)
  isBlobIndex : Option Bool
  valueFound : Bool
  deriving DecidableEq

/-- A context as a lookup brings it to the file: nothing is found yet, but there may be operands from newer files. -/
def GetContext.new (state : GetState) (operands : List Bytes) (isBlobIndex : Option Bool) : GetContext :=
  ⟨state, operands, none, isBlobIndex, true⟩

/-- What `SaveValue` leaves behind: whether more keys are needed, the read status and the context. -/
structure Saved where
  more : Bool
  readStatus : Except FetchFailure Unit
  ctx : GetContext

namespace GetContext
variable (l : Lookup κ) (ctx : GetContext)

def checkCallback (l : Lookup κ) (seq : Nat) : Bool :=
  match l.callback with
  | none => true
  | some isVisible => isVisible seq

/-- `appendToReplayLog`. There is no log if nothing is to be cached. -/
def appendToReplayLog (log : Option Bytes) (type : ValueType) (value : Bytes) : Option Bytes :=
  log.map (· ++ UInt8.ofNat type.toNat :: putLengthPrefixedSlice value)

def pushOperand (value : Bytes) : GetContext := { ctx with operands := ctx.operands ++ [value] }

def markKeyMayExist : GetContext := { ctx with state := .kFound, valueFound := false }

/-- `MergeWithNoBaseValue` and its two siblings, with `PostprocessMerge`. -/
def mergeWith (base : BaseValue Bytes) : GetContext :=
  match l.target, l.mergeOperator with
  | some target, some op =>
    match timedFullMergeTo l.format op l.key base ctx.operands.reverse target with
    | .ok found => { ctx with result := some found }
    | .error status =>
      { ctx with state := if status.1 = .mergeOperatorFailed then .kMergeOperatorFailed else .kCorrupt }
  | _, _ => ctx

/-- `GetBlobValue`, and what is done with the value. -/
def withBlobValue (blobIndex : Bytes) (use : GetContext → Bytes → GetContext) : Saved :=
  match l.fetchBlob l.key blobIndex with
  | .ok value => ⟨false, .ok (), use { ctx with isBlobIndex := ctx.isBlobIndex.map fun _ => false } value⟩
  | .error .incomplete => ⟨false, .error .incomplete, ctx.markKeyMayExist⟩
  | .error .failed => ⟨false, .error .failed, { ctx with state := .kCorrupt }⟩

/-- The default column of an entity joins the operands. -/
def pushDefaultColumn (entity : Bytes) : GetContext :=
  match l.format.deserializeColumns entity with
  | .ok columns => ctx.pushOperand (defaultColumn l.format columns)
  | .error _ => { ctx with state := .kCorrupt }

/-- The first entry of the key is a value: it is the answer, or the only operand. -/
def saveFirst (type : ValueType) (value : Bytes) : Saved :=
  let ctx := { ctx with state := .kFound }
  if l.doMerge then
    match l.target with
    | none => ⟨false, .ok (), ctx⟩
    | some target =>
      if type = .kTypeWideColumnEntity then
        match target.setEntity l.format value with
        | .ok found => ⟨false, .ok (), { ctx with result := some found }⟩
        | .error _ => ⟨false, .ok (), { ctx with state := .kCorrupt }⟩
      else ⟨false, .ok (), { ctx with result := some (target.setPlainValue l.format value) }⟩
  else
    match type with
    | .kTypeBlobIndex => ctx.withBlobValue l value pushOperand
    | .kTypeWideColumnEntity => ⟨false, .ok (), ctx.pushDefaultColumn l value⟩
    | _ => ⟨false, .ok (), ctx.pushOperand value⟩

/-- A value below operands. -/
def saveBase (type : ValueType) (value : Bytes) : Saved :=
  match type with
  | .kTypeBlobIndex =>
    ctx.withBlobValue l value fun ctx blob =>
      let ctx := { ctx with state := .kFound }
      if l.doMerge then ctx.mergeWith l (.plainBaseValue blob) else ctx.pushOperand blob
  | .kTypeWideColumnEntity =>
    let ctx := { ctx with state := .kFound }
    ⟨false, .ok (), if l.doMerge then ctx.mergeWith l (.wideBaseValue value) else ctx.pushDefaultColumn l value⟩
  | _ =>
    let ctx := { ctx with state := .kFound }
    ⟨false, .ok (), if l.doMerge then ctx.mergeWith l (.plainBaseValue value) else ctx.pushOperand value⟩

/-- A value of any kind. -/
def saveAnyValue (type : ValueType) (value : Bytes) : Saved :=
  if type = .kTypeBlobIndex ∧ ctx.isBlobIndex = none then ⟨false, .ok (), { ctx with state := .kUnexpectedBlobIndex }⟩
  else
    let value := if type = .kTypeValuePreferredSeqno then (l.format.parsePackedValueWithSeqno value).1 else value
    let ctx := { ctx with isBlobIndex := ctx.isBlobIndex.map fun _ => decide (type = ValueType.kTypeBlobIndex) }
    match ctx.state with
    | .kNotFound => ctx.saveFirst l type value
    | .kMerge => ctx.saveBase l type value
    | _ => ⟨false, .ok (), ctx⟩

/-- A deletion of any kind. -/
def saveDeletion : GetContext :=
  match ctx.state with
  | .kNotFound => { ctx with state := .kDeleted }
  | .kMerge =>
    let ctx := { ctx with state := .kFound }
    if l.doMerge then ctx.mergeWith l .noBaseValue else ctx
  | _ => ctx

/-- An operand. The merge operator or the caller may ask to stop here. -/
def saveOperand (value : Bytes) : Saved :=
  let ctx := { ctx with state := .kMerge }.pushOperand value
  if l.doMerge ∧ l.mergeOperator.isSome ∧ l.shouldMerge ctx.operands then
    ⟨false, .ok (), { ctx with state := .kFound }.mergeWith l .noBaseValue⟩
  else if l.continueCb.any fun continueCb => !continueCb value then ⟨false, .ok (), { ctx with state := .kFound }⟩
  else ⟨true, .ok (), ctx⟩

/-- The `switch` of `SaveValue`. -/
def saveType (type : ValueType) (value : Bytes) : Saved :=
  match type with
  | .kTypeValue | .kTypeValuePreferredSeqno | .kTypeBlobIndex | .kTypeWideColumnEntity => ctx.saveAnyValue l type value
  | .kTypeDeletion | .kTypeDeletionWithTimestamp | .kTypeSingleDeletion | .kTypeRangeDeletion =>
    ⟨false, .ok (), ctx.saveDeletion l⟩
  | .kTypeMerge => ctx.saveOperand l value
  | .kTypeMaxValid => ⟨false, .ok (), ctx⟩

/-- `SaveValue`, with the replay log. -/
def saveValue (ikey : InternalKey κ) (value : Bytes) (log : Option Bytes) : Saved × Option Bytes :=
  if ikey.userKey ≠ l.key then (⟨false, .ok (), ctx⟩, log)
  else if !checkCallback l ikey.sequence then (⟨true, .ok (), ctx⟩, log)
  else (ctx.saveType l ikey.type value, appendToReplayLog log ikey.type value)

end GetContext

/-! ## Files -/

/-- A table file. -/
structure Table (κ : Type) [LinearOrder κ] where
  entries : List (InternalKey κ × Bytes)
  largestSeqno : Nat
  filter : κ → Bool
  sorted : entries.Pairwise fun a b => a.1 < b.1
  types : ∀ e ∈ entries, e.1.type.toNat ≤ kValueTypeForSeek.toNat
  sequences : ∀ e ∈ entries, e.1.sequence ≤ largestSeqno
  noFalseNegatives : ∀ e ∈ entries, filter e.1.userKey
  small : ∀ e ∈ entries, e.2.length < 2 ^ 32

/-- What a lookup in the file leaves behind. -/
structure Looked where
  status : Except FetchFailure Unit
  ctx : GetContext
  deriving DecidableEq

/-- The loop of `BlockBasedTable::Get`. -/
def saveAll (l : Lookup κ) : List (InternalKey κ × Bytes) → GetContext → Option Bytes → Looked × Option Bytes
  | [], ctx, log => (⟨.ok (), ctx⟩, log)
  | (ikey, value) :: rest, ctx, log =>
    let (saved, log) := ctx.saveValue l ikey value log
    match saved.readStatus with
    | .error failure => (⟨.error failure, saved.ctx⟩, log)
    | .ok () => if saved.more then saveAll l rest saved.ctx log else (⟨.ok (), saved.ctx⟩, log)

/-- `BlockBasedTable::Get`. -/
def tableGet (l : Lookup κ) (table : Table κ) (ctx : GetContext) (log : Option Bytes) : Looked × Option Bytes :=
  if table.filter l.key then
    saveAll l (table.entries.dropWhile (·.1 < ⟨l.key, l.sequence, kValueTypeForSeek⟩)) ctx log
  else (⟨.ok (), ctx⟩, log)

/-! ## The cache -/

/-- The types in the order of their bytes. -/
def allTypes : List ValueType :=
  [.kTypeDeletion, .kTypeValue, .kTypeMerge, .kTypeSingleDeletion, .kTypeRangeDeletion, .kTypeBlobIndex,
    .kTypeDeletionWithTimestamp, .kTypeWideColumnEntity, .kTypeValuePreferredSeqno, .kTypeMaxValid]

def typeOfByte (byte : UInt8) : Option ValueType := allTypes.find? (UInt8.ofNat ·.toNat = byte)

/-- `replayGetContextLog`. A log that cannot be read is a bug. -/
def replayGetContextLog (l : Lookup κ) (seqNo : Nat) (log : Bytes) (ctx : GetContext) : Option Looked :=
  match log with
  | [] => some ⟨.ok (), ctx⟩
  | byte :: s =>
    match typeOfByte byte, _ : getLengthPrefixedSlice s with
    | some type, some (value, rest) =>
      let saved := (ctx.saveValue l ⟨l.key, seqNo, type⟩ value none).1
      match saved.readStatus with
      | .error failure => some ⟨.error failure, saved.ctx⟩
      | .ok () => replayGetContextLog l seqNo rest saved.ctx
    | _, _ => none
  termination_by log.length
  decreasing_by
    have shorter := getLengthPrefixedSlice_length ‹_›
    simp only [List.length_cons]
    omega

/-- The entries of the cache for the file, by `cache_entry_seq_no` and user key. -/
abbrev Cache (κ : Type) : Type := Nat × κ → Option Bytes

/-- The sequence number of `CreateRowCacheKeyPrefix` in the key of the cache. -/
def cacheEntrySeqNo (l : Lookup κ) (table : Table κ) : Nat :=
  match l.snapshot with
  | none => 0
  | some snapshot => if l.callback.isSome ∨ snapshot ≤ table.largestSeqno then 1 + l.sequence else 0

/-- `TableCache::Get`, for a cache that keeps a new entry or not. -/
def get (l : Lookup κ) (table : Table κ) (keep : Bool) (cache : Cache κ) (ctx : GetContext) :
    Option (Looked × Cache κ) :=
  if l.needToReadSequence then some ((tableGet l table ctx none).1, cache)
  else
    let seqNo := cacheEntrySeqNo l table
    match cache (seqNo, l.key) with
    | some log => (replayGetContextLog l (seqNo - 1) log ctx).map (·, cache)
    | none =>
      let (looked, entry) := tableGet l table ctx (some [])
      let log := entry.getD []
      some (looked,
        if looked.status = .ok () ∧ log ≠ [] ∧ keep then Function.update cache (seqNo, l.key) (some log) else cache)

/-- What happens to the cache: lookups, each with the state and the operands it comes with, and evictions. -/
inductive Event (κ : Type) where
  | lookup (l : Lookup κ) (keep : Bool) (state : GetState) (operands : List Bytes) (isBlobIndex : Option Bool)
  | evict (seqNo : Nat) (key : κ)

/-- The results of the lookups. -/
def run (table : Table κ) : List (Event κ) → Cache κ → Option (List Looked)
  | [], _ => some []
  | .lookup l keep state operands isBlobIndex :: events, cache => do
    let (result, cache) ← get l table keep cache (.new state operands isBlobIndex)
    let results ← run table events cache
    return result :: results
  | .evict seqNo key :: events, cache => run table events (Function.update cache (seqNo, key) none)

/-- The results of the same lookups without a cache. -/
def runWithout (table : Table κ) : List (Event κ) → List Looked
  | [] => []
  | .lookup l _ state operands isBlobIndex :: events =>
    (tableGet l table (.new state operands isBlobIndex) none).1 :: runWithout table events
  | .evict _ _ :: events => runWithout table events

end Rocksdb.RowCache
