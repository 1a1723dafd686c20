import Rocksdb.DbFormat

/-! Combining merge operands during flush and compaction: `MergeHelper`
(`db/merge_helper.cc`) without compaction filter, snapshot checker and user
timestamps. Values are opaque; what the source reads out of them comes in as
`ValueFormat`. -/
namespace Rocksdb.MergeHelper

variable {κ V δ : Type} [DecidableEq κ]

/-- One position of the merged compaction input. A sentinel stands for the
start key of a range tombstone. -/
structure Entry (κ V : Type) where
  key : InternalKey κ
  value : V
  isDeleteRangeSentinelKey : Bool
  deriving DecidableEq

/-- `OpFailureScope`. -/
inductive OpFailureScope where
  | kDefault
  | kTryMerge
  | kMustMerge
  deriving DecidableEq

/-- The base a merge starts from, as the callers of `TimedFullMerge` have it. -/
inductive BaseValue (V : Type) where
  | noBaseValue
  | plainBaseValue (value : V)
  | wideBaseValue (entity : V)

/-- `MergeOperationInputV3::ExistingValue`: the base as the operator gets it. -/
inductive ExistingValue (V : Type) where
  | none
  | value (value : V)
  | columns (columns : List (V × V))

/-- `MergeOperationOutputV3`, or the scope of a failure. -/
inductive MergeOutput (V : Type) where
  | newValue (value : V)
  | newColumns (columns : List (V × V))
  | existingOperand (value : V)
  | failed (scope : OpFailureScope)

/-- `MergeOperator`. Operands come oldest first. -/
structure MergeOperator (κ V : Type) where
  fullMergeV3 : κ → ExistingValue V → List V → MergeOutput V
  partialMergeMulti : κ → List V → Option V
  allowSingleOperand : Bool

/-- How values are read and written. -/
structure ValueFormat (κ V : Type) where
  /-- The empty string. -/
  empty : V
  /-- `ParsePackedValueWithSeqno`: a `TimedPut` holds its value and the
  preferred sequence number. -/
  parsePackedValueWithSeqno : V → V × Nat
  /-- `SortColumns` followed by `WideColumnSerialization::Serialize`. -/
  serializeColumns : List (V × V) → Except ErrorStatus V
  /-- `WideColumnSerialization::Deserialize`. -/
  deserializeColumns : V → Except ErrorStatus (List (V × V))
  /-- `BlobIndex::DecodeFrom` followed by `FetchBlob`. -/
  fetchBlob : κ → V → Except ErrorStatus V

/-- The overloads of `TimedFullMerge`: an entity is read before it is passed
on. -/
def BaseValue.existing (format : ValueFormat κ V) : BaseValue V → Except ErrorStatus (ExistingValue V)
  | .noBaseValue => .ok .none
  | .plainBaseValue value => .ok (.value value)
  | .wideBaseValue entity => (format.deserializeColumns entity).map .columns

/-- `TimedFullMerge` in the form that returns a serialized result and its
type. A failure carries the scope when the operator set one. -/
def timedFullMerge (format : ValueFormat κ V) (op : MergeOperator κ V) (key : κ)
    (base : BaseValue V) (operands : List V) :
    Except (ErrorStatus × Option OpFailureScope) (ValueType × V) :=
  match base.existing format with
  | .error status => .error (status, none)
  | .ok existing =>
    match op.fullMergeV3 key existing operands with
    | .newValue value => .ok (.kTypeValue, value)
    | .newColumns columns =>
      match format.serializeColumns columns with
      | .ok entity => .ok (.kTypeWideColumnEntity, entity)
      | .error status => .error (status, none)
    | .existingOperand value => .ok (.kTypeValue, value)
    | .failed .kDefault => .error (⟨.mergeOperatorFailed, rfl⟩, some .kTryMerge)
    | .failed scope => .error (⟨.mergeOperatorFailed, rfl⟩, some scope)

/-- Where a read puts its answer: a plain value or wide columns. -/
inductive Target where
  | value
  | columns
  deriving DecidableEq

/-- The answer of a read. -/
inductive Found (V : Type) where
  | value (value : V)
  | columns (columns : List (V × V))
  deriving DecidableEq

section Answers
variable [DecidableEq V] (format : ValueFormat κ V)

/-- The value of the default column, which comes first and has an empty name;
empty if there is none. -/
def defaultColumn (columns : List (V × V)) : V :=
  match columns with
  | (name, value) :: _ => if name = format.empty then value else format.empty
  | [] => format.empty

/-- A plain value as an answer. -/
def Target.setPlainValue : Target → V → Found V
  | .value, v => .value v
  | .columns, v => .columns [(format.empty, v)]

/-- An entity as an answer: `GetValueOfDefaultColumn` or `SetWideColumnValue`. -/
def Target.setEntity : Target → V → Except ErrorStatus (Found V)
  | .value, entity => (format.deserializeColumns entity).map fun cs => .value (defaultColumn format cs)
  | .columns, entity => (format.deserializeColumns entity).map .columns

/-- `TimedFullMerge` in the form that answers a read. -/
def timedFullMergeTo (op : MergeOperator κ V) (key : κ) (base : BaseValue V) (operands : List V)
    (target : Target) : Except ErrorStatus (Found V) :=
  match base.existing format with
  | .error status => .error status
  | .ok existing =>
    match op.fullMergeV3 key existing operands with
    | .newValue value => .ok (target.setPlainValue format value)
    | .newColumns columns =>
      match target with
      | .value => .ok (.value (defaultColumn format columns))
      | .columns =>
        match format.serializeColumns columns with
        | .ok entity => (format.deserializeColumns entity).map .columns
        | .error status => .error status
    | .existingOperand value => .ok (target.setPlainValue format value)
    | .failed _ => .error ⟨.mergeOperatorFailed, rfl⟩

end Answers

/-- What `MergeUntil` leaves behind: its status, the merge output newest
first, the input after the consumed entries and the tombstone aggregator. -/
structure MergeResult (κ V δ : Type) where
  status : Status
  output : List (InternalKey κ × V)
  input : List (Entry κ V)
  rangeDelAgg : δ

/-- The parameters of one `MergeUntil` call. -/
structure MergeJob (κ V δ : Type) where
  format : ValueFormat κ V
  op : MergeOperator κ V
  /-- `CompactionRangeDelAggregator::ShouldDelete`. -/
  shouldDelete : δ → InternalKey κ → Bool × δ
  stopBefore : Nat
  atBottom : Bool

/-- The base value a non-merge entry provides. -/
def baseValue (format : ValueFormat κ V) (entry : Entry κ V) : Except ErrorStatus (BaseValue V) :=
  match entry.key.type with
  | .kTypeValue => .ok (.plainBaseValue entry.value)
  | .kTypeValuePreferredSeqno =>
    .ok (.plainBaseValue (format.parsePackedValueWithSeqno entry.value).1)
  | .kTypeBlobIndex => (format.fetchBlob entry.key.userKey entry.value).map .plainBaseValue
  | .kTypeWideColumnEntity => .ok (.wideBaseValue entry.value)
  | _ => .ok .noBaseValue

/-- A merge attempt: its status, what is left in `keys_` and the operands, and
whether it went through. -/
structure MergeAttempt (κ V : Type) where
  status : Status
  output : List (InternalKey κ × V)
  done : Bool

/-- A full merge of the operands kept so far, newest first. On success one
entry remains, under the newest key with the type of the result. -/
def finishFullMerge (job : MergeJob κ V δ) (base : BaseValue V)
    (kept : List (InternalKey κ × V)) : MergeAttempt κ V :=
  match kept with
  | [] => ⟨.ok, [], false⟩
  | (key, _) :: _ =>
    match timedFullMerge job.format job.op key.userKey base (kept.map (·.2)).reverse with
    | .ok result => ⟨.ok, [({ key with type := result.1 }, result.2)], true⟩
    | .error failure =>
      -- operands only: the non-merge entry is output after them
      if failure.2 = some .kMustMerge then ⟨.mergeInProgress, kept, false⟩
      else ⟨failure.1, kept, false⟩

/-- The operands met without reaching a base value. -/
def finishOperands (job : MergeJob κ V δ) (hitTheNextUserKey : Bool) (input : List (Entry κ V))
    (kept : List (InternalKey κ × V)) : MergeAttempt κ V :=
  match kept with
  | [] => ⟨.ok, [], false⟩
  | (key, _) :: _ =>
    if (hitTheNextUserKey || input.isEmpty) && job.atBottom then
      finishFullMerge job .noBaseValue kept
    else if 2 ≤ kept.length ∨ (job.op.allowSingleOperand = true ∧ kept.length = 1) then
      match job.op.partialMergeMulti key.userKey (kept.map (·.2)).reverse with
      | some value => ⟨.mergeInProgress, [(key, value)], true⟩
      | none => ⟨.mergeInProgress, kept, false⟩
    else ⟨.mergeInProgress, kept, false⟩

/-- The loop of `MergeUntil` for the user key `origKey`: `kept` are the
operands queued so far, newest first. -/
def mergeLoop (job : MergeJob κ V δ) (origKey : κ) :
    Bool → δ → List (InternalKey κ × V) → List (Entry κ V) → MergeResult κ V δ
  | _, agg, kept, [] =>
    let finished := finishOperands job false [] kept
    ⟨finished.status, finished.output, [], agg⟩
  | firstKey, agg, kept, entry :: rest =>
    if entry.isDeleteRangeSentinelKey then mergeLoop job origKey firstKey agg kept rest
    else if firstKey = false ∧ entry.key.userKey ≠ origKey then
      let finished := finishOperands job true (entry :: rest) kept
      ⟨finished.status, finished.output, entry :: rest, agg⟩
    else if firstKey = false ∧ 0 < job.stopBefore ∧ entry.key.sequence ≤ job.stopBefore then
      -- an entry possibly visible to the previous snapshot
      let finished := finishOperands job false (entry :: rest) kept
      ⟨finished.status, finished.output, entry :: rest, agg⟩
    else if entry.key.type ≠ .kTypeMerge then
      if kept.isEmpty then ⟨.ok, [], entry :: rest, agg⟩
      else
        let deleted := job.shouldDelete agg entry.key
        match if deleted.1 then .ok .noBaseValue else baseValue job.format entry with
        | .error status => ⟨status, kept, entry :: rest, deleted.2⟩
        | .ok base =>
          let merged := finishFullMerge job base kept
          ⟨merged.status, merged.output, if merged.done then rest else entry :: rest, deleted.2⟩
    else
      let deleted := job.shouldDelete agg entry.key
      mergeLoop job origKey false deleted.2 (if deleted.1 then kept else kept ++ [(entry.key, entry.value)]) rest

/-- `MergeUntil`, called with the input at a merge entry. -/
def mergeUntil (job : MergeJob κ V δ) (agg : δ) (input : List (Entry κ V)) : MergeResult κ V δ :=
  match input with
  | [] => ⟨.ok, [], [], agg⟩
  | entry :: _ => mergeLoop job entry.key.userKey true agg [] input

end Rocksdb.MergeHelper
