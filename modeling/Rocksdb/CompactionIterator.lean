import Rocksdb.MergeHelper

/-! `CompactionIterator` (`db/compaction/compaction_iterator.cc`): the single
pass that decides which entries of a sorted compaction input are written out.
Compaction filter, snapshot checker, user timestamps and blob files are left
out; the tombstone aggregator is any state `δ` with a `ShouldDelete`. -/
namespace Rocksdb.CompactionIterator
open MergeHelper

/-- `CompactionProxy`: what the iterator asks its compaction. A flush has
none. -/
structure CompactionProxy (κ : Type) where
  bottommostLevel : Bool
  allowIngestBehind : Bool
  keyNotExistsBeyondOutputLevel : κ → Bool
  supportsPerKeyPlacement : Bool
  withinPenultimateLevelOutputRange : InternalKey κ → Bool

/-- The constant members of a `CompactionIterator`. -/
structure Config (κ V δ : Type) where
  snapshots : List Nat
  earliestWriteConflictSnapshot : Nat
  compaction : Option (CompactionProxy κ)
  enforceSingleDelContracts : Bool
  preserveTimeMinSeqno : Nat
  precludeLastLevelMinSeqno : Nat
  shouldDelete : δ → InternalKey κ → Bool × δ
  mergeOperator : Option (MergeOperator κ V)
  format : ValueFormat κ V

/-- `ValidContext`: why an entry is output. -/
inductive ValidContext where
  | kMerge1
  | kMerge2
  | kKeepSDAndClearPut
  | kKeepSDForConflictCheck
  | kKeepSDForSnapshot
  | kKeepSD
  | kKeepDel
  | kNewUserKey
  | kRangeDeletion
  | kSwapPreferredSeqno
  deriving DecidableEq

/-- The conditions the source logs as fatal and goes on from. -/
inductive Fatal where
  | unexpectedKeyForOutput
  | snapshotBelowLastSnapshot
  | lastSequenceBelowSequence
  | unexpectedKeyForSeqZero
  | prevSnapshotNotBelowSequence
  deriving DecidableEq

/-- The current output: `ikey_`, `value_`, `is_range_del_` and the validity. -/
structure Output (κ V : Type) where
  ikey : InternalKey κ
  value : V
  isRangeDel : Bool
  context : ValidContext
  deriving DecidableEq

/-- The changing members of a `CompactionIterator`. `currentUserKey` is
`current_user_key_` while `has_current_user_key_` holds, and `out` the output
while the iterator is valid. -/
structure State (κ V δ : Type) where
  input : List (Entry κ V)
  rangeDelAgg : δ
  out : Option (Output κ V)
  atNext : Bool
  currentUserKey : Option κ
  currentUserKeySequence : Nat
  currentUserKeySnapshot : Nat
  hasOutputtedKey : Bool
  clearAndOutputNextKey : Bool
  lastKeySeqZeroed : Bool
  mergeOut : List (InternalKey κ × V)
  mergeUntilStatus : Status
  savedSeqForPenulCheck : Option Nat
  outputToPenultimateLevel : Bool
  status : Status
  fatals : List Fatal

variable {κ V δ : Type} [DecidableEq κ]

/-- A fresh iterator. -/
def State.new (input : List (Entry κ V)) (agg : δ) : State κ V δ where
  input := input
  rangeDelAgg := agg
  out := none
  atNext := false
  currentUserKey := none
  currentUserKeySequence := 0
  currentUserKeySnapshot := 0
  hasOutputtedKey := false
  clearAndOutputNextKey := false
  lastKeySeqZeroed := false
  mergeOut := []
  mergeUntilStatus := .ok
  savedSeqForPenulCheck := none
  outputToPenultimateLevel := false
  status := .ok
  fatals := []

namespace Config
variable (cfg : Config κ V δ)

/-- `earliest_snapshot_` as the compaction job passes it. -/
def earliestSnapshot : Nat := cfg.snapshots.headD kMaxSequenceNumber

/-- `bottommost_level_`. -/
def bottommostLevel : Bool :=
  match cfg.compaction with
  | none => false
  | some c => c.bottommostLevel && !c.allowIngestBehind

/-- `compaction_ != nullptr` and `KeyNotExistsBeyondOutputLevel`. -/
def keyNotExistsBeyondOutputLevel (key : κ) : Bool :=
  match cfg.compaction with
  | none => false
  | some c => c.keyNotExistsBeyondOutputLevel key

/-- `findEarliestVisibleSnapshot`: the first snapshot that sees the sequence
number, and the last one that does not (zero for none). -/
def findEarliestVisibleSnapshot (seq : Nat) : Nat × Nat :=
  let i := cfg.snapshots.findIdx (seq ≤ ·)
  (cfg.snapshots[i]?.getD kMaxSequenceNumber, if i = 0 then 0 else cfg.snapshots[i - 1]?.getD 0)

/-- Both snapshots of an entry; without snapshots only the tip sees it. -/
def visibleSnapshot (seq : Nat) : Nat × Nat :=
  if cfg.snapshots.isEmpty then (cfg.earliestSnapshot, 0) else cfg.findEarliestVisibleSnapshot seq

end Config

/-- Records a fatal condition when it holds. -/
def State.logFatal (st : State κ V δ) (condition : Bool) (fatal : Fatal) : State κ V δ :=
  if condition then { st with fatals := fatal :: st.fatals } else st

/-- The first occurrence of a user key resets what is known about it. -/
def enterKey (st : State κ V δ) (userKey : κ) : State κ V δ :=
  if st.currentUserKey = some userKey then st
  else
    { st with
      currentUserKey := some userKey
      currentUserKeySequence := kMaxSequenceNumber
      currentUserKeySnapshot := 0
      hasOutputtedKey := false
      lastKeySeqZeroed := false }

/-- Types that carry a value of their own. -/
def isPutType (t : ValueType) : Bool :=
  t = .kTypeValue || t = .kTypeBlobIndex || t = .kTypeWideColumnEntity || t = .kTypeValuePreferredSeqno

variable (cfg : Config κ V δ) (st : State κ V δ)

/-- The put after a `SingleDelete` that was kept: output without its value. -/
def clearPut (ikey : InternalKey κ) (lastSnapshot : Nat) : State κ V δ :=
  let st := st.logFatal (!isPutType ikey.type) .unexpectedKeyForOutput
  let st := st.logFatal (st.currentUserKeySnapshot < lastSnapshot) .snapshotBelowLastSnapshot
  let ikey := if isPutType ikey.type then { ikey with type := .kTypeValue } else ikey
  { st with
    out := some ⟨ikey, cfg.format.empty, false, .kKeepSDAndClearPut⟩
    clearAndOutputNextKey := false }

/-- Mixing `SingleDelete` and `Delete` on one key. -/
def singleDelContractMessage : String :=
  "Found SD and type: 0 on the same key, violating the contract " ++
  "of SingleDelete. Check your application to make sure the " ++
  "application does not mix SingleDelete and Delete for " ++
  "the same key. If you are using " ++
  "write-prepared/write-unprepared transactions, and use " ++
  "SingleDelete to delete certain keys, then make sure " ++
  "TransactionDBOptions::rollback_deletion_type_callback is " ++
  "configured properly. Mixing SD and DEL can lead to " ++
  "undefined behaviors"

/-- Whether a `SingleDelete` may go together with the value it deletes: no
transaction still has to see that a write happened. -/
def Config.singleDeleteDroppable (hasOutputtedKey : Bool) (seq : Nat) : Bool :=
  hasOutputtedKey || seq ≤ cfg.earliestWriteConflictSnapshot ||
    (cfg.earliestSnapshot < cfg.earliestWriteConflictSnapshot && seq ≤ cfg.earliestSnapshot)

variable (ikey : InternalKey κ) (value : V)

/-- Output a `SingleDelete`; the input already stands at the next entry. -/
def keepSingleDelete (context : ValidContext) : State κ V δ :=
  { st with out := some ⟨ikey, value, false, context⟩, atNext := true }

/-- The `SingleDelete` branch, with the input moved past it and past the
tombstone start keys of its user key. -/
def singleDelete (prevSnapshot : Nat) : State κ V δ :=
  match st.input with
  | next :: rest =>
    if next.key.userKey = ikey.userKey then
      if st.lastKeySeqZeroed then { st with input := rest }
      else if prevSnapshot = 0 ∨ prevSnapshot < next.key.sequence then
        if next.key.type = .kTypeSingleDeletion then st
        else if next.key.type = .kTypeDeletion then
          if cfg.enforceSingleDelContracts then
            { st with status := .corruption singleDelContractMessage }
          else st
        else if cfg.singleDeleteDroppable st.hasOutputtedKey ikey.sequence then
          { st with input := rest }
        else
          { keepSingleDelete st ikey value .kKeepSDForConflictCheck with
            clearAndOutputNextKey := true }
      else keepSingleDelete st ikey value .kKeepSDForSnapshot
    else lastSingleDelete st
  | [] => lastSingleDelete st
where
  /-- No further entry of the user key. -/
  lastSingleDelete (st : State κ V δ) : State κ V δ :=
    let st := { st with currentUserKey := none }
    if ikey.sequence ≤ cfg.earliestSnapshot ∧ cfg.keyNotExistsBeyondOutputLevel ikey.userKey then st
    else if st.lastKeySeqZeroed then st
    else keepSingleDelete st ikey value .kKeepSD

/-- A deletion at the bottommost level: skip what it hides in its snapshot
stripe, and output it only if an older entry of the user key remains. -/
def bottommostDelete (prevSnapshot : Nat) : State κ V δ :=
  let rest := st.input.dropWhile fun next =>
    next.key.userKey = ikey.userKey &&
      (prevSnapshot = 0 || next.isDeleteRangeSentinelKey || prevSnapshot < next.key.sequence)
  match rest with
  | next :: _ =>
    if next.key.userKey = ikey.userKey then
      { st with input := rest, out := some ⟨ikey, value, false, .kKeepDel⟩, atNext := true }
    else { st with input := rest }
  | [] => { st with input := rest }

/-- A `TimedPut` whose preferred sequence number may be swapped in. `rest` is
the input after the entry. -/
def swapPreferredSeqno (rest : List (Entry κ V)) : State κ V δ :=
  let packed := cfg.format.parsePackedValueWithSeqno value
  let deleted := cfg.shouldDelete st.rangeDelAgg ikey
  if deleted.1 then { st with rangeDelAgg := deleted.2, input := rest }
  else
    let covered := cfg.shouldDelete deleted.2 ⟨ikey.userKey, min packed.2 ikey.sequence, .kTypeValue⟩
    if covered.1 then
      -- a tombstone older than the entry would cover it: output it as it is
      { st with rangeDelAgg := covered.2, out := some ⟨ikey, value, false, .kNewUserKey⟩ }
    else
      { st with
        rangeDelAgg := covered.2
        savedSeqForPenulCheck :=
          if ikey.sequence ≠ 0 then some ikey.sequence else st.savedSeqForPenulCheck
        out := some
          ⟨⟨ikey.userKey, if ikey.sequence ≠ 0 then packed.2 else ikey.sequence, .kTypeValue⟩,
            packed.1, false, .kSwapPreferredSeqno⟩ }

/-- A merge entry: `MergeUntil` consumes the operands of the stripe. -/
def mergeEntry (input : List (Entry κ V)) (prevSnapshot : Nat) : State κ V δ :=
  match cfg.mergeOperator with
  | none => { st with status := .invalidArgument "merge_operator is not properly initialized." }
  | some op =>
    let result := mergeUntil ⟨cfg.format, op, cfg.shouldDelete, prevSnapshot, cfg.bottommostLevel⟩
      st.rangeDelAgg input
    let st := { st with
      input := result.input
      rangeDelAgg := result.rangeDelAgg
      mergeOut := result.output
      mergeUntilStatus := result.status }
    if result.status ≠ .ok ∧ result.status ≠ .mergeInProgress then
      { st with status := result.status }
    else
      match result.output with
      | (ikey, value) :: _ => { st with out := some ⟨ikey, value, false, .kMerge2⟩ }
      | [] => { st with currentUserKey := none }

/-- A new user key or a different snapshot stripe: output the entry unless a
range tombstone of its stripe covers it. -/
def newUserKey (rest : List (Entry κ V)) : State κ V δ :=
  let deleted := cfg.shouldDelete st.rangeDelAgg ikey
  if deleted.1 then { st with rangeDelAgg := deleted.2, input := rest }
  else { st with rangeDelAgg := deleted.2, out := some ⟨ikey, value, false, .kNewUserKey⟩ }

/-- The state in which the rules look at an entry: its user key is current,
and so are its sequence number and its snapshot. -/
def beginEntry : State κ V δ :=
  let snapshots := cfg.visibleSnapshot ikey.sequence
  { (enterKey st ikey.userKey).logFatal (snapshots.2 ≠ 0 && ikey.sequence ≤ snapshots.2)
      .prevSnapshotNotBelowSequence with
    currentUserKeySequence := ikey.sequence
    currentUserKeySnapshot := snapshots.1 }

/-- The rules for a point entry before `rest`. `lastSequence` and
`lastSnapshot` belong to the previous entry of the user key. -/
def processPoint (lastSequence lastSnapshot prevSnapshot : Nat)
    (entry : Entry κ V) (rest : List (Entry κ V)) : State κ V δ :=
  let ikey := entry.key
  if st.clearAndOutputNextKey then clearPut cfg st ikey lastSnapshot
  else if ikey.type = .kTypeSingleDeletion then
    let input := rest.dropWhile fun next =>
      next.isDeleteRangeSentinelKey && next.key.userKey = ikey.userKey
    singleDelete cfg { st with input := input } ikey entry.value prevSnapshot
  else if lastSnapshot = st.currentUserKeySnapshot ∨
      (0 < lastSnapshot ∧ lastSnapshot < st.currentUserKeySnapshot) then
    -- rule (A): hidden by a newer entry of the same user key
    { st.logFatal (lastSequence < ikey.sequence) .lastSequenceBelowSequence with input := rest }
  else if ikey.type = .kTypeDeletion ∧ ikey.sequence ≤ cfg.earliestSnapshot ∧
      cfg.keyNotExistsBeyondOutputLevel ikey.userKey then
    -- an obsolete deletion marker
    { st with input := rest }
  else if ikey.type = .kTypeDeletion ∧ cfg.bottommostLevel then
    bottommostDelete { st with input := rest } ikey entry.value prevSnapshot
  else if ikey.type = .kTypeValuePreferredSeqno ∧ ikey.sequence ≤ cfg.earliestSnapshot ∧
      (cfg.bottommostLevel ∨ cfg.keyNotExistsBeyondOutputLevel ikey.userKey) then
    swapPreferredSeqno cfg st ikey entry.value rest
  else if ikey.type = .kTypeMerge then mergeEntry cfg st (entry :: rest) prevSnapshot
  else newUserKey cfg st ikey entry.value rest

/-- One iteration of the loop of `NextFromInput`, at `entry` before `rest`. -/
def processEntry (entry : Entry κ V)
    (rest : List (Entry κ V)) : State κ V δ :=
  if entry.isDeleteRangeSentinelKey then
    { st with out := some ⟨entry.key, entry.value, true, .kRangeDeletion⟩ }
  else
    let last := enterKey st entry.key.userKey
    processPoint cfg (beginEntry cfg st entry.key) last.currentUserKeySequence
      last.currentUserKeySnapshot (cfg.visibleSnapshot entry.key.sequence).2 entry rest

/-- The loop of `NextFromInput`. -/
def inputLoop : Nat → State κ V δ → State κ V δ
  | 0, st => st
  | fuel + 1, st =>
    match st.input with
    | [] => st
    | entry :: rest =>
      if st.out.isSome ∨ st.status ≠ .ok then st
      else inputLoop fuel (processEntry cfg st entry rest)

/-- `NextFromInput`. Every iteration that goes on consumes an entry. -/
def nextFromInput : State κ V δ :=
  inputLoop cfg (st.input.length + 1) { st with atNext := false, out := none }

/-- `DecideOutputLevel`. -/
def decideOutputLevel (c : CompactionProxy κ) (st : State κ V δ)
    (ikey : InternalKey κ) : State κ V δ :=
  let wanted : Bool := cfg.precludeLastLevelMinSeqno < ikey.sequence || cfg.earliestSnapshot < ikey.sequence
  let seqForRangeCheck := (st.savedSeqForPenulCheck.filter (· ≠ kMaxSequenceNumber)).getD ikey.sequence
  let st := { st with savedSeqForPenulCheck := none }
  if wanted && !c.withinPenultimateLevelOutputRange { ikey with sequence := seqForRangeCheck } then
    let st := { st with outputToPenultimateLevel := false }
    if cfg.earliestSnapshot < seqForRangeCheck then
      { st with status := .corruption ("Unsafe to store Seq later than snapshot in the last level if " ++
          "per_key_placement is enabled") }
    else st
  else { st with outputToPenultimateLevel := wanted }

/-- Whether `PrepareOutput` zeroes the sequence number of an output. -/
def zeroesSeq (outputToPenultimateLevel : Bool) (o : Output κ V) : Bool :=
  cfg.bottommostLevel && o.ikey.sequence ≤ cfg.earliestSnapshot && o.ikey.type ≠ .kTypeMerge &&
    !outputToPenultimateLevel && o.ikey.sequence < cfg.preserveTimeMinSeqno && !o.isRangeDel

/-- The level of an output, where keys are placed one by one. -/
def placeOutput (o : Output κ V) : State κ V δ :=
  match cfg.compaction with
  | some c =>
    if c.supportsPerKeyPlacement && !o.isRangeDel then decideOutputLevel cfg c st o.ikey else st
  | none => st

/-- `PrepareOutput`. -/
def prepareOutput : State κ V δ :=
  match st.out with
  | none => st
  | some o =>
    let st := placeOutput cfg st o
    if zeroesSeq cfg st.outputToPenultimateLevel o then
      let st := st.logFatal
        (o.ikey.type = .kTypeDeletion || o.ikey.type = .kTypeSingleDeletion) .unexpectedKeyForSeqZero
      { st with
        out := some { o with ikey := { o.ikey with sequence := 0 } }
        lastKeySeqZeroed := true }
    else st

/-- `SeekToFirst`. -/
def seekToFirst : State κ V δ :=
  prepareOutput cfg (nextFromInput cfg st)

/-- Where `Next` goes on reading: past the entry just output, unless the input
already stands there. After the last merge output the user key is forgotten
if `MergeUntil` left operands only, so that a base value is not taken for
hidden. -/
def resume : State κ V δ :=
  match st.mergeOut with
  | [] => if st.atNext then st else { st with input := st.input.tail }
  | _ :: _ =>
    { st with
      mergeOut := []
      currentUserKey := if st.mergeUntilStatus = .mergeInProgress then none else st.currentUserKey }

/-- `Next`, up to its final `PrepareOutput`. -/
def advance : State κ V δ :=
  match st.mergeOut with
  | _ :: (ikey, value) :: more =>
    { st with
      mergeOut := (ikey, value) :: more
      out := some ⟨ikey, value, false, .kMerge1⟩ }
  | _ => nextFromInput cfg (resume st)

/-- `Next`. -/
def next : State κ V δ :=
  let st := advance cfg st
  prepareOutput cfg (if st.out.isSome then { st with hasOutputtedKey := true } else st)

/-- What the caller takes from the iterator: it goes on while the iterator is
valid and its status is good. -/
def drain : Nat → State κ V δ → List (Output κ V) × State κ V δ
  | 0, st => ([], st)
  | fuel + 1, st =>
    match st.out with
    | none => ([], st)
    | some o =>
      if st.status ≠ .ok then ([], st)
      else
        let (outputs, final) := drain fuel (next cfg st)
        (o :: outputs, final)

/-- A whole compaction of `input`: all outputs and the final state. -/
def compact (input : List (Entry κ V)) (agg : δ) : List (Output κ V) × State κ V δ :=
  drain cfg (input.length + 1) (seekToFirst cfg (State.new input agg))

/-- A compaction of numbers, without merges and range tombstones. -/
def numbersConfig (snapshots : List Nat) (compaction : Option (CompactionProxy Nat)) : Config Nat Nat Unit where
  snapshots := snapshots
  earliestWriteConflictSnapshot := snapshots.headD kMaxSequenceNumber
  compaction := compaction
  enforceSingleDelContracts := true
  preserveTimeMinSeqno := kMaxSequenceNumber
  precludeLastLevelMinSeqno := kMaxSequenceNumber
  shouldDelete := fun agg _ => (false, agg)
  mergeOperator := none
  format := ⟨0, fun v => (v, 3), fun _ => .ok 0, fun _ => .ok [], fun _ v => .ok v⟩

end Rocksdb.CompactionIterator
