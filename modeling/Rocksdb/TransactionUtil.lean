import Rocksdb.PointLookup

/-! Conflict checking for transactions: `TransactionUtil::CheckKey`
(`utilities/transactions/transaction_util.cc`) with the lookup it rests on,
`DBImpl::GetLatestSequenceForKey` (`db/db_impl/db_impl.cc`), over the active
memtable, the immutable ones, the memtable history (`db/memtable_list.cc`) and
the table files. User timestamps are left out. -/
namespace Rocksdb.TransactionUtil
open MergeHelper FilePicker PointLookup

variable {κ V : Type} [LinearOrder κ] [DecidableEq V]

/-- A memtable and its `earliest_seqno_`, which is `kMaxSequenceNumber` when it
is not known. -/
structure AgedMemTable (κ V : Type) [LinearOrder κ] where
  table : MemTable κ V
  earliestSeqno : Nat

/-- `MemTableListVersion`, both lists newest first. The history holds memtables
that have been flushed already. -/
structure MemTableListVersion (κ V : Type) [LinearOrder κ] where
  memlist : List (AgedMemTable κ V)
  memlistHistory : List (AgedMemTable κ V)

/-- `MemTableListVersion::GetEarliestSequenceNumber`. -/
def MemTableListVersion.getEarliestSequenceNumber (imm : MemTableListVersion κ V) (includeHistory : Bool) : Nat :=
  match (if includeHistory then imm.memlistHistory.getLast? else none), imm.memlist.getLast? with
  | some oldest, _ => oldest.earliestSeqno
  | none, some oldest => oldest.earliestSeqno
  | none, none => kMaxSequenceNumber

/-- `SuperVersion`. -/
structure SuperVersion (κ V : Type) [LinearOrder κ] where
  mem : AgedMemTable κ V
  imm : MemTableListVersion κ V
  levels : List (List (Table κ V))

/-- `DBImpl::GetEarliestMemTableSequenceNumber`. -/
def SuperVersion.getEarliestMemTableSequenceNumber (sv : SuperVersion κ V) (includeHistory : Bool) : Nat :=
  let earliestSeq := sv.imm.getEarliestSequenceNumber includeHistory
  if earliestSeq = kMaxSequenceNumber then sv.mem.earliestSeqno else earliestSeq

/-! ## The latest sequence number of a key -/

/-- What is known before the first memtable is read. -/
def start : Progress V := ⟨.ok, [], 0, none⟩

/-- `MemTableListVersion::GetFromList`, with the sequence number of the first
operation found on the key. -/
def getSeqFromList (l : Lookup κ V) : List (AgedMemTable κ V) → Nat → Progress V → Nat × Progress V
  | [], seq, p => (seq, p)
  | mem :: list, seq, p =>
    let got := memTableGet l mem.table p
    let seq := if seq = kMaxSequenceNumber then got.2.1 else seq
    if got.1 then (seq, got.2.2)
    else if got.2.2.status.isError then (seq, got.2.2)
    else getSeqFromList l list seq got.2.2

/-- `key_exists` of `Version::Get`: false when the search came to its end
without anything found. -/
def versionKeyExists (l : Lookup κ V) (levels : List (List (Table κ V))) (seq : Option Nat) (p : Progress V) : Bool :=
  let ctx : GetContext V := ⟨if p.status = .ok then .kNotFound else .kMerge, seq, p.operands, p.result⟩
  let (returned, _, _, ctx) := versionLoop l levels (budget (ranges levels) + 1)
    (newPicker (ranges levels) l.ikey) (p.status, p.maxCoveringTombstoneSeq, ctx)
  returned.isSome || ctx.state = .kMerge

/-- What `GetLatestSequenceForKey` returns. -/
structure LatestSequence where
  status : Status
  seq : Nat
  foundRecordForKey : Bool

/-- `DBImpl::GetLatestSequenceForKey`. Nothing older than a memtable can be
above `lowerBoundSeq` once its earliest sequence number is below it. -/
def getLatestSequenceForKey (l : Lookup κ V) (sv : SuperVersion κ V) (cacheOnly : Bool)
    (lowerBoundSeq : Nat) : LatestSequence :=
  let (_, seq, p) := memTableGet l sv.mem.table start
  if p.status.isError then ⟨p.status, seq, false⟩
  else if seq ≠ kMaxSequenceNumber then ⟨.ok, seq, true⟩
  else if sv.mem.earliestSeqno ≠ kMaxSequenceNumber ∧ sv.mem.earliestSeqno < lowerBoundSeq then
    ⟨.ok, seq, false⟩
  else
    let (seq, p) := getSeqFromList l sv.imm.memlist kMaxSequenceNumber p
    let lowerBoundInImm := sv.imm.getEarliestSequenceNumber false
    if p.status.isError then ⟨p.status, seq, false⟩
    else if seq ≠ kMaxSequenceNumber then ⟨.ok, seq, true⟩
    else if lowerBoundInImm ≠ kMaxSequenceNumber ∧ lowerBoundInImm < lowerBoundSeq then
      ⟨.ok, seq, false⟩
    else
      let (seq, p) := getSeqFromList l sv.imm.memlistHistory kMaxSequenceNumber p
      if p.status.isError then ⟨p.status, seq, false⟩
      else if seq ≠ kMaxSequenceNumber then ⟨.ok, seq, true⟩
      else if cacheOnly then ⟨p.status, seq, false⟩
      else
        let found := versionGet l sv.levels (some seq) p
        ⟨found.2.status, found.1.getD seq, versionKeyExists l sv.levels (some seq) p⟩

/-! ## The check -/

/-- The status of a conflict check. A failed lookup is passed on. -/
inductive CheckStatus where
  | ok
  | busy
  | tryAgain (msg : String)
  | failed (status : Status)
  deriving DecidableEq

/-- `Status::IsTryAgain`. -/
def CheckStatus.isTryAgain : CheckStatus → Bool
  | .tryAgain _ => true
  | _ => false

/-- What a check is asked. `snapChecker` is the read callback that decides
which sequence numbers are visible when writes do not commit in their order. -/
structure CheckRequest (κ V : Type) where
  format : ValueFormat κ V
  mergeOperator : Option (MergeOperator κ V)
  lastSequence : Nat
  snapSeq : Nat
  key : κ
  cacheOnly : Bool
  snapChecker : Option (Nat → Bool)
  minUncommitted : Nat

/-- The lookup of `GetLatestSequenceForKey`, at the last published sequence
number and without a place for the value. -/
def CheckRequest.lookup (request : CheckRequest κ V) : Lookup κ V where
  format := request.format
  mergeOperator := request.mergeOperator
  target := none
  doMerge := true
  key := request.key
  sequence := request.lastSequence
  snapshot := none

/-- The memtables of unknown age. -/
def unknownAge (snapSeq : Nat) : CheckStatus :=
  .tryAgain ("Transaction could not check for conflicts as the MemTable does not " ++
    "contain a long enough history to check write at SequenceNumber: : " ++ toString snapSeq)

/-- The memtables too new. -/
def tooNew (snapSeq earliestSeq : Nat) : CheckStatus :=
  .tryAgain ("Transaction could not check for conflicts for operation at SequenceNumber " ++
    toString snapSeq ++ " as the MemTable only contains changes newer than SequenceNumber " ++
    toString earliestSeq ++ ".  Increasing the value of the max_write_buffer_size_to_maintain " ++
    "option could reduce the frequency of this error.")

/-- `TransactionUtil::CheckKey`. -/
def checkKey (sv : SuperVersion κ V) (earliestSeq : Nat) (request : CheckRequest κ V) : CheckStatus :=
  let needToReadSst := decide (earliestSeq = kMaxSequenceNumber) ||
    decide (request.snapSeq < earliestSeq) || decide (request.minUncommitted ≤ earliestSeq)
  let result :=
    if request.cacheOnly && needToReadSst then
      if earliestSeq = kMaxSequenceNumber then unknownAge request.snapSeq
      else tooNew request.snapSeq earliestSeq
    else .ok
  if result ≠ .ok then result
  else
    let lowerBoundSeq :=
      if request.minUncommitted = kMaxSequenceNumber then request.snapSeq else request.minUncommitted
    let latest := getLatestSequenceForKey request.lookup sv (!needToReadSst) lowerBoundSeq
    if latest.status.isError then .failed latest.status
    else if latest.foundRecordForKey then
      let writeConflict :=
        match request.snapChecker with
        | none => decide (request.snapSeq < latest.seq)
        | some isVisible => !isVisible latest.seq
      if writeConflict then .busy else .ok
    else .ok

/-- `TransactionUtil::CheckKeyForConflicts`. -/
def checkKeyForConflicts (sv : SuperVersion κ V) (request : CheckRequest κ V) : CheckStatus :=
  checkKey sv (sv.getEarliestMemTableSequenceNumber true) request

end Rocksdb.TransactionUtil
