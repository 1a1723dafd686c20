import Rocksdb.PointLockManager
import Rocksdb.TransactionUtil

/-! Pessimistic transactions over the point lock manager:
`PessimisticTransaction::TryLock` and `ValidateSnapshot`
(`utilities/transactions/pessimistic_transaction.cc`) with
`AcquireWithTimeout`, the tracked keys (`point_lock_tracker.cc`) and the commits
of many transactions at once. A transaction is used by one thread, and its calls
are cut into steps where other transactions can run in between: each attempt to
take the lock, what follows it, and each unlock. Waiting is a sequence of
attempts that fail. User timestamps, save points, the deadlock detector's search
and range locks are left out. -/
namespace Rocksdb.PessimisticTransaction
open PointLockManager TransactionUtil MergeHelper

variable {κ V : Type}

/-- `TrackedKeyInfo`. -/
structure TrackedKeyInfo where
  seq : Nat
  numWrites : Nat
  numReads : Nat
  exclusive : Bool
  deriving DecidableEq, Repr

/-- A key of a column family. -/
abbrev CfKey (κ : Type) : Type := ColumnFamilyId × κ

/-- What a lock is asked for with. `readOnly` is false for writes. The callers of
`TryLock` ask for writes exclusively, and assume a key tracked only for writes
they do not validate. -/
structure Request (κ : Type) where
  key : CfKey κ
  readOnly : Bool
  exclusive : Bool
  doValidate : Bool
  assumeTracked : Bool
  writes : readOnly = false → exclusive = true
  assumes : assumeTracked = true → doValidate = false ∧ exclusive = true

/-- `PointLockTracker::Track`. -/
def track (before : Option TrackedKeyInfo) (seq : Nat) (readOnly exclusive : Bool) : TrackedKeyInfo :=
  let info := before.getD ⟨seq, 0, 0, false⟩
  let info := if seq < info.seq then { info with seq := seq } else info
  let info := if readOnly then { info with numReads := info.numReads + 1 }
    else { info with numWrites := info.numWrites + 1 }
  { info with exclusive := info.exclusive || exclusive }

/-- The statuses of `TryLock`. -/
inductive TxnStatus where
  | ok
  | lockFailed (status : LockStatus)
  | checkFailed (status : CheckStatus)
  | invalidArgument (message : String)
  deriving DecidableEq

/-- Where the thread of a transaction is: outside of `TryLock`, in
`AcquireWithTimeout`, behind it with a status, or in the `AcquireWithTimeout`
that takes back an upgrade. -/
inductive Phase (κ : Type) where
  | idle
  | acquiring (request : Request κ) (previouslyLocked lockUpgrade : Bool)
  | acquired (request : Request κ) (previouslyLocked lockUpgrade : Bool) (status : TxnStatus)
  | downgrading (request : Request κ) (trackedAtSeq : Nat)

/-- The members of a transaction that matter here. `batch` holds the keys it has
written. -/
structure Transaction (κ : Type) where
  expirationTime : Nat
  skipConcurrencyControl : Bool
  trackedLocks : CfKey κ → Option TrackedKeyInfo
  snapshot : Option Nat
  snapshotNeeded : Bool
  batch : List (CfKey κ)
  phase : Phase κ

/-- A committed write. -/
structure Write (κ : Type) where
  key : CfKey κ
  seq : Nat
  txnId : TransactionID

/-- What the lock manager has told its callers: a lock was granted or given
back. -/
inductive LockCall (κ : Type) where
  | granted (txnId : TransactionID) (key : CfKey κ)
  | unlocked (txnId : TransactionID) (key : CfKey κ)

/-- The whole system. The two lists and `returned` record its history: the
committed writes, the calls of the lock manager with the last one first, and the
call of `TryLock` that returned in the last step, if any. -/
structure State (κ V : Type) [LinearOrder κ] where
  lockMaps : ColumnFamilyId → Option (LockMap κ)
  expirable : ExpirableTransactions
  txns : TransactionID → Transaction κ
  lastSequence : Nat
  superVersions : ColumnFamilyId → SuperVersion κ V
  committed : List (Write κ)
  calls : List (LockCall κ)
  returned : Option (TransactionID × Request κ × TxnStatus)

/-- What is fixed for the system. -/
structure Config (κ V : Type) where
  options : Options κ
  format : ValueFormat κ V
  mergeOperator : Option (MergeOperator κ V)

section
variable [LinearOrder κ] [DecidableEq V] (config : Config κ V)
  (s : State κ V)

/-- Changes one transaction. -/
def State.setTxn (t : TransactionID) (txn : Transaction κ) : State κ V :=
  { s with txns := Function.update s.txns t txn }

/-- `SetSnapshotIfNeeded`. -/
def setSnapshotIfNeeded (lastSequence : Nat) (txn : Transaction κ) : Transaction κ :=
  if txn.snapshotNeeded then { txn with snapshot := some lastSequence, snapshotNeeded := false } else txn

/-- `PointLockManager::UnLock` of a key. -/
def State.unLock (t : TransactionID) (key : CfKey κ) : State κ V :=
  match s.lockMaps key.1 with
  | none => s
  | some map =>
    { s with
      lockMaps := Function.update s.lockMaps key.1 (some (unLockKey config.options map key.2 t))
      calls := .unlocked t key :: s.calls }

/-- What the end of `TryLock` does to the transaction. A write that may go on is
put into the batch. -/
def Transaction.finish (txn : Transaction κ) (request : Request κ) (trackedAtSeq : Nat)
    (status : TxnStatus) : Transaction κ :=
  let txn := { txn with phase := .idle }
  if status = .ok then
    let txn :=
      if request.assumeTracked then txn
      else { txn with
        trackedLocks := Function.update txn.trackedLocks request.key
          (some (track (txn.trackedLocks request.key) trackedAtSeq request.readOnly request.exclusive)) }
    if request.readOnly then txn else { txn with batch := request.key :: txn.batch }
  else txn

/-- `TryLock` returns. -/
def State.finish (t : TransactionID) (request : Request κ) (trackedAtSeq : Nat)
    (status : TxnStatus) : State κ V :=
  { s.setTxn t ((s.txns t).finish request trackedAtSeq status) with
    returned := some (t, request, status) }

/-- `PessimisticTransaction::ValidateSnapshot`, with `tracked_at_seq`. -/
def validateSnapshot (key : CfKey κ) (snapSeq trackedAtSeq : Nat) : CheckStatus × Nat :=
  if trackedAtSeq ≤ snapSeq then (.ok, trackedAtSeq)
  else
    (checkKeyForConflicts (s.superVersions key.1)
      { format := config.format
        mergeOperator := config.mergeOperator
        lastSequence := s.lastSequence
        snapSeq := snapSeq
        key := key.2
        cacheOnly := false
        snapChecker := none
        minUncommitted := kMaxSequenceNumber }, snapSeq)

/-- The beginning of `TryLock`, up to the lock manager. -/
def State.tryLock (t : TransactionID) (request : Request κ) : State κ V :=
  let txn := s.txns t
  if txn.skipConcurrencyControl then
    let txn := if request.readOnly then txn else { txn with batch := request.key :: txn.batch }
    { s.setTxn t txn with returned := some (t, request, .ok) }
  else
    let status := txn.trackedLocks request.key
    let previouslyLocked := status.isSome
    let lockUpgrade := status.any fun info => request.exclusive && !info.exclusive
    if !previouslyLocked || lockUpgrade then
      match s.lockMaps request.key.1 with
      | none =>
        s.setTxn t { txn with
          phase := .acquired request previouslyLocked lockUpgrade (.lockFailed
            (.invalidArgument ("Column family id not found: " ++ toString request.key.1))) }
      | some _ => s.setTxn t { txn with phase := .acquiring request previouslyLocked lockUpgrade }
    else s.setTxn t { txn with phase := .acquired request previouslyLocked lockUpgrade .ok }

/-- One call of `AcquireLocked` by `AcquireWithTimeout`, for an exclusive or a
shared lock. After a failure the thread waits and may try again. -/
def State.attempt (t : TransactionID) (key : CfKey κ) (exclusive : Bool) (now : Nat)
    (granted : State κ V → State κ V) : State κ V :=
  match s.lockMaps key.1 with
  | none => s
  | some map =>
    let acquired := acquireLocked config.options map key.2 now ⟨t, (s.txns t).expirationTime, exclusive⟩ s.expirable
    let after := { s with
      lockMaps := Function.update s.lockMaps key.1 (some acquired.map)
      expirable := acquired.expirable }
    if acquired.status = .ok then granted { after with calls := .granted t key :: s.calls } else after

/-- What `TryLock` does when it is back from the lock manager. -/
def State.validate (t : TransactionID) (request : Request κ)
    (previouslyLocked lockUpgrade : Bool) (status : TxnStatus) : State κ V :=
  let txn := setSnapshotIfNeeded s.lastSequence (s.txns t)
  let s := s.setTxn t txn
  let trackedAtSeq := (txn.trackedLocks request.key).elim kMaxSequenceNumber (·.seq)
  match (if request.doValidate then txn.snapshot else none) with
  | none =>
    let status :=
      if request.assumeTracked && !previouslyLocked then
        .invalidArgument "assume_tracked is set but it is not tracked yet"
      else status
    let trackedAtSeq := if trackedAtSeq = kMaxSequenceNumber then s.lastSequence else trackedAtSeq
    s.finish t request trackedAtSeq status
  | some snapSeq =>
    if status ≠ .ok then s.finish t request trackedAtSeq status
    else
      let (result, trackedAtSeq) := validateSnapshot config s request.key snapSeq trackedAtSeq
      if result = .ok then s.finish t request trackedAtSeq .ok
      else if lockUpgrade then s.setTxn t { txn with phase := .downgrading request trackedAtSeq }
      else if !previouslyLocked then
        (s.unLock config t request.key).finish t request trackedAtSeq (.checkFailed result)
      else s.finish t request trackedAtSeq (.checkFailed result)

/-- What can happen next. -/
inductive Event (κ V : Type) [LinearOrder κ] where
  | setSnapshot (t : TransactionID)
  | setSnapshotOnNextOperation (t : TransactionID)
  | clearSnapshot (t : TransactionID)
  | tryLock (t : TransactionID) (request : Request κ)
  | acquireLocked (t : TransactionID) (now : Nat)
  | giveUp (t : TransactionID) (status : { status : LockStatus // status ≠ .ok })
  | validate (t : TransactionID)
  | unLock (t : TransactionID) (key : CfKey κ)
  | commit (t : TransactionID) (superVersions : ColumnFamilyId → SuperVersion κ V)
  | reorganize (superVersions : ColumnFamilyId → SuperVersion κ V)

/-- The writes of a committed batch, with consecutive sequence numbers. -/
def writesOf (t : TransactionID) (lastSequence : Nat) : List (CfKey κ) → List (Write κ)
  | [] => []
  | key :: rest => ⟨key, lastSequence + 1, t⟩ :: writesOf t (lastSequence + 1) rest

/-- One step, if the event can happen. `giveUp` is `AcquireWithTimeout` returning
without the lock: after a timeout, for a deadlock, or because the mutex could not
be locked. `unLock` is a transaction giving up a key with all it has tracked and
written of it, as `UndoGetForUpdate`, `RollbackToSavePoint` and `Clear` do; after
a commit or a rollback nothing is left in the batch. `reorganize` is a memtable
switch, a flush or a compaction. -/
def step : Event κ V → Option (State κ V)
  | .setSnapshot t =>
    match (s.txns t).phase with
    | .idle => some { s.setTxn t { s.txns t with snapshot := some s.lastSequence, snapshotNeeded := false }
        with returned := none }
    | _ => none
  | .setSnapshotOnNextOperation t =>
    match (s.txns t).phase with
    | .idle => some { s.setTxn t { s.txns t with snapshotNeeded := true } with returned := none }
    | _ => none
  | .clearSnapshot t =>
    match (s.txns t).phase with
    | .idle => some { s.setTxn t { s.txns t with snapshot := none, snapshotNeeded := false }
        with returned := none }
    | _ => none
  | .tryLock t request =>
    match (s.txns t).phase with
    | .idle => some ({ s with returned := none }.tryLock t request)
    | _ => none
  | .acquireLocked t now =>
    match (s.txns t).phase with
    | .acquiring request previouslyLocked lockUpgrade =>
      some ({ s with returned := none }.attempt config t request.key request.exclusive now fun s =>
        s.setTxn t { s.txns t with phase := .acquired request previouslyLocked lockUpgrade .ok })
    | .downgrading request trackedAtSeq =>
      some ({ s with returned := none }.attempt config t request.key false now fun s =>
        s.finish t request trackedAtSeq .ok)
    | _ => none
  | .giveUp t status =>
    match (s.txns t).phase with
    | .acquiring request previouslyLocked lockUpgrade =>
      some { s.setTxn t { s.txns t with
        phase := .acquired request previouslyLocked lockUpgrade (.lockFailed status.1) } with
        returned := none }
    | .downgrading request trackedAtSeq =>
      some (s.finish t request trackedAtSeq (.lockFailed status.1))
    | _ => none
  | .validate t =>
    match (s.txns t).phase with
    | .acquired request previouslyLocked lockUpgrade status =>
      some ({ s with returned := none }.validate config t request previouslyLocked lockUpgrade status)
    | _ => none
  | .unLock t key =>
    match (s.txns t).phase with
    | .idle =>
      some ({ s.setTxn t { s.txns t with
        trackedLocks := Function.update (s.txns t).trackedLocks key none
        batch := (s.txns t).batch.filter (· ≠ key) } with returned := none }.unLock config t key)
    | _ => none
  | .commit t superVersions =>
    match (s.txns t).phase with
    | .idle =>
      some { s.setTxn t { s.txns t with batch := [] } with
        lastSequence := s.lastSequence + (s.txns t).batch.length
        superVersions := superVersions
        committed := writesOf t s.lastSequence (s.txns t).batch.reverse ++ s.committed
        returned := none }
    | _ => none
  | .reorganize superVersions => some { s with superVersions := superVersions, returned := none }

end

end Rocksdb.PessimisticTransaction
