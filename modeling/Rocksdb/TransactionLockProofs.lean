import Rocksdb.PessimisticTransaction

/-! Mutual exclusion of point locks. A step of one transaction changes at most
one lock, and of that lock only its own part; the other transactions hold what
they held. What a transaction tracks tells it which locks it may ask for again,
so that no holder is entered twice. -/
namespace Rocksdb.TransactionLockProofs
open PointLockManager PessimisticTransaction TransactionUtil Function

variable {κ V : Type} [LinearOrder κ]

/-! ## Lock tables -/

section Tables

/-- A transaction holds a lock, exclusively or shared. -/
def Holds (table : CfKey κ → Option LockInfo) (t : TransactionID) (key : CfKey κ) (exclusive : Bool) : Prop :=
  ∃ info, table key = some info ∧ t ∈ info.txnIds ∧ info.exclusive = exclusive

/-- A lock has holders, each of them once, and an exclusive one has a single
holder. It does not expire. -/
structure LockOk (info : LockInfo) : Prop where
  held : info.txnIds ≠ []
  nodup : info.txnIds.Nodup
  single : info.exclusive = true → ∃ t, info.txnIds = [t]
  permanent : info.expirationTime = 0

variable {table : CfKey κ → Option LockInfo} {key k : CfKey κ} {t other : TransactionID}

omit [LinearOrder κ] in
theorem Holds.unique {y : Bool} (holds : Holds table t key x) (holds' : Holds table other key y) : x = y := by
  obtain ⟨_, found, -, rfl⟩ := holds
  obtain ⟨_, found', -, rfl⟩ := holds'
  rw [Option.some.inj (found.symm.trans found')]

theorem holds_update_of_ne (new : Option LockInfo) (different : k ≠ key) :
    Holds (update table key new) t k x ↔ Holds table t k x := by
  unfold Holds
  rw [update_of_ne different]

omit [LinearOrder κ] in
theorem holds_of_some (found : table key = some info) :
    Holds table t key x ↔ t ∈ info.txnIds ∧ info.exclusive = x := by
  unfold Holds
  rw [found]
  constructor
  · rintro ⟨info, found, rest⟩
    rwa [← Option.some.inj found] at rest
  · exact fun rest => ⟨info, rfl, rest⟩

theorem holds_update_some (new : LockInfo) :
    Holds (update table key (some new)) t key x ↔ t ∈ new.txnIds ∧ new.exclusive = x :=
  holds_of_some (update_self ..)

omit [LinearOrder κ] in
theorem not_holds_of_none (free : table key = none) : ¬Holds table t key x := by
  rintro ⟨_, found, -⟩
  rw [free] at found
  cases found

/-- A change of one lock that does not concern the other transactions. -/
theorem holds_frame (same : ∀ x, Holds (update table key new) other key x ↔ Holds table other key x) :
    Holds (update table key new) other = Holds table other := by
  funext k x
  by_cases here : k = key
  · rw [here, same]
  · exact propext (holds_update_of_ne new here)

/-- What a granted attempt makes of the lock it found. -/
inductive Granted (t : TransactionID) (exclusive : Bool) : Option LockInfo → LockInfo → Prop where
  | alone {before : Option LockInfo} {info : LockInfo} (free : ∀ b ∈ before, b.txnIds = [t])
      (kind : info.exclusive = exclusive) (holder : info.txnIds = [t]) (permanent : info.expirationTime = 0) :
      Granted t exclusive before info
  | shared {before info : LockInfo} (wasShared : before.exclusive = false) (kind : exclusive = false)
      (stays : info.exclusive = false) (joined : info.txnIds = before.txnIds ++ [t])
      (permanent : info.expirationTime = before.expirationTime) :
      Granted t exclusive (some before) info

section Grant
variable {exclusive : Bool} {info : LockInfo} (granted : Granted t exclusive (table key) info)
include granted

theorem Granted.holds : Holds (update table key (some info)) t key x ↔ x = exclusive := by
  rw [holds_update_some]
  generalize table key = before at granted
  cases granted with
  | alone _ kind holder => simp [kind, holder, eq_comm]
  | shared _ kind stays joined => simp [joined, stays, kind, eq_comm]

theorem Granted.frame (different : other ≠ t) : Holds (update table key (some info)) other = Holds table other := by
  refine holds_frame fun _ => ?_
  rw [holds_update_some]
  generalize found : table key = before at granted
  cases granted with
  | alone free _ holder =>
    refine iff_of_false (by simp [holder, different]) ?_
    rintro ⟨b, b_found, member, -⟩
    rw [free b (found.symm.trans b_found), List.mem_singleton] at member
    exact different member
  | shared wasShared _ stays joined =>
    rw [holds_of_some found, joined, stays, wasShared]
    simp [different]

omit [LinearOrder κ] in
/-- A transaction that does not share the lock yet may join it. -/
theorem Granted.lockOk (ok : ∀ b, table key = some b → LockOk b)
    (apart : exclusive = false → ¬Holds table t key false) : LockOk info := by
  generalize found : table key = before at granted
  cases granted with
  | alone _ _ holder permanent =>
    exact ⟨by simp [holder], by simp [holder], fun _ => ⟨t, holder⟩, permanent⟩
  | @shared b _ wasShared kind stays joined permanent =>
    have before := ok b found
    have absent : t ∉ b.txnIds := fun member => apart kind ⟨b, found, member, wasShared⟩
    refine ⟨by simp [joined], ?_, by simp [stays], permanent.trans before.permanent⟩
    rw [joined]
    exact List.nodup_append.mpr ⟨before.nodup, by simp, by
      rintro _ a_mem _ b_mem rfl
      exact absent (List.mem_singleton.mp b_mem ▸ a_mem)⟩

end Grant

section Release
variable (ok : ∀ b, table key = some b → LockOk b)
include ok

private theorem release_lockOk :
    ∀ info, update table key (withoutHolder t (table key)) key = some info → LockOk info := by
  intro _ after
  rw [update_self] at after
  cases found : table key with
  | none => simp [found, withoutHolder] at after
  | some before =>
    rw [found] at after
    obtain ⟨gone, -⟩ | ⟨_, left, several, holders, kind, time⟩ := withoutHolder_cases t before
    · cases gone.symm.trans after
    · cases left.symm.trans after
      have before_ok := ok before found
      refine ⟨fun empty => ?_, holders.nodup_iff.mpr (before_ok.nodup.erase t), fun isExclusive => ?_,
        time.trans before_ok.permanent⟩
      · -- somebody else is left
        rw [empty] at holders
        exact (List.erase_eq_nil_iff.mp holders.nil_eq.symm).elim before_ok.held several
      · obtain ⟨only, list⟩ := before_ok.single (kind ▸ isExclusive)
        rw [list] at several holders
        have absent : t ∉ [only] := by simpa [eq_comm] using several
        exact ⟨only, by simpa [List.erase_of_not_mem absent] using holders⟩

theorem release_holds : ¬Holds (update table key (withoutHolder t (table key))) t key x := by
  intro holds
  rw [Holds, update_self, mem_withoutHolder] at holds
  obtain ⟨before, found, member, -⟩ := holds
  exact (ok before found).nodup.not_mem_erase member

omit ok in
theorem release_frame (different : other ≠ t) :
    Holds (update table key (withoutHolder t (table key))) other = Holds table other := by
  refine holds_frame fun _ => ?_
  rw [Holds, update_self, mem_withoutHolder]
  simp only [List.mem_erase_of_ne different]
  rfl

end Release

end Tables

/-! ## The table of a state -/

section System
variable {config : Config κ V} {s : State κ V} {t : TransactionID} {key : CfKey κ}

/-- The lock on a key. -/
def lockOf (config : Config κ V) (s : State κ V) (key : CfKey κ) : Option LockInfo :=
  (s.lockMaps key.1).bind fun map => map.find config.options key.2

theorem lockOf_update (config : Config κ V) (found : s.lockMaps key.1 = some map)
    (others : ∀ k, k ≠ key.2 → map'.find config.options k = map.find config.options k)
    (changed : s'.lockMaps = update s.lockMaps key.1 (some map')) :
    lockOf config s' = update (lockOf config s) key (map'.find config.options key.2) := by
  funext k
  by_cases here : k = key
  · rw [here, update_self, lockOf, changed, update_self, Option.bind_some]
  · rw [update_of_ne here, lockOf, changed]
    by_cases family : k.1 = key.1
    · have inside : k.2 ≠ key.2 := fun same => here (Prod.ext family same)
      rw [family, update_self, Option.bind_some, others k.2 inside, lockOf, family, found, Option.bind_some]
    · rw [update_of_ne family, lockOf]

/-- An unlock removes one holder. -/
theorem lockOf_unLock : lockOf config (s.unLock config t key) =
    update (lockOf config s) key (withoutHolder t (lockOf config s key)) := by
  unfold State.unLock
  split
  · next missing =>
    have free : lockOf config s key = none := by rw [lockOf, missing]; rfl
    rw [free]
    exact (update_eq_self_iff.mpr free.symm).symm
  · next found =>
    rw [lockOf_update config found (fun _ different => unLockKey_other t different) rfl]
    rw [find_unLockKey, lockOf, found, Option.bind_some]

/-- Two states that differ at most in their locks. -/
structure SameTransactions (s s' : State κ V) : Prop where
  txns : s'.txns = s.txns
  lastSequence : s'.lastSequence = s.lastSequence
  committed : s'.committed = s.committed
  returned : s'.returned = s.returned

/-- An attempt fails and leaves the locks as they are, or it is granted. -/
theorem attempt_cases (exclusive : Bool) (now : Nat) (next : State κ V → State κ V)
    (permanent : ∀ info, lockOf config s key = some info → info.expirationTime = 0)
    (own : (s.txns t).expirationTime = 0) :
    ∃ s', SameTransactions s s' ∧
      (s.attempt config t key exclusive now next = s' ∧ lockOf config s' = lockOf config s ∧ s'.calls = s.calls ∨
        s.attempt config t key exclusive now next = next s' ∧ s'.calls = .granted t key :: s.calls ∧
          ∃ info, lockOf config s' = update (lockOf config s) key (some info) ∧
            Granted t exclusive (lockOf config s key) info) := by
  unfold State.attempt
  split
  · exact ⟨s, ⟨rfl, rfl, rfl, rfl⟩, .inl ⟨rfl, rfl, rfl⟩⟩
  · next map found =>
    have here : lockOf config s key = map.find config.options key.2 := by
      rw [lockOf, found, Option.bind_some]
    rw [here] at permanent ⊢
    rw [own]
    set acquired := acquireLocked config.options map key.2 now ⟨t, 0, exclusive⟩ s.expirable
    have others : ∀ k, k ≠ key.2 → acquired.map.find config.options k = map.find config.options k :=
      fun _ different => acquireLocked_other now _ _ different
    by_cases granted : acquired.status = .ok
    · rw [if_pos granted]
      refine ⟨{ s with
        lockMaps := update s.lockMaps key.1 (some acquired.map)
        expirable := acquired.expirable
        calls := .granted t key :: s.calls }, ⟨rfl, rfl, rfl, rfl⟩, .inr ⟨rfl, rfl, ?_⟩⟩
      rw [lockOf_update config found others rfl]
      have outcome : Outcome config.options map key.2 ⟨t, 0, exclusive⟩ acquired := acquireLocked_outcome ..
      cases outcome with
      | failed status => exact absurd granted status
      | free _ free _ after =>
        exact ⟨_, by rw [after, find_lockCnt, find_set_same], .alone (by simp [free]) rfl rfl rfl⟩
      | taken _ held _ fair after =>
        have alone := fair.resolve_right (absurd (permanent _ held))
        exact ⟨_, by rw [after, find_set_same], .alone (by simpa [held] using alone) rfl rfl rfl⟩
      | shared _ held both after =>
        refine ⟨_, by rw [after, find_set_same], ?_⟩
        rw [held]
        exact .shared both.1 both.2 both.1 rfl (by simp)
    · rw [if_neg granted]
      refine ⟨{ s with
        lockMaps := update s.lockMaps key.1 (some acquired.map)
        expirable := acquired.expirable }, ⟨rfl, rfl, rfl, rfl⟩, .inl ⟨rfl, ?_, rfl⟩⟩
      rw [lockOf_update config found others rfl, acquireLocked_failed granted, ← here]
      exact update_eq_self _ _

/-! ## What a step can do -/

theorem unLock_calls : (s.unLock config t key).calls = .unlocked t key :: s.calls ∨
    (s.unLock config t key).calls = s.calls ∧ lockOf config s key = none := by
  unfold State.unLock
  split
  · next missing => exact .inr ⟨rfl, by rw [lockOf, missing]; rfl⟩
  · exact .inl rfl

theorem unLock_same (config : Config κ V) (s : State κ V) (t : TransactionID) (key : CfKey κ) :
    SameTransactions s (s.unLock config t key) := by
  unfold State.unLock
  split <;> exact ⟨rfl, rfl, rfl, rfl⟩

/-- The locks and the calls of the lock manager stay as they are. -/
structure SameLocks (config : Config κ V) (s s' : State κ V) : Prop where
  table : lockOf config s' = lockOf config s
  calls : s'.calls = s.calls

/-- Only one transaction changes, and nothing in the database. -/
structure Changes (s s' : State κ V) (t : TransactionID) (txn : Transaction κ) : Prop where
  txns : s'.txns = Function.update s.txns t txn
  lastSequence : s'.lastSequence = s.lastSequence
  committed : s'.committed = s.committed

/-- What `TryLock` reads off the tracked key. -/
structure Flags (tracked : Option TrackedKeyInfo) (request : Request κ)
    (previouslyLocked lockUpgrade : Bool) : Prop where
  previouslyLocked : previouslyLocked = tracked.isSome
  lockUpgrade : lockUpgrade = true ↔ ∃ info, tracked = some info ∧ request.exclusive = true ∧ info.exclusive = false

/-- The sequence number a transaction has tracked a key at. -/
def trackedSeq (txn : Transaction κ) (key : CfKey κ) : Nat :=
  (txn.trackedLocks key).elim kMaxSequenceNumber (·.seq)

variable [DecidableEq V]

/-- A conflict check of the source's `ValidateSnapshot`. -/
def checkAt (config : Config κ V) (s : State κ V) (key : CfKey κ) (snapSeq : Nat) : CheckStatus :=
  checkKeyForConflicts (s.superVersions key.1)
    ⟨config.format, config.mergeOperator, s.lastSequence, snapSeq, key.2, false, none, kMaxSequenceNumber⟩

/-- How a key comes to be tracked at a sequence number. -/
inductive TracksAt (config : Config κ V) (s : State κ V) (txn : Transaction κ) (request : Request κ) :
    Nat → Prop where
  | unchecked (none : (if request.doValidate then txn.snapshot else none) = none) :
      TracksAt config s txn request (if trackedSeq txn request.key = kMaxSequenceNumber then s.lastSequence
        else trackedSeq txn request.key)
  | known {snapSeq : Nat} (validates : request.doValidate = true) (snapshot : txn.snapshot = some snapSeq)
      (known : trackedSeq txn request.key ≤ snapSeq) :
      TracksAt config s txn request (trackedSeq txn request.key)
  | checked {snapSeq : Nat} (validates : request.doValidate = true) (snapshot : txn.snapshot = some snapSeq)
      (checked : checkAt config s request.key snapSeq = .ok) : TracksAt config s txn request snapSeq

/-- What one step does, in terms of the lock table. -/
inductive Step (config : Config κ V) (s s' : State κ V) : Prop where
  | snapshot (t : TransactionID) (snapshot : Option Nat) (needed : Bool)
      (idle : (s.txns t).phase = .idle)
      (changes : Changes s s' t { s.txns t with snapshot := snapshot, snapshotNeeded := needed })
      (locks : SameLocks config s s') (returned : s'.returned = none)
  | skip (t : TransactionID) (request : Request κ) (idle : (s.txns t).phase = .idle)
      (skips : (s.txns t).skipConcurrencyControl = true)
      (changes : Changes s s' t (if request.readOnly then s.txns t
        else { s.txns t with batch := request.key :: (s.txns t).batch }))
      (locks : SameLocks config s s') (returned : s'.returned = some (t, request, .ok))
  | ask (t : TransactionID) (request : Request κ) (previouslyLocked lockUpgrade : Bool)
      (idle : (s.txns t).phase = .idle)
      (flags : Flags ((s.txns t).trackedLocks request.key) request previouslyLocked lockUpgrade)
      (needed : previouslyLocked = false ∨ lockUpgrade = true)
      (changes : Changes s s' t { s.txns t with phase := .acquiring request previouslyLocked lockUpgrade })
      (locks : SameLocks config s s') (returned : s'.returned = none)
  | keep (t : TransactionID) (request : Request κ) (previouslyLocked lockUpgrade : Bool) (status : TxnStatus)
      (idle : (s.txns t).phase = .idle)
      (flags : Flags ((s.txns t).trackedLocks request.key) request previouslyLocked lockUpgrade)
      (kept : status = .ok → previouslyLocked = true ∧ lockUpgrade = false)
      (changes : Changes s s' t { s.txns t with phase := .acquired request previouslyLocked lockUpgrade status })
      (locks : SameLocks config s s') (returned : s'.returned = none)
  | wait (t : TransactionID) (changes : Changes s s' t (s.txns t)) (locks : SameLocks config s s')
      (returned : s'.returned = none)
  | granted (t : TransactionID) (request : Request κ) (previouslyLocked lockUpgrade : Bool) (info : LockInfo)
      (phase : (s.txns t).phase = .acquiring request previouslyLocked lockUpgrade)
      (granted : Granted t request.exclusive (lockOf config s request.key) info)
      (table : lockOf config s' = Function.update (lockOf config s) request.key (some info))
      (calls : s'.calls = .granted t request.key :: s.calls)
      (changes : Changes s s' t { s.txns t with phase := .acquired request previouslyLocked lockUpgrade .ok })
      (returned : s'.returned = none)
  | downgraded (t : TransactionID) (request : Request κ) (trackedAtSeq : Nat) (info : LockInfo)
      (phase : (s.txns t).phase = .downgrading request trackedAtSeq)
      (granted : Granted t false (lockOf config s request.key) info)
      (table : lockOf config s' = Function.update (lockOf config s) request.key (some info))
      (calls : s'.calls = .granted t request.key :: s.calls)
      (changes : Changes s s' t ((s.txns t).finish request trackedAtSeq .ok))
      (returned : s'.returned = some (t, request, .ok))
  | gaveUp (t : TransactionID) (request : Request κ) (previouslyLocked lockUpgrade : Bool)
      (status : LockStatus) (phase : (s.txns t).phase = .acquiring request previouslyLocked lockUpgrade)
      (changes : Changes s s' t { s.txns t with
        phase := .acquired request previouslyLocked lockUpgrade (.lockFailed status) })
      (locks : SameLocks config s s') (returned : s'.returned = none)
  | stuck (t : TransactionID) (request : Request κ) (trackedAtSeq : Nat) (status : LockStatus)
      (phase : (s.txns t).phase = .downgrading request trackedAtSeq)
      (changes : Changes s s' t ((s.txns t).finish request trackedAtSeq (.lockFailed status)))
      (locks : SameLocks config s s') (returned : s'.returned = some (t, request, .lockFailed status))
  | finish (t : TransactionID) (request : Request κ) (previouslyLocked lockUpgrade : Bool)
      (status result : TxnStatus) (trackedAtSeq : Nat)
      (phase : (s.txns t).phase = .acquired request previouslyLocked lockUpgrade status)
      (ok : result = .ok → status = .ok ∧ (request.assumeTracked = true → previouslyLocked = true) ∧
        TracksAt config s (setSnapshotIfNeeded s.lastSequence (s.txns t)) request trackedAtSeq)
      (failed : result ≠ .ok → status ≠ .ok ∨ previouslyLocked = true ∨ request.assumeTracked = true)
      (changes : Changes s s' t ((setSnapshotIfNeeded s.lastSequence (s.txns t)).finish request trackedAtSeq result))
      (locks : SameLocks config s s') (returned : s'.returned = some (t, request, result))
  | downgrade (t : TransactionID) (request : Request κ) (previouslyLocked : Bool) (trackedAtSeq snapSeq : Nat)
      (phase : (s.txns t).phase = .acquired request previouslyLocked true .ok)
      (validates : request.doValidate = true)
      (snapshot : (setSnapshotIfNeeded s.lastSequence (s.txns t)).snapshot = some snapSeq)
      (above : snapSeq < trackedSeq (setSnapshotIfNeeded s.lastSequence (s.txns t)) request.key)
      (failed : checkAt config s request.key snapSeq ≠ .ok)
      (changes : Changes s s' t { setSnapshotIfNeeded s.lastSequence (s.txns t) with
        phase := .downgrading request trackedAtSeq })
      (locks : SameLocks config s s') (returned : s'.returned = none)
  | refused (t : TransactionID) (request : Request κ) (status : CheckStatus) (trackedAtSeq : Nat)
      (phase : (s.txns t).phase = .acquired request false false .ok)
      (changes : Changes s s' t ((setSnapshotIfNeeded s.lastSequence (s.txns t)).finish request trackedAtSeq
        (.checkFailed status)))
      (table : lockOf config s' = Function.update (lockOf config s) request.key
        (withoutHolder t (lockOf config s request.key)))
      (calls : s'.calls = .unlocked t request.key :: s.calls ∨
        s'.calls = s.calls ∧ lockOf config s request.key = none)
      (returned : s'.returned = some (t, request, .checkFailed status))
  | unLock (t : TransactionID) (key : CfKey κ) (idle : (s.txns t).phase = .idle)
      (changes : Changes s s' t { s.txns t with
        trackedLocks := Function.update (s.txns t).trackedLocks key none
        batch := (s.txns t).batch.filter (· ≠ key) })
      (table : lockOf config s' = Function.update (lockOf config s) key (withoutHolder t (lockOf config s key)))
      (calls : s'.calls = .unlocked t key :: s.calls ∨ s'.calls = s.calls ∧ lockOf config s key = none)
      (returned : s'.returned = none)
  | commit (t : TransactionID) (idle : (s.txns t).phase = .idle)
      (txns : s'.txns = Function.update s.txns t { s.txns t with batch := [] })
      (lastSequence : s'.lastSequence = s.lastSequence + (s.txns t).batch.length)
      (committed : s'.committed = writesOf t s.lastSequence (s.txns t).batch.reverse ++ s.committed)
      (locks : SameLocks config s s') (returned : s'.returned = none)
  | reorganize (txns : s'.txns = s.txns) (lastSequence : s'.lastSequence = s.lastSequence)
      (committed : s'.committed = s.committed) (locks : SameLocks config s s') (returned : s'.returned = none)

/-- The beginning of `TryLock`. -/
theorem tryLock_step (request : Request κ) (idle : (s.txns t).phase = .idle) :
    Step config s ({ s with returned := none }.tryLock t request) := by
  unfold State.tryLock
  dsimp only
  split
  · next skips =>
    exact .skip t request idle skips ⟨rfl, rfl, rfl⟩ ⟨rfl, rfl⟩ rfl
  · set tracked := (s.txns t).trackedLocks request.key
    have flags : Flags tracked request tracked.isSome
        (tracked.any fun info => request.exclusive && !info.exclusive) := by
      refine ⟨rfl, ?_⟩
      cases tracked <;> simp
    split
    · next needed =>
      split
      · refine .keep t request _ _ _ idle flags (fun ok => ?_) ⟨rfl, rfl, rfl⟩ ⟨rfl, rfl⟩ rfl
        cases ok
      · exact .ask t request _ _ idle flags (by simpa using needed) ⟨rfl, rfl, rfl⟩ ⟨rfl, rfl⟩ rfl
    · next kept =>
      exact .keep t request _ _ _ idle flags (fun _ => by simpa [Option.isSome_iff_ne_none] using kept) ⟨rfl, rfl, rfl⟩
        ⟨rfl, rfl⟩ rfl

/-- What `TryLock` does when it is back from the lock manager. -/
theorem validate_step (phase : (s.txns t).phase = .acquired request previouslyLocked lockUpgrade status) :
    Step config s ({ s with returned := none }.validate config t request previouslyLocked lockUpgrade status) := by
  unfold State.validate
  set txn := setSnapshotIfNeeded s.lastSequence (s.txns t)
  set s₁ : State κ V := { s with returned := none }.setTxn t txn
  have own : s₁.txns t = txn := update_self ..
  have twice (txn' : Transaction κ) : update s₁.txns t txn' = update s.txns t txn' := update_idem ..
  have finishChanges (seq : Nat) (result : TxnStatus) :
      Changes s (s₁.finish t request seq result) t (txn.finish request seq result) := by
    refine ⟨?_, rfl, rfl⟩
    rw [← twice, ← own]
    rfl
  dsimp only
  rw [show (txn.trackedLocks request.key).elim kMaxSequenceNumber (·.seq) = trackedSeq txn request.key from rfl]
  split
  · next unchecked =>
    -- nothing to validate
    refine .finish t request previouslyLocked lockUpgrade status _ _ phase ?_ ?_ (finishChanges _ _) ⟨rfl, rfl⟩ rfl
    · intro ok
      split at ok
      · cases ok
      · next assumed =>
        refine ⟨ok, fun assumes => by simpa [assumes] using assumed, ?_⟩
        exact .unchecked unchecked
    · intro failed
      split at failed
      · next assumed => exact .inr (.inr (by simp_all))
      · exact .inl failed
  · next snapSeq snapshot =>
    have validates : request.doValidate = true ∧ txn.snapshot = some snapSeq := by
      split at snapshot
      · exact ⟨by assumption, snapshot⟩
      · cases snapshot
    have notAssumed : request.assumeTracked = false := by
      by_contra assumes
      have skipped := (request.assumes (by simpa using assumes)).1
      rw [validates.1] at skipped
      cases skipped
    split
    · next failed =>
      exact .finish t request previouslyLocked lockUpgrade status status _ phase
        (fun ok => absurd ok failed) .inl (finishChanges _ _) ⟨rfl, rfl⟩ rfl
    · next ok =>
      obtain rfl : status = .ok := not_not.mp ok
      set known := trackedSeq txn request.key
      have verdict : validateSnapshot config s₁ request.key snapSeq known =
          if known ≤ snapSeq then (.ok, known) else (checkAt config s request.key snapSeq, snapSeq) := rfl
      rcases validated : validateSnapshot config s₁ request.key snapSeq known with ⟨result, seq⟩
      rw [validated] at verdict
      split
      · next passed =>
        refine .finish t request previouslyLocked lockUpgrade .ok .ok seq phase
          (fun _ => ⟨rfl, by simp [notAssumed], ?_⟩) (absurd rfl) (finishChanges _ _)
          ⟨rfl, rfl⟩ rfl
        split at verdict
        · next isKnown =>
          obtain ⟨-, rfl⟩ := Prod.mk.inj verdict
          exact .known validates.1 validates.2 isKnown
        · obtain ⟨checked, rfl⟩ := Prod.mk.inj verdict
          exact .checked validates.1 validates.2 (checked.symm.trans passed)
      · next failed =>
        split
        · next upgrade =>
          subst upgrade
          have above : snapSeq < known ∧ checkAt config s request.key snapSeq ≠ .ok := by
            split at verdict
            · exact absurd (Prod.mk.inj verdict).1 failed
            · next above => exact ⟨not_le.mp above, (Prod.mk.inj verdict).1 ▸ failed⟩
          refine .downgrade t request previouslyLocked seq snapSeq phase validates.1 validates.2 above.1 above.2
            ⟨?_, rfl, rfl⟩ ⟨rfl, rfl⟩ rfl
          exact twice _
        · next noUpgrade =>
          split
          · next new =>
            obtain rfl : lockUpgrade = false := by simpa using noUpgrade
            obtain rfl : previouslyLocked = false := by simpa using new
            have same := unLock_same config s₁ t request.key
            refine .refused t request result seq phase ?_ ?_ ?_ rfl
            · refine ⟨?_, same.lastSequence, same.committed⟩
              show update (s₁.unLock config t request.key).txns t _ = _
              rw [same.txns, own]
              exact twice _
            · exact lockOf_unLock
            · exact unLock_calls
          · next old =>
            refine .finish t request previouslyLocked lockUpgrade .ok _ _ phase (fun ok => ?_)
              (fun _ => .inr (.inl (by simpa using old))) (finishChanges _ _) ⟨rfl, rfl⟩ rfl
            cases ok

/-- **What a step can do.** -/
theorem step_sound (permanent : ∀ key info, lockOf config s key = some info → info.expirationTime = 0)
    (own : ∀ t, (s.txns t).expirationTime = 0) (stepped : step config s event = some s') :
    Step config s s' := by
  have unchanged (t : TransactionID) : s.txns = update s.txns t (s.txns t) := (update_eq_self _ _).symm
  cases event with simp only [step] at stepped
  | setSnapshot t | clearSnapshot t =>
    split at stepped <;> cases stepped
    next idle => exact .snapshot t _ _ idle ⟨rfl, rfl, rfl⟩ ⟨rfl, rfl⟩ rfl
  | setSnapshotOnNextOperation t =>
    split at stepped <;> cases stepped
    next idle => exact .snapshot t (s.txns t).snapshot _ idle ⟨rfl, rfl, rfl⟩ ⟨rfl, rfl⟩ rfl
  | tryLock _ request =>
    split at stepped <;> cases stepped
    next idle => exact tryLock_step request idle
  | acquireLocked t now =>
    split at stepped <;> cases stepped
    · next request previouslyLocked lockUpgrade phase =>
      obtain ⟨s', same, ⟨result, table, calls⟩ | ⟨result, calls, info, table, granted⟩⟩ :=
        attempt_cases (s := { s with returned := none }) request.exclusive now (fun s => s.setTxn t { s.txns t with
            phase := .acquired request previouslyLocked lockUpgrade .ok }) (permanent request.key) (own t)
      · rw [result]
        exact .wait t ⟨same.txns.trans (unchanged t), same.lastSequence, same.committed⟩
          ⟨table, calls⟩ same.returned
      · rw [result]
        refine .granted t request previouslyLocked lockUpgrade info phase granted table calls
          ⟨?_, same.lastSequence, same.committed⟩ same.returned
        rw [State.setTxn, same.txns]
    · next request trackedAtSeq phase =>
      obtain ⟨_, same, ⟨result, table, calls⟩ | ⟨result, calls, info, table, granted⟩⟩ :=
        attempt_cases (s := { s with returned := none }) false now
          (fun s => s.finish t request trackedAtSeq .ok) (permanent request.key) (own t)
      · rw [result]
        exact .wait t ⟨same.txns.trans (unchanged t), same.lastSequence, same.committed⟩
          ⟨table, calls⟩ same.returned
      · rw [result]
        refine .downgraded t request trackedAtSeq info phase granted table calls
          ⟨?_, same.lastSequence, same.committed⟩ rfl
        rw [State.finish, State.setTxn, same.txns]
  | giveUp t status =>
    split at stepped <;> cases stepped
    · next request _ _ phase =>
      exact .gaveUp t request _ _ status.1 phase ⟨rfl, rfl, rfl⟩ ⟨rfl, rfl⟩ rfl
    · next request _ phase =>
      exact .stuck t request _ status.1 phase ⟨rfl, rfl, rfl⟩ ⟨rfl, rfl⟩ rfl
  | validate =>
    split at stepped <;> cases stepped
    next phase => exact validate_step phase
  | unLock t key =>
    split at stepped <;> cases stepped
    next idle =>
      have same := unLock_same config { s.setTxn t { s.txns t with
        trackedLocks := update (s.txns t).trackedLocks key none
        batch := (s.txns t).batch.filter (· ≠ key) } with returned := none } t key
      exact .unLock t key idle ⟨same.txns, same.lastSequence, same.committed⟩
        lockOf_unLock unLock_calls same.returned
  | commit t =>
    split at stepped <;> cases stepped
    next idle => exact .commit t idle rfl rfl rfl ⟨rfl, rfl⟩ rfl
  | reorganize =>
    cases stepped
    exact .reorganize rfl rfl rfl ⟨rfl, rfl⟩ rfl

end System

/-! ## What holds in every state -/

/-- The transaction has been granted the lock and has not given it back. -/
def heldBy (t : TransactionID) (key : CfKey κ) : List (LockCall κ) → Bool
  | [] => false
  | .granted t' key' :: calls => if t' = t ∧ key' = key then true else heldBy t key calls
  | .unlocked t' key' :: calls => if t' = t ∧ key' = key then false else heldBy t key calls

/-- A shared lock has been taken for a key that is not tracked yet. -/
def Pending (phase : Phase κ) (key : CfKey κ) : Prop :=
  ∃ request, phase = .acquired request false false .ok ∧ request.key = key ∧ request.exclusive = false

/-- What a transaction in `TryLock` knows of its locks. -/
def PhaseOk (holds : CfKey κ → Bool → Prop) (txn : Transaction κ) : Prop :=
  match txn.phase with
  | .idle => True
  | .acquiring request previouslyLocked lockUpgrade =>
    Flags (txn.trackedLocks request.key) request previouslyLocked lockUpgrade ∧
      (previouslyLocked = false ∨ lockUpgrade = true)
  | .acquired request previouslyLocked lockUpgrade status =>
    Flags (txn.trackedLocks request.key) request previouslyLocked lockUpgrade ∧
      (status = .ok → previouslyLocked = false ∨ lockUpgrade = true → holds request.key request.exclusive)
  | .downgrading request _ => (txn.trackedLocks request.key).isSome ∧ holds request.key true

/-- A transaction holds what it tracks, and it tracks every shared lock it
holds. Only exclusive locks can be held without being tracked. -/
structure TxnOk (holds : CfKey κ → Bool → Prop) (txn : Transaction κ) : Prop where
  permanent : txn.expirationTime = 0
  tracked : ∀ key, (txn.trackedLocks key).isSome → ∃ x, holds key x
  shared : ∀ key, holds key false → (txn.trackedLocks key).isSome ∨ Pending txn.phase key
  phase : PhaseOk holds txn

omit [LinearOrder κ] in
theorem TxnOk.tracked_of_shared {holds : CfKey κ → Bool → Prop} {txn : Transaction κ} {key : CfKey κ}
    (ok : TxnOk holds txn) (settled : ∀ request, txn.phase ≠ .acquired request false false .ok)
    (isShared : holds key false) : (txn.trackedLocks key).isSome :=
  (ok.shared key isShared).resolve_right fun ⟨request, pending, _⟩ => settled request pending

/-! ## The end of a call -/

section Finish
variable (txn : Transaction κ) (request : Request κ) (trackedAtSeq : Nat) (status : TxnStatus)

@[simp] theorem finish_phase : (txn.finish request trackedAtSeq status).phase = .idle := by
  unfold Transaction.finish
  split
  · split <;> split <;> rfl
  · rfl

@[simp] theorem finish_expirationTime :
    (txn.finish request trackedAtSeq status).expirationTime = txn.expirationTime := by
  unfold Transaction.finish
  split
  · split <;> split <;> rfl
  · rfl

@[simp] theorem finish_snapshot : (txn.finish request trackedAtSeq status).snapshot = txn.snapshot := by
  unfold Transaction.finish
  split
  · split <;> split <;> rfl
  · rfl

theorem finish_trackedLocks : (txn.finish request trackedAtSeq status).trackedLocks =
    if status = .ok ∧ request.assumeTracked = false then
      update txn.trackedLocks request.key (some (track (txn.trackedLocks request.key)
        trackedAtSeq request.readOnly request.exclusive))
    else txn.trackedLocks := by
  unfold Transaction.finish
  by_cases ok : status = .ok <;> cases assumed : request.assumeTracked <;>
    cases readOnly : request.readOnly <;> simp [ok]

theorem finish_batch : (txn.finish request trackedAtSeq status).batch =
    if status = .ok ∧ request.readOnly = false then request.key :: txn.batch else txn.batch := by
  unfold Transaction.finish
  by_cases ok : status = .ok <;> cases assumed : request.assumeTracked <;>
    cases readOnly : request.readOnly <;> simp [ok]

/-- A transaction is in order after a call, if it holds the key that it tracks
from now on. -/
theorem TxnOk.finish {holds : CfKey κ → Bool → Prop} {txn : Transaction κ}
    (permanent : txn.expirationTime = 0) (tracked : ∀ key, (txn.trackedLocks key).isSome → ∃ x, holds key x)
    (shared : ∀ key, holds key false → (txn.trackedLocks key).isSome ∨
      status = .ok ∧ request.assumeTracked = false ∧ key = request.key)
    (here : status = .ok → ∃ x, holds request.key x) :
    TxnOk holds (txn.finish request trackedAtSeq status) := by
  refine ⟨by simpa using permanent, fun key => ?_, fun key isShared => .inl ?_, by simp [PhaseOk]⟩
  · rw [finish_trackedLocks]
    split
    · next both =>
      by_cases same : key = request.key
      · exact fun _ => same ▸ here both.1
      · rw [update_of_ne same]
        exact tracked key
    · exact tracked key
  · rw [finish_trackedLocks]
    by_cases same : key = request.key
    · split
      · rw [same, update_self]
        rfl
      · next other => exact (shared key isShared).resolve_right fun new => other ⟨new.1, new.2.1⟩
    · have old := (shared key isShared).resolve_right fun new => same new.2.2
      split
      · rwa [update_of_ne same]
      · exact old

end Finish

section Snapshot
omit [LinearOrder κ]
variable (lastSequence : Nat) (txn : Transaction κ)

@[simp] theorem setSnapshotIfNeeded_trackedLocks :
    (setSnapshotIfNeeded lastSequence txn).trackedLocks = txn.trackedLocks := by
  unfold setSnapshotIfNeeded; split <;> rfl

@[simp] theorem setSnapshotIfNeeded_expirationTime :
    (setSnapshotIfNeeded lastSequence txn).expirationTime = txn.expirationTime := by
  unfold setSnapshotIfNeeded; split <;> rfl

@[simp] theorem setSnapshotIfNeeded_batch : (setSnapshotIfNeeded lastSequence txn).batch = txn.batch := by
  unfold setSnapshotIfNeeded; split <;> rfl

end Snapshot

section Invariant
variable [DecidableEq V] {config : Config κ V} {s s' : State κ V} {t : TransactionID} {key : CfKey κ}

/-- Every lock is in order, the holders of a lock are those who were granted it,
and every transaction knows its locks. -/
structure Inv (config : Config κ V) (s : State κ V) : Prop where
  locks : ∀ key info, lockOf config s key = some info → LockOk info
  recorded : ∀ t key, (∃ x, Holds (lockOf config s) t key x) ↔ heldBy t key s.calls = true
  txns : ∀ t, TxnOk (Holds (lockOf config s) t) (s.txns t)

omit [DecidableEq V] in
/-- A step without a change of locks keeps the invariant if the transaction it
belongs to is still in order. -/
theorem Inv.own (inv : Inv config s) (txns : s'.txns = update s.txns t txn)
    (locks : SameLocks config s s') (ok : TxnOk (Holds (lockOf config s) t) txn) : Inv config s' := by
  refine ⟨by rw [locks.table]; exact inv.locks, by rw [locks.table, locks.calls]; exact inv.recorded, ?_⟩
  intro other
  rw [locks.table, txns]
  by_cases same : other = t
  · rw [same, update_self]
    exact ok
  · rw [update_of_ne same]
    exact inv.txns other

omit [DecidableEq V] in
/-- A granted lock keeps the invariant. -/
theorem Inv.grant (inv : Inv config s) (changes : Changes s s' t txn)
    {exclusive : Bool} {info : LockInfo} (granted : Granted t exclusive (lockOf config s key) info)
    (apart : exclusive = false → ¬Holds (lockOf config s) t key false)
    (table : lockOf config s' = update (lockOf config s) key (some info))
    (calls : s'.calls = .granted t key :: s.calls)
    (ok : TxnOk (Holds (update (lockOf config s) key (some info)) t) txn) : Inv config s' := by
  refine ⟨fun k found after => ?_, fun other k => ?_, fun other => ?_⟩
  · rw [table] at after
    by_cases here : k = key
    · rw [here, update_self] at after
      rw [← Option.some.inj after]
      exact granted.lockOk (inv.locks key) apart
    · rw [update_of_ne here] at after
      exact inv.locks k found after
  · rw [calls, heldBy, table]
    by_cases same : t = other ∧ key = k
    · rw [if_pos same, ← same.1, ← same.2]
      exact iff_of_true ⟨exclusive, granted.holds.mpr rfl⟩ rfl
    · rw [if_neg same, ← inv.recorded]
      by_cases who : other = t
      · have elsewhere : k ≠ key := fun here => same ⟨who.symm, here.symm⟩
        exact exists_congr fun _ => holds_update_of_ne _ elsewhere
      · rw [granted.frame who]
  · rw [changes.txns]
    by_cases same : other = t
    · rw [same, update_self, table]
      exact ok
    · rw [update_of_ne same, table, granted.frame same]
      exact inv.txns other

omit [DecidableEq V] in
/-- A lock given back keeps the invariant. -/
theorem Inv.release (inv : Inv config s) (changes : Changes s s' t txn)
    (table : lockOf config s' = update (lockOf config s) key (withoutHolder t (lockOf config s key)))
    (calls : s'.calls = .unlocked t key :: s.calls ∨ s'.calls = s.calls ∧ lockOf config s key = none)
    (ok : TxnOk (Holds (update (lockOf config s) key (withoutHolder t (lockOf config s key))) t) txn) :
    Inv config s' := by
  have locks := inv.locks key
  refine ⟨fun k found after => ?_, fun other k => ?_, fun other => ?_⟩
  · rw [table] at after
    by_cases here : k = key
    · rw [here] at after
      exact release_lockOk locks found after
    · rw [update_of_ne here] at after
      exact inv.locks k found after
  · have recorded : heldBy other k s'.calls = if t = other ∧ key = k then false else heldBy other k s.calls := by
      rcases calls with unlocked | ⟨same, free⟩
      · rw [unlocked, heldBy]
      · rw [same]
        split
        · next here =>
          rw [← here.1, ← here.2, ← Bool.not_eq_true, ← inv.recorded]
          exact fun ⟨x, holds⟩ => not_holds_of_none free holds
        · rfl
    rw [recorded, table]
    by_cases same : t = other ∧ key = k
    · rw [if_pos same, ← same.1, ← same.2]
      exact iff_of_false (fun ⟨x, holds⟩ => release_holds locks holds) (by simp)
    · rw [if_neg same, ← inv.recorded]
      by_cases who : other = t
      · have elsewhere : k ≠ key := fun here => same ⟨who.symm, here.symm⟩
        exact exists_congr fun _ => holds_update_of_ne _ elsewhere
      · rw [release_frame who]
  · rw [changes.txns]
    by_cases same : other = t
    · rw [same, update_self, table]
      exact ok
    · rw [update_of_ne same, table, release_frame same]
      exact inv.txns other

/-- **Every step keeps the invariant.** -/
theorem step_inv (inv : Inv config s) (stepped : Step config s s') : Inv config s' := by
  cases stepped with
  | snapshot t _ _ idle changes locks =>
    have ok := inv.txns t
    refine inv.own changes.txns locks ⟨ok.permanent, ok.tracked, ok.shared, ?_⟩
    simp [PhaseOk, idle]
  | skip t _ idle _ changes locks =>
    have ok := inv.txns t
    refine inv.own changes.txns locks ?_
    split
    · exact ok
    · exact ⟨ok.permanent, ok.tracked, ok.shared, by simp [PhaseOk, idle]⟩
  | ask t _ _ _ idle flags needed changes locks =>
    have ok := inv.txns t
    exact inv.own changes.txns locks ⟨ok.permanent, ok.tracked,
      fun key isShared => .inl (ok.tracked_of_shared (by simp [idle]) isShared), flags, needed⟩
  | keep t _ _ _ _ idle flags kept changes locks =>
    have ok := inv.txns t
    refine inv.own changes.txns locks ⟨ok.permanent, ok.tracked,
      fun key isShared => .inl (ok.tracked_of_shared (by simp [idle]) isShared), flags, fun isOk asked => ?_⟩
    obtain ⟨locked, noUpgrade⟩ := kept isOk
    simp [locked, noUpgrade] at asked
  | wait t changes locks => exact inv.own changes.txns locks (inv.txns t)
  | granted t request previouslyLocked lockUpgrade _ phase granted table calls changes =>
    have ok := inv.txns t
    have known := ok.phase
    rw [PhaseOk, phase] at known
    obtain ⟨flags, needed⟩ := known
    -- a shared lock is asked for only when the key is not tracked
    have untracked (isShared : request.exclusive = false) : previouslyLocked = false ∧ lockUpgrade = false := by
      have noUpgrade : lockUpgrade = false := by
        by_contra upgrade
        obtain ⟨_, -, exclusive, -⟩ := flags.lockUpgrade.mp (by simpa using upgrade)
        rw [isShared] at exclusive
        cases exclusive
      exact ⟨needed.resolve_right (by simp [noUpgrade]), noUpgrade⟩
    refine inv.grant changes granted (fun isShared holds => ?_) table calls ⟨ok.permanent, ?_, ?_, flags, ?_⟩
    · have tracked := ok.tracked_of_shared (by simp [phase]) holds
      rw [← flags.previouslyLocked, (untracked isShared).1] at tracked
      cases tracked
    · intro k isTracked
      by_cases same : k = request.key
      · rw [same]
        exact ⟨_, granted.holds.mpr rfl⟩
      · exact (ok.tracked k isTracked).imp fun _ => (holds_update_of_ne _ same).mpr
    · intro k isShared
      by_cases same : k = request.key
      · have kind := granted.holds.mp (same ▸ isShared)
        obtain ⟨locked, upgrade⟩ := untracked kind.symm
        exact .inr ⟨request, by rw [locked, upgrade], same.symm, kind.symm⟩
      · exact .inl (ok.tracked_of_shared (by simp [phase]) ((holds_update_of_ne _ same).mp isShared))
    · exact fun _ _ => granted.holds.mpr rfl
  | downgraded t request trackedAtSeq _ phase granted table calls changes =>
    have ok := inv.txns t
    have known := ok.phase
    rw [PhaseOk, phase] at known
    obtain ⟨tracked, exclusive⟩ := known
    refine inv.grant changes granted (fun _ isShared => Bool.noConfusion (isShared.unique exclusive))
      table calls (TxnOk.finish request trackedAtSeq .ok ok.permanent ?_ ?_ fun _ => ⟨false, granted.holds.mpr rfl⟩)
    · intro k isTracked
      by_cases same : k = request.key
      · exact ⟨false, same ▸ granted.holds.mpr rfl⟩
      · exact (ok.tracked k isTracked).imp fun _ => (holds_update_of_ne _ same).mpr
    · intro k isShared
      by_cases same : k = request.key
      · exact .inl (same ▸ tracked)
      · exact .inl (ok.tracked_of_shared (by simp [phase]) ((holds_update_of_ne _ same).mp isShared))
  | gaveUp t _ _ _ _ phase changes locks =>
    have ok := inv.txns t
    have known := ok.phase
    rw [PhaseOk, phase] at known
    exact inv.own changes.txns locks ⟨ok.permanent, ok.tracked,
      fun key isShared => .inl (ok.tracked_of_shared (by simp [phase]) isShared), known.1, nofun⟩
  | stuck t request trackedAtSeq _ phase changes locks =>
    have ok := inv.txns t
    exact inv.own changes.txns locks (TxnOk.finish request trackedAtSeq _ ok.permanent ok.tracked
      (fun key isShared => .inl (ok.tracked_of_shared (by simp [phase]) isShared)) nofun)
  | finish t request previouslyLocked _ _ result trackedAtSeq phase isOk failed changes locks =>
    have ok := inv.txns t
    have known := ok.phase
    rw [PhaseOk, phase] at known
    obtain ⟨flags, acquired⟩ := known
    refine inv.own changes.txns locks (TxnOk.finish request trackedAtSeq result (by simpa using ok.permanent)
      (by simpa using ok.tracked) (fun key isShared => ?_) fun done => ?_)
    · rw [setSnapshotIfNeeded_trackedLocks]
      refine (ok.shared key isShared).imp_right ?_
      rintro ⟨_, pending, isKey, kind⟩
      rw [phase] at pending
      cases pending
      have unassumed : request.assumeTracked = false := by
        by_contra assumes
        have exclusive := (request.assumes (by simpa using assumes)).2
        rw [kind] at exclusive
        cases exclusive
      refine ⟨?_, unassumed, isKey.symm⟩
      by_contra notDone
      simpa [unassumed] using failed notDone
    · obtain ⟨statusOk, -, -⟩ := isOk done
      cases locked : previouslyLocked with
      | false => exact ⟨_, acquired statusOk (.inl locked)⟩
      | true => exact ok.tracked _ (flags.previouslyLocked ▸ locked)
  | downgrade t _ _ _ _ phase _ _ _ _ changes locks =>
    have ok := inv.txns t
    have known := ok.phase
    rw [PhaseOk, phase] at known
    obtain ⟨flags, acquired⟩ := known
    obtain ⟨_, tracked, exclusive, -⟩ := flags.lockUpgrade.mp rfl
    refine inv.own changes.txns locks ⟨by simpa using ok.permanent, by simpa using ok.tracked,
      fun key isShared => .inl ?_, ?_⟩
    · rw [setSnapshotIfNeeded_trackedLocks]
      exact ok.tracked_of_shared (by simp [phase]) isShared
    · refine ⟨by simp [tracked], ?_⟩
      have holds := acquired rfl (.inr rfl)
      rwa [exclusive] at holds
  | refused t request _ trackedAtSeq phase changes table calls =>
    have ok := inv.txns t
    have known := ok.phase
    rw [PhaseOk, phase] at known
    obtain ⟨flags, -⟩ := known
    refine inv.release changes table calls (TxnOk.finish request trackedAtSeq _
      (by simpa using ok.permanent) (fun k isTracked => ?_) (fun k isShared => .inl ?_) nofun)
    · rw [setSnapshotIfNeeded_trackedLocks] at isTracked
      have different : k ≠ request.key := by
        rintro rfl
        rw [← flags.previouslyLocked] at isTracked
        cases isTracked
      exact (ok.tracked k isTracked).imp fun _ => (holds_update_of_ne _ different).mpr
    · rw [setSnapshotIfNeeded_trackedLocks]
      have different : k ≠ request.key := fun same => release_holds (inv.locks request.key) (same ▸ isShared)
      refine (ok.shared k ((holds_update_of_ne _ different).mp isShared)).resolve_right ?_
      rintro ⟨_, pending, isKey, -⟩
      rw [phase] at pending
      cases pending
      exact different isKey.symm
  | unLock t key idle changes table calls =>
    have ok := inv.txns t
    refine inv.release changes table calls ⟨ok.permanent, fun k isTracked => ?_, fun k isShared => .inl ?_,
      by simp [PhaseOk, idle]⟩
    · have different : k ≠ key := by
        rintro rfl
        simp at isTracked
      dsimp only at isTracked
      rw [update_of_ne different] at isTracked
      exact (ok.tracked k isTracked).imp fun _ => (holds_update_of_ne _ different).mpr
    · have different : k ≠ key := fun same => release_holds (inv.locks key) (same ▸ isShared)
      dsimp only
      rw [update_of_ne different]
      exact ok.tracked_of_shared (by simp [idle]) ((holds_update_of_ne _ different).mp isShared)
  | commit t idle txns _ _ locks =>
    have ok := inv.txns t
    exact inv.own txns locks ⟨ok.permanent, ok.tracked, ok.shared, by simp [PhaseOk, idle]⟩
  | reorganize txns _ _ locks =>
    exact ⟨by rw [locks.table]; exact inv.locks, by rw [locks.table, locks.calls]; exact inv.recorded,
      by rw [locks.table, txns]; exact inv.txns⟩

/-! ## Whole histories -/

/-- Nothing is locked, tracked or written, and no transaction expires. -/
structure Initial (config : Config κ V) (s : State κ V) : Prop where
  unlocked : ∀ key, lockOf config s key = none
  calls : s.calls = []
  committed : s.committed = []
  permanent : ∀ t, (s.txns t).expirationTime = 0
  idle : ∀ t, (s.txns t).phase = .idle
  untracked : ∀ t key, (s.txns t).trackedLocks key = none
  unwritten : ∀ t, (s.txns t).batch = []

omit [DecidableEq V] in
theorem Initial.inv (initial : Initial config s) : Inv config s := by
  refine ⟨fun key _ found => ?_, fun t key => ?_, fun t => ?_⟩
  · rw [initial.unlocked] at found
    cases found
  · rw [initial.calls]
    exact iff_of_false (fun ⟨x, holds⟩ => not_holds_of_none (initial.unlocked key) holds) (by simp [heldBy])
  · exact ⟨initial.permanent t, fun key tracked => by simp [initial.untracked] at tracked,
      fun key holds => absurd holds (not_holds_of_none (initial.unlocked key)),
      by simp [PhaseOk, initial.idle]⟩

/-- The state after some events, if all of them can happen. -/
def run (config : Config κ V) : State κ V → List (Event κ V) → Option (State κ V)
  | s, [] => some s
  | s, event :: events => (step config s event).bind fun s => run config s events

/-- A history of lock requests, unlocks and commits by any number of
transactions, none of which expires. -/
structure History (κ V : Type) [LinearOrder κ] [DecidableEq V] where
  config : Config κ V
  start : State κ V
  initial : Initial config start
  events : List (Event κ V)
  current : State κ V
  runs : run config start events = some current

/-- **Every run keeps the invariant.** -/
theorem run_inv (inv : Inv config s) (runs : run config s events = some s') : Inv config s' := by
  induction events generalizing s with
  | nil => exact Option.some.inj runs ▸ inv
  | cons _ _ ih =>
    obtain ⟨next, stepped, rest⟩ := Option.bind_eq_some_iff.mp runs
    refine ih (step_inv inv (step_sound ?_ ?_ stepped)) rest
    · exact fun key info found => (inv.locks key info found).permanent
    · exact fun t => (inv.txns t).permanent

end Invariant

/-- **Mutual exclusion of point locks.** After every history a key is unlocked,
or has one exclusive holder, or has shared holders, each of them once; and its
holders are exactly the transactions whose attempt was granted and who have not
given the lock back. -/
theorem point_locks_exclude [DecidableEq V] (history : History κ V) (key : CfKey κ) :
    match lockOf history.config history.current key with
    | none => ∀ t, heldBy t key history.current.calls = false
    | some info => info.txnIds ≠ [] ∧ info.txnIds.Nodup ∧ (info.exclusive = true → ∃ t, info.txnIds = [t]) ∧
        ∀ t, t ∈ info.txnIds ↔ heldBy t key history.current.calls = true := by
  have inv := run_inv history.initial.inv history.runs
  cases found : lockOf history.config history.current key with
  | none =>
    intro t
    rw [← Bool.not_eq_true, ← inv.recorded]
    exact fun ⟨x, holds⟩ => not_holds_of_none found holds
  | some info =>
    have ok := inv.locks key info found
    refine ⟨ok.held, ok.nodup, ok.single, fun _ => ?_⟩
    rw [← inv.recorded]
    simp only [holds_of_some found]
    exact ⟨fun member => ⟨_, member, rfl⟩, fun ⟨_, member, _⟩ => member⟩

end Rocksdb.TransactionLockProofs
