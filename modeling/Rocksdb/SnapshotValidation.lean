import Rocksdb.TransactionLockProofs
import Rocksdb.TransactionUtilProofs

/-! Snapshot validation of pessimistic transactions. While a transaction tracks a
key nobody else can commit a write to it, so the sequence number the key was
tracked at stays a bound for the writes of others, and `ValidateSnapshot` may
rely on it. All of this ends when `TryLock` takes back an upgrade: it then
overwrites the conflict with the status of the downgrade. -/
namespace Rocksdb.SnapshotValidation
open MergeHelper PointLookup PointLockManager PessimisticTransaction TransactionUtil TransactionUtilProofs
  TransactionLockProofs Function List

variable {κ V : Type} [LinearOrder κ]

/-! ## What the database and the transactions promise -/

/-- The writes of others to a key above a sequence number. -/
def conflicts (s : State κ V) (t : TransactionID) (key : CfKey κ) (snapSeq : Nat) : List (Write κ) :=
  s.committed.filter fun write => write.key = key ∧ snapSeq < write.seq ∧ write.txnId ≠ t

/-- Every column family is stored in order and the newest entry of a key is at
least as new as each committed write to it. -/
def Stores (s : State κ V) : Prop :=
  ∀ cf, ∃ store : CheckedStore κ V, store.sv = s.superVersions cf ∧ store.lastSequence = s.lastSequence ∧
    ∀ write ∈ s.committed, write.key.1 = cf →
      ∃ entries ∈ sources store.sv, ∃ e ∈ entries, e.1.userKey = write.key.2 ∧ write.seq ≤ e.1.sequence

section Conditions
variable [DecidableEq V]

/-- A validated upgrade that cannot succeed: the transaction tracks the key with a
shared lock, at a number above its snapshot, and asks for it exclusively, and the
check of the key against the snapshot does not pass. -/
def UpgradeFails (config : Config κ V) (s : State κ V) (t : TransactionID) (request : Request κ) : Prop :=
  request.doValidate = true ∧ request.exclusive = true ∧
    ∃ info, (s.txns t).trackedLocks request.key = some info ∧ info.exclusive = false ∧
      ∃ snapSeq, (setSnapshotIfNeeded s.lastSequence (s.txns t)).snapshot = some snapSeq ∧
        snapSeq < info.seq ∧ checkAt config s request.key snapSeq ≠ .ok

/-- No transaction skips concurrency control, and no request that has its lock and
is to be validated next is an upgrade that cannot succeed. -/
structure Upright (config : Config κ V) (s : State κ V) : Prop where
  controlled : ∀ t, (s.txns t).skipConcurrencyControl = false
  upgrades : ∀ t request previouslyLocked lockUpgrade,
    (s.txns t).phase = .acquired request previouslyLocked lockUpgrade .ok → ¬UpgradeFails config s t request

end Conditions

/-- What a transaction may rely on. -/
structure Relies (holds : CfKey κ → Bool → Prop) (committed : List (Write κ)) (t : TransactionID)
    (txn : Transaction κ) : Prop where
  seqs : ∀ key info, txn.trackedLocks key = some info → ∀ write ∈ committed, write.key = key →
    info.seq < write.seq → write.txnId = t
  exclusive : ∀ key info, txn.trackedLocks key = some info → info.exclusive = true → holds key true
  batch : ∀ key ∈ txn.batch, holds key true ∧ (txn.trackedLocks key).isSome

omit [LinearOrder κ] in
/-- A transaction that tracks no other keys, and keeps its locks on those, relies on no more. -/
theorem Relies.fewer {txn' : Transaction κ} (relies : Relies holds committed t txn)
    (tracked : ∀ key info, txn'.trackedLocks key = some info →
      txn.trackedLocks key = some info ∧ (holds key true → holds' key true))
    (batch : ∀ key ∈ txn'.batch, key ∈ txn.batch ∧ (txn'.trackedLocks key).isSome) :
    Relies holds' committed t txn' where
  seqs key info found := relies.seqs key info (tracked key info found).1
  exclusive key info found exclusive := by
    obtain ⟨old, keeps⟩ := tracked key info found
    exact keeps (relies.exclusive key info old exclusive)
  batch key inBatch := by
    obtain ⟨old, isTracked⟩ := batch key inBatch
    obtain ⟨info, found⟩ := Option.isSome_iff_exists.mp isTracked
    exact ⟨(tracked key info found).2 (relies.batch key old).1, isTracked⟩

section Validity
variable [DecidableEq V] {config : Config κ V} {s s' : State κ V} {t : TransactionID}

/-- The invariant of upright histories. -/
structure Valid (config : Config κ V) (s : State κ V) : Prop where
  inv : Inv config s
  bounded : ∀ write ∈ s.committed, write.seq ≤ s.lastSequence
  relies : ∀ t, Relies (Holds (lockOf config s) t) s.committed t (s.txns t)
  returned : ∀ t request, s.returned = some (t, request, .ok) → request.doValidate = true →
    ∀ snapSeq, (s.txns t).snapshot = some snapSeq → conflicts s t request.key snapSeq = []
  settled : ∀ t request trackedAtSeq, (s.txns t).phase ≠ .downgrading request trackedAtSeq

omit [DecidableEq V] in
private theorem conflicts_eq_nil_iff : conflicts s t key snapSeq = [] ↔
    ∀ write ∈ s.committed, write.key = key → snapSeq < write.seq → write.txnId = t := by
  rw [conflicts, filter_eq_nil_iff]
  refine forall₂_congr fun _ _ => ?_
  simp

/-- A check that succeeds has seen every committed write. -/
theorem checkAt_ok (stores : Stores s) (ok : checkAt config s key snapSeq = .ok) :
    ∀ write ∈ s.committed, write.key = key → write.seq ≤ snapSeq := by
  intro write member isKey
  obtain ⟨store, sv, last, newest⟩ := stores key.1
  have checked : store.check config.format config.mergeOperator key.2 snapSeq false = .ok := by
    rw [← ok, checkAt, ← sv, ← last]
    rfl
  obtain ⟨entries, entries_mem, e, e_mem, sameKey, le⟩ := newest write member (by rw [isKey])
  exact le.trans (check_ok checked entries entries_mem e e_mem (by rw [sameKey, isKey]))

omit [DecidableEq V] in
private theorem lastSequence_lt (stores : Stores s) : s.lastSequence < kMaxSequenceNumber := by
  obtain ⟨store, -, last, -⟩ := stores 0
  exact last ▸ store.bounded

/-- A key is tracked at a number above which nobody else has written it. -/
theorem tracksAt_bound (stores : Stores s) (valid : Valid config s) (same : txn.trackedLocks = (s.txns t).trackedLocks)
    (tracks : TracksAt config s txn request seq) :
    ∀ write ∈ s.committed, write.key = request.key → seq < write.seq → write.txnId = t := by
  intro write member isKey above
  have old := valid.bounded write member
  have last := lastSequence_lt stores
  have known (below : trackedSeq txn request.key < write.seq) : write.txnId = t := by
    rw [trackedSeq, same] at below
    cases tracked : (s.txns t).trackedLocks request.key with
    | none =>
      rw [tracked, Option.elim_none] at below
      exact absurd below (by omega)
    | some info =>
      rw [tracked, Option.elim_some] at below
      exact (valid.relies t).seqs request.key info tracked write member isKey below
  cases tracks with
  | unchecked =>
    split at above
    · exact absurd above (by omega)
    · exact known above
  | known => exact known above
  | checked _ _ ok => exact absurd (checkAt_ok stores ok write member isKey) (not_le.mpr above)

omit [LinearOrder κ] in
private theorem track_exclusive (before : Option TrackedKeyInfo) (seq : Nat) (readOnly exclusive : Bool) :
    (track before seq readOnly exclusive).exclusive = ((before.getD ⟨seq, 0, 0, false⟩).exclusive || exclusive) := by
  unfold track
  dsimp only
  split <;> split <;> rfl

omit [LinearOrder κ] in
private theorem track_seq (before : Option TrackedKeyInfo) (seq : Nat) (readOnly exclusive : Bool) :
    let tracked := track before seq readOnly exclusive
    tracked.seq = seq ∨ ∃ info, before = some info ∧ tracked.seq = info.seq := by
  intro tracked
  have known : tracked.seq =
      if seq < (before.getD ⟨seq, 0, 0, false⟩).seq then seq else (before.getD ⟨seq, 0, 0, false⟩).seq := by
    unfold tracked track
    dsimp only
    split <;> split <;> rfl
  rw [known]
  split
  · exact .inl rfl
  · cases before with
    | none => exact .inl rfl
    | some info => exact .inr ⟨info, rfl, rfl⟩

omit [DecidableEq V] in
/-- A step without a change of locks and commits keeps what the transactions rely
on, if it keeps it for its own transaction. -/
theorem relies_own (valid : ∀ t, Relies (Holds (lockOf config s) t) s.committed t (s.txns t))
    (changes : Changes s s' t txn)
    (frame : ∀ other ≠ t, Holds (lockOf config s') other = Holds (lockOf config s) other)
    (own : Relies (Holds (lockOf config s') t) s.committed t txn) (other : TransactionID) :
    Relies (Holds (lockOf config s') other) s'.committed other (s'.txns other) := by
  rw [changes.committed, changes.txns]
  by_cases same : other = t
  · rw [same, update_self]
    exact own
  · rw [update_of_ne same, frame other same]
    exact valid other

omit [LinearOrder κ] in
/-- The writes of a batch are the transaction's own, to the keys of the batch,
with the next sequence numbers. -/
theorem mem_writesOf (member : write ∈ writesOf t lastSequence batch) :
    write.txnId = t ∧ write.key ∈ batch ∧ write.seq ≤ lastSequence + batch.length := by
  induction batch generalizing lastSequence with
  | nil => cases member
  | cons _ _ ih =>
    rcases mem_cons.mp member with rfl | later
    · exact ⟨rfl, by simp, by simp⟩
    · obtain ⟨own, isKey, _⟩ := ih later
      refine ⟨own, mem_cons_of_mem _ isKey, ?_⟩
      rw [length_cons]
      omega

/-- A call that returns leaves its transaction with what it relies on. -/
theorem relies_finish (stores : Stores s) (valid : Valid config s)
    (phase : (s.txns t).phase = .acquired request previouslyLocked lockUpgrade status)
    (ok : result = .ok → status = .ok ∧ (request.assumeTracked = true → previouslyLocked = true) ∧
      TracksAt config s (setSnapshotIfNeeded s.lastSequence (s.txns t)) request trackedAtSeq) :
    Relies (Holds (lockOf config s) t) s.committed t
      ((setSnapshotIfNeeded s.lastSequence (s.txns t)).finish request trackedAtSeq result) := by
  set txn := (setSnapshotIfNeeded s.lastSequence (s.txns t)).finish request trackedAtSeq result
  have relies := valid.relies t
  have known := (valid.inv.txns t).phase
  rw [PhaseOk, phase] at known
  obtain ⟨flags, acquired⟩ := known
  -- an exclusive request that succeeds leaves an exclusive lock
  have exclusively (done : result = .ok) (exclusive : request.exclusive = true) :
      Holds (lockOf config s) t request.key true := by
    by_cases asked : previouslyLocked = false ∨ lockUpgrade = true
    · exact exclusive ▸ acquired (ok done).1 asked
    · push Not at asked
      have tracked := flags.previouslyLocked
      obtain ⟨info, isTracked⟩ := Option.isSome_iff_exists.mp (tracked.symm.trans (by simpa using asked.1))
      refine relies.exclusive request.key info isTracked ?_
      by_contra isShared
      exact asked.2 (flags.lockUpgrade.mpr ⟨info, isTracked, exclusive, by simpa using isShared⟩)
  by_cases done : result = .ok
  swap
  · have same := finish_trackedLocks (setSnapshotIfNeeded s.lastSequence (s.txns t)) request trackedAtSeq result
    rw [if_neg fun both => done both.1, setSnapshotIfNeeded_trackedLocks] at same
    refine ⟨same ▸ relies.seqs, same ▸ relies.exclusive, ?_⟩
    rw [same, finish_batch, if_neg fun both => done both.1, setSnapshotIfNeeded_batch]
    exact relies.batch
  obtain ⟨-, assumed, tracks⟩ := ok done
  have tracked : ∀ k info, txn.trackedLocks k = some info → (s.txns t).trackedLocks k = some info ∨
      k = request.key ∧ info = track ((s.txns t).trackedLocks request.key) trackedAtSeq request.readOnly
        request.exclusive := by
    intro k info
    rw [finish_trackedLocks, setSnapshotIfNeeded_trackedLocks]
    split
    · by_cases same : k = request.key
      · rw [same, update_self]
        exact fun found => .inr ⟨rfl, (Option.some.inj found).symm⟩
      · rw [update_of_ne same]
        exact .inl
    · exact .inl
  refine ⟨fun k info found write member isKey above => ?_, fun k info found exclusive => ?_, fun k inBatch => ?_⟩
  · rcases tracked k info found with old | ⟨rfl, rfl⟩
    · exact relies.seqs k info old write member isKey above
    · rcases track_seq ((s.txns t).trackedLocks request.key) trackedAtSeq request.readOnly request.exclusive
        with new | ⟨before, isBefore, same⟩
      · rw [new] at above
        exact tracksAt_bound stores valid (by simp) tracks write member isKey above
      · rw [same] at above
        exact relies.seqs _ before isBefore write member isKey above
  · rcases tracked k info found with old | ⟨rfl, rfl⟩
    · exact relies.exclusive k info old exclusive
    · rw [track_exclusive, Bool.or_eq_true] at exclusive
      rcases exclusive with before | asked
      · cases isTracked : (s.txns t).trackedLocks request.key with
        | none => simp [isTracked] at before
        | some info =>
          rw [isTracked, Option.getD_some] at before
          exact relies.exclusive _ info isTracked before
      · exact exclusively done asked
  · rw [finish_batch, setSnapshotIfNeeded_batch] at inBatch
    have old (inBatch : k ∈ (s.txns t).batch) : Holds (lockOf config s) t k true ∧
        (txn.trackedLocks k).isSome := by
      obtain ⟨holds, isTracked⟩ := relies.batch k inBatch
      refine ⟨holds, ?_⟩
      rw [finish_trackedLocks, setSnapshotIfNeeded_trackedLocks]
      split
      · by_cases same : k = request.key
        · rw [same, update_self]; rfl
        · rwa [update_of_ne same]
      · exact isTracked
    split at inBatch
    · next writes =>
      rcases mem_cons.mp inBatch with rfl | inBatch
      · refine ⟨exclusively done (request.writes writes.2), ?_⟩
        rw [finish_trackedLocks, setSnapshotIfNeeded_trackedLocks]
        split
        · rw [update_self]; rfl
        · next assumes =>
          rw [← flags.previouslyLocked]
          exact assumed (by simpa [done] using assumes)
      · exact old inBatch
    · exact old inBatch

/-- **Every step of an upright history keeps what transactions rely on.** -/
theorem step_valid (stores : Stores s) (upright : Upright config s) (valid : Valid config s)
    (stepped : Step config s s') : Valid config s' := by
  have inv := step_inv valid.inv stepped
  have nothing (none : s'.returned = none) : ∀ t request, s'.returned = some (t, request, .ok) →
      request.doValidate = true → ∀ snapSeq, (s'.txns t).snapshot = some snapSeq →
        conflicts s' t request.key snapSeq = [] := by
    intro t request returned
    rw [none] at returned
    cases returned
  have boundedOf {t : TransactionID} {txn : Transaction κ} (changes : Changes s s' t txn) :
      ∀ write ∈ s'.committed, write.seq ≤ s'.lastSequence := by
    rw [changes.committed, changes.lastSequence]
    exact valid.bounded
  have reliesOf {t : TransactionID} {txn : Transaction κ} (changes : Changes s s' t txn)
      (locks : SameLocks config s s') (own : Relies (Holds (lockOf config s) t) s.committed t txn) :=
    relies_own valid.relies changes (fun other _ => by rw [locks.table]) (locks.table ▸ own)
  have settledOf {t : TransactionID} {txn : Transaction κ} (changes : Changes s s' t txn)
      (own : ∀ request trackedAtSeq, txn.phase ≠ .downgrading request trackedAtSeq) (other : TransactionID) :
      ∀ request trackedAtSeq, (s'.txns other).phase ≠ .downgrading request trackedAtSeq := by
    rw [changes.txns]
    by_cases same : other = t
    · rwa [same, update_self]
    · rw [update_of_ne same]
      exact valid.settled other
  have unlocked {t : TransactionID} {txn : Transaction κ} (changes : Changes s s' t txn)
      (locks : SameLocks config s s') (returned : s'.returned = none)
      (own : Relies (Holds (lockOf config s) t) s.committed t txn)
      (settled : ∀ request trackedAtSeq, txn.phase ≠ .downgrading request trackedAtSeq) : Valid config s' :=
    ⟨inv, boundedOf changes, reliesOf changes locks own, nothing returned, settledOf changes settled⟩
  cases stepped with
  | skip _ _ _ skips =>
    rw [upright.controlled] at skips
    cases skips
  | snapshot t snapshot needed idle changes locks returned =>
    have relies := valid.relies t
    exact unlocked changes locks returned ⟨relies.seqs, relies.exclusive, relies.batch⟩ (valid.settled t)
  | ask t request previouslyLocked lockUpgrade idle flags needed changes locks returned
  | keep t request previouslyLocked lockUpgrade status idle flags kept changes locks returned
  | gaveUp t _ _ _ _ _ changes locks returned =>
    have relies := valid.relies t
    exact unlocked changes locks returned ⟨relies.seqs, relies.exclusive, relies.batch⟩ (by simp)
  | wait t changes locks returned =>
    exact unlocked changes locks returned (valid.relies t) (valid.settled t)
  | granted t request previouslyLocked lockUpgrade _ phase granted table _ changes returned =>
    have relies := valid.relies t
    have known := (valid.inv.txns t).phase
    rw [PhaseOk, phase] at known
    obtain ⟨flags, needed⟩ := known
    -- the lock of a tracked key only becomes stronger
    have upgrades {tracked : TrackedKeyInfo} (isTracked : (s.txns t).trackedLocks request.key = some tracked) :
        request.exclusive = true := by
      have locked : previouslyLocked = true := by rw [flags.previouslyLocked, isTracked]; rfl
      obtain ⟨_, -, exclusive, -⟩ := flags.lockUpgrade.mp (needed.resolve_left (by simp [locked]))
      exact exclusive
    refine ⟨inv, boundedOf changes, relies_own valid.relies changes (fun other different => ?_)
      (relies.fewer (fun k tracked isTracked => ⟨isTracked, fun holds => ?_⟩) fun k inBatch => ?_), nothing returned,
      settledOf changes (by simp)⟩
    · rw [table]
      exact granted.frame different
    · rw [table]
      by_cases same : k = request.key
      · rw [same]
        exact granted.holds.mpr (upgrades (same ▸ isTracked)).symm
      · exact (holds_update_of_ne _ same).mpr holds
    · exact ⟨inBatch, (relies.batch k inBatch).2⟩
  | downgraded t request trackedAtSeq info phase | stuck t request trackedAtSeq status phase =>
    exact absurd phase (valid.settled _ _ _)
  | finish t request previouslyLocked lockUpgrade status result trackedAtSeq phase ok failed changes locks
      returned =>
    refine ⟨inv, boundedOf changes, reliesOf changes locks (relies_finish stores valid phase ok), ?_,
      settledOf changes (by simp)⟩
    intro t' request' returned' validates _ snapshot
    obtain ⟨rfl, same⟩ := Prod.mk.inj (Option.some.inj (returned.symm.trans returned'))
    cases same
    rw [changes.txns, update_self, finish_snapshot] at snapshot
    rw [conflicts_eq_nil_iff, changes.committed]
    intro write member isKey above
    obtain ⟨-, -, tracks⟩ := ok rfl
    refine tracksAt_bound stores valid (by simp) tracks write member isKey (lt_of_le_of_lt ?_ above)
    cases tracks with
    | unchecked none => simp [validates, snapshot] at none
    | known _ same known =>
      cases snapshot.symm.trans same
      exact known
    | checked _ same => exact (Option.some.inj (snapshot.symm.trans same)).ge
  | downgrade t request _ _ snapSeq phase validates snapshot above failed =>
    have known := (valid.inv.txns t).phase
    rw [PhaseOk, phase] at known
    obtain ⟨info, tracked, exclusive, isShared⟩ := known.1.lockUpgrade.mp rfl
    rw [trackedSeq, setSnapshotIfNeeded_trackedLocks, tracked, Option.elim_some] at above
    exact absurd ⟨validates, exclusive, info, tracked, isShared, snapSeq, snapshot, above, failed⟩
      (upright.upgrades t request _ _ phase)
  | refused t request status trackedAtSeq phase changes table _ returned =>
    have relies := valid.relies t
    have untracked : (s.txns t).trackedLocks request.key = none := by
      have known := (valid.inv.txns t).phase
      rw [PhaseOk, phase] at known
      simpa using known.1.previouslyLocked.symm
    have unchanged : ((setSnapshotIfNeeded s.lastSequence (s.txns t)).finish request trackedAtSeq
        (.checkFailed status)).trackedLocks = (s.txns t).trackedLocks := by
      rw [finish_trackedLocks, if_neg (by simp), setSnapshotIfNeeded_trackedLocks]
    refine ⟨inv, boundedOf changes, relies_own valid.relies changes (fun other different => ?_)
      (relies.fewer ?_ ?_), ?_, settledOf changes (by simp)⟩
    · rw [table]
      exact release_frame different
    · rw [unchanged, table]
      refine fun k tracked isTracked => ⟨isTracked, (holds_update_of_ne _ fun same => ?_).mpr⟩
      rw [same, untracked] at isTracked
      cases isTracked
    · rw [unchanged, finish_batch, if_neg (by simp), setSnapshotIfNeeded_batch]
      exact fun k inBatch => ⟨inBatch, (relies.batch k inBatch).2⟩
    · intro _ _ returned'
      cases returned.symm.trans returned'
  | unLock t key _ changes table _ returned =>
    have relies := valid.relies t
    refine ⟨inv, boundedOf changes, relies_own valid.relies changes (fun other different => ?_)
      (relies.fewer (fun k info found => ?_) fun k inBatch => ?_), nothing returned,
      settledOf changes (valid.settled t)⟩
    · rw [table]
      exact release_frame different
    · dsimp only at found
      by_cases same : k = key
      · rw [same, update_self] at found
        cases found
      · rw [update_of_ne same] at found
        rw [table]
        exact ⟨found, (holds_update_of_ne _ same).mpr⟩
    · obtain ⟨inBatch, different⟩ := mem_filter.mp inBatch
      refine ⟨inBatch, ?_⟩
      dsimp only
      rw [update_of_ne (by simpa using different)]
      exact (relies.batch k inBatch).2
  | commit t _ txns lastSequence committed locks returned =>
    refine ⟨inv, fun write member => ?_, fun other => ?_, nothing returned, fun other => ?_⟩
    · rw [committed] at member
      rw [lastSequence]
      rcases mem_append.mp member with new | old
      · simpa using (mem_writesOf new).2.2
      · exact (valid.bounded write old).trans (Nat.le_add_right _ _)
    · have relies := valid.relies other
      -- a key that is written is locked by its writer alone
      have untouched {key : CfKey κ} (isTracked : ((s.txns other).trackedLocks key).isSome)
          {write : Write κ} (new : write ∈ writesOf t s.lastSequence (s.txns t).batch.reverse)
          (isKey : write.key = key) : write.txnId = other := by
        obtain ⟨own, inBatch, -⟩ := mem_writesOf new
        obtain ⟨info, found, member, exclusive⟩ := ((valid.relies t).batch write.key (by simpa using inBatch)).1
        obtain ⟨_, holds⟩ := (valid.inv.txns other).tracked key isTracked
        rw [← isKey, holds_of_some found] at holds
        obtain ⟨only, single⟩ := (valid.inv.locks _ _ found).single exclusive
        rw [single, mem_singleton] at member holds
        rw [own, member, holds.1]
      have seqs : ∀ key info, (s.txns other).trackedLocks key = some info → ∀ write ∈ s'.committed,
          write.key = key → info.seq < write.seq → write.txnId = other := by
        intro key info isTracked write member isKey above
        rw [committed] at member
        rcases mem_append.mp member with new | old
        · exact untouched (by rw [isTracked]; rfl) new isKey
        · exact relies.seqs key info isTracked write old isKey above
      rw [locks.table, txns]
      by_cases same : other = t
      · rw [same, update_self]
        rw [same] at seqs relies
        exact ⟨seqs, relies.exclusive, by simp⟩
      · rw [update_of_ne same]
        exact ⟨seqs, relies.exclusive, relies.batch⟩
    · rw [txns]
      by_cases same : other = t
      · rw [same, update_self]
        exact valid.settled t
      · rw [update_of_ne same]
        exact valid.settled other
  | reorganize txns lastSequence committed locks returned =>
    refine ⟨inv, by rw [committed, lastSequence]; exact valid.bounded, ?_, nothing returned, txns ▸ valid.settled⟩
    rw [locks.table, txns, committed]
    exact valid.relies

/-! ## Whole histories -/

/-- Some property holds in every state a run goes through. -/
def Along (good : State κ V → Prop) (config : Config κ V) : State κ V → List (Event κ V) → Prop
  | s, [] => good s
  | s, event :: events => good s ∧ ∀ next, step config s event = some next → Along good config next events

theorem Along.cons {next} (now : good s) (stepped : step config s event = some next)
    (later : Along good config next events) :
    Along good config s (event :: events) := by
  refine ⟨now, fun _ same => ?_⟩
  rwa [Option.some.inj (same.symm.trans stepped)]

private theorem run_valid (valid : Valid config s) (good : Along (fun s => Stores s ∧ Upright config s) config s events)
    (runs : run config s events = some s') : Valid config s' := by
  induction events generalizing s with
  | nil => exact Option.some.inj runs ▸ valid
  | cons _ events ih =>
    obtain ⟨next, stepped, rest⟩ := Option.bind_eq_some_iff.mp runs
    obtain ⟨⟨stores, upright⟩, later⟩ := good
    refine ih (step_valid stores upright valid (step_sound ?_ ?_ stepped)) (later next stepped) rest
    · exact fun key info found => (valid.inv.locks key info found).permanent
    · exact fun t => (valid.inv.txns t).permanent

omit [DecidableEq V] in
private theorem initial_valid (initial : Initial config s) : Valid config s := by
  refine ⟨initial.inv, by simp [initial.committed], fun t => ⟨?_, ?_, ?_⟩, fun _ _ _ _ _ _ => ?_,
    fun t => ?_⟩
  · simp [initial.committed]
  · simp [initial.untracked]
  · simp [initial.unwritten]
  · simp [conflicts, initial.committed]
  · simp [initial.idle]

/-- A history with a store that keeps the newest entry of each key, in which all
transactions lock what they use and no upgrade is validated that cannot succeed. -/
structure UprightHistory (κ V : Type) [LinearOrder κ] [DecidableEq V] extends History κ V where
  upright : Along (fun s => Stores s ∧ Upright config s) config start events

end Validity

/-! ## An upgrade that hides a conflict -/
namespace Upgrade

/-- Values that are never looked into. -/
def format : ValueFormat ℕ ℕ where
  empty := 0
  parsePackedValueWithSeqno value := (value, 0)
  serializeColumns _ := .ok 0
  deserializeColumns _ := .ok []
  fetchBlob _ _ := .ok 0

def config : Config ℕ ℕ where
  options := ⟨-1, fun _ => 0⟩
  format := format
  mergeOperator := none

/-- Everything is in the active memtable. -/
def stored (entries : Entries ℕ ℕ) : SuperVersion ℕ ℕ where
  mem := ⟨⟨entries, [], none, nofun⟩, 0⟩
  imm := ⟨[], []⟩
  levels := []

/-- The key 7 has been written. -/
def written : Entries ℕ ℕ := ⟨[(⟨7, 1, .kTypeValue⟩, 0)], List.pairwise_singleton _ _, by decide⟩

def start : State ℕ ℕ where
  lockMaps := fun _ => some ⟨fun _ _ => none, 0⟩
  expirable := fun _ => none
  txns := fun _ => ⟨0, false, fun _ => none, none, false, [], .idle⟩
  lastSequence := 0
  superVersions := fun _ => stored .empty
  committed := []
  calls := []
  returned := none

/-- A lock of the key 7. -/
def lock (readOnly exclusive doValidate : Bool) (writes : readOnly = false → exclusive = true) : Request ℕ :=
  ⟨(0, 7), readOnly, exclusive, doValidate, false, writes, nofun⟩

/-- `TryLock` with a lock that is granted at once. -/
def tryLock (t : TransactionID) (request : Request ℕ) : List (Event ℕ ℕ) :=
  [.tryLock t request, .acquireLocked t 0, .validate t]

/-- Transaction 1 takes a snapshot, transaction 2 writes the key and commits, and
transaction 1 locks the key: first shared and without validation, then
exclusively with validation. -/
def events : List (Event ℕ ℕ) :=
  .setSnapshot 1 :: tryLock 2 (lock false true false fun _ => rfl) ++
    [.commit 2 fun _ => stored written, .unLock 2 (0, 7)] ++ tryLock 1 (lock true false false nofun) ++
    tryLock 1 (lock true true true nofun) ++ [.acquireLocked 1 0]

theorem stores_stored (entries : Entries ℕ ℕ)
    (superVersions : s.superVersions = fun _ => stored entries) (bounded : s.lastSequence < kMaxSequenceNumber)
    (published : ∀ e ∈ entries.list, e.1.sequence ≤ s.lastSequence)
    (newest : ∀ write ∈ s.committed,
      ∃ e ∈ entries.list, e.1.userKey = write.key.2 ∧ write.seq ≤ e.1.sequence) : Stores s := by
  intro _
  refine ⟨{
    sv := stored entries
    lastSequence := s.lastSequence
    bounded := bounded
    published := ?_
    memtablePoints := ?_
    filePoints := fun _ member => nomatch member
    sorted := fun _ member => nomatch member
    newest := pairwise_singleton _ _
    lowerBound := fun mem member e _ => ?_
    upperBound := pairwise_singleton _ _
    filesBound := fun _ _ _ member => nomatch member
    ages := fun _ member => ?_ }, by rw [superVersions], rfl, fun write member _ => ?_⟩
  · exact forall_mem_singleton.mpr published
  · exact forall_mem_singleton.mpr rfl
  · obtain rfl := mem_singleton.mp member
    exact Nat.zero_le e.1.sequence
  · obtain rfl := mem_singleton.mp member
    exact Nat.zero_le kMaxSequenceNumber
  · exact ⟨entries.list, mem_singleton_self _, newest write member⟩

theorem stores_before (superVersions : s.superVersions = start.superVersions)
    (lastSequence : s.lastSequence = 0) (committed : s.committed = []) : Stores s :=
  stores_stored .empty superVersions (by rw [lastSequence]; decide) nofun (by simp [committed])

theorem stores_after (superVersions : s.superVersions = fun _ => stored written)
    (lastSequence : s.lastSequence = 1) (committed : s.committed = [⟨(0, 7), 1, 2⟩]) : Stores s :=
  stores_stored written superVersions (by rw [lastSequence]; decide)
    (by rw [lastSequence]; decide) (by rw [committed]; simp [written])

theorem start_initial : Initial config start :=
  ⟨fun _ => rfl, rfl, rfl, fun _ => rfl, fun _ => rfl, fun _ _ => rfl, fun _ => rfl⟩

/-- A step of one transaction while the others are idle. -/
theorem along_upright {next : State ℕ ℕ} {event : Event ℕ ℕ} {events : List (Event ℕ ℕ)} {t : TransactionID}
    {txn : Transaction ℕ} (stores : Stores s) (controlled : ∀ other, (s.txns other).skipConcurrencyControl = false)
    (idle : ∀ other ≠ t, (s.txns other).phase = .idle)
    (upgrades : ∀ request previouslyLocked lockUpgrade,
      (s.txns t).phase = .acquired request previouslyLocked lockUpgrade .ok → ¬UpgradeFails config s t request)
    (stepped : step config s event = some next) (txns : next.txns = update s.txns t txn)
    (own : txn.skipConcurrencyControl = false)
    (later : (∀ other, (next.txns other).skipConcurrencyControl = false) →
      (∀ other ≠ t, (next.txns other).phase = .idle) →
        Along (fun s => Stores s ∧ Upright config s) config next events) :
    Along (fun s => Stores s ∧ Upright config s) config s (event :: events) := by
  refine .cons ⟨stores, controlled, fun other request previouslyLocked lockUpgrade phase => ?_⟩ stepped
    (later (fun other => ?_) fun other different => ?_)
  · by_cases same : other = t
    · subst same
      exact upgrades request previouslyLocked lockUpgrade phase
    · rw [idle other same] at phase
      cases phase
  · rw [txns]
    by_cases same : other = t
    · rwa [same, update_self]
    · rw [update_of_ne same]
      exact controlled other
  · rw [txns, update_of_ne different]
    exact idle other different

def history : History ℕ ℕ where
  config := config
  start := start
  initial := start_initial
  events := events
  current := (run config start events).get (by decide +kernel)
  runs := (Option.some_get _).symm

/-- Both transactions had the lock, and in the end the first one holds it, once. -/
theorem history_excludes :
    heldBy 1 (0, 7) history.current.calls = true ∧ heldBy 2 (0, 7) history.current.calls = false := by
  have excludes := point_locks_exclude history (0, 7)
  have found : lockOf history.config history.current (0, 7) = some ⟨false, [1], 0⟩ := by decide +kernel
  rw [found] at excludes
  obtain ⟨-, -, -, holders⟩ := excludes
  exact ⟨(holders 1).mp (mem_singleton_self 1),
    Bool.eq_false_iff.mpr fun held => absurd ((holders 2).mpr held) (by decide)⟩

/-- Transaction 2 writes the key and commits, and only then transaction 1 takes a
snapshot, locks the key shared and upgrades the lock. -/
def laterSnapshot : List (Event ℕ ℕ) :=
  tryLock 2 (lock false true false fun _ => rfl) ++ [.commit 2 fun _ => stored written, .unLock 2 (0, 7)] ++
    .setSnapshot 1 :: tryLock 1 (lock true false false nofun) ++ tryLock 1 (lock true true true nofun)

def upright : UprightHistory ℕ ℕ where
  config := config
  start := start
  initial := start_initial
  events := laterSnapshot
  current := (run config start laterSnapshot).get (by decide +kernel)
  runs := (Option.some_get _).symm
  upright := by
    have controlled (t : TransactionID) : (start.txns t).skipConcurrencyControl = false := rfl
    have idle (t : TransactionID) (_ : t ≠ 2) : (start.txns t).phase = .idle := rfl
    iterate 2
      refine along_upright (stores_before rfl rfl rfl) controlled idle ?_ rfl rfl rfl fun controlled idle => ?_
      · exact fun _ _ _ => nofun
    refine along_upright (stores_before rfl rfl rfl) controlled idle ?_ rfl (update_idem _ _ _) rfl
      fun controlled idle => ?_
    · rintro _ _ _ ⟨⟩ ⟨⟨⟩, -⟩
    refine along_upright (stores_before rfl rfl rfl) controlled idle ?_ rfl rfl rfl fun controlled idle => ?_
    · exact fun _ _ _ => nofun
    refine along_upright (stores_after rfl rfl rfl) controlled idle ?_ rfl rfl rfl fun controlled idle => ?_
    · exact fun _ _ _ => nofun
    -- the second transaction is done and the first one goes on
    refine along_upright (stores_after rfl rfl rfl) controlled (fun other _ => ?_) ?_ rfl rfl rfl
      fun controlled idle => ?_
    · by_cases same : other = 2
      · subst same; rfl
      · exact idle other same
    · exact fun _ _ _ => nofun
    iterate 2
      refine along_upright (stores_after rfl rfl rfl) controlled idle ?_ rfl rfl rfl fun controlled idle => ?_
      · exact fun _ _ _ => nofun
    refine along_upright (stores_after rfl rfl rfl) controlled idle ?_ rfl (update_idem _ _ _) rfl
      fun controlled idle => ?_
    · rintro _ _ _ ⟨⟩ ⟨⟨⟩, -⟩
    iterate 2
      refine along_upright (stores_after rfl rfl rfl) controlled idle ?_ rfl rfl rfl fun controlled idle => ?_
      · exact fun _ _ _ => nofun
    refine along_upright (stores_after rfl rfl rfl) controlled idle ?_ rfl (update_idem _ _ _) rfl
      fun controlled idle => ?_
    · rintro _ _ _ ⟨⟩ ⟨-, -, info, tracked, -, snapSeq, snapshot, above, -⟩
      cases tracked
      cases snapshot
      exact absurd above (by decide)
    refine ⟨stores_after rfl rfl rfl, controlled, fun other request _ _ phase => ?_⟩
    by_cases same : other = 1
    · subst same
      cases phase
    · rw [idle other same] at phase
      cases phase

end Upgrade

end Rocksdb.SnapshotValidation
