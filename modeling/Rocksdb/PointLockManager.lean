import Mathlib.Data.List.Nodup

/-! The point lock manager of pessimistic transactions: `AcquireLocked`,
`IsLockExpired` and `UnLockKey` of `PointLockManager`
(`utilities/transactions/lock/point/point_lock_manager.cc`). Each of them runs
under the mutex of the stripe its key hashes to, so each is one step. -/
namespace Rocksdb.PointLockManager

abbrev TransactionID : Type := Nat

abbrev ColumnFamilyId : Type := Nat

/-- `Transaction::TransactionState`. -/
inductive TransactionState where
  | STARTED
  | AWAITING_PREPARE
  | PREPARED
  | AWAITING_COMMIT
  | COMMITTED
  | AWAITING_ROLLBACK
  | ROLLEDBACK
  | LOCKS_STOLEN
  deriving DecidableEq, Repr

/-- `LockInfo`. An expiration time of zero means that the lock does not
expire. -/
structure LockInfo where
  exclusive : Bool
  txnIds : List TransactionID
  expirationTime : Nat
  deriving DecidableEq, Repr

/-- The locked keys of a `LockMapStripe`. -/
abbrev LockMapStripe (κ : Type) : Type := κ → Option LockInfo

/-- `LockMap`: the locks of one column family. `lockCnt` is only maintained
when the number of locks is limited. -/
structure LockMap (κ : Type) where
  lockMapStripes : Nat → LockMapStripe κ
  lockCnt : Int

/-- What is fixed for the lock manager. `getStripe` is `LockMap::GetStripe`. -/
structure Options (κ : Type) where
  maxNumLocks : Int
  getStripe : κ → Nat

/-- `expirable_transactions_map_` with the states of the transactions in it. -/
abbrev ExpirableTransactions : Type := TransactionID → Option TransactionState

/-- The statuses of the lock manager. -/
inductive LockStatus where
  | ok
  | mutexTimeout
  | lockTimeout
  | lockLimit
  | deadlock
  | invalidArgument (message : String)
  deriving DecidableEq, Repr

/-! ## Expiration -/

/-- `PessimisticTransactionDB::TryStealingExpiredTransactionLocks`. -/
def tryStealingExpiredTransactionLocks (expirable : ExpirableTransactions) (txnId : TransactionID) :
    Bool × ExpirableTransactions :=
  match expirable txnId with
  | none => (true, expirable)
  | some .STARTED => (true, Function.update expirable txnId (some .LOCKS_STOLEN))
  | some _ => (false, expirable)

/-- The loop of `IsLockExpired` over the holders of an expired lock. -/
def stealFrom (txnId : TransactionID) : List TransactionID → ExpirableTransactions → Bool × ExpirableTransactions
  | [], expirable => (true, expirable)
  | id :: ids, expirable =>
    if txnId = id then stealFrom txnId ids expirable
    else
      match tryStealingExpiredTransactionLocks expirable id with
      | (true, expirable) => stealFrom txnId ids expirable
      | (false, expirable) => (false, expirable)

/-- `PointLockManager::IsLockExpired`: whether the lock can be taken over, and
what to write to `expire_time`, if anything. -/
def isLockExpired (txnId : TransactionID) (info : LockInfo) (now : Nat)
    (expirable : ExpirableTransactions) : Bool × Option Nat × ExpirableTransactions :=
  if info.expirationTime = 0 then (false, some 0, expirable)
  else if now < info.expirationTime then (false, some info.expirationTime, expirable)
  else
    match stealFrom txnId info.txnIds expirable with
    | (true, expirable) => (true, none, expirable)
    | (false, expirable) => (false, some 0, expirable)

/-! ## Locking and unlocking -/

section
variable {κ : Type} [DecidableEq κ]

/-- The lock on a key. -/
def LockMap.find (options : Options κ) (map : LockMap κ) (key : κ) : Option LockInfo :=
  map.lockMapStripes (options.getStripe key) key

/-- Writes or erases the lock on a key. -/
def LockMap.set (options : Options κ) (map : LockMap κ) (key : κ) (info : Option LockInfo) : LockMap κ :=
  { map with
    lockMapStripes := Function.update map.lockMapStripes (options.getStripe key)
      (Function.update (map.lockMapStripes (options.getStripe key)) key info) }

/-- What a transaction asks for: the `LockInfo` that `TryLock` makes of it. -/
structure LockWish where
  txnId : TransactionID
  expirationTime : Nat
  exclusive : Bool

/-- The lock as the first holder gets it. -/
def LockWish.info (wish : LockWish) : LockInfo := ⟨wish.exclusive, [wish.txnId], wish.expirationTime⟩

/-- What `AcquireLocked` returns and leaves behind. -/
structure Acquired (κ : Type) where
  status : LockStatus
  map : LockMap κ
  expireTime : Option Nat
  waitIds : List TransactionID
  expirable : ExpirableTransactions

/-- `PointLockManager::AcquireLocked`. -/
def acquireLocked (options : Options κ) (map : LockMap κ) (key : κ) (now : Nat) (wish : LockWish)
    (expirable : ExpirableTransactions) : Acquired κ :=
  match map.find options key with
  | some info =>
    if info.exclusive || wish.exclusive then
      if info.txnIds = [wish.txnId] then
        -- the list contains one transaction and it is this one
        ⟨.ok, map.set options key (some { info with
          exclusive := wish.exclusive, expirationTime := wish.expirationTime }), none, [], expirable⟩
      else
        match isLockExpired wish.txnId info now expirable with
        | (true, expireTime, expirable) =>
          ⟨.ok, map.set options key (some wish.info), expireTime, [], expirable⟩
        | (false, expireTime, expirable) => ⟨.lockTimeout, map, expireTime, info.txnIds, expirable⟩
    else
      -- shared access to a shared lock
      ⟨.ok, map.set options key (some { info with
        txnIds := info.txnIds ++ [wish.txnId]
        expirationTime := max info.expirationTime wish.expirationTime }), none, [], expirable⟩
  | none =>
    if 0 < options.maxNumLocks ∧ options.maxNumLocks ≤ map.lockCnt then
      ⟨.lockLimit, map, none, [], expirable⟩
    else
      let map := map.set options key (some wish.info)
      ⟨.ok, if options.maxNumLocks ≠ 0 then { map with lockCnt := map.lockCnt + 1 } else map, none, [], expirable⟩

/-- The holders without one of them: the last one takes its place. -/
def dropHolder (txnIds : List TransactionID) (txnId : TransactionID) : List TransactionID :=
  (txnIds.set (txnIds.idxOf txnId) (txnIds.getLast?.getD txnId)).dropLast

/-- `PointLockManager::UnLockKey`. -/
def unLockKey (options : Options κ) (map : LockMap κ) (key : κ) (txnId : TransactionID) : LockMap κ :=
  match map.find options key with
  | none => map
  | some info =>
    if txnId ∈ info.txnIds then
      let map :=
        if info.txnIds.length = 1 then map.set options key none
        else map.set options key (some { info with txnIds := dropHolder info.txnIds txnId })
      if 0 < options.maxNumLocks then { map with lockCnt := map.lockCnt - 1 } else map
    else map

/-! ## What the operations do to a lock -/

variable {options : Options κ} {map : LockMap κ} {key other : κ}

@[simp] theorem find_set_same (info : Option LockInfo) : (map.set options key info).find options key = info := by
  simp [LockMap.find, LockMap.set]

theorem find_set_other (info : Option LockInfo) (different : other ≠ key) :
    (map.set options key info).find options other = map.find options other := by
  simp only [LockMap.find, LockMap.set, Function.update_apply]
  split
  · next same => rw [Function.update_of_ne different, same]
  · rfl

omit [DecidableEq κ] in
@[simp] theorem find_lockCnt (count : Int) :
    { map with lockCnt := count }.find options key = map.find options key := rfl

/-- What an attempt can do: it fails and changes no lock, or it takes a free key,
takes over the lock as its only holder, or joins a shared lock. -/
inductive Outcome (options : Options κ) (map : LockMap κ) (key : κ) (wish : LockWish) (acquired : Acquired κ) : Prop
  | failed (status : acquired.status ≠ .ok) (same : acquired.map = map)
      (limit : acquired.status = .lockLimit → options.maxNumLocks ≤ map.lockCnt)
  | free (status : acquired.status = .ok) (free : map.find options key = none)
      (room : 0 < options.maxNumLocks → map.lockCnt < options.maxNumLocks)
      (after : acquired.map = { map.set options key (some wish.info) with
        lockCnt := map.lockCnt + if options.maxNumLocks ≠ 0 then 1 else 0 })
  | taken (status : acquired.status = .ok) (held : map.find options key = some info)
      (conflict : (info.exclusive || wish.exclusive) = true)
      (fair : info.txnIds = [wish.txnId] ∨ info.expirationTime ≠ 0)
      (after : acquired.map = map.set options key (some wish.info))
  | shared (status : acquired.status = .ok) (held : map.find options key = some info)
      (both : info.exclusive = false ∧ wish.exclusive = false)
      (after : acquired.map = map.set options key (some { info with
        txnIds := info.txnIds ++ [wish.txnId]
        expirationTime := max info.expirationTime wish.expirationTime }))

theorem acquireLocked_outcome (options : Options κ) (map : LockMap κ) (key : κ) (now : Nat) (wish : LockWish)
    (expirable : ExpirableTransactions) :
    Outcome options map key wish (acquireLocked options map key now wish expirable) := by
  unfold acquireLocked
  cases held : map.find options key with
  | none =>
    dsimp only
    split
    · next full => exact .failed nofun rfl fun _ => full.2
    · next room => exact .free rfl held (by omega) (by split <;> simp [LockMap.set])
  | some info =>
    dsimp only
    split
    · next conflict =>
      split
      · next alone => exact .taken rfl held conflict (.inl alone) (by rw [LockWish.info, ← alone])
      · split
        · next expired =>
          refine .taken rfl held conflict (.inr fun permanent => ?_) rfl
          simp [isLockExpired, permanent] at expired
        · exact .failed nofun rfl nofun
    · next conflict => exact .shared rfl held (by simpa using conflict) rfl

/-- Other keys are not touched by an attempt. -/
theorem acquireLocked_other (now : Nat) (wish : LockWish) (expirable : ExpirableTransactions)
    (different : other ≠ key) :
    (acquireLocked options map key now wish expirable).map.find options other = map.find options other := by
  cases acquireLocked_outcome options map key now wish expirable with
  | failed _ same => rw [same]
  | free _ _ _ after => rw [after]; exact find_set_other _ different
  | taken _ _ _ _ after | shared _ _ _ after => rw [after]; exact find_set_other _ different

/-- An attempt that fails changes no lock. -/
theorem acquireLocked_failed (failed : (acquireLocked options map key now wish expirable).status ≠ .ok) :
    (acquireLocked options map key now wish expirable).map = map := by
  cases acquireLocked_outcome options map key now wish expirable with
  | failed _ same => exact same
  | free status | taken status | shared status => exact absurd status failed

/-- Other keys are not touched by an unlock. -/
theorem unLockKey_other (txnId : TransactionID) (different : other ≠ key) :
    (unLockKey options map key txnId).find options other = map.find options other := by
  unfold unLockKey
  split
  · rfl
  · split
    · dsimp only
      split <;> split <;> exact find_set_other _ different
    · rfl

/-- The lock without one of its holders. -/
def withoutHolder (t : TransactionID) (before : Option LockInfo) : Option LockInfo :=
  before.bind fun info =>
    if t ∈ info.txnIds then
      if info.txnIds.length = 1 then none else some { info with txnIds := dropHolder info.txnIds t }
    else some info

/-- An unlock removes one holder. -/
theorem find_unLockKey (txnId : TransactionID) :
    (unLockKey options map key txnId).find options key = withoutHolder txnId (map.find options key) := by
  unfold unLockKey
  split
  · next free => rw [free]; rfl
  · next held =>
    rw [held, withoutHolder, Option.bind_some]
    split
    · dsimp only
      split <;> split <;> simp
    · exact held

end

/-! ## Removing a holder -/

/-- A holder is removed once. -/
theorem dropHolder_perm (member : txnId ∈ txnIds) : (dropHolder txnIds txnId).Perm (txnIds.erase txnId) := by
  obtain ⟨front, back, absent, rfl, erased⟩ := List.exists_erase_eq member
  have position : (front ++ txnId :: back).idxOf txnId = front.length := by
    rw [List.idxOf_append_of_notMem absent]
    simp
  rw [erased, dropHolder, position]
  rcases List.eq_nil_or_concat back with rfl | ⟨middle, last, rfl⟩
  · simp
  · have whole : (front ++ txnId :: (middle ++ [last])).getLast? = some last := by
      rw [← List.cons_append, ← List.append_assoc]
      exact List.getLast?_concat
    rw [List.concat_eq_append, whole, List.set_append_right _ _ (Nat.le_refl _), Nat.sub_self, List.set_cons_zero,
      Option.getD_some, ← List.cons_append,
      ← List.append_assoc, List.dropLast_concat]
    exact (List.perm_append_singleton last middle).symm.append_left front

theorem withoutHolder_cases (t : TransactionID) (before : LockInfo) :
    withoutHolder t (some before) = none ∧ before.txnIds = [t] ∨
      ∃ after, withoutHolder t (some before) = some after ∧ before.txnIds ≠ [t] ∧
        after.txnIds.Perm (before.txnIds.erase t) ∧ after.exclusive = before.exclusive ∧
        after.expirationTime = before.expirationTime := by
  rw [withoutHolder, Option.bind_some]
  by_cases member : t ∈ before.txnIds
  · rw [if_pos member]
    by_cases last : before.txnIds.length = 1
    · obtain ⟨only, _⟩ := List.length_eq_one_iff.mp last
      exact .inl ⟨if_pos last, by simp_all⟩
    · exact .inr ⟨_, if_neg last, fun only => last (by simp [only]), dropHolder_perm member, rfl, rfl⟩
  · exact .inr ⟨_, if_neg member, fun only => member (by simp [only]), by rw [List.erase_of_not_mem member], rfl, rfl⟩

/-- The holders that are left. -/
theorem mem_withoutHolder (before : Option LockInfo) :
    (∃ info, withoutHolder t before = some info ∧ other ∈ info.txnIds ∧ info.exclusive = x) ↔
      ∃ info, before = some info ∧ other ∈ info.txnIds.erase t ∧ info.exclusive = x := by
  cases before with
  | none => simp [withoutHolder]
  | some before =>
    obtain ⟨gone, only⟩ | ⟨_, left, -, holders, kind, -⟩ := withoutHolder_cases t before
    · simp [gone, only]
    · simp [left, holders.mem_iff, kind]

end Rocksdb.PointLockManager
