import Mathlib.Data.Finset.Card
import Mathlib.Data.List.Dedup
import Rocksdb.PointLockManager

/-! Runs of the point lock manager: what holds after any sequence of locks, upgrades,
downgrades and unlocks by many transactions.  A call comes with the time and the states of
the expirable transactions, which change in between.

`UnLockKey` lowers the lock counter of the column family also when other holders of a shared
lock remain, while joining a shared lock does not raise it.  The counter is the number of
locked keys as long as each shared lock is unlocked by its last holder only.

A shared lock has one expiration time, the largest of its holders, where zero is no
expiration: a holder that does not expire loses the lock with one that does.

`UnLock` of a tracker returns at the first column family that has been dropped, and
the locks in the families behind it stay. -/
namespace Rocksdb.PointLockManager

variable {κ : Type} [DecidableEq κ] {options : Options κ} {map : LockMap κ}
  {key : κ}

/-- A call for a key of a column family. -/
inductive Call (κ : Type) where
  | acquire (key : κ) (now : Nat) (wish : LockWish) (expirable : ExpirableTransactions)
  | unLock (key : κ) (txnId : TransactionID)

def LockMap.new : LockMap κ := ⟨fun _ _ => none, 0⟩

def call (options : Options κ) (map : LockMap κ) : Call κ → LockMap κ
  | .acquire key now wish expirable => (acquireLocked options map key now wish expirable).map
  | .unLock key txnId => unLockKey options map key txnId

/-- Every call of a run is admissible where it is made. -/
def AllAlong (options : Options κ) (Admissible : LockMap κ → Call κ → Prop) (map : LockMap κ) : List (Call κ) → Prop
  | [] => True
  | c :: calls => Admissible map c ∧ AllAlong options Admissible (call options map c) calls

variable {Admissible : LockMap κ → Call κ → Prop} {keys : Finset κ}

/-- What every admissible call preserves, a run preserves. -/
theorem AllAlong.preserves {P : LockMap κ → Prop}
    (step : ∀ map c, Admissible map c → P map → P (call options map c)) (holds : P map)
    (along : AllAlong options Admissible map calls) : P (calls.foldl (call options) map) := by
  induction calls generalizing map with
  | nil => exact holds
  | cons c _ ih => exact ih (step map c along.1 holds) along.2

/-! ## The lock limit -/

/-- These keys are locked, the counter is their number, and that is within the limit. -/
structure Counted (options : Options κ) (map : LockMap κ) (keys : Finset κ) : Prop where
  locked : ∀ key, key ∈ keys ↔ (map.find options key).isSome
  count : map.lockCnt = keys.card
  limit : map.lockCnt ≤ options.maxNumLocks

/-- Only the last holder of a lock unlocks its key. -/
def UnlocksLast (options : Options κ) (map : LockMap κ) : Call κ → Prop
  | .acquire .. => True
  | .unLock key txnId => ∀ info, map.find options key = some info → txnId ∈ info.txnIds → info.txnIds.length = 1

private theorem mem_insert_locked (locked : ∀ key, key ∈ keys ↔ (map.find options key).isSome) (info : LockInfo)
    (k : κ) :
    k ∈ insert key keys ↔ ((map.set options key (some info)).find options k).isSome := by
  by_cases here : k = key <;> simp [here, find_set_other, locked]

theorem Counted.call (limited : 0 < options.maxNumLocks) (last : UnlocksLast options map c)
    (counted : Counted options map keys) : ∃ keys, Counted options (call options map c) keys := by
  have ⟨locked, count, limit⟩ := counted
  cases c with
  | acquire key now wish expirable =>
    rw [PointLockManager.call]
    have more := @mem_insert_locked _ _ options map key keys locked
    cases acquireLocked_outcome options map key now wish expirable with
    | failed _ same => exact ⟨keys, by rwa [same]⟩
    | free _ free room after =>
      have absent : key ∉ keys := by simp [locked, free]
      rw [after, if_pos limited.ne']
      exact ⟨_, more wish.info, by simp [absent, count], room limited⟩
    | taken _ held _ _ after | shared _ held _ after =>
      have present : key ∈ keys := by simp [locked, held]
      rw [after]
      exact ⟨_, more _, by rwa [Finset.insert_eq_of_mem present], limit⟩
  | unLock key =>
    rw [PointLockManager.call, unLockKey]
    cases held : map.find options key with
    | none => exact ⟨keys, counted⟩
    | some info =>
      dsimp only
      split
      · next member =>
        have present : key ∈ keys := by simp [locked, held]
        have fewer := Finset.card_erase_add_one present
        rw [if_pos (last info held member)]
        refine ⟨keys.erase key, fun k => ?_, ?_, (Int.sub_le_self _ Int.one_nonneg).trans limit⟩
        · rw [find_lockCnt]
          by_cases here : k = key <;> simp [here, find_set_other, locked]
        · show map.lockCnt - 1 = _
          omega
      · exact ⟨keys, counted⟩

/-- **The lock limit is enforced on keys** as long as shared locks are unlocked by
their last holder only. -/
theorem lock_limit_enforced (limited : 0 < options.maxNumLocks) (calls : List (Call κ))
    (last : AllAlong options (UnlocksLast options) .new calls) :
    ∃ keys, Counted options (calls.foldl (call options) .new) keys ∧ ∀ key now wish expirable,
      (acquireLocked options (calls.foldl (call options) .new) key now wish expirable).status = .lockLimit →
        keys.card = options.maxNumLocks := by
  have start : Counted options .new ∅ := ⟨by simp [LockMap.new, LockMap.find], rfl, limited.le⟩
  obtain ⟨keys, counted⟩ := last.preserves (P := fun map => ∃ keys, Counted options map keys)
    (fun _ _ last counted => counted.choose_spec.call limited last) ⟨∅, start⟩
  refine ⟨keys, counted, fun key now wish expirable refused => ?_⟩
  rw [← counted.count]
  cases acquireLocked_outcome options (calls.foldl (call options) .new) key now wish expirable with
  | failed _ _ limit => exact le_antisymm counted.limit (limit refused)
  | free status | taken status | shared status => cases refused.symm.trans status

def oneLock : Options Nat := ⟨1, id⟩

def sharedBy (t : TransactionID) : Call Nat := .acquire 0 0 ⟨t, 0, false⟩ fun _ => none

def twoLocks : Options Nat := ⟨2, id⟩

def exclusiveBy (t : TransactionID) (key : Nat) : Call Nat := .acquire key 0 ⟨t, 0, true⟩ fun _ => none

/-- A shared lock is joined, another lock changes hands, and a third key is refused. -/
theorem lock_limit_enforced_for_two :
    let map := [sharedBy 1, sharedBy 2, exclusiveBy 3 1, .unLock 1 3, exclusiveBy 4 1].foldl (call twoLocks) .new
    map.find twoLocks 0 = some ⟨false, [1, 2], 0⟩ ∧ map.find twoLocks 1 = some ⟨true, [4], 0⟩ ∧
      ∃ keys, Counted twoLocks map keys ∧ keys.card = 2 := by
  refine ⟨by decide, by decide, ?_⟩
  obtain ⟨keys, counted, refused⟩ := @lock_limit_enforced _ _ twoLocks (by decide)
    [sharedBy 1, sharedBy 2, exclusiveBy 3 1, .unLock 1 3, exclusiveBy 4 1]
    ⟨trivial, trivial, trivial, by rintro _ ⟨⟩ _; rfl, trivial, trivial⟩
  exact ⟨keys, counted, Int.ofNat_inj.mp (refused 2 0 ⟨5, 0, true⟩ (fun _ => none) (by decide))⟩

/-- Two transactions share a lock and one of them unlocks it: the counter is back at
zero, and another key is locked beyond the limit. -/
theorem shared_unlock_uncounts :
    let map := [sharedBy 1, sharedBy 2, .unLock 0 1].foldl (call oneLock) .new
    let after := call oneLock map (.acquire 1 0 ⟨3, 0, true⟩ fun _ => none)
    map.lockCnt = 0 ∧ map.find oneLock 0 = some ⟨false, [2], 0⟩ ∧
      after.find oneLock 0 = some ⟨false, [2], 0⟩ ∧ after.find oneLock 1 = some ⟨true, [3], 0⟩ := by
  decide

/-! ## Every lock -/

def EachLock (options : Options κ) (P : LockInfo → Prop) (map : LockMap κ) : Prop :=
  ∀ key info, map.find options key = some info → P info

section Each
variable {P : LockInfo → Prop} (each : EachLock options P map)
include each

theorem EachLock.set (new : P info) : EachLock options P (map.set options key (some info)) := by
  intro k after found
  by_cases here : k = key
  · rw [here, find_set_same] at found
    exact Option.some.inj found ▸ new
  · rw [find_set_other _ here] at found
    exact each k after found

theorem EachLock.unLockKey (fewer : ∀ before after : LockInfo, after.txnIds.Perm (before.txnIds.erase t) →
      after.expirationTime = before.expirationTime → P before → P after) (key : κ) :
    EachLock options P (unLockKey options map key t) := by
  intro k info found
  by_cases here : k = key
  · subst here
    rw [find_unLockKey] at found
    cases held : map.find options k with
    | none => simp [held, withoutHolder] at found
    | some before =>
      obtain ⟨gone, -⟩ | ⟨_, left, -, holders, -, time⟩ := withoutHolder_cases t before
      · cases (held ▸ found).symm.trans gone
      · obtain rfl := Option.some.inj (left.symm.trans (held ▸ found))
        exact fewer before _ holders time (each k before held)
  · rw [unLockKey_other _ here] at found
    exact each k info found

end Each

/-! ## Locks without expiration -/

section Expiration
variable {expires : TransactionID → Nat}

/-- The holders of a lock are either all without expiration, as the lock is, or none
of them. -/
def Uniform (expires : TransactionID → Nat) (info : LockInfo) : Prop :=
  ∀ t ∈ info.txnIds, expires t = 0 ↔ info.expirationTime = 0

/-- A transaction asks with its own expiration time, and does not share a lock that
expires if it does not, or the other way round. -/
def SharesAlike (options : Options κ) (expires : TransactionID → Nat) (map : LockMap κ) : Call κ → Prop
  | .acquire key _ wish _ => wish.expirationTime = expires wish.txnId ∧ ∀ info, map.find options key = some info →
      info.exclusive = false → wish.exclusive = false → (info.expirationTime = 0 ↔ wish.expirationTime = 0)
  | .unLock .. => True

theorem SharesAlike.uniform (alike : SharesAlike options expires map c)
    (uniform : EachLock options (Uniform expires) map) : EachLock options (Uniform expires) (call options map c) := by
  cases c with
  | acquire key now wish expirable =>
    obtain ⟨own, sharing⟩ := alike
    have alone : Uniform expires wish.info := by simp [Uniform, LockWish.info, own]
    rw [PointLockManager.call]
    cases acquireLocked_outcome options map key now wish expirable with
    | failed _ same => rwa [same]
    | free _ _ _ after => exact after ▸ uniform.set alone
    | taken _ _ _ _ after => exact after ▸ uniform.set alone
    | @shared info _ held both after =>
      rw [after]
      refine uniform.set fun t member => ?_
      have same := sharing info held both.1 both.2
      rw [Nat.max_eq_zero_iff, same, and_self, own]
      rcases List.mem_append.mp member with before | joined
      · rw [uniform key info held t before, same, own]
      · rw [List.mem_singleton.mp joined]
  | unLock key txnId =>
    refine uniform.unLockKey (fun before after holders time same t member => ?_) key
    rw [time]
    exact same t (List.mem_of_mem_erase (holders.mem_iff.mp member))

/-- A transaction is among the holders of a lock. -/
def HeldBy (options : Options κ) (map : LockMap κ) (key : κ) (t : TransactionID) : Prop :=
  ∃ info, map.find options key = some info ∧ t ∈ info.txnIds

variable (permanent : expires t = 0) (uniform : EachLock options (Uniform expires) map)
  (held : HeldBy options map key t)
include permanent uniform held

/-- A request leaves the holder there, and fails if it is another's and conflicts. -/
theorem HeldBy.acquire : HeldBy options (acquireLocked options map key now wish expirable).map key t ∧
    (wish.txnId ≠ t → ∀ info, map.find options key = some info → (info.exclusive || wish.exclusive) = true →
      (acquireLocked options map key now wish expirable).status ≠ .ok) := by
  obtain ⟨info, found, member⟩ := held
  rw [found]
  cases acquireLocked_outcome options map key now wish expirable with
  | failed status same =>
    rw [same]
    exact ⟨⟨info, found, member⟩, fun _ _ _ _ => status⟩
  | free _ free => cases free.symm.trans found
  | taken _ held _ fair after =>
    -- a lock without expiration is only taken by its single holder
    obtain rfl := Option.some.inj (held.symm.trans found)
    have alone := fair.resolve_right (absurd ((uniform key _ found t member).mp permanent))
    obtain rfl : t = wish.txnId := by simpa [alone] using member
    exact ⟨⟨wish.info, by rw [after, find_set_same], .head _⟩, (absurd rfl)⟩
  | shared _ held both after =>
    obtain rfl := Option.some.inj (held.symm.trans found)
    exact ⟨⟨_, by rw [after, find_set_same], by simp [member]⟩, by simp [both]⟩

theorem HeldBy.call (kept : c ≠ .unLock key t) : HeldBy options (call options map c) key t := by
  cases c with
  | acquire k now wish expirable =>
    by_cases here : key = k
    · exact here ▸ (held.acquire permanent uniform).1
    · rwa [HeldBy, PointLockManager.call, acquireLocked_other _ _ _ here]
  | unLock k txnId =>
    by_cases here : key = k
    · obtain ⟨info, found, member⟩ := held
      subst here
      have other : t ≠ txnId := fun same => kept (same ▸ rfl)
      rw [← List.mem_erase_of_ne other] at member
      obtain ⟨after, left, still, -⟩ := (mem_withoutHolder _).mpr ⟨info, found, member, rfl⟩
      exact ⟨after, (find_unLockKey txnId).trans left, still⟩
    · rwa [HeldBy, PointLockManager.call, unLockKey_other _ here]

end Expiration

/-- **A lock without expiration is not stolen**, unless it was shared with a
transaction that expires: the holder keeps it until it unlocks it, and until then no
request of another transaction that conflicts is granted. -/
theorem permanent_lock_kept {expires : TransactionID → Nat} (permanent : expires t = 0)
    (earlier later : List (Call κ)) (before : AllAlong options (SharesAlike options expires) .new earlier)
    (held : HeldBy options (earlier.foldl (call options) .new) key t)
    (since : AllAlong options (fun map c => SharesAlike options expires map c ∧ c ≠ .unLock key t)
      (earlier.foldl (call options) .new) later) :
    let map := later.foldl (call options) (earlier.foldl (call options) .new)
    HeldBy options map key t ∧ ∀ wish : LockWish, wish.txnId ≠ t → ∀ info, map.find options key = some info →
      (info.exclusive || wish.exclusive) = true → ∀ now expirable,
        (acquireLocked options map key now wish expirable).status ≠ .ok := by
  have uniform := before.preserves (P := EachLock options (Uniform expires)) (fun _ _ => SharesAlike.uniform)
    fun _ _ found => by cases found
  obtain ⟨uniform, held⟩ := since.preserves
    (P := fun map => EachLock options (Uniform expires) map ∧ HeldBy options map key t)
    (fun _ _ alike both => ⟨alike.1.uniform both.1, both.2.call permanent both.1 alike.2⟩) ⟨uniform, held⟩
  exact ⟨held, fun wish other info found conflict now expirable =>
    (held.acquire permanent uniform).2 other info found conflict⟩

/-- Transaction 2 expires at time 100. -/
def secondExpires : ExpirableTransactions := Function.update (fun _ => none) 2 (some .STARTED)

/-- It locks a key, asks for another one too late, and loses its lock to transaction 3. -/
def expiringCalls : List (Call Nat) :=
  [.acquire 1 0 ⟨2, 100, true⟩ secondExpires, .acquire 0 200 ⟨2, 100, false⟩ secondExpires,
    .acquire 1 200 ⟨3, 0, true⟩ secondExpires]

/-- Transaction 1, which does not expire, keeps its lock meanwhile. -/
theorem permanent_lock_kept_by_one :
    let map := expiringCalls.foldl (call twoLocks) (call twoLocks .new (exclusiveBy 1 0))
    map.find twoLocks 1 = some ⟨true, [3], 0⟩ ∧ HeldBy twoLocks map 0 1 := by
  refine ⟨by decide, (@permanent_lock_kept _ _ twoLocks 0 1 (if · = 2 then 100 else 0) rfl [exclusiveBy 1 0]
    expiringCalls ⟨⟨rfl, nofun⟩, trivial⟩ ⟨_, rfl, .head _⟩
    ⟨⟨⟨rfl, nofun⟩, nofun⟩, ⟨⟨rfl, ?_⟩, nofun⟩, ⟨⟨rfl, ?_⟩, nofun⟩, trivial⟩).1⟩
  · rintro _ ⟨⟩ ⟨⟩
  · rintro _ ⟨⟩ ⟨⟩

/-- A transaction that expires joins the shared lock of one that does not: both lose
the lock when it has expired. -/
theorem shared_lock_stolen :
    let map := [sharedBy 1, .acquire 0 0 ⟨2, 100, false⟩ secondExpires].foldl (call oneLock) .new
    map.find oneLock 0 = some ⟨false, [1, 2], 100⟩ ∧
      (acquireLocked oneLock map 0 100 ⟨3, 0, true⟩ secondExpires).status = .ok ∧
      (acquireLocked oneLock map 0 100 ⟨3, 0, true⟩ secondExpires).map.find oneLock 0 = some ⟨true, [3], 0⟩ := by
  decide

/-! ## Unlocking a tracker -/

section Tracker
variable (options : Options κ) (order : List Nat → List Nat) (t : TransactionID)

/-- The keys of a column family are unlocked by stripe, in some order of the stripes. -/
def unLockKeys (keys : List κ) (map : LockMap κ) : LockMap κ :=
  (order (keys.map options.getStripe).dedup).foldl
    (fun map stripe => (keys.filter (options.getStripe · = stripe)).foldl (unLockKey options · · t) map) map

/-- The lock maps of the column families that have not been dropped. -/
abbrev LockMaps (κ : Type) : Type := ColumnFamilyId → Option (LockMap κ)

/-- `PointLockManager::UnLock` of the tracked keys, by column family in the order of
the tracker. -/
def unLock : List (ColumnFamilyId × List κ) → LockMaps κ → LockMaps κ
  | [], maps => maps
  | (cf, keys) :: families, maps =>
    match maps cf with
    -- the column family must have been dropped
    | none => maps
    | some map => unLock families (Function.update maps cf (some (unLockKeys options order t keys map)))

/-- A transaction holds a lock, exclusively or shared. -/
def HoldsLock (map : LockMap κ) (key : κ) (holder : TransactionID) (exclusive : Bool) : Prop :=
  ∃ info, map.find options key = some info ∧ holder ∈ info.txnIds ∧ info.exclusive = exclusive

/-- It does so in a column family that exists. -/
def HoldsIn (maps : LockMaps κ) (cf : ColumnFamilyId) (key : κ) (holder : TransactionID) (exclusive : Bool) : Prop :=
  ∃ map, maps cf = some map ∧ HoldsLock options map key holder exclusive

/-- No transaction is entered twice in a lock. -/
def Once (map : LockMap κ) : Prop := EachLock options (·.txnIds.Nodup) map

variable {options order} {maps : LockMaps κ}

theorem unLockKey_holds (once : Once options map) (key : κ) :
    Once options (unLockKey options map key t) ∧ ∀ k holder x,
      HoldsLock options (unLockKey options map key t) k holder x ↔
        HoldsLock options map k holder x ∧ ¬(holder = t ∧ k = key) := by
  refine ⟨once.unLockKey (fun _ _ holders _ nodup => holders.nodup_iff.mpr (nodup.erase t)) key, ?_⟩
  intro k holder x
  unfold HoldsLock
  by_cases here : k = key
  · subst here
    rw [find_unLockKey, mem_withoutHolder]
    constructor
    · rintro ⟨info, found, member, kind⟩
      obtain ⟨other, member⟩ := (once k info found).mem_erase_iff.mp member
      exact ⟨⟨info, found, member, kind⟩, fun both => other both.1⟩
    · rintro ⟨⟨info, found, member, kind⟩, other⟩
      exact ⟨info, found, (List.mem_erase_of_ne fun same => other ⟨same, rfl⟩).mpr member, kind⟩
  · simp [unLockKey_other _ here, here]

variable (walks : ∀ stripes, (order stripes).Perm stripes)
include walks

theorem unLockKeys_holds (once : Once options map) (keys : List κ) :
    Once options (unLockKeys options order t keys map) ∧ ∀ k holder x,
      HoldsLock options (unLockKeys options order t keys map) k holder x ↔
        HoldsLock options map k holder x ∧ ¬(holder = t ∧ k ∈ keys) := by
  set stripes := order (keys.map options.getStripe).dedup with stripes_eq
  have walk : ∀ k, k ∈ keys ↔ k ∈ stripes.flatMap fun stripe => keys.filter (options.getStripe · = stripe) := by
    simp only [stripes_eq, List.mem_flatMap, (walks _).mem_iff, List.mem_filter, List.mem_dedup, List.mem_map]
    grind
  simp only [unLockKeys, ← List.foldl_flatMap, walk]
  generalize stripes.flatMap _ = keys
  induction keys generalizing map with
  | nil => simpa using once
  | cons key keys ih =>
    obtain ⟨once, holds⟩ := unLockKey_holds t once key
    obtain ⟨once, rest⟩ := ih once
    refine ⟨once, fun k holder x => ?_⟩
    rw [List.foldl_cons, rest, holds, List.mem_cons]
    tauto

variable (once : ∀ cf map, maps cf = some map → Once options map)
include once

/-- The locks released are those in the families before the first dropped one. -/
theorem unLock_holds (families : List (ColumnFamilyId × List κ)) :
    HoldsIn options (unLock options order t families maps) cf key holder x ↔ HoldsIn options maps cf key holder x ∧
      ¬(holder = t ∧ ∃ keys, (cf, keys) ∈ families.takeWhile (fun family => (maps family.1).isSome) ∧ key ∈ keys) := by
  induction families generalizing maps with
  | nil => simp [unLock]
  | cons family families ih =>
    obtain ⟨unlocked, keys⟩ := family
    cases found : maps unlocked with
    | none => simp [unLock, found]
    | some map =>
      obtain ⟨once', holds⟩ := unLockKeys_holds t walks (once _ _ found) keys
      have exist : ∀ cf, (Function.update maps unlocked (some (unLockKeys options order t keys map)) cf).isSome =
          (maps cf).isSome := fun cf => by by_cases here : cf = unlocked <;> simp [here, found]
      simp only [unLock, found, List.takeWhile_cons, Option.isSome_some, if_true, List.mem_cons]
      rw [ih]
      · simp only [exist]
        by_cases here : cf = unlocked
        · subst here
          simp [HoldsIn, found, holds, or_and_right, exists_or]
          tauto
        · simp [HoldsIn, here]
      · intro cf map
        by_cases here : cf = unlocked
        · subst here
          rw [Function.update_self]
          exact fun found => Option.some.inj found ▸ once'
        · simpa [here] using once cf map

end Tracker

end Rocksdb.PointLockManager
