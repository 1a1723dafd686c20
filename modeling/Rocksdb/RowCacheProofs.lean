import Rocksdb.RowCache
import Rocksdb.Lib.SortedLists

/-! When the row cache is transparent: a log replays like a fresh read as long as the lookups
that share it see the same entries and none of them stops within the operands. A lookup that
stops early leaves a log that is too short for others. -/
namespace Rocksdb.RowCache
open Coding Lib.LittleEndian Lib.SortedLists GetContext List

variable {κ : Type}

/-! ## Where a lookup stops -/

/-- A lookup that takes all operands down to a base value. -/
structure Complete (l : Lookup κ) : Prop where
  shouldMerge : l.doMerge = true → l.mergeOperator.isSome = true → ∀ operands, l.shouldMerge operands = false
  continueCb : ∀ continueCb, l.continueCb = some continueCb → ∀ value, continueCb value = true

namespace GetContext
variable (l : Lookup κ) (ctx : GetContext)

theorem withBlobValue_more (blobIndex : Bytes) (use : GetContext → Bytes → GetContext) :
    (ctx.withBlobValue l blobIndex use).more = false := by
  unfold withBlobValue
  split <;> rfl

private theorem saveFirst_more (type : ValueType) (value : Bytes) : (ctx.saveFirst l type value).more = false := by
  unfold saveFirst
  split
  · split
    · rfl
    · split
      · split <;> rfl
      · rfl
  · split
    · exact withBlobValue_more l _ _ _
    · rfl
    · rfl

private theorem saveBase_more (type : ValueType) (value : Bytes) : (ctx.saveBase l type value).more = false := by
  unfold saveBase
  split
  · exact withBlobValue_more l _ _ _
  · rfl
  · rfl

private theorem saveAnyValue_more (type : ValueType) (value : Bytes) : (ctx.saveAnyValue l type value).more = false := by
  unfold saveAnyValue
  split
  · rfl
  · dsimp only
    split
    · exact saveFirst_more l _ _ _
    · exact saveBase_more l _ _ _
    · rfl

private theorem saveOperand_eq (complete : Complete l) (value : Bytes) :
    ctx.saveOperand l value = ⟨true, .ok (), { ctx with state := .kMerge }.pushOperand value⟩ := by
  unfold saveOperand
  rw [if_neg fun ⟨doMerge, operator, asks⟩ => by simp [complete.shouldMerge doMerge operator] at asks, if_neg]
  cases given : l.continueCb with
  | none => simp
  | some continueCb => simp [complete.continueCb continueCb given]

/-- A complete lookup goes on exactly after operands. -/
theorem saveType_more (complete : Complete l) (type : ValueType) (value : Bytes) :
    (ctx.saveType l type value).more = decide (type = .kTypeMerge) := by
  cases type with
  | kTypeMerge => exact congrArg Saved.more (saveOperand_eq l ctx complete value)
  | kTypeValue | kTypeValuePreferredSeqno | kTypeBlobIndex | kTypeWideColumnEntity =>
    exact saveAnyValue_more l ctx _ value
  | _ => rfl

end GetContext

variable [LinearOrder κ]

/-! ## Logs -/

/-- A log as it is stored. -/
def encodeLog (items : List (ValueType × Bytes)) : Bytes :=
  items.flatMap fun item => UInt8.ofNat item.1.toNat :: putLengthPrefixedSlice item.2

theorem encodeLog_cons (type : ValueType) (value : Bytes) (items : List (ValueType × Bytes)) :
    encodeLog ((type, value) :: items) =
      UInt8.ofNat type.toNat :: (putLengthPrefixedSlice value ++ encodeLog items) := by
  rfl

private theorem typeOfByte_toNat (type : ValueType) : typeOfByte (UInt8.ofNat type.toNat) = some type := by
  cases type <;> decide

/-- The calls of `SaveValue` for visible entries. -/
def saveItems (l : Lookup κ) : List (ValueType × Bytes) → GetContext → Looked
  | [], ctx => ⟨.ok (), ctx⟩
  | (type, value) :: rest, ctx =>
    match (ctx.saveType l type value).readStatus with
    | .error failure => ⟨.error failure, (ctx.saveType l type value).ctx⟩
    | .ok () => saveItems l rest (ctx.saveType l type value).ctx

variable {l : Lookup κ}

theorem saveValue_of_visible (key : ikey.userKey = l.key) (visible : checkCallback l ikey.sequence = true)
    (value : Bytes) (ctx : GetContext) (log : Option Bytes) :
    ctx.saveValue l ikey value log = (ctx.saveType l ikey.type value, appendToReplayLog log ikey.type value) := by
  rw [saveValue, if_neg (not_not.mpr key), visible]
  rfl

/-- A log is replayed as it was recorded. -/
theorem replay_encodeLog (visible : checkCallback l seqNo = true) (items : List (ValueType × Bytes))
    (small : ∀ item ∈ items, item.2.length < 2 ^ 32) (ctx : GetContext) :
    replayGetContextLog l seqNo (encodeLog items) ctx = some (saveItems l items ctx) := by
  induction items generalizing ctx with
  | nil => rw [encodeLog, flatMap_nil, replayGetContextLog, saveItems]
  | cons item _ ih =>
    obtain ⟨type, value⟩ := item
    obtain ⟨here, behind⟩ := forall_mem_cons.mp small
    rw [encodeLog_cons, replayGetContextLog, saveItems]
    split
    · next isType slice =>
      cases (typeOfByte_toNat type).symm.trans isType
      cases (getLengthPrefixedSlice_put here _).symm.trans slice
      rw [saveValue_of_visible rfl visible]
      dsimp only
      cases (ctx.saveType l type value).readStatus with
      | error => rfl
      | ok => exact ih behind _
    · next failed => exact absurd (getLengthPrefixedSlice_put here _) (failed _ _ _ (typeOfByte_toNat type))

/-- The entries that a complete lookup of the key takes in. -/
def taken (visible : Nat → Bool) (key : κ) : List (InternalKey κ × Bytes) → List (ValueType × Bytes)
  | [] => []
  | (ikey, value) :: rest =>
    if ikey.userKey ≠ key then []
    else if !visible ikey.sequence then taken visible key rest
    else (ikey.type, value) :: if ikey.type = .kTypeMerge then taken visible key rest else []

variable {visible : Nat → Bool}

private theorem mem_of_mem_taken {key : κ} {entries : List (InternalKey κ × Bytes)}
    {item : ValueType × Bytes} (member : item ∈ taken visible key entries) :
    ∃ ikey, (ikey, item.2) ∈ entries := by
  induction entries with
  | nil => cases member
  | cons entry rest ih =>
    obtain ⟨ikey, value⟩ := entry
    rw [taken] at member
    split at member
    · cases member
    · have later (inRest : item ∈ taken visible key rest) : ∃ ikey', (ikey', item.2) ∈ (ikey, value) :: rest := by
        obtain ⟨ikey', inside⟩ := ih inRest
        exact ⟨ikey', mem_cons_of_mem _ inside⟩
      split at member
      · exact later member
      · rcases mem_cons.mp member with rfl | behind
        · exact ⟨ikey, mem_cons_self⟩
        · split at behind
          · exact later behind
          · cases behind

/-- A complete lookup in the file takes in those entries, and its log holds them. -/
theorem saveAll_eq (complete : Complete l) (entries : List (InternalKey κ × Bytes))
    (agrees : ∀ e ∈ entries, e.1.userKey = l.key → checkCallback l e.1.sequence = visible e.1.sequence)
    (ctx : GetContext) (log : Option Bytes) :
    (saveAll l entries ctx log).1 = saveItems l (taken visible l.key entries) ctx ∧
      ((saveAll l entries ctx log).1.status = .ok () →
        (saveAll l entries ctx log).2 = log.map (· ++ encodeLog (taken visible l.key entries))) := by
  induction entries generalizing ctx log with
  | nil => exact ⟨rfl, fun _ => by cases log <;> simp [saveAll, taken, encodeLog]⟩
  | cons entry _ ih =>
    obtain ⟨ikey, value⟩ := entry
    obtain ⟨here, behind⟩ := forall_mem_cons.mp agrees
    rw [saveAll, taken]
    by_cases isKey : ikey.userKey = l.key
    · rw [if_neg (not_not.mpr isKey), ← here isKey]
      cases shown : checkCallback l ikey.sequence with
      | false =>
        have skipped : ctx.saveValue l ikey value log = (⟨true, .ok (), ctx⟩, log) := by
          rw [saveValue, if_neg (not_not.mpr isKey), shown]
          rfl
        rw [skipped]
        exact ih behind ctx log
      | true =>
        rw [saveValue_of_visible isKey shown]
        dsimp only
        rw [Bool.not_true, if_neg Bool.false_ne_true, saveItems, saveType_more l ctx complete]
        cases (ctx.saveType l ikey.type value).readStatus with
        | error => exact ⟨rfl, nofun⟩
        | ok =>
          by_cases operand : ikey.type = .kTypeMerge
          · rw [decide_eq_true operand, if_pos rfl, if_pos operand]
            obtain ⟨looked, logged⟩ := ih behind (ctx.saveType l ikey.type value).ctx
              (appendToReplayLog log ikey.type value)
            refine ⟨looked, fun isOk => (logged isOk).trans ?_⟩
            rw [encodeLog_cons]
            cases log <;> simp [appendToReplayLog]
          · rw [decide_eq_false operand, if_neg Bool.false_ne_true, if_neg operand]
            refine ⟨rfl, fun _ => ?_⟩
            cases log <;> simp [appendToReplayLog, encodeLog]
    · have stopped : ctx.saveValue l ikey value log = (⟨false, .ok (), ctx⟩, log) := if_pos isKey
      rw [stopped, if_pos isKey]
      exact ⟨rfl, fun _ => by cases log <;> simp [encodeLog]⟩

/-! ## The cache -/

/-- The entries of a key that a lookup with this sequence number in its cache key reads. -/
def seekAt (table : Table κ) (seqNo : Nat) (key : κ) : List (InternalKey κ × Bytes) :=
  if seqNo = 0 then table.entries.dropWhile (·.1.userKey < key)
  else table.entries.dropWhile (·.1 < ⟨key, seqNo - 1, kValueTypeForSeek⟩)

/-- What the callers of `TableCache::Get` promise, and when its cache can be trusted: the lookup takes in all operands,
it sees the same entries as the others, and it sees the sequence number that replaces those of the entries. -/
structure Regular (table : Table κ) (visible : Nat → Bool) (l : Lookup κ) : Prop where
  current : l.snapshot = none → table.largestSeqno ≤ l.sequence
  atSnapshot : ∀ snapshot, l.snapshot = some snapshot → l.callback = none → l.sequence = snapshot
  complete : Complete l
  agrees : ∀ e ∈ table.entries, e.1.userKey = l.key → e.1.sequence ≤ l.sequence →
    GetContext.checkCallback l e.1.sequence = visible e.1.sequence
  replays : GetContext.checkCallback l (cacheEntrySeqNo l table - 1) = true

section Regular
variable {table : Table κ} {visible : Nat → Bool}

theorem Regular.cacheEntrySeqNo_cases (regular : Regular table visible l) :
    cacheEntrySeqNo l table = l.sequence + 1 ∨ cacheEntrySeqNo l table = 0 ∧ table.largestSeqno ≤ l.sequence := by
  unfold cacheEntrySeqNo
  split
  · next none => exact .inr ⟨rfl, regular.current none⟩
  · next snapshot given =>
    split
    · exact .inl (Nat.add_comm _ _)
    · next late =>
      obtain ⟨noCallback, _⟩ := not_or.mp late
      have sequence := regular.atSnapshot snapshot given (by simpa using noCallback)
      exact .inr ⟨rfl, by omega⟩

/-- The key of the cache decides what is read. -/
theorem Regular.seek_eq (regular : Regular table visible l) :
    table.entries.dropWhile (·.1 < ⟨l.key, l.sequence, kValueTypeForSeek⟩) =
      seekAt table (cacheEntrySeqNo l table) l.key := by
  rcases regular.cacheEntrySeqNo_cases with own | ⟨all, newest⟩
  · rw [own, seekAt, if_neg (Nat.succ_ne_zero _), Nat.add_sub_cancel]
  · rw [all, seekAt, if_pos rfl]
    refine dropWhile_congr fun e member => decide_eq_decide.mpr ?_
    rw [InternalKey.lt_iff]
    refine or_iff_left fun ⟨_, newer⟩ => ?_
    have old := (table.sequences e member).trans newest
    have type := table.types e member
    rcases pack_lt_iff.mp newer with later | ⟨_, larger⟩
    · exact absurd later (Nat.not_lt.mpr old)
    · exact absurd larger (Nat.not_lt.mpr type)

/-- What a regular lookup finds in the file. -/
theorem Regular.tableGet_eq (regular : Regular table visible l) (passes : table.filter l.key = true) (ctx : GetContext)
    (log : Option Bytes) :
    (tableGet l table ctx log).1 =
        saveItems l (taken visible l.key (seekAt table (cacheEntrySeqNo l table) l.key)) ctx ∧
      ((tableGet l table ctx log).1.status = .ok () → (tableGet l table ctx log).2 =
        log.map (· ++ encodeLog (taken visible l.key (seekAt table (cacheEntrySeqNo l table) l.key)))) := by
  rw [tableGet, if_pos passes, ← regular.seek_eq]
  refine saveAll_eq regular.complete _ (fun e member sameKey => ?_) ctx log
  have notBefore : ¬ e.1 < ⟨l.key, l.sequence, kValueTypeForSeek⟩ := by
    have left := not_of_mem_dropWhile table.sorted (fun _ _ less before => ?_) member
    · simpa using left
    · exact decide_eq_true (less.trans (of_decide_eq_true before))
  refine regular.agrees e ((dropWhile_suffix _).subset member) sameKey ?_
  exact InternalKey.sequence_le_of_le (not_lt.mp notBefore) sameKey.symm

/-- Every log holds the entries that a lookup with its key takes in. -/
def Stored (table : Table κ) (visible : Nat → Bool) (cache : Cache κ) : Prop :=
  ∀ seqNo key log, cache (seqNo, key) = some log →
    table.filter key = true ∧ log = encodeLog (taken visible key (seekAt table seqNo key))

private theorem taken_small (table : Table κ) (visible : Nat → Bool) (seqNo : Nat) (key : κ) :
    ∀ item ∈ taken visible key (seekAt table seqNo key), item.2.length < 2 ^ 32 := by
  intro item member
  obtain ⟨ikey, inside⟩ := mem_of_mem_taken member
  refine table.small (ikey, item.2) ?_
  rw [seekAt] at inside
  split at inside
  · exact (dropWhile_suffix _).subset inside
  · exact (dropWhile_suffix _).subset inside

/-- One lookup through the cache. -/
theorem get_eq (stored : Stored table visible cache) (regular : Regular table visible l) (keep : Bool)
    (ctx : GetContext) :
    ∃ cache', get l table keep cache ctx = some ((tableGet l table ctx none).1, cache') ∧
      Stored table visible cache' := by
  rw [get]
  split
  · exact ⟨cache, rfl, stored⟩
  · dsimp only
    split
    · next log hit =>
      obtain ⟨passes, rfl⟩ := stored _ _ _ hit
      rw [replay_encodeLog regular.replays _ (taken_small table visible _ _), ← (regular.tableGet_eq passes ctx none).1]
      exact ⟨cache, rfl, stored⟩
    · by_cases passes : table.filter l.key = true
      · obtain ⟨direct, -⟩ := regular.tableGet_eq passes ctx none
        obtain ⟨looked, logged⟩ := regular.tableGet_eq passes ctx (some [])
        refine ⟨_, by rw [direct, ← looked], ?_⟩
        split
        · next kept =>
          intro seqNo key log found
          rw [Function.update_apply] at found
          split at found
          · next same =>
            cases same
            cases found
            refine ⟨passes, ?_⟩
            rw [logged kept.1]
            rfl
          · exact stored seqNo key log found
        · exact stored
      · have nothing (log : Option Bytes) : tableGet l table ctx log = (⟨.ok (), ctx⟩, log) := if_neg passes
        rw [nothing, nothing]
        refine ⟨_, rfl, ?_⟩
        exact stored

end Regular

/-- The lookups among the events. -/
def lookups (events : List (Event κ)) : List (Lookup κ) :=
  events.filterMap fun
    | .lookup l _ _ _ _ => some l
    | .evict _ _ => none

private theorem run_eq (events : List (Event κ)) (cache : Cache κ) (stored : Stored table visible cache)
    (regular : ∀ l ∈ lookups events, Regular table visible l) :
    run table events cache = some (runWithout table events) := by
  induction events generalizing cache with
  | nil => rfl
  | cons event _ ih =>
    cases event with
    | lookup _ keep state operands isBlobIndex =>
      obtain ⟨here, behind⟩ := forall_mem_cons.mp regular
      obtain ⟨cache', looked, stored'⟩ := get_eq stored here keep (.new state operands isBlobIndex)
      rw [run, looked, runWithout]
      dsimp only [Option.bind_eq_bind, Option.bind_some]
      rw [ih cache' stored' behind]
      rfl
    | evict =>
      refine ih _ (fun seqNo' key' log found => ?_) regular
      rw [Function.update_apply] at found
      split at found
      · cases found
      · exact stored seqNo' key' log found

/-- **The row cache is transparent for complete lookups.** If every lookup takes in all operands of its key and the
lookups see the same entries, each of them ends as it would without the cache, whatever the cache keeps or drops. -/
theorem row_cache_is_transparent (table : Table κ) (visible : Nat → Bool) (events : List (Event κ))
    (regular : ∀ l ∈ lookups events, Regular table visible l) :
    run table events (fun _ => none) = some (runWithout table events) :=
  run_eq events _ (fun _ _ _ found => by cases found) regular

/-! ## Lookups that stop early -/

/-- Two operands over a value. -/
def twoOperands : Table Nat where
  entries := [(⟨1, 3, .kTypeMerge⟩, [30]), (⟨1, 2, .kTypeMerge⟩, [20]), (⟨1, 1, .kTypeValue⟩, [10])]
  largestSeqno := 3
  filter _ := true
  sorted := by decide
  types := by decide
  sequences := by decide
  noFalseNegatives := by decide
  small := by decide

/-- A get of the key with an operator that puts the operands together, and asks to merge `limit` of them. -/
def getKey (limit : Nat) (callback : Option (Nat → Bool)) : Lookup Nat where
  format :=
    ⟨[], fun value => (value, 0), fun columns => .ok (columns.flatMap Prod.snd), fun value => .ok [([], value)],
      fun _ value => .ok value⟩
  mergeOperator :=
    some ⟨fun _ existing operands =>
      .newValue ((match existing with | .value value => value | _ => []) ++ operands.flatten), fun _ _ => none, false⟩
  shouldMerge operands := limit ≤ operands.length
  continueCb := none
  fetchBlob _ value := .ok value
  target := some .value
  doMerge := true
  key := 1
  sequence := 3
  snapshot := none
  callback
  needToReadSequence := false

/-- A get that never stops early, of the value or of the operands. -/
def completeGet (doMerge : Bool) (snapshot : Option Nat) : Lookup Nat :=
  { getKey 0 none with shouldMerge := fun _ => false, doMerge, snapshot, sequence := snapshot.getD 3 }

private theorem completeGet_regular (doMerge : Bool) (snapshot : Option Nat) :
    Regular twoOperands (fun _ => true) (completeGet doMerge snapshot) where
  current tip := by
    obtain rfl : snapshot = none := tip
    exact Nat.le_refl 3
  atSnapshot s given _ := by
    obtain rfl : snapshot = some s := given
    rfl
  complete := ⟨fun _ _ _ => rfl, nofun⟩
  agrees _ _ _ _ := rfl
  replays := rfl

/-- A get, the operands of the same key, and the operands at a snapshot. -/
def completeEvents : List (Event Nat) :=
  [.lookup (completeGet true none) true .kMerge [[50], [40]] none,
    .lookup (completeGet false none) true .kNotFound [] none,
    .lookup (completeGet false (some 2)) true .kNotFound [] none, .evict 0 1]

theorem row_cache_of_completeEvents : run twoOperands completeEvents (fun _ => none) =
      some [⟨.ok (), ⟨.kFound, [[50], [40], [30], [20]], some (.value [10, 20, 30, 40, 50]), none, true⟩⟩,
        ⟨.ok (), ⟨.kFound, [[30], [20], [10]], none, none, true⟩⟩,
        ⟨.ok (), ⟨.kFound, [[20], [10]], none, none, true⟩⟩] := by
  refine (row_cache_is_transparent twoOperands (fun _ => true) completeEvents ?_).trans (by decide +kernel)
  intro _ member
  rcases mem_cons.mp member with rfl | member
  · exact completeGet_regular true none
  rcases mem_cons.mp member with rfl | member
  · exact completeGet_regular false none
  obtain rfl := mem_singleton.mp member
  exact completeGet_regular false (some 2)

/-- The merge operator asks to merge every three operands. The first get brings two operands from a newer file. -/
def stoppingEvents : List (Event Nat) :=
  [.lookup (getKey 3 none) true .kMerge [[50], [40]] none, .lookup (getKey 3 none) true .kNotFound [] none]

/-- The first get stops at its third operand, and its log ends there. Replayed for the second get it leaves a merge with
one operand, while the file has two operands and the value below them. -/
theorem row_cache_loses_operands : runWithout twoOperands stoppingEvents =
        [⟨.ok (), ⟨.kFound, [[50], [40], [30]], some (.value [30, 40, 50]), none, true⟩⟩,
          ⟨.ok (), ⟨.kFound, [[30], [20]], some (.value [10, 20, 30]), none, true⟩⟩] ∧
      run twoOperands stoppingEvents (fun _ => none) =
        some [⟨.ok (), ⟨.kFound, [[50], [40], [30]], some (.value [30, 40, 50]), none, true⟩⟩,
          ⟨.ok (), ⟨.kMerge, [[30]], none, none, true⟩⟩] := by
  decide +kernel

end Rocksdb.RowCache
