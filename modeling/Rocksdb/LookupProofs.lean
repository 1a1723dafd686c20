import Rocksdb.LookupHistory

/-! What one memtable or table contributes to a point lookup. The memtable
saver and `GetContext` are two implementations of the scan over the entries of
the key that the reader sees. -/
namespace Rocksdb.LookupProofs
open MergeHelper FragmenterProofs PointLookup LookupHistory Lib.SortedLists GetContext InternalKey List

variable {κ V : Type} {r : Reader κ V}

/-! ## Entries from the lookup key on -/

section Seek
variable [LinearOrder κ]

/-- The lookup key comes before exactly the visible entries of its user key. -/
theorem ikey_le_iff (type : isPointType e.type) (key : e.userKey = r.key) :
    r.lookup.ikey ≤ e ↔ e.sequence ≤ r.sequence := by
  have small : e.type.toNat ≤ kValueTypeForSeek.toNat := by
    cases shape : e.type <;> simp [shape, isPointType] at type <;> decide
  rw [← not_lt, lt_iff, ← not_lt]
  refine not_congr ⟨?_, fun lt => .inr ⟨key, pack_lt_iff.mpr (.inl lt)⟩⟩
  rintro (other | ⟨-, footer⟩)
  · exact absurd key other.ne
  · rcases pack_lt_iff.mp footer with lt | ⟨-, types⟩
    · exact lt
    · exact absurd types small.not_gt

/-- Seeking to the lookup key and reading on while the user key matches gives
the visible entries. -/
theorem seek_takeWhile (entries : Entries κ V) :
    (entries.seek r.lookup.ikey).takeWhile (·.1.userKey = r.key) = visibleEntries r entries.list := by
  obtain ⟨list, sorted, types⟩ := entries
  unfold Entries.seek visibleEntries
  induction list with
  | nil => rfl
  | cons e rest ih =>
    obtain ⟨first, restSorted⟩ := pairwise_cons.mp sorted
    have restSame := ih restSorted fun e member => types e (mem_cons_of_mem _ member)
    by_cases before : e.1 < r.lookup.ikey
    · have unseen : ¬(e.1.userKey = r.key ∧ e.1.sequence ≤ r.sequence) := fun ⟨key, visible⟩ =>
        ((ikey_le_iff (types e (by simp)) key).mpr visible).not_gt before
      rw [dropWhile_cons_of_pos (by simpa using before), restSame, filter_cons_of_neg (by simpa using unseen)]
    · have reached := not_lt.mp before
      have allReached : rest.dropWhile (·.1 < r.lookup.ikey) = rest := by
        cases rest with
        | nil => rfl
        | cons next more =>
          exact dropWhile_cons_of_neg (by simpa using reached.trans (first next (by simp)).le)
      rw [dropWhile_cons_of_neg (by simpa using before)]
      rw [allReached] at restSame
      by_cases key : e.1.userKey = r.key
      · have visible := (ikey_le_iff (types e (by simp)) key).mp reached
        rw [takeWhile_cons_of_pos (by simpa using key), restSame, filter_cons_of_pos (by simp [key, visible])]
      · have past : r.key < e.1.userKey :=
          lt_of_le_of_ne (userKey_le_of_le reached) (Ne.symm key)
        rw [takeWhile_cons_of_neg (by simpa using key), filter_cons_of_neg (by simp [key])]
        refine (filter_eq_nil_iff.mpr fun later member => ?_).symm
        have after := past.trans_le (userKey_le_of_le (first later member).le)
        simp [after.ne']

/-- Without an entry of the key nothing is visible. -/
theorem visibleEntries_eq_nil (absent : ∀ e ∈ entries, e.1.userKey = r.key → ¬e.1.sequence ≤ r.sequence) :
    visibleEntries r entries = [] :=
  filter_eq_nil_iff.mpr fun e member => by simpa using absent e member

end Seek

/-! ## Savers -/

section Savers
variable [DecidableEq V]

/-- A saver that does with each entry what the scan does. `Going` holds of its
states that go on with some operands, `Done` of those that have an answer. -/
structure Scans {S : Type} (r : Reader κ V) (maxCovering : Nat)
    (save : InternalKey κ → V → S → Bool × S) (Going : S → List V → Prop) (Done : S → Answer V → Prop) :
    Prop where
  otherKey : ∀ {ikey value s}, ikey.userKey ≠ r.key → save ikey value s = (false, s)
  covered : ∀ {ikey value s operands}, Going s operands → isPointType ikey.type →
    ikey.userKey = r.key → ikey.sequence < maxCovering →
    (save ikey value s).1 = false ∧ Done (save ikey value s).2 (conclude r operands .noBaseValue)
  operand : ∀ {ikey value s operands}, Going s operands → ikey.userKey = r.key →
    ¬ikey.sequence < maxCovering → ikey.type = .kTypeMerge →
    (save ikey value s).1 = true ∧ Going (save ikey value s).2 (operands ++ [value])
  base : ∀ {ikey value s operands base}, Going s operands → isPointType ikey.type →
    ikey.userKey = r.key → ¬ikey.sequence < maxCovering → baseOf r (ikey, value) = some base →
    (save ikey value s).1 = false ∧ Done (save ikey value s).2 (conclude r operands base)

/-- What a saver makes of a scan. -/
def Matches {S : Type} (Going : S → List V → Prop) (Done : S → Answer V → Prop) (s : S) : Scan V → Prop
  | .done answer => Done s answer
  | .more operands => Going s operands

omit [DecidableEq V] in
private theorem baseOf_eq_none (none : baseOf r e = none) : e.1.type = .kTypeMerge := by
  unfold baseOf at none
  split at none <;> simp_all

omit [DecidableEq V] in
/-- The entries that end a scan. -/
theorem baseOf_cases (type : isPointType ikey.type) (isBase : baseOf r (ikey, value) = some base) :
    ikey.type = .kTypeValue ∧ base = .plainBaseValue value ∨
    ikey.type = .kTypeValuePreferredSeqno ∧ base = .plainBaseValue (r.format.parsePackedValueWithSeqno value).1 ∨
    ikey.type = .kTypeWideColumnEntity ∧ base = .wideBaseValue value ∨
    (ikey.type = .kTypeDeletion ∨ ikey.type = .kTypeSingleDeletion ∨
      ikey.type = .kTypeDeletionWithTimestamp) ∧ base = .noBaseValue := by
  unfold baseOf at isBase
  cases shape : ikey.type <;> simp_all [isPointType]

variable [LinearOrder κ] in
/-- **A saver called on the entries of a part scans those of the key.** -/
theorem Scans.saveAll {S : Type} {save : InternalKey κ → V → S → Bool × S} {Going : S → List V → Prop}
    {Done : S → Answer V → Prop} {maxCovering : Nat} (scans : Scans r maxCovering save Going Done)
    (list : List (InternalKey κ × V)) (types : ∀ e ∈ list, isPointType e.1.type) :
    ∀ (s : S) (operands : List V), Going s operands → Matches Going Done (saveAll save list s)
        (scan r (fun seq => seq < maxCovering) operands (list.takeWhile (·.1.userKey = r.key))) := by
  induction list with
  | nil => exact fun s operands going => going
  | cons e _ ih =>
    intro _ _ going
    obtain ⟨ikey, value⟩ := e
    have type := types (ikey, value) (by simp)
    rw [PointLookup.saveAll]
    by_cases key : ikey.userKey = r.key
    · rw [takeWhile_cons_of_pos (by simpa using key), scan_cons]
      by_cases covered : ikey.sequence < maxCovering
      · obtain ⟨stops, done⟩ := scans.covered going type key covered
        rw [stops, if_neg (by simp), if_pos (by simpa using covered)]
        exact done
      · cases isBase : baseOf r (ikey, value) with
        | none =>
          obtain ⟨goes, next⟩ := scans.operand going key covered (baseOf_eq_none isBase)
          rw [goes, if_pos rfl, if_neg (by simpa using covered)]
          exact ih (fun e member => types e (mem_cons_of_mem _ member)) _ _ next
        | some base =>
          obtain ⟨stops, done⟩ := scans.base going type key covered isBase
          rw [stops, if_neg (by simp), if_neg (by simpa using covered)]
          exact done
    · rw [scans.otherKey key, if_neg (by simp), takeWhile_cons_of_neg (by simpa using key)]
      exact going

/-! ## The memtable saver -/

omit [DecidableEq V] in
theorem answerOf_error (error : status.isError) (result : Option (Found V)) : answerOf status result = .failed := by
  cases status <;> first | rfl | simp [Status.isError] at error

variable {operands : List V}

theorem conclude_of_operands (nonempty : operands ≠ []) (base : BaseValue V) : conclude r operands base =
      match timedFullMergeTo r.format r.op r.key base operands.reverse r.target with
      | .ok found => .found found
      | .error _ => .failed := by
  exact if_neg (by simpa using nonempty)

/-- The saver goes on with the operands it has. -/
structure Saving (s : Saver V) (operands : List V) : Prop where
  status : s.status = .ok ∨ s.status = .mergeInProgress
  merging : s.status = .mergeInProgress → operands ≠ []
  foundFinalValue : s.foundFinalValue = false
  mergeInProgress : s.mergeInProgress = !operands.isEmpty
  operands : s.operands = operands

/-- The saver has found an answer. -/
def Saved (s : Saver V) (answer : Answer V) : Prop :=
  s.foundFinalValue = true ∧ answerOf s.status s.result = answer

variable {s : Saver V}

theorem fullMerge_saved (same : s.operands = operands)
    (final : s.foundFinalValue = true) (nonempty : operands ≠ []) (base : BaseValue V) :
    Saved (s.fullMerge r.lookup base) (conclude r operands base) := by
  unfold Saver.fullMerge Saved
  rw [conclude_of_operands nonempty]
  simp only [lookup_target, lookup_mergeOperator, lookup_format, lookup_key, same]
  cases timedFullMergeTo r.format r.op r.key base operands.reverse r.target with
  | ok => exact ⟨final, rfl⟩
  | error status => exact ⟨final, answerOf_error status.2 _⟩

private theorem savePlain_saved (saving : Saving s operands) (value : V) :
    Saved (s.savePlain r.lookup value) (conclude r operands (.plainBaseValue value)) := by
  unfold Saver.savePlain
  rw [if_neg (by simp)]
  by_cases empty : operands = []
  · subst empty
    rw [if_neg (by simp [saving.mergeInProgress])]
    exact ⟨rfl, by simp [answerOf, conclude]⟩
  · rw [if_pos (by simpa [saving.mergeInProgress] using empty)]
    exact fullMerge_saved (by exact saving.operands) rfl empty _

private theorem saveEntity_saved (saving : Saving s operands) (entity : V) :
    Saved (s.saveEntity r.lookup entity) (conclude r operands (.wideBaseValue entity)) := by
  unfold Saver.saveEntity
  rw [if_neg (by simp)]
  by_cases empty : operands = []
  · subst empty
    rw [if_neg (by simp [saving.mergeInProgress])]
    simp only [lookup_target, lookup_format, conclude, isEmpty_nil, if_true]
    cases r.target.setEntity r.format entity with
    | ok => exact ⟨rfl, rfl⟩
    | error status => exact ⟨rfl, answerOf_error status.2 _⟩
  · rw [if_pos (by simpa [saving.mergeInProgress] using empty)]
    exact fullMerge_saved (by exact saving.operands) rfl empty _

private theorem saveDeletion_saved (saving : Saving s operands) :
    Saved (s.saveDeletion r.lookup) (conclude r operands .noBaseValue) := by
  unfold Saver.saveDeletion
  by_cases empty : operands = []
  · subst empty
    rw [if_neg (by simp [saving.mergeInProgress])]
    exact ⟨rfl, rfl⟩
  · rw [if_pos (by simpa [saving.mergeInProgress] using empty)]
    exact fullMerge_saved (by exact saving.operands) rfl empty _

omit [DecidableEq V] in
theorem Saving.noteSeq (saving : Saving s operands)
    (maxCovering seq : Nat) : Saving (s.noteSeq maxCovering seq) operands := by
  unfold Saver.noteSeq
  split
  · exact ⟨saving.status, saving.merging, saving.foundFinalValue, saving.mergeInProgress,
      saving.operands⟩
  · exact saving

variable [LinearOrder κ] in
/-- The memtable saver scans. -/
theorem saver_scans (r : Reader κ V) (maxCovering : Nat) :
    Scans r maxCovering (Saver.saveValue r.lookup maxCovering) Saving Saved := by
  have ofKey {ikey : InternalKey κ} {value : V} {s : Saver V} (key : ikey.userKey = r.key) :
      Saver.saveValue r.lookup maxCovering ikey value s = (s.noteSeq maxCovering ikey.sequence).saveType
        r.lookup value (coveredType maxCovering ikey) := if_neg (by simpa using key)
  refine ⟨fun other => if_pos other, ?_, ?_, ?_⟩
  · intro ikey value s operands saving type key covered
    rw [ofKey key, coveredType, if_pos ⟨type, covered⟩]
    exact ⟨rfl, saveDeletion_saved (saving.noteSeq _ _)⟩
  · intro ikey value s operands saving key newer operand
    have noted := saving.noteSeq maxCovering ikey.sequence
    rw [ofKey key, coveredType, if_neg fun both => newer both.2, operand]
    exact ⟨rfl, noted.status, by simp, noted.foundFinalValue, by simp [Saver.saveType, Saver.saveOperand],
      by simp [Saver.saveType, Saver.saveOperand, noted.operands]⟩
  · intro ikey _ _ _ _ saving type key newer isBase
    have noted := saving.noteSeq maxCovering ikey.sequence
    rw [ofKey key, coveredType, if_neg fun both => newer both.2]
    rcases baseOf_cases type isBase with ⟨shape, rfl⟩ | ⟨shape, rfl⟩ | ⟨shape, rfl⟩ | ⟨shape, rfl⟩
    · rw [shape]
      exact ⟨rfl, savePlain_saved noted _⟩
    · rw [shape]
      exact ⟨rfl, savePlain_saved noted _⟩
    · rw [shape]
      exact ⟨rfl, saveEntity_saved noted _⟩
    · rcases shape with shape | shape | shape <;> rw [shape] <;>
        exact ⟨rfl, saveDeletion_saved noted⟩

/-! ## The table saver -/

/-- The context goes on with the operands it has. -/
structure Gathering (ctx : GetContext V) (operands : List V) : Prop where
  state : ctx.state = if operands = [] then .kNotFound else .kMerge
  operands : ctx.operands = operands

/-- The context has an answer. -/
def Gathered (ctx : GetContext V) (answer : Answer V) : Prop :=
  ∃ status, ctx.state.returns = some status ∧ answerOf status ctx.result = answer

variable {ctx : GetContext V}

theorem mergeWith_gathered (same : ctx.operands = operands)
    (final : ctx.state = .kFound) (nonempty : operands ≠ []) (base : BaseValue V) :
    Gathered (ctx.mergeWith r.lookup base) (conclude r operands base) := by
  unfold mergeWith Gathered
  rw [conclude_of_operands nonempty]
  simp only [lookup_target, lookup_mergeOperator, lookup_format, lookup_key, same]
  cases timedFullMergeTo r.format r.op r.key base operands.reverse r.target with
  | ok => exact ⟨.ok, by rw [final]; rfl, rfl⟩
  | error =>
    dsimp only
    split
    · exact ⟨_, rfl, rfl⟩
    · exact ⟨_, rfl, rfl⟩

private theorem savePlain_gathered (gathering : Gathering ctx operands)
    (value : V) : Gathered (ctx.savePlain r.lookup value) (conclude r operands (.plainBaseValue value)) := by
  unfold savePlain
  rw [gathering.state]
  by_cases empty : operands = []
  · subst empty
    exact ⟨.ok, rfl, rfl⟩
  · rw [if_neg empty]
    exact mergeWith_gathered (by exact gathering.operands) rfl empty _

private theorem saveEntity_gathered (gathering : Gathering ctx operands)
    (entity : V) : Gathered (ctx.saveEntity r.lookup entity) (conclude r operands (.wideBaseValue entity)) := by
  unfold saveEntity
  rw [gathering.state]
  by_cases empty : operands = []
  · subst empty
    simp only [if_true, lookup_doMerge, lookup_target, lookup_format, conclude, isEmpty_nil]
    cases r.target.setEntity r.format entity with
    | ok => exact ⟨.ok, rfl, rfl⟩
    | error => exact ⟨_, rfl, rfl⟩
  · rw [if_neg empty]
    exact mergeWith_gathered (by exact gathering.operands) rfl empty _

private theorem saveDeletion_gathered (gathering : Gathering ctx operands) :
    Gathered (ctx.saveDeletion r.lookup) (conclude r operands .noBaseValue) := by
  unfold saveDeletion
  rw [gathering.state]
  by_cases empty : operands = []
  · subst empty
    exact ⟨.notFound, rfl, rfl⟩
  · rw [if_neg empty]
    exact mergeWith_gathered (by exact gathering.operands) rfl empty _

variable [LinearOrder κ] in
/-- `GetContext` scans. -/
theorem getContext_scans (r : Reader κ V) (maxCovering : Nat) :
    Scans r maxCovering (saveValue r.lookup maxCovering) Gathering Gathered := by
  have ofKey {ikey : InternalKey κ} {value : V} {ctx : GetContext V} (key : ikey.userKey = r.key) :
      saveValue r.lookup maxCovering ikey value ctx =
        (ctx.noteSeq maxCovering ikey.sequence).saveType r.lookup value (coveredType maxCovering ikey) :=
    if_neg (by simpa using key)
  have noteSeq {ctx : GetContext V} {operands : List V} (gathering : Gathering ctx operands) (seq : Nat) :
      Gathering (ctx.noteSeq maxCovering seq) operands :=
    ⟨gathering.state, gathering.operands⟩
  refine ⟨fun other => if_pos other, ?_, ?_, ?_⟩
  · intro ikey value ctx operands gathering type key covered
    rw [ofKey key, coveredType, if_pos ⟨type, covered⟩]
    exact ⟨rfl, saveDeletion_gathered (noteSeq gathering _)⟩
  · intro ikey value ctx operands gathering key newer operand
    rw [ofKey key, coveredType, if_neg fun both => newer both.2, operand]
    exact ⟨rfl, by simp [saveType], congrArg (· ++ [value]) gathering.operands⟩
  · intro ikey _ _ _ _ gathering type key newer isBase
    have noted := noteSeq gathering ikey.sequence
    rw [ofKey key, coveredType, if_neg fun both => newer both.2]
    rcases baseOf_cases type isBase with ⟨shape, rfl⟩ | ⟨shape, rfl⟩ | ⟨shape, rfl⟩ | ⟨shape, rfl⟩
    · rw [shape]
      exact ⟨rfl, savePlain_gathered noted _⟩
    · rw [shape]
      exact ⟨rfl, savePlain_gathered noted _⟩
    · rw [shape]
      exact ⟨rfl, saveEntity_gathered noted _⟩
    · rcases shape with shape | shape | shape <;> rw [shape] <;>
        exact ⟨rfl, saveDeletion_gathered noted⟩

end Savers

/-! ## Memtables -/

variable [LinearOrder κ] {operands : List V}

/-- What a lookup hands on when it has no answer yet. -/
structure Pending (p : Progress V) (operands : List V) : Prop where
  status : p.status = if operands = [] then .ok else .mergeInProgress
  operands : p.operands = operands

theorem coveringSeqnum_eq (tombstones : List (RangeTombstone κ)) (upper : Nat) (key : κ) :
    coveringSeqnum tombstones upper key = largest (visibleCovering tombstones key upper) :=
  maxCoveringTombstoneSeqnum_largest [] tombstones key upper 0

/-- The newest tombstone after a memtable has been looked at. -/
theorem memTable_covering (mem : MemTable κ V) (seen : Nat) : (if mem.tombstones.isEmpty then seen
      else max seen (coveringSeqnum mem.tombstones r.lookup.sequence r.lookup.key)) =
      max seen ((memPart mem).covering r) := by
  split
  case isTrue empty =>
    rw [List.isEmpty_iff] at empty
    simp [memPart, Part.covering, empty, visibleCovering, largest]
  case isFalse => rw [coveringSeqnum_eq]; rfl

/-- Where the Bloom filter excludes the key the memtable shows nothing. -/
theorem memTable_excluded {mem : MemTable κ V} (excluded : ¬(mem.bloomFilter.map (· r.key)).getD true = true) :
    visibleEntries r mem.entries.list = [] := by
  refine visibleEntries_eq_nil fun e member key => ?_
  cases bloom : mem.bloomFilter with
  | none => simp [bloom] at excluded
  | some mayContain =>
    have contained := mem.noFalseNegatives mayContain bloom e member
    rw [key] at contained
    simp [bloom, contained] at excluded

variable [DecidableEq V] in
/-- `MemTable::Get` scans the memtable. -/
theorem memTableGet_matches (mem : MemTable κ V) (pending : Pending p operands) :
    let got := memTableGet r.lookup mem p
    let newest := max p.maxCoveringTombstoneSeq ((memPart mem).covering r)
    match scan r (fun seq => seq < newest) operands (visibleEntries r mem.entries.list) with
    | .done answer => got.1 = true ∧ answerOf got.2.2.status got.2.2.result = answer
    | .more operands => got.1 = false ∧ Pending got.2.2 operands ∧ got.2.2.maxCoveringTombstoneSeq = newest := by
  intro got newest
  by_cases empty : mem.entries.list.isEmpty && mem.tombstones.isEmpty
  · have nothing : got = (false, kMaxSequenceNumber, p) := if_pos empty
    simp only [Bool.and_eq_true, List.isEmpty_iff] at empty
    have unchanged : newest = p.maxCoveringTombstoneSeq := by
      simp [newest, memPart, Part.covering, empty.2, visibleCovering, largest]
    rw [nothing, empty.1]
    exact ⟨rfl, pending, unchanged.symm⟩
  · set saver : Saver V :=
      ⟨p.status, false, p.status = .mergeInProgress, kMaxSequenceNumber, p.operands, p.result⟩ with saverDef
    have saving : Saving saver operands := by
      refine ⟨?_, ?_, rfl, ?_, pending.operands⟩ <;>
        by_cases none : operands = [] <;> simp [saverDef, pending.status, none]
    set final := if (mem.bloomFilter.map (· r.key)).getD true then
      saveAll (Saver.saveValue r.lookup newest) (mem.entries.seek r.lookup.ikey) saver else saver
      with finalDef
    have scanned : Matches Saving Saved final
        (scan r (fun seq => seq < newest) operands (visibleEntries r mem.entries.list)) := by
      by_cases mayContain : (mem.bloomFilter.map (· r.key)).getD true = true
      · rw [finalDef, if_pos mayContain, ← seek_takeWhile]
        exact (saver_scans r newest).saveAll _
          (fun e member => mem.entries.types e (dropWhile_subset _ member)) _ _ saving
      · rw [finalDef, if_neg mayContain, memTable_excluded mayContain]
        exact saving
    have gotDef : got = (final.foundFinalValue, final.seq,
        ⟨if !final.foundFinalValue && final.mergeInProgress && final.status = .ok then .mergeInProgress
          else final.status, final.operands, newest, final.result⟩) := by
      simp only [got, memTableGet, if_neg empty, memTable_covering, finalDef, saverDef]
      rfl
    cases outcome : scan r (fun seq => seq < newest) operands (visibleEntries r mem.entries.list) with
    | done =>
      rw [outcome] at scanned
      obtain ⟨isFinal, answered⟩ := scanned
      rw [gotDef]
      exact ⟨isFinal, by simpa [isFinal] using answered⟩
    | more operands =>
      rw [outcome] at scanned
      rw [gotDef]
      refine ⟨scanned.foundFinalValue, ⟨?_, scanned.operands⟩, rfl⟩
      have merging := scanned.mergeInProgress
      by_cases none : operands = []
      · have ok := scanned.status.resolve_right fun merge => scanned.merging merge none
        simp [merging, none, ok]
      · rcases scanned.status with ok | merge
        · simp [merging, none, ok, scanned.foundFinalValue]
        · simp [none, merge]

theorem Pending.not_error (pending : Pending p operands) : ¬p.status.isError = true := by
  rw [pending.status]
  split <;> simp [Status.isError]

variable [DecidableEq V] in
/-- **The memtables answer the lookup or hand over a shorter one.** -/
theorem getFromList_spec (rest : List (Part κ V)) (memtables : List (MemTable κ V)) (pending : Pending p operands) :
    let got := getFromList r.lookup memtables p
    let answer := readParts r p.maxCoveringTombstoneSeq operands (memtables.map memPart ++ rest)
    got.1 = true ∧ answerOf got.2.status got.2.result = answer ∨
      got.1 = false ∧ ∃ operands, Pending got.2 operands ∧
        readParts r got.2.maxCoveringTombstoneSeq operands rest = answer := by
  induction memtables generalizing p operands with
  | nil => exact .inr ⟨rfl, operands, pending, rfl⟩
  | cons mem memtables ih =>
    intro got answer
    have one := memTableGet_matches (r := r) mem pending
    have told : answer = _ := readParts_cons (by simp [memPart]) operands
    have entries : (memPart mem).entries = mem.entries.list := rfl
    rw [entries] at told
    set inMem := memTableGet r.lookup mem p
    have gotDef : got = (if inMem.1 then (true, inMem.2.2) else if inMem.2.2.status.isError then (false, inMem.2.2)
        else getFromList r.lookup memtables inMem.2.2) := rfl
    cases outcome : scan r (fun seq => seq < max p.maxCoveringTombstoneSeq ((memPart mem).covering r))
        operands (visibleEntries r mem.entries.list) with
    | done found =>
      simp only [outcome] at one told
      rw [gotDef, if_pos one.1, told]
      exact .inl ⟨rfl, one.2⟩
    | more operands =>
      simp only [outcome] at one told
      obtain ⟨goesOn, next, covering⟩ := one
      rw [gotDef, if_neg (by simp [goesOn]), if_neg next.not_error, told, ← covering]
      exact ih next

/-! ## Table files -/

/-- A file that is read although the reader cannot see its tombstones has none
over the key. -/
structure Readable (r : Reader κ V) (table : Table κ V) : Prop where
  snapshot : ∀ t ∈ table.tombstones, t.seq ≤ r.snapshot.getD kMaxSequenceNumber ↔ t.seq ≤ r.sequence
  reached : Reaches r table ∨ ∀ t ∈ table.tombstones, ¬t.Covers r.key

/-- The newest tombstone after a file has been looked at. -/
theorem table_covering (readable : Readable r table) (seen : Nat) : (if table.tombstones.isEmpty then seen
      else max seen (coveringSeqnum table.tombstones (r.lookup.snapshot.getD kMaxSequenceNumber)
        r.lookup.key)) = max seen ((filePart r table).covering r) := by
  have same : visibleCovering table.tombstones r.key (r.snapshot.getD kMaxSequenceNumber) =
      visibleCovering (filePart r table).tombstones r.key r.sequence := by
    rcases readable.reached with reaches | none
    · simp only [filePart, if_pos reaches, visibleCovering]
      congr 1
      refine filter_congr fun t member => ?_
      simp [readable.snapshot t member]
    · have nothing (upper : Nat) : visibleCovering table.tombstones r.key upper = [] := by
        simp only [visibleCovering, map_eq_nil_iff, filter_eq_nil_iff]
        intro t member
        simp [none t member]
      rw [nothing, filePart]
      split
      · rw [nothing]
      · rfl
  split
  case isTrue empty =>
    rw [List.isEmpty_iff] at empty
    simp [filePart, Part.covering, empty, visibleCovering, largest]
  case isFalse =>
    rw [coveringSeqnum_eq, lookup_snapshot, lookup_key, same]
    rfl

variable [DecidableEq V] in
/-- `TableCache::Get` scans the file. -/
theorem tableCacheGet_matches {table : Table κ V} (readable : Readable r table) (seen : Nat)
    (gathering : Gathering ctx operands) :
    let got := tableCacheGet r.lookup table seen ctx
    let newest := max seen ((filePart r table).covering r)
    got.1 = newest ∧ Matches Gathering Gathered got.2
      (scan r (fun seq => seq < newest) operands (visibleEntries r table.entries.list)) := by
  intro got newest
  have gotDef : got = (newest, if table.filter r.key then
      saveAll (saveValue r.lookup newest) (table.entries.seek r.lookup.ikey) ctx else ctx) := by
    simp only [got, tableCacheGet, table_covering readable]
    rfl
  rw [gotDef]
  refine ⟨rfl, ?_⟩
  by_cases mayContain : table.filter r.key
  · rw [if_pos mayContain, ← seek_takeWhile]
    exact (getContext_scans r newest).saveAll _
      (fun e member => table.entries.types e (dropWhile_subset _ member)) _ _ gathering
  · have excluded : visibleEntries r table.entries.list = [] :=
      visibleEntries_eq_nil fun e member key => by
        have contained := table.noFalseNegatives e member
        rw [key] at contained
        exact absurd contained mayContain
    rw [if_neg mayContain, excluded]
    exact gathering

end Rocksdb.LookupProofs
