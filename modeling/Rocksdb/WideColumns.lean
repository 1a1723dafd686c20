import Rocksdb.MergeHelper
import Rocksdb.WriteBatch

/-! Wide columns as bytes (`db/wide/wide_column_serialization.cc`), and the
results of a full merge in the three forms callers ask for: a value, an entity,
and an entry to write. -/
namespace Rocksdb.WriteBatchInternal
open Lib.LittleEndian Coding MergeHelper List

/-! ## Reading columns back -/

/-- The loop over the names and value sizes of `Deserialize`. -/
def deserializeColumns : Nat → Option Bytes → Bytes → Except Status (List (Bytes × Nat) × Bytes)
  | 0, _, input => .ok ([], input)
  | n + 1, prevName, input =>
    match getLengthPrefixedSlice input with
    | none => .error (.corruption "Error decoding wide column name")
    | some (name, input) =>
      if prevName.any (compare · name ≠ .lt) then .error (.corruption "Wide columns out of order")
      else
        match getVarint32 input with
        | none => .error (.corruption "Error decoding wide column value size")
        | some (size, input) =>
          (deserializeColumns n (some name) input).map fun (columns, data) => ((name, size) :: columns, data)

/-- The loop over the values. -/
def deserializeValues : List (Bytes × Nat) → Bytes → Except Status WideColumns
  | [], _ => .ok []
  | (name, size) :: columns, data =>
    if data.length < size then .error (.corruption "Error decoding wide column value payload")
    else (deserializeValues columns (data.drop size)).map ((name, data.take size) :: ·)

/-- `WideColumnSerialization::Deserialize`. -/
def deserialize (input : Bytes) : Except Status WideColumns :=
  match getVarint32 input with
  | none => .error (.corruption "Error decoding wide column version")
  | some (version, input) =>
    if 1 < version then .error (.notSupported "Unsupported wide column version")
    else
      match getVarint32 input with
      | none => .error (.corruption "Error decoding number of wide columns")
      | some (numColumns, input) =>
        (deserializeColumns numColumns none input).bind fun (columns, data) => deserializeValues columns data

variable {index : Bytes} {columns : WideColumns}

/-- What a successful step of `Serialize` has checked and written. -/
theorem serializeColumns_cons (ran : serializeColumns prevName ((name, value) :: columns) = .ok index) :
    name.length < 2 ^ 32 ∧ value.length < 2 ^ 32 ∧ prevName.any (compare · name ≠ .lt) = false ∧
      ∃ rest, serializeColumns (some name) columns = .ok rest ∧
        index = putLengthPrefixedSlice name ++ putVarint32 value.length ++ rest := by
  unfold serializeColumns at ran
  split_ifs at ran with longName order longValue
  cases inner : serializeColumns (some name) columns with
  | error => simp [inner, Except.map] at ran
  | ok rest =>
    rw [inner] at ran
    have small : value.length < 2 ^ 32 := by omega
    rw [Nat.mod_eq_of_lt small] at ran
    exact ⟨by omega, small, by simpa using order, rest, rfl, (Except.ok.inj ran).symm⟩

private theorem deserializeColumns_serializeColumns (ran : serializeColumns prevName columns = .ok index)
    (data : Bytes) :
    deserializeColumns columns.length prevName (index ++ data) =
      .ok (columns.map fun c => (c.1, c.2.length), data) := by
  induction columns generalizing prevName index with
  | nil =>
    obtain rfl : [] = index := Except.ok.inj ran
    rfl
  | cons _ _ ih =>
    obtain ⟨shortName, shortValue, order, _, inner, rfl⟩ := serializeColumns_cons ran
    rw [length_cons, deserializeColumns, append_assoc, append_assoc, getLengthPrefixedSlice_put shortName]
    simp only [order, Bool.false_eq_true, if_false, getVarint32_putVarint32 shortValue, ih inner]
    rfl

private theorem deserializeValues_values (columns : WideColumns) :
    deserializeValues (columns.map fun c => (c.1, c.2.length)) (columns.flatMap Prod.snd) = .ok columns := by
  induction columns with
  | nil => rfl
  | cons _ _ ih =>
    rw [map_cons, flatMap_cons, deserializeValues, if_neg (by simp), drop_left' rfl, take_left' rfl, ih]
    rfl

/-- What `Serialize` writes is read back by `Deserialize`. -/
theorem deserialize_serialize (ran : serialize columns = .ok entity) :
    deserialize entity = .ok columns ∧ ∃ index, serializeColumns none columns = .ok index := by
  unfold serialize at ran
  split_ifs at ran with many
  cases inner : serializeColumns none columns with
  | error => simp [inner, Except.map] at ran
  | ok index =>
    rw [inner] at ran
    have small : columns.length < 2 ^ 32 := by omega
    obtain rfl := Except.ok.inj ran
    refine ⟨?_, index, rfl⟩
    dsimp only
    rw [Nat.mod_eq_of_lt small, append_assoc, append_assoc, deserialize, getVarint32_putVarint32 (by decide)]
    simp only [lt_self_iff_false, if_false, getVarint32_putVarint32 small,
      deserializeColumns_serializeColumns inner, Except.bind, deserializeValues_values]

/-! ## The default column -/

/-- Behind another column no column has the empty name. -/
theorem name_ne_nil {prev} (ran : serializeColumns (some prev) columns = .ok index) : ∀ c ∈ columns, c.1 ≠ [] := by
  induction columns generalizing prev index with
  | nil => simp
  | cons _ _ ih =>
    obtain ⟨-, -, order, _, inner, -⟩ := serializeColumns_cons ran
    refine forall_mem_cons.mpr ⟨fun empty => ?_, ih inner⟩
    rw [empty] at order
    cases prev <;> simp [compare] at order

/-- Values are byte strings, and entities their serialization. The other ways to
read a value are any, and so is how callers see an error. -/
def withColumns {κ : Type} (format : ValueFormat κ Bytes) (toError : Status → ErrorStatus) : ValueFormat κ Bytes :=
  { format with
    empty := []
    serializeColumns := fun columns => (serialize (sortColumns columns)).mapError toError
    deserializeColumns := fun entity => (deserialize entity).mapError toError }

/-- `GetValueOfDefaultColumn` of an entity, and any other value as it is: how a
reader of the default column sees an entry. -/
def defaultColumnView {κ : Type} (format : ValueFormat κ Bytes) (entry : ValueType × Bytes) :
    Except ErrorStatus Bytes :=
  if entry.1 = .kTypeWideColumnEntity then
    (format.deserializeColumns entry.2).map (defaultColumn format)
  else .ok entry.2

/-- New columns that can be an entity start with the default column, or their default
column is missing or empty. -/
def DefaultShown : MergeOutput Bytes → Prop
  | .newColumns columns => (∃ entity, serialize (sortColumns columns) = .ok entity) →
    (∃ value, columns.head? = some ([], value)) ∨ ∀ c ∈ columns, c.1 = [] → c.2 = []
  | _ => True

section Agree
variable {κ : Type} {format : ValueFormat κ Bytes} {toError : Status → ErrorStatus}

/-- Sorted columns show the default column. -/
theorem defaultColumn_sorted (ran : serializeColumns none sorted = .ok index) (member : ([], value) ∈ sorted) :
    defaultColumn (withColumns format toError) sorted = value := by
  cases sorted with
  | nil => cases member
  | cons column rest =>
    obtain ⟨-, -, -, _, inner, -⟩ := serializeColumns_cons ran
    rcases mem_cons.mp member with rfl | behind
    · rfl
    · exact absurd rfl (name_ne_nil inner _ behind)

private theorem defaultColumn_of_missing (missing : ∀ c ∈ columns, c.1 ≠ []) :
    defaultColumn (withColumns format toError) columns = [] := by
  cases columns with
  | nil => rfl
  | cons column => exact if_neg (missing column mem_cons_self)

private theorem defaultColumn_sortColumns (ran : serializeColumns none (sortColumns columns) = .ok index) :
    defaultColumn (withColumns format toError) columns =
        defaultColumn (withColumns format toError) (sortColumns columns) ↔
      (∃ value, columns.head? = some ([], value)) ∨ ∀ c ∈ columns, c.1 = [] → c.2 = [] := by
  have members (c : Bytes × Bytes) : c ∈ sortColumns columns ↔ c ∈ columns := mem_mergeSort
  have sorted {value : Bytes} (member : ([], value) ∈ columns) :
      defaultColumn (withColumns format toError) (sortColumns columns) = value :=
    defaultColumn_sorted ran ((members _).mpr member)
  by_cases first : ∃ value, columns.head? = some ([], value)
  · obtain ⟨value, isHead⟩ := first
    obtain ⟨rest, rfl⟩ := head?_eq_some_iff.mp isHead
    exact ⟨fun _ => .inl ⟨value, rfl⟩, fun _ => (sorted mem_cons_self).symm⟩
  · have hidden : defaultColumn (withColumns format toError) columns = [] := by
      cases columns with
      | nil => rfl
      | cons column => exact if_neg fun empty => first ⟨column.2, congrArg some (Prod.ext empty rfl)⟩
    rw [hidden, or_iff_right first]
    refine ⟨fun same c member empty => ?_, fun shown => ?_⟩
    · obtain ⟨_, value⟩ := c
      obtain rfl : _ = [] := empty
      exact (sorted member).symm.trans same.symm
    · by_cases present : ∃ value, ([], value) ∈ columns
      · obtain ⟨value, member⟩ := present
        exact (sorted member ▸ shown _ member rfl).symm
      · refine (defaultColumn_of_missing fun c member empty => present ⟨c.2, ?_⟩).symm
        exact empty ▸ (members c).mp member

/-- Whenever a merge gives an entity, it gives an entry and a value too, and the value
is the default column of the entity and what a reader of the default column sees in the
entry. -/
def MergesAgree (format : ValueFormat κ Bytes) (op : MergeOperator κ Bytes) (key : κ) (base : BaseValue Bytes)
    (operands : List Bytes) : Prop :=
  (∀ found, timedFullMergeTo format op key base operands .columns = .ok found →
    ∃ columns entry value, found = .columns columns ∧ timedFullMerge format op key base operands = .ok entry ∧
      timedFullMergeTo format op key base operands .value = .ok (.value value) ∧
      value = defaultColumn format columns ∧ defaultColumnView format entry = .ok value) ∧
  ∀ entry, timedFullMerge format op key base operands = .ok entry →
    ∃ columns, timedFullMergeTo format op key base operands .columns = .ok (.columns columns)

/-- **The forms of a full merge agree** exactly when the answer of the operator shows its
default column. -/
theorem full_merges_agree (op : MergeOperator κ Bytes) (key : κ) (base : BaseValue Bytes) (operands : List Bytes) :
    MergesAgree (withColumns format toError) op key base operands ↔
      ∀ existing, base.existing (withColumns format toError) = .ok existing →
        DefaultShown (op.fullMergeV3 key existing operands) := by
  unfold MergesAgree timedFullMergeTo timedFullMerge
  set merged := withColumns format toError with isMerged
  cases base.existing merged with
  | error => simp
  | ok existing =>
    simp only [Except.ok.injEq, forall_eq']
    cases op.fullMergeV3 key existing operands with
    | newValue value | existingOperand value =>
      refine iff_of_true ⟨fun found answered => ⟨_, _, value, (Except.ok.inj answered).symm, rfl, rfl, ?_, rfl⟩,
        fun _ _ => ⟨_, rfl⟩⟩ trivial
      simp [defaultColumn]
    | failed scope => cases scope <;> simp [DefaultShown]
    | newColumns columns =>
      dsimp only [DefaultShown]
      cases serialized : serialize (sortColumns columns) with
      | error => simp [isMerged, withColumns, serialized, Except.mapError]
      | ok entity =>
        obtain ⟨read, _, ran⟩ := deserialize_serialize serialized
        have written : merged.serializeColumns columns = .ok entity := by
          simp [isMerged, withColumns, serialized, Except.mapError]
        have readBack : merged.deserializeColumns entity = .ok (sortColumns columns) := by
          simp [isMerged, withColumns, read, Except.mapError]
        have shown : defaultColumn merged columns = defaultColumn merged (sortColumns columns) ↔ _ :=
          defaultColumn_sortColumns ran
        rw [written]
        dsimp only
        rw [readBack]
        refine ⟨fun agree _ => ?_, fun shows => ?_⟩
        · obtain ⟨_, _, _, isFound, -, isValue, same, -⟩ := agree.1 _ rfl
          cases isFound
          cases isValue
          exact shown.mp same
        · have same := shown.mpr (shows ⟨entity, rfl⟩)
          refine ⟨fun _ answered => ⟨_, _, _, (Except.ok.inj answered).symm, rfl, rfl, same, ?_⟩, fun _ _ => ⟨_, rfl⟩⟩
          simp only [defaultColumnView, if_true, readBack, Except.map, same]

end Agree

/-- An operator that answers every full merge with the same columns. -/
def fixedColumns (columns : WideColumns) : MergeOperator Nat Bytes :=
  ⟨fun _ _ _ => .newColumns columns, fun _ _ => none, false⟩

theorem mergeOperatorFailed_isError : Status.mergeOperatorFailed.isError := rfl

def plainFormat : ValueFormat Nat Bytes :=
  withColumns ⟨[], fun v => (v, 0), fun _ => .ok [], fun _ => .ok [], fun _ v => .ok v⟩
    fun _ => ⟨.mergeOperatorFailed, mergeOperatorFailed_isError⟩

/-- Every merge of the operator answers with its columns in order. -/
theorem fixedColumns_entity (isSorted : sortColumns columns = sorted)
    (read : (serialize sorted).bind deserialize = .ok sorted) :
    timedFullMergeTo plainFormat (fixedColumns columns) 7 .noBaseValue [[0]] .columns = .ok (.columns sorted) := by
  subst isSorted
  cases written : serialize (sortColumns columns) with
  | error =>
    rw [written] at read
    cases read
  | ok entity =>
    rw [written] at read
    simp only [timedFullMergeTo, BaseValue.existing, fixedColumns, plainFormat, withColumns, written, Except.mapError]
    rw [show deserialize entity = _ from read]
    rfl

/-- The default column is first, and the other two are not in order. -/
theorem full_merges_agree_default_first :
    MergesAgree plainFormat (fixedColumns [([], [2]), ([98], [1]), ([97], [3])]) 7 (.plainBaseValue [9]) [[0], [5]] :=
  (full_merges_agree _ 7 _ _).mpr fun _ _ _ => .inl ⟨[2], rfl⟩

/-- An operator need not sort the columns it returns. `Get` looks for the default
column at the front only and finds nothing, where `GetEntity` sorts first. -/
theorem unsorted_columns_hide_default :
    let op := fixedColumns [([97], [1]), ([], [2])]
    timedFullMergeTo plainFormat op 7 .noBaseValue [[0]] .value = .ok (.value []) ∧
      timedFullMergeTo plainFormat op 7 .noBaseValue [[0]] .columns = .ok (.columns [([], [2]), ([97], [1])]) ∧
      defaultColumn plainFormat [([], [2]), ([97], [1])] = [2] := by
  refine ⟨rfl, fixedColumns_entity ?_ (by rfl), rfl⟩
  simp [sortColumns, mergeSort, compare]

end Rocksdb.WriteBatchInternal
