import Rocksdb.FilePickerProofs
import Rocksdb.FragmenterProofs
import Rocksdb.PointLookup

/-! What a point lookup is for: the history of a key is scanned from its newest
visible entry down to the first base value, deletion, or entry under a newer
visible tombstone. A lookup makes the scan part by part, with the tombstones it
has seen so far, and so may judge an entry differently. -/
namespace Rocksdb.LookupHistory
open MergeHelper FilePickerProofs FragmenterProofs PointLookup Lib.SortedLists List

variable {κ V : Type}

/-- The answer of a read. -/
inductive Answer (V : Type) where
  | found (found : Found V)
  | notFound
  | failed
  deriving DecidableEq

/-- What a caller of `Get` learns. -/
def answerOf (status : Status) (result : Option (Found V)) : Answer V :=
  match status, result with
  | .ok, some found => .found found
  | .notFound, _ => .notFound
  | _, _ => .failed

/-- A read of one key at a sequence number, for its value. -/
structure Reader (κ V : Type) where
  format : ValueFormat κ V
  op : MergeOperator κ V
  target : Target
  key : κ
  sequence : Nat
  bounded : sequence ≤ kMaxSequenceNumber
  snapshot : Option Nat

/-- The lookup `Get` makes for a reader. -/
def Reader.lookup (r : Reader κ V) : Lookup κ V where
  format := r.format
  mergeOperator := some r.op
  target := some r.target
  doMerge := true
  key := r.key
  sequence := r.sequence
  snapshot := r.snapshot

section Lookup
variable (r : Reader κ V)

@[simp] theorem lookup_format : r.lookup.format = r.format := rfl
@[simp] theorem lookup_mergeOperator : r.lookup.mergeOperator = some r.op := rfl
@[simp] theorem lookup_target : r.lookup.target = some r.target := rfl
@[simp] theorem lookup_doMerge : r.lookup.doMerge = true := rfl
@[simp] theorem lookup_key : r.lookup.key = r.key := rfl
@[simp] theorem lookup_sequence : r.lookup.sequence = r.sequence := rfl
@[simp] theorem lookup_snapshot : r.lookup.snapshot = r.snapshot := rfl

end Lookup

variable [LinearOrder κ] [DecidableEq V] (r : Reader κ V)

/-! ## The scan -/

/-- The operands found so far, newest first, applied to a base. -/
def conclude (operands : List V) (base : BaseValue V) : Answer V :=
  if operands.isEmpty then
    match base with
    | .noBaseValue => .notFound
    | .plainBaseValue value => .found (r.target.setPlainValue r.format value)
    | .wideBaseValue entity =>
      match r.target.setEntity r.format entity with
      | .ok found => .found found
      | .error _ => .failed
  else
    match timedFullMergeTo r.format r.op r.key base operands.reverse r.target with
    | .ok found => .found found
    | .error _ => .failed

/-- The base an entry ends the scan with; a merge operand does not. -/
def baseOf (e : InternalKey κ × V) : Option (BaseValue V) :=
  match e.1.type with
  | .kTypeMerge => none
  | .kTypeValue => some (.plainBaseValue e.2)
  | .kTypeValuePreferredSeqno => some (.plainBaseValue (r.format.parsePackedValueWithSeqno e.2).1)
  | .kTypeWideColumnEntity => some (.wideBaseValue e.2)
  | _ => some .noBaseValue

/-- A scan that has come to its end, or goes on with the operands so far. -/
inductive Scan (V : Type) where
  | done (answer : Answer V)
  | more (operands : List V)

/-- The scan of entries from newest to oldest, of each of which it is known whether it counts as covered. -/
def judge : List V → List ((InternalKey κ × V) × Bool) → Scan V
  | operands, [] => .more operands
  | operands, (e, covered) :: older =>
    if covered then .done (conclude r operands .noBaseValue)
    else
      match baseOf r e with
      | none => judge (operands ++ [e.2]) older
      | some base => .done (conclude r operands base)

/-- The scan of entries under tombstones. -/
def scan (covered : Nat → Bool) (operands : List V) (entries : List (InternalKey κ × V)) : Scan V :=
  judge r operands (entries.map fun e => (e, covered e.1.sequence))

/-- Without anything older, the operands have no base. -/
def Scan.finish : Scan V → Answer V
  | .done answer => answer
  | .more operands => conclude r operands .noBaseValue

/-- The entries a reader sees. -/
def visibleEntries (entries : List (InternalKey κ × V)) : List (InternalKey κ × V) :=
  entries.filter fun e => e.1.userKey = r.key ∧ e.1.sequence ≤ r.sequence

/-- A file reaches the lookup key when that lies between its boundaries; only
there do its tombstones count. -/
def Reaches (table : Table κ V) : Prop :=
  InRange r.key table.range ∧ r.lookup.ikey ≤ table.range.largestKey

instance (r : Reader κ V) (table : Table κ V) : Decidable (Reaches r table) := inferInstanceAs (Decidable (_ ∧ _))

/-- All point entries of a store. -/
def allEntries (store : Store κ V) : List (InternalKey κ × V) :=
  store.memtables.flatMap (·.entries.list) ++ store.levels.flatten.flatMap (·.entries.list)

/-- All tombstones of a store that can cover the lookup key. -/
def allTombstones (store : Store κ V) : List (RangeTombstone κ) :=
  store.memtables.flatMap (·.tombstones) ++ (store.levels.flatten.filter (Reaches r ·)).flatMap (·.tombstones)

/-- Whether a visible tombstone over the key is newer than an entry. -/
def coveredBy (tombstones : List (RangeTombstone κ)) (seq : Nat) : Bool :=
  tombstones.any fun t => t.Covers r.key ∧ t.seq ≤ r.sequence ∧ seq < t.seq

/-- The visible history of the key, newest first. -/
def history (store : Store κ V) : List (InternalKey κ × V) :=
  (visibleEntries r (allEntries store)).insertionSort (fun a b => a.1 ≤ b.1)

/-- **The naive fold over the history of the key.** -/
def readHistory (store : Store κ V) : Answer V :=
  (scan r (coveredBy r (allTombstones r store)) [] (history r store)).finish r

omit [LinearOrder κ] in
theorem scan_cons (covered : Nat → Bool) (operands : List V) (e : InternalKey κ × V) (older : List (InternalKey κ × V)) :
    scan r covered operands (e :: older) =
      if covered e.1.sequence then .done (conclude r operands .noBaseValue)
      else
        match baseOf r e with
        | none => scan r covered (operands ++ [e.2]) older
        | some base => .done (conclude r operands base) := rfl

omit [LinearOrder κ] in
private theorem judge_append (operands : List V) (newer older : List ((InternalKey κ × V) × Bool)) :
    judge r operands (newer ++ older) = match judge r operands newer with
      | .done answer => .done answer
      | .more operands => judge r operands older := by
  induction newer generalizing operands with
  | nil => rfl
  | cons _ _ ih =>
    rw [cons_append, judge, judge]
    split
    · rfl
    · split
      · exact ih _
      · rfl

/-- As far as the scan goes, an entry counts as covered if and only if it is. For a deletion it does not matter. -/
def Agrees (covered : Nat → Bool) : List ((InternalKey κ × V) × Bool) → Prop
  | [] => True
  | (e, judgement) :: older =>
    (judgement = covered e.1.sequence ∨ baseOf r e = some .noBaseValue) ∧
      (covered e.1.sequence = false → baseOf r e = none → Agrees covered older)

omit [LinearOrder κ] in
private theorem judge_agrees (agrees : Agrees r covered judged) (operands : List V) :
    judge r operands judged = scan r covered operands (judged.map Prod.fst) := by
  induction judged generalizing operands with
  | nil => rfl
  | cons e _ ih =>
    obtain ⟨e, judgement⟩ := e
    obtain ⟨here, later⟩ := agrees
    rw [map_cons, scan_cons, judge]
    dsimp only
    rcases here with rfl | deletion
    · split
      · rfl
      · next uncovered =>
        cases isBase : baseOf r e with
        | none => exact ih (later (by simpa using uncovered) isBase) _
        | some => rfl
    · simp only [deletion, ite_self]

/-! ## Parts -/

variable {r : Reader κ V} {entries : List (InternalKey κ × V)}

/-- A part of a store: a memtable or a table file, or several of them. -/
structure Part (κ V : Type) [LinearOrder κ] where
  entries : List (InternalKey κ × V)
  tombstones : List (RangeTombstone κ)
  isFile : Bool

/-- What a part holds for the key is newer than what another one holds for it. -/
def Newer (u : κ) (a b : Part κ V) : Prop :=
  ∀ x ∈ a.entries, x.1.userKey = u → ∀ y ∈ b.entries, y.1.userKey = u → y.1.sequence < x.1.sequence

/-- The newest visible tombstone of a part over the key. -/
def Part.covering (r : Reader κ V) (part : Part κ V) : Nat :=
  largest (visibleCovering part.tombstones r.key r.sequence)

/-- The visible entries of some parts, each with whether a lookup takes it for covered, when it has seen a tombstone at
`seen` before: in a memtable under a newer tombstone, and in a file behind any tombstone. -/
def judged (r : Reader κ V) (seen : Nat) : List (Part κ V) → List ((InternalKey κ × V) × Bool)
  | [] => []
  | part :: rest =>
    if part.isFile ∧ 0 < seen then ((part :: rest).flatMap fun part => visibleEntries r part.entries).map (·, true)
    else
      let newest := max seen (part.covering r)
      (visibleEntries r part.entries).map (fun e => (e, decide (e.1.sequence < newest))) ++ judged r newest rest

/-- What a lookup tells of some parts, with a tombstone at `seen` and the operands found before them. -/
def readParts (r : Reader κ V) (seen : Nat) (operands : List V) (parts : List (Part κ V)) : Answer V :=
  (judge r operands (judged r seen parts)).finish r

omit [DecidableEq V] in
theorem mem_visibleEntries : e ∈ visibleEntries r entries ↔
      e ∈ entries ∧ e.1.userKey = r.key ∧ e.1.sequence ≤ r.sequence := by
  simp [visibleEntries]

omit [DecidableEq V] in
private theorem judged_entries (seen : Nat) (parts : List (Part κ V)) :
    (judged r seen parts).map Prod.fst = parts.flatMap fun part => visibleEntries r part.entries := by
  induction parts generalizing seen with
  | nil => rfl
  | cons part rest ih =>
    rw [judged]
    split
    · simp [Function.comp_def]
    · simp [ih, Function.comp_def]

section Step
variable {part : Part κ V} {rest : List (Part κ V)}

/-- A file is not read when a tombstone has been seen. -/
theorem readParts_stopped (isFile : part.isFile = true) (stop : 0 < seen) (operands : List V) :
    readParts r seen operands (part :: rest) = conclude r operands .noBaseValue := by
  rw [readParts, judged, if_pos ⟨isFile, stop⟩]
  cases (part :: rest).flatMap fun part => visibleEntries r part.entries <;> rfl

/-- One part at a time: a part is scanned with the newest tombstone of the
parts up to it. -/
theorem readParts_cons (reads : ¬(part.isFile ∧ 0 < seen)) (operands : List V) :
    readParts r seen operands (part :: rest) =
      match scan r (fun seq => seq < max seen (part.covering r)) operands (visibleEntries r part.entries) with
      | .done answer => answer
      | .more operands => readParts r (max seen (part.covering r)) operands rest := by
  rw [readParts, judged, if_neg reads, judge_append, scan]
  cases judge r operands ((visibleEntries r part.entries).map _) <;> rfl

end Step

/-! ## The parts of a store -/

/-- A memtable as a part. -/
def memPart (mem : MemTable κ V) : Part κ V := ⟨mem.entries.list, mem.tombstones, false⟩

/-- A table file as a part of what a reader can see. -/
def filePart (r : Reader κ V) (table : Table κ V) : Part κ V :=
  ⟨table.entries.list, if Reaches r table then table.tombstones else [], true⟩

/-- The memtables and the files of a store. -/
def partsOf (r : Reader κ V) (store : Store κ V) : List (Part κ V) :=
  store.memtables.map memPart ++ store.levels.flatten.map (filePart r)

/-- The memtables, the level 0 files and the deeper levels as one part each. -/
def componentsOf (r : Reader κ V) (store : Store κ V) : List (Part κ V) :=
  store.memtables.map memPart ++ (store.levels.head?.getD []).map (filePart r) ++ store.levels.tail.map fun files =>
      ⟨files.flatMap (·.entries.list), files.flatMap fun f => (filePart r f).tombstones, true⟩

omit [DecidableEq V] in
private theorem partsOf_entries (store : Store κ V) :
    ((partsOf r store).flatMap fun part => visibleEntries r part.entries) =
      visibleEntries r (allEntries store) := by
  simp only [partsOf, flatMap_append, flatMap_map, allEntries, visibleEntries,
    filter_append, filter_flatMap, memPart, filePart]

omit [DecidableEq V] in
private theorem componentsOf_entries (store : Store κ V) :
    ((componentsOf r store).flatMap fun part => visibleEntries r part.entries) =
      visibleEntries r (allEntries store) := by
  have levels : store.levels.flatten = store.levels.head?.getD [] ++ store.levels.tail.flatten := by
    cases store.levels <;> rfl
  simp only [componentsOf, allEntries, levels, flatMap_append, flatMap_map, visibleEntries, filter_append,
    filter_flatMap, memPart, filePart, append_assoc, ← flatMap_id, flatMap_assoc, id_eq]

omit [DecidableEq V] in
/-- The components in turn list the history from its newest entry on. -/
theorem visibleEntries_sorted (newest : (componentsOf r store).Pairwise (Newer r.key)) :
    (visibleEntries r (allEntries store)).Pairwise (fun a b => a.1 ≤ b.1) := by
  have sortedParts : ∀ part ∈ componentsOf r store, part.entries.Pairwise (fun a b => a.1 < b.1) := by
    refine forall_mem_append.mpr ⟨forall_mem_append.mpr ⟨forall_mem_map.mpr fun mem _ => mem.entries.sorted,
      forall_mem_map.mpr fun table _ => table.entries.sorted⟩, forall_mem_map.mpr fun files member => ?_⟩
    refine pairwise_flatMap.mpr ⟨fun table _ => table.entries.sorted, (store.sorted files member).imp ?_⟩
    exact fun apart x x_mem y y_mem => ((Table.inRange _ x x_mem).2.trans_lt apart).trans_le (Table.inRange _ y y_mem).1
  rw [← componentsOf_entries]
  refine pairwise_flatMap.mpr ⟨fun part member => ?_, newest.imp fun newer x x_mem y y_mem => ?_⟩
  · exact ((sortedParts part member).imp le_of_lt).filter _
  · obtain ⟨x_mem, x_key, -⟩ := mem_visibleEntries.mp x_mem
    obtain ⟨y_mem, y_key, -⟩ := mem_visibleEntries.mp y_mem
    refine (InternalKey.lt_iff.mpr (.inr ⟨x_key.trans y_key.symm, ?_⟩)).le
    exact pack_lt_iff.mpr (.inl (newer x x_mem x_key y y_mem y_key))

/-- **The parts in turn tell the naive fold** if a lookup judges rightly what it comes to. -/
theorem readParts_eq_readHistory (newest : (componentsOf r store).Pairwise (Newer r.key))
    (agrees : Agrees r (coveredBy r (allTombstones r store)) (judged r 0 (partsOf r store))) :
    readParts r 0 [] (partsOf r store) = readHistory r store := by
  have sorted : history r store = visibleEntries r (allEntries store) :=
    (visibleEntries_sorted newest).insertionSort_eq
  rw [readHistory, readParts, sorted, judge_agrees r agrees, judged_entries, partsOf_entries]

end Rocksdb.LookupHistory
