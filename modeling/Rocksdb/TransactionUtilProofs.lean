import Rocksdb.TransactionUtil
import Rocksdb.VersionGetProofs

/-! A conflict check finds the newest write of its key. Every part of a lookup
notes the sequence number of the first entry it sees, the parts are read from
the newest to the oldest, and where the search stops early the earliest
sequence number of a memtable bounds everything that was not read. -/
namespace Rocksdb.TransactionUtilProofs
open MergeHelper FilePicker PointLookup LookupHistory LookupProofs GetContext List
  VersionGetProofs TransactionUtil

variable {κ V : Type}

/-! ## Sequence numbers noted by the savers -/

section Savers
variable [DecidableEq V] {l : Lookup κ V}

theorem fullMerge_seq (base : BaseValue V) (s : Saver V) : (s.fullMerge l base).seq = s.seq := by
  unfold Saver.fullMerge
  split
  · split <;> rfl
  · rfl

private theorem savePlain_seq (value : V) (s : Saver V) : (s.savePlain l value).seq = s.seq := by
  unfold Saver.savePlain
  dsimp only
  split
  · rfl
  · split
    · exact fullMerge_seq _ _
    · rfl

private theorem saveEntity_seq (entity : V) (s : Saver V) : (s.saveEntity l entity).seq = s.seq := by
  unfold Saver.saveEntity
  dsimp only
  split
  · split <;> rfl
  · split
    · exact fullMerge_seq _ _
    · split
      · rfl
      · split <;> rfl

private theorem saveDeletion_seq (s : Saver V) : (s.saveDeletion l).seq = s.seq := by
  unfold Saver.saveDeletion
  dsimp only
  split
  · exact fullMerge_seq _ _
  · rfl

omit [DecidableEq V] in
private theorem saveOperand_seq (value : V) (s : Saver V) : (s.saveOperand l value).2.seq = s.seq := by
  unfold Saver.saveOperand
  split <;> rfl

/-- What the saver does with an entry does not change the number noted. -/
theorem saveType_seq (value : V) (s : Saver V) (type : ValueType) : (s.saveType l value type).2.seq = s.seq := by
  cases type <;> first
    | rfl
    | exact savePlain_seq _ _
    | exact saveEntity_seq _ _
    | exact saveDeletion_seq _
    | exact saveOperand_seq _ _

/-- A context that notes sequence numbers and has found something. -/
structure Noted (ctx : GetContext V) (seq : Nat) : Prop where
  seq : ctx.seq = some seq
  found : ctx.state ≠ .kNotFound

variable {ctx : GetContext V} {seq : Nat}

omit [DecidableEq V] in
theorem Noted.merging (noted : Noted ctx seq) (goesOn : ctx.state.returns = none) : ctx.state = .kMerge := by
  cases shape : ctx.state <;> simp_all [GetState.returns, noted.found]

private theorem mergeWith_noted (noted : Noted ctx seq) (base : BaseValue V) : Noted (ctx.mergeWith l base) seq := by
  unfold mergeWith
  split
  · split
    · exact ⟨noted.seq, noted.found⟩
    · refine ⟨noted.seq, ?_⟩
      split <;> simp
  · exact noted

private theorem pushDefaultColumn_noted (noted : Noted ctx seq) (entity : V) :
    Noted (ctx.pushDefaultColumn l entity) seq := by
  unfold pushDefaultColumn
  split
  · exact ⟨noted.seq, noted.found⟩
  · exact ⟨noted.seq, by simp⟩

/-- Whatever an entry is, something has been found after it. -/
theorem saveType_noted (same : ctx.seq = some seq) (value : V) (point : isPointType type) :
    Noted (ctx.saveType l value type).2 seq := by
  have found : Noted { ctx with state := .kFound } seq := ⟨same, by simp⟩
  have plain (value : V) : Noted (ctx.savePlain l value) seq := by
    unfold savePlain
    split
    · dsimp only
      split <;> exact ⟨same, by simp⟩
    · dsimp only
      split
      · exact mergeWith_noted found _
      · exact ⟨same, by simp⟩
    · next fresh _ => exact ⟨same, fresh⟩
  have entity : Noted (ctx.saveEntity l value) seq := by
    unfold saveEntity
    split
    · dsimp only
      split
      · split
        · exact ⟨same, by simp⟩
        · split <;> exact ⟨same, by simp⟩
      · exact pushDefaultColumn_noted found _
    · dsimp only
      split
      · exact mergeWith_noted found _
      · exact pushDefaultColumn_noted found _
    · next fresh _ => exact ⟨same, fresh⟩
  have deletion : Noted (ctx.saveDeletion l) seq := by
    unfold saveDeletion
    split
    · exact ⟨same, by simp⟩
    · dsimp only
      split
      · exact mergeWith_noted found _
      · exact ⟨same, by simp⟩
    · next fresh _ => exact ⟨same, fresh⟩
  cases type <;> first
    | exact plain _
    | exact entity
    | exact deletion
    | exact absurd point (by decide)
    | exact ⟨same, by simp [saveType]⟩

omit [DecidableEq V] in
theorem coveredType_zero (ikey : InternalKey κ) : coveredType 0 ikey = ikey.type :=
  if_neg fun both => Nat.not_lt_zero _ both.2

variable [LinearOrder κ] {s : Saver V}

private theorem saveValue_seq_kept (noted : s.seq ≠ kMaxSequenceNumber) (covering : Nat)
    (ikey : InternalKey κ) (value : V) : (s.saveValue l covering ikey value).2.seq = s.seq := by
  unfold Saver.saveValue
  split
  · rfl
  · rw [saveType_seq, Saver.noteSeq, if_neg noted]

variable (list : List (InternalKey κ × V))

private theorem saveAll_seq_kept (noted : s.seq ≠ kMaxSequenceNumber) :
    (saveAll (Saver.saveValue l 0) list s).seq = s.seq := by
  induction list generalizing s with
  | nil => rfl
  | cons e _ ih =>
    have kept := saveValue_seq_kept (l := l) noted 0 e.1 e.2
    rw [saveAll]
    split
    · rw [ih (by rwa [kept]), kept]
    · exact kept

/-- The saver notes the number of the first entry, and nothing happens without
an entry of the key. -/
theorem saveAll_seq (fresh : s.seq = kMaxSequenceNumber) (valid : ∀ e ∈ list, e.1.sequence ≠ kMaxSequenceNumber) :
    match (list.takeWhile (·.1.userKey = l.key)).head? with
    | none => saveAll (Saver.saveValue l 0) list s = s
    | some e => (saveAll (Saver.saveValue l 0) list s).seq = e.1.sequence := by
  cases list with
  | nil => rfl
  | cons e =>
    by_cases key : e.1.userKey = l.key
    · have noted : (s.saveValue l 0 e.1 e.2).2.seq = e.1.sequence := by
        rw [Saver.saveValue, if_neg (by simpa using key), saveType_seq, Saver.noteSeq, if_pos fresh]
        exact Nat.max_zero _
      rw [takeWhile_cons_of_pos (by simpa using key), head?_cons]
      dsimp only
      rw [saveAll]
      split
      · rw [saveAll_seq_kept _ (by rw [noted]; exact valid e (by simp)), noted]
      · exact noted
    · rw [takeWhile_cons_of_neg (by simpa using key), head?_nil]
      rw [saveAll, Saver.saveValue, if_pos key, if_neg (by simp)]

theorem saveAll_noted_kept
    (types : ∀ e ∈ list, isPointType e.1.type) (valid : seq ≠ kMaxSequenceNumber) (noted : Noted ctx seq) :
    Noted (saveAll (saveValue l 0) list ctx) seq := by
  induction list generalizing ctx with
  | nil => exact noted
  | cons e _ ih =>
    have kept : Noted (ctx.saveValue l 0 e.1 e.2).2 seq := by
      unfold saveValue
      split
      · exact noted
      · refine saveType_noted ?_ _ ?_
        · simp [noteSeq, noted.seq, valid]
        · rw [coveredType_zero]
          exact types e (by simp)
    rw [saveAll]
    split
    · exact ih (fun e member => types e (mem_cons_of_mem _ member)) kept
    · exact kept

/-- `GetContext` notes the number of the first entry. -/
theorem saveAll_noted (types : ∀ e ∈ list, isPointType e.1.type) (fresh : ctx.seq = some kMaxSequenceNumber)
    (valid : ∀ e ∈ list, e.1.sequence ≠ kMaxSequenceNumber) :
    match (list.takeWhile (·.1.userKey = l.key)).head? with
    | none => saveAll (saveValue l 0) list ctx = ctx
    | some e => Noted (saveAll (saveValue l 0) list ctx) e.1.sequence := by
  cases list with
  | nil => rfl
  | cons e =>
    by_cases key : e.1.userKey = l.key
    · have noted : Noted (ctx.saveValue l 0 e.1 e.2).2 e.1.sequence := by
        rw [saveValue, if_neg (by simpa using key)]
        refine saveType_noted (by simp [noteSeq, fresh]) _ ?_
        rw [coveredType_zero]
        exact types e (by simp)
      rw [takeWhile_cons_of_pos (by simpa using key), head?_cons]
      dsimp only
      rw [saveAll]
      split
      · exact saveAll_noted_kept _ (fun e member => types e (mem_cons_of_mem _ member))
          (valid e (by simp)) noted
      · exact noted
    · rw [takeWhile_cons_of_neg (by simpa using key), head?_nil]
      rw [saveAll, saveValue, if_pos key, if_neg (by simp)]

end Savers

variable [LinearOrder κ]

/-! ## Stores -/

/-- The memtables from the newest to the oldest. -/
def memtables (sv : SuperVersion κ V) : List (AgedMemTable κ V) :=
  sv.mem :: (sv.imm.memlist ++ sv.imm.memlistHistory)

/-- The entries of the memtables and files in the order they are read. -/
def sources (sv : SuperVersion κ V) : List (List (InternalKey κ × V)) :=
  (memtables sv).map (·.table.entries.list) ++ sv.levels.flatten.map (·.entries.list)

/-- What one source holds of a key is newer than what another one holds. -/
def NewerEntries (a b : List (InternalKey κ × V)) : Prop :=
  ∀ x ∈ a, ∀ y ∈ b, y.1.userKey = x.1.userKey → y.1.sequence < x.1.sequence

/-- A database as a conflict check finds it. It holds point writes only, each
source older ones than the source before it. The earliest sequence number of a
memtable is a lower bound of its content and an upper bound of everything
older. -/
structure CheckedStore (κ V : Type) [LinearOrder κ] where
  sv : SuperVersion κ V
  lastSequence : Nat
  bounded : lastSequence < kMaxSequenceNumber
  published : ∀ entries ∈ sources sv, ∀ e ∈ entries, e.1.sequence ≤ lastSequence
  memtablePoints : ∀ mem ∈ memtables sv, mem.table.tombstones = []
  filePoints : ∀ f ∈ sv.levels.flatten, f.tombstones = []
  sorted : ∀ files ∈ sv.levels.tail, files.Pairwise (fun a b => a.range.largestKey < b.range.smallestKey)
  newest : (sources sv).Pairwise NewerEntries
  lowerBound : ∀ mem ∈ memtables sv, ∀ e ∈ mem.table.entries.list, mem.earliestSeqno ≤ e.1.sequence
  upperBound : (memtables sv).Pairwise fun mem older =>
    older.earliestSeqno ≤ mem.earliestSeqno ∧ ∀ e ∈ older.table.entries.list, e.1.sequence ≤ mem.earliestSeqno
  filesBound : ∀ mem ∈ memtables sv, ∀ f ∈ sv.levels.flatten, ∀ e ∈ f.entries.list, e.1.sequence ≤ mem.earliestSeqno
  ages : ∀ mem ∈ memtables sv, mem.earliestSeqno ≤ kMaxSequenceNumber

/-- The memtables reach back to a sequence number: one of them is known to hold,
with those after it, everything newer. -/
def ReachesBack (sv : SuperVersion κ V) (snapSeq : Nat) : Prop :=
  ∃ mem ∈ memtables sv, mem.earliestSeqno ≠ kMaxSequenceNumber ∧ mem.earliestSeqno ≤ snapSeq

/-- The check of a key at a snapshot, without a read callback. -/
def CheckedStore.request (store : CheckedStore κ V) (format : ValueFormat κ V)
    (mergeOperator : Option (MergeOperator κ V)) (key : κ) (snapSeq : Nat) (cacheOnly : Bool) :
    CheckRequest κ V where
  format := format
  mergeOperator := mergeOperator
  lastSequence := store.lastSequence
  snapSeq := snapSeq
  key := key
  cacheOnly := cacheOnly
  snapChecker := none
  minUncommitted := kMaxSequenceNumber

/-! ## The newest entry a part shows -/

/-- A reader that sees what a lookup sees. -/
def readerOf (l : Lookup κ V) (bounded : l.sequence ≤ kMaxSequenceNumber) : Reader κ V where
  format := l.format
  op := ⟨fun _ _ _ => .newValue l.format.empty, fun _ _ => none, false⟩
  target := .value
  key := l.key
  sequence := l.sequence
  bounded := bounded
  snapshot := none

section Lookup
variable [DecidableEq V] {l : Lookup κ V} (bounded : l.sequence ≤ kMaxSequenceNumber)

/-- The visible entries of a list of parts, in the order they are read. -/
def shown (r : Reader κ V) (parts : List (List (InternalKey κ × V))) : List (InternalKey κ × V) :=
  parts.flatMap (visibleEntries r)

/-- A memtable gives the number of its newest visible entry of the key. -/
theorem memTableGet_seq (mem : MemTable κ V) (points : mem.tombstones = [])
    (valid : ∀ e ∈ mem.entries.list, e.1.sequence ≠ kMaxSequenceNumber) :
    match (visibleEntries (readerOf l bounded) mem.entries.list).head? with
    | none => memTableGet l mem start = (false, kMaxSequenceNumber, start)
    | some e => (memTableGet l mem start).2.1 = e.1.sequence := by
  have noted := saveAll_seq (l := l) (mem.entries.seek l.ikey)
    (s := ⟨.ok, false, false, kMaxSequenceNumber, [], none⟩) rfl
    fun e member => valid e (dropWhile_subset _ member)
  have same : (mem.entries.seek l.ikey).takeWhile (·.1.userKey = l.key) =
      visibleEntries (readerOf l bounded) mem.entries.list :=
    seek_takeWhile (r := readerOf l bounded) mem.entries
  rw [same] at noted
  by_cases empty : mem.entries.list.isEmpty = true
  · rw [List.isEmpty_iff] at empty
    simp [empty, visibleEntries, memTableGet, points]
  · by_cases mayContain : (mem.bloomFilter.map (· l.key)).getD true = true
    · cases first : (visibleEntries (readerOf l bounded) mem.entries.list).head? with
      | none =>
        rw [first] at noted
        simp [memTableGet, start, points, empty, mayContain, noted]
      | some =>
        rw [first] at noted
        simpa [memTableGet, start, points, empty, mayContain] using noted
    · have nothing := memTable_excluded (r := readerOf l bounded) mayContain
      rw [nothing]
      simp [memTableGet, start, points, empty, mayContain]

variable {seq : Nat}

private theorem getSeqFromList_kept (list : List (AgedMemTable κ V))
    (noted : seq ≠ kMaxSequenceNumber) (p : Progress V) : (getSeqFromList l list seq p).1 = seq := by
  induction list generalizing p with
  | nil => rfl
  | cons _ _ ih =>
    rw [getSeqFromList, if_neg noted]
    split
    · rfl
    · split
      · rfl
      · exact ih _

/-- A list of memtables gives the number of the newest visible entry. -/
theorem getSeqFromList_seq (list : List (AgedMemTable κ V)) (points : ∀ mem ∈ list, mem.table.tombstones = [])
    (valid : ∀ mem ∈ list, ∀ e ∈ mem.table.entries.list, e.1.sequence ≠ kMaxSequenceNumber) :
    match (shown (readerOf l bounded) (list.map (·.table.entries.list))).head? with
    | none => getSeqFromList l list kMaxSequenceNumber start = (kMaxSequenceNumber, start)
    | some e => (getSeqFromList l list kMaxSequenceNumber start).1 = e.1.sequence := by
  induction list with
  | nil => rfl
  | cons mem list ih =>
    have here := memTableGet_seq bounded mem.table (points mem (by simp))
      (valid mem (by simp))
    have rest := ih (fun mem member => points mem (mem_cons_of_mem _ member))
      fun mem member => valid mem (mem_cons_of_mem _ member)
    rw [map_cons, shown, flatMap_cons, head?_append]
    cases first : (visibleEntries (readerOf l bounded) mem.table.entries.list).head? with
    | none =>
      rw [first] at here
      rw [Option.none_or, getSeqFromList, here]
      exact rest
    | some e =>
      rw [first] at here
      have member : e ∈ mem.table.entries.list := (mem_visibleEntries.mp (mem_of_mem_head? first)).1
      rw [Option.some_or]
      dsimp only
      rw [getSeqFromList, if_pos rfl, here]
      split
      · rfl
      · split
        · rfl
        · exact getSeqFromList_kept list (valid mem (by simp) e member) _

/-- The file found something. -/
def Exists (out : Option Status × Status × Nat × GetContext V) : Prop :=
  out.1.isSome ∨ out.2.2.2.state = .kMerge

theorem tableCacheGet_points (table : Table κ V) (points : table.tombstones = []) (ctx : GetContext V) :
    tableCacheGet l table 0 ctx = (0, if table.filter l.key then
      saveAll (saveValue l 0) (table.entries.seek l.ikey) ctx else ctx) := by
  simp [tableCacheGet, points]

theorem visitTables_step (got : tableCacheGet l table 0 ctx = (0, ctx')) :
    visitTables l (table :: tables) (status, 0, ctx) =
      ctx'.state.returns.elim (visitTables l tables (.ok, 0, ctx')) fun status => (some status, .ok, 0, ctx') := by
  rw [visitTables, if_neg (lt_irrefl 0), got]
  dsimp only
  cases ctx'.state.returns <;> rfl

private theorem visitTables_kept (tables : List (Table κ V)) (points : ∀ t ∈ tables, t.tombstones = [])
    (valid : seq ≠ kMaxSequenceNumber) (status : Status)
    (noted : Noted ctx seq) (merging : ctx.state = .kMerge) :
    let out := visitTables l tables (status, 0, ctx)
    out.2.2.2.seq = some seq ∧ Exists out := by
  induction tables generalizing status ctx with
  | nil => exact ⟨noted.seq, .inr merging⟩
  | cons table _ ih =>
    intro out
    have got := tableCacheGet_points (l := l) table (points table (by simp)) ctx
    set after := if table.filter l.key then
      saveAll (saveValue l 0) (table.entries.seek l.ikey) ctx else ctx with afterDef
    have next : Noted after seq := by
      rw [afterDef]
      split
      · exact saveAll_noted_kept _
          (fun e member => table.entries.types e (dropWhile_subset _ member)) valid noted
      · exact noted
    rw [show out = _ from visitTables_step got]
    cases returns : after.state.returns with
    | some status => exact ⟨next.seq, .inl rfl⟩
    | none =>
      exact ih (fun t member => points t (mem_cons_of_mem _ member)) .ok next (next.merging returns)

/-- The files give the number of the newest visible entry, and whether there is
one. -/
theorem visitTables_seq (tables : List (Table κ V)) (points : ∀ t ∈ tables, t.tombstones = [])
    (valid : ∀ t ∈ tables, ∀ e ∈ t.entries.list, e.1.sequence ≠ kMaxSequenceNumber) (status : Status)
    (ctx : GetContext V) (fresh : ctx.seq = some kMaxSequenceNumber) (nothing : ctx.state = .kNotFound) :
    let out := visitTables l tables (status, 0, ctx)
    match (shown (readerOf l bounded) (tables.map (·.entries.list))).head? with
    | none => out.1 = none ∧ out.2.2.2 = ctx
    | some e => out.2.2.2.seq = some e.1.sequence ∧ Exists out := by
  induction tables generalizing status with
  | nil => exact ⟨rfl, rfl⟩
  | cons table tables ih =>
    intro out
    have validHere := valid table (by simp)
    have noted := saveAll_noted (l := l) (table.entries.seek l.ikey)
      (fun e member => table.entries.types e (dropWhile_subset _ member)) fresh
      fun e member => validHere e (dropWhile_subset _ member)
    have same : (table.entries.seek l.ikey).takeWhile (·.1.userKey = l.key) =
        visibleEntries (readerOf l bounded) table.entries.list :=
      seek_takeWhile (r := readerOf l bounded) table.entries
    rw [same] at noted
    have got := tableCacheGet_points (l := l) table (points table (by simp)) ctx
    have pointsRest : ∀ t ∈ tables, t.tombstones = [] := fun t member =>
      points t (mem_cons_of_mem _ member)
    have rest := ih pointsRest fun t member => valid t (mem_cons_of_mem _ member)
    rw [map_cons, shown, flatMap_cons, head?_append, show out = _ from visitTables_step got]
    cases first : (visibleEntries (readerOf l bounded) table.entries.list).head? with
    | none =>
      rw [first] at noted
      rw [noted, ite_self, Option.none_or, nothing]
      exact rest .ok
    | some e =>
      rw [first] at noted
      have member := (mem_visibleEntries.mp (mem_of_mem_head? first)).1
      have contained : table.filter l.key = true := by
        have key := (mem_visibleEntries.mp (mem_of_mem_head? first)).2.1
        rw [← show e.1.userKey = l.key from key]
        exact table.noFalseNegatives e member
      rw [if_pos contained, Option.some_or]
      cases returns : (saveAll (saveValue l 0) (table.entries.seek l.ikey) ctx).state.returns with
      | some => exact ⟨noted.seq, .inl rfl⟩
      | none =>
        exact visitTables_kept tables pointsRest (validHere e member) .ok noted (noted.merging returns)

end Lookup

section Store
variable (store : CheckedStore κ V) {l : Lookup κ V} (bounded : l.sequence ≤ kMaxSequenceNumber)

variable {e : InternalKey κ × V}

theorem sequence_valid (member : entries ∈ sources store.sv)
    (e_mem : e ∈ entries) : e.1.sequence ≠ kMaxSequenceNumber :=
  ((store.published entries member e e_mem).trans_lt store.bounded).ne

private theorem file_source (member : table ∈ store.sv.levels.flatten) : table.entries.list ∈ sources store.sv :=
  mem_append_right _ (mem_map.mpr ⟨table, member, rfl⟩)

/-- The files alone, as the file picker sees them. -/
def fileStore : Store κ V where
  memtables := []
  levels := store.sv.levels
  sorted := store.sorted
  whole := by
    intro files top f f_mem t t_mem
    have member := List.mem_flatten.mpr ⟨files, List.mem_of_mem_head? top, f_mem⟩
    rw [store.filePoints f member] at t_mem
    cases t_mem

variable [DecidableEq V] in
/-- **`Version::Get` gives the number of the newest visible entry of the
files.** -/
theorem versionGet_seq : match (shown (readerOf l bounded) (store.sv.levels.flatten.map (·.entries.list))).head? with
    | none => versionKeyExists l store.sv.levels (some kMaxSequenceNumber) start = false
    | some e => (versionGet l store.sv.levels (some kMaxSequenceNumber) start).1 = some e.1.sequence ∧
      versionKeyExists l store.sv.levels (some kMaxSequenceNumber) start = true := by
  set levels := store.sv.levels
  set r := readerOf l bounded with rDef
  set tables := (picked r (fileStore store)).filterMap (tableAt levels) with tablesDef
  set ctx : GetContext V := ⟨.kNotFound, some kMaxSequenceNumber, [], none⟩
  have atAll : (positionsFrom 0 levels).filterMap (tableAt levels) = levels.flatten :=
    positionsFrom_filterMap 0 levels
  have isTable : ∀ table ∈ tables, table ∈ levels.flatten := by
    intro table member
    obtain ⟨found, -, at_found⟩ := mem_filterMap.mp member
    rw [← atAll]
    exact mem_filterMap.mpr ⟨found, mem_positionsFrom (Nat.zero_le _) at_found, at_found⟩
  have sameShown : shown r (tables.map (·.entries.list)) = shown r (levels.flatten.map (·.entries.list)) := by
    rw [shown, shown, flatMap_map, flatMap_map, tablesDef, picked_eq_filter, ← atAll]
    refine flatMap_filterMap_filter _ _ _ _ fun found _ unpicked _ at_found => ?_
    exact (filePart_silent (not_reaches_of_not_picked (fileStore store) (of_decide_eq_false unpicked) at_found)).1
  set ran := versionLoop l levels (budget (ranges levels) + 1) (newPicker (ranges levels) l.ikey) (.ok, 0, ctx)
  have loop : ran = visitTables l tables (.ok, 0, ctx) :=
    versionLoop_eq l levels _ _ _ fun _ member => picked_isSome (r := r) (fileStore store) member
  have visited := visitTables_seq bounded tables (fun t member => store.filePoints t (isTable t member))
    (fun t member _ e_mem => sequence_valid store (file_source store (isTable t member)) e_mem) .ok
    ctx rfl rfl
  rw [← loop, ← rDef, sameShown] at visited
  have seqs : (versionGet l levels (some kMaxSequenceNumber) start).1 = ran.2.2.2.seq := by
    unfold versionGet
    simp only [start, if_true]
    split <;> rfl
  have exists_iff : versionKeyExists l levels (some kMaxSequenceNumber) start =
      (ran.1.isSome || decide (ran.2.2.2.state = .kMerge)) := rfl
  rw [seqs, exists_iff]
  cases first : (shown r (levels.flatten.map (·.entries.list))).head? with
  | none =>
    rw [first] at visited
    rw [visited.1, visited.2]
    rfl
  | some =>
    rw [first] at visited
    exact ⟨visited.1, by simpa [Exists] using visited.2⟩

/-- The entries of the key are shown from the newest on. -/
theorem shown_sorted (r : Reader κ V) :
    (shown r (sources store.sv)).Pairwise (fun a b => b.1.sequence ≤ a.1.sequence) := by
  have sorted : ∀ entries ∈ sources store.sv, entries.Pairwise (fun a b => a.1 < b.1) := by
    exact forall_mem_append.mpr ⟨forall_mem_map.mpr fun mem _ => mem.table.entries.sorted,
      forall_mem_map.mpr fun table _ => table.entries.sorted⟩
  refine pairwise_flatMap.mpr ⟨fun entries member => ?_, store.newest.imp fun newer x x_mem y y_mem => ?_⟩
  · refine ((sorted entries member).filter _).imp_of_mem fun a_mem b_mem lt => ?_
    have a_key := (mem_visibleEntries.mp a_mem).2.1
    have b_key := (mem_visibleEntries.mp b_mem).2.1
    exact InternalKey.sequence_le_of_le lt.le (a_key.trans b_key.symm)
  · obtain ⟨x_mem, x_key, -⟩ := mem_visibleEntries.mp x_mem
    obtain ⟨y_mem, y_key, -⟩ := mem_visibleEntries.mp y_mem
    exact (newer x x_mem y y_mem (y_key.trans x_key.symm)).le

theorem shown_append (r : Reader κ V) (parts parts' : List (List (InternalKey κ × V))) :
    shown r (parts ++ parts') = shown r parts ++ shown r parts' := flatMap_append

variable {r : Reader κ V}

theorem mem_shown :
    e ∈ shown r parts ↔ ∃ entries ∈ parts, e ∈ entries ∧ e.1.userKey = r.key ∧ e.1.sequence ≤ r.sequence := by
  simp only [shown, mem_flatMap, mem_visibleEntries]

/-- The sources in the order `GetLatestSequenceForKey` reads them. -/
theorem shown_sources (r : Reader κ V) :
    shown r (sources store.sv) = visibleEntries r store.sv.mem.table.entries.list ++
      (shown r (store.sv.imm.memlist.map (·.table.entries.list)) ++
        (shown r (store.sv.imm.memlistHistory.map (·.table.entries.list)) ++
          shown r (store.sv.levels.flatten.map (·.entries.list)))) := by
  simp only [sources, memtables, map_cons, map_append, shown, flatMap_append, flatMap_cons, append_assoc, cons_append]

/-- How a search for the latest sequence number ends: with a read error, with
the newest entry, or without one because everything unread is too old. -/
def Latest (r : Reader κ V) (cacheOnly : Bool) (lowerBoundSeq : Nat) (latest : LatestSequence) : Prop :=
  latest.status.isError ∨
  (latest.foundRecordForKey ∧ ∃ e, (shown r (sources store.sv)).head? = some e ∧ latest.seq = e.1.sequence) ∨
  (latest.foundRecordForKey = false ∧ ((∀ e ∈ shown r (sources store.sv), e.1.sequence < lowerBoundSeq) ∨
      cacheOnly ∧ shown r ((memtables store.sv).map (·.table.entries.list)) = []))

/-- What is older than a memtable is below every bound its earliest number is
below. -/
theorem older_lt (newer : List (AgedMemTable κ V)) (split : memtables store.sv = newer ++ mem :: older)
    (lt : mem.earliestSeqno < lowerBoundSeq)
    (shownOlder : e ∈ shown r (older.map (·.table.entries.list)) ++
      shown r (store.sv.levels.flatten.map (·.entries.list))) : e.1.sequence < lowerBoundSeq := by
  refine lt_of_le_of_lt ?_ lt
  rcases mem_append.mp shownOlder with inMemory | file
  · obtain ⟨entries, member, e_mem, -⟩ := mem_shown.mp inMemory
    obtain ⟨later, later_mem, rfl⟩ := mem_map.mp member
    have bounds := store.upperBound
    rw [split] at bounds
    exact ((pairwise_cons.mp (pairwise_append.mp bounds).2.1).1 later later_mem).2 e e_mem
  · obtain ⟨_, member, e_mem, -⟩ := mem_shown.mp file
    obtain ⟨table, table_mem, rfl⟩ := mem_map.mp member
    exact store.filesBound mem (by rw [split]; simp) table table_mem e e_mem

/-- One stage of the search: it ends with what this part shows first, or goes on
when the part shows nothing. -/
theorem latest_stage {next} (whole : shown r (sources store.sv) = part ++ rest) (got : Nat × Progress V)
    (here : match part.head? with
      | none => got = (kMaxSequenceNumber, start)
      | some e => got.1 = e.1.sequence)
    (goesOn : part = [] → got = (kMaxSequenceNumber, start) → Latest store r cacheOnly lowerBoundSeq next) :
    Latest store r cacheOnly lowerBoundSeq (if got.2.status.isError then ⟨got.2.status, got.1, false⟩
      else if got.1 ≠ kMaxSequenceNumber then ⟨.ok, got.1, true⟩ else next) := by
  cases first : part.head? with
  | some e =>
    rw [first] at here
    have firstOfAll : (shown r (sources store.sv)).head? = some e := by
      rw [whole, head?_append, first]; rfl
    obtain ⟨_, member, e_mem, -⟩ := mem_shown.mp (mem_of_mem_head? firstOfAll)
    split
    · next error => exact .inl error
    · rw [here, if_pos (sequence_valid store member e_mem)]
      exact .inr (.inl ⟨rfl, e, firstOfAll, rfl⟩)
  | none =>
    rw [first] at here
    have next := goesOn (head?_eq_none_iff.mp first) here
    rw [here, if_neg (by simp [start, Status.isError]), if_neg (by simp)]
    exact next

variable [DecidableEq V] in
/-- **The latest sequence number of the key.** -/
theorem getLatestSequenceForKey_spec (cacheOnly : Bool) (lowerBoundSeq : Nat) :
    Latest store (readerOf l bounded) cacheOnly lowerBoundSeq
      (getLatestSequenceForKey l store.sv cacheOnly lowerBoundSeq) := by
  set r := readerOf l bounded with rDef
  have isMem : store.sv.mem ∈ memtables store.sv := by simp [memtables]
  have isListed : ∀ mem ∈ store.sv.imm.memlist, mem ∈ memtables store.sv := by simp_all [memtables]
  have isOld : ∀ mem ∈ store.sv.imm.memlistHistory, mem ∈ memtables store.sv := by simp_all [memtables]
  have valid {mem : AgedMemTable κ V} (member : mem ∈ memtables store.sv) :
      ∀ e ∈ mem.table.entries.list, e.1.sequence ≠ kMaxSequenceNumber :=
    fun e => sequence_valid store (mem_append_left _ (mem_map.mpr ⟨mem, member, rfl⟩))
  have whole := shown_sources store r
  unfold getLatestSequenceForKey
  -- the active memtable
  have inMem := memTableGet_seq bounded store.sv.mem.table (store.memtablePoints _ isMem) (valid isMem)
  rcases gotMem : memTableGet l store.sv.mem.table start with ⟨_, got⟩
  refine latest_stage store whole got (by split at inMem <;> simp_all) ?_
  rintro noMem rfl
  rw [noMem, nil_append] at whole
  split
  · next stop =>
    refine .inr (.inr ⟨rfl, .inl fun e member => ?_⟩)
    refine older_lt store [] rfl stop.2 (r := r) ?_
    rw [whole] at member
    rwa [map_append, shown_append, append_assoc]
  -- the immutable memtables
  have inList := getSeqFromList_seq bounded store.sv.imm.memlist
    (fun mem member => store.memtablePoints _ (isListed mem member))
    fun mem member => valid (isListed mem member)
  rcases gotList : getSeqFromList l store.sv.imm.memlist kMaxSequenceNumber start with got
  rw [gotList, ← rDef] at inList
  refine latest_stage store whole got inList ?_
  rintro noListed rfl
  rw [noListed, nil_append] at whole
  split
  · next stop =>
    refine .inr (.inr ⟨rfl, .inl fun e member => ?_⟩)
    rw [whole] at member
    cases last : store.sv.imm.memlist.getLast? with
    | none => simp [MemTableListVersion.getEarliestSequenceNumber, last] at stop
    | some oldest =>
      obtain ⟨newer, split⟩ := getLast?_eq_some_iff.mp last
      have parts : memtables store.sv = (store.sv.mem :: newer) ++ oldest :: store.sv.imm.memlistHistory := by
        simp [memtables, split]
      refine older_lt store _ parts ?_ member
      simpa [MemTableListVersion.getEarliestSequenceNumber, last] using stop.2
  -- the memtable history
  have inHistory := getSeqFromList_seq bounded store.sv.imm.memlistHistory
    (fun mem member => store.memtablePoints _ (isOld mem member))
    fun mem member => valid (isOld mem member)
  rcases gotHistory : getSeqFromList l store.sv.imm.memlistHistory kMaxSequenceNumber start with got
  rw [gotHistory, ← rDef] at inHistory
  refine latest_stage store whole got inHistory ?_
  rintro noOld rfl
  rw [noOld, nil_append] at whole
  split
  · next only =>
    refine .inr (.inr ⟨rfl, .inr ⟨only, ?_⟩⟩)
    rw [memtables, map_cons, map_append, shown, flatMap_cons, noMem,
      nil_append, ← shown, shown_append, noListed, noOld]
    rfl
  -- the table files
  have inFiles := versionGet_seq store bounded
  rw [← rDef, ← whole] at inFiles
  split at inFiles
  · next nothing =>
    refine .inr (.inr ⟨inFiles, .inl fun e member => ?_⟩)
    rw [head?_eq_none_iff.mp nothing] at member
    cases member
  · next e first =>
    refine .inr (.inl ⟨inFiles.2, e, first, ?_⟩)
    dsimp only
    rw [inFiles.1]
    rfl

/-- The earliest number of the memtables is that of the oldest one. -/
theorem earliest_spec : ∃ mem ∈ memtables store.sv,
    store.sv.getEarliestMemTableSequenceNumber true = mem.earliestSeqno ∧
      ∀ other ∈ memtables store.sv, mem.earliestSeqno ≤ other.earliestSeqno := by
  have last (newer : List (AgedMemTable κ V)) (oldest : AgedMemTable κ V)
      (split : memtables store.sv = newer ++ [oldest]) :
      ∀ other ∈ memtables store.sv, oldest.earliestSeqno ≤ other.earliestSeqno := by
    have bounds := store.upperBound
    rw [split] at bounds ⊢
    refine forall_mem_append.mpr ⟨fun other isNewer => ?_, forall_mem_singleton.mpr le_rfl⟩
    exact ((pairwise_append.mp bounds).2.2 other isNewer oldest (by simp)).1
  have isMem : store.sv.mem ∈ memtables store.sv := by simp [memtables]
  -- an oldest memtable of unknown age makes all of them so
  have known {oldest : AgedMemTable κ V}
      (least : ∀ other ∈ memtables store.sv, oldest.earliestSeqno ≤ other.earliestSeqno)
      (same : store.sv.imm.getEarliestSequenceNumber true = oldest.earliestSeqno) :
      store.sv.getEarliestMemTableSequenceNumber true = oldest.earliestSeqno := by
    unfold SuperVersion.getEarliestMemTableSequenceNumber
    rw [same]
    dsimp only
    split
    · next unknown =>
      exact le_antisymm (by rw [unknown]; exact store.ages _ isMem) (least _ isMem)
    · rfl
  cases history : store.sv.imm.memlistHistory.getLast? with
  | some oldest =>
    obtain ⟨newer, split⟩ := getLast?_eq_some_iff.mp history
    have least := last (store.sv.mem :: (store.sv.imm.memlist ++ newer)) oldest (by simp [memtables, split])
    refine ⟨oldest, by simp [memtables, split], known least ?_, least⟩
    simp [MemTableListVersion.getEarliestSequenceNumber, history]
  | none =>
    cases listed : store.sv.imm.memlist.getLast? with
    | some oldest =>
      obtain ⟨newer, split⟩ := getLast?_eq_some_iff.mp listed
      have noHistory := getLast?_eq_none_iff.mp history
      have least := last (store.sv.mem :: newer) oldest (by simp [memtables, split, noHistory])
      refine ⟨oldest, by simp [memtables, split], known least ?_, least⟩
      simp [MemTableListVersion.getEarliestSequenceNumber, history, listed]
    | none =>
      have noHistory := getLast?_eq_none_iff.mp history
      have noList := getLast?_eq_none_iff.mp listed
      refine ⟨store.sv.mem, isMem, ?_, last [] _ (by simp [memtables, noList, noHistory])⟩
      simp [SuperVersion.getEarliestMemTableSequenceNumber,
        MemTableListVersion.getEarliestSequenceNumber, history, listed]

private theorem reachesBack_iff (snapSeq : Nat) : ReachesBack store.sv snapSeq ↔
    store.sv.getEarliestMemTableSequenceNumber true ≠ kMaxSequenceNumber ∧
      store.sv.getEarliestMemTableSequenceNumber true ≤ snapSeq := by
  obtain ⟨oldest, member, same, least⟩ := earliest_spec store
  rw [same]
  refine ⟨?_, fun known => ⟨oldest, member, known⟩⟩
  rintro ⟨mem, mem_mem, known, reached⟩
  have le := least mem mem_mem
  exact ⟨fun unknown => known (le_antisymm (store.ages mem mem_mem) (unknown ▸ le)), le.trans reached⟩

private theorem sequence_le_first (first : (shown r (sources store.sv)).head? = some e) :
    ∀ other ∈ shown r (sources store.sv), other.1.sequence ≤ e.1.sequence := by
  have sorted := shown_sorted store r
  obtain ⟨_, list⟩ := head?_eq_some_iff.mp first
  rw [list] at sorted ⊢
  exact forall_mem_cons.mpr ⟨le_rfl, (pairwise_cons.mp sorted).1⟩

end Store

/-- Whether a check has to read files: the memtables may not hold every write
since the snapshot. -/
def needToReadSst (sv : SuperVersion κ V) (snapSeq : Nat) : Bool :=
  let earliestSeq := sv.getEarliestMemTableSequenceNumber true
  decide (earliestSeq = kMaxSequenceNumber) || decide (snapSeq < earliestSeq) ||
    decide (kMaxSequenceNumber ≤ earliestSeq)

theorem needToReadSst_iff (store : CheckedStore κ V) (snapSeq : Nat) :
    needToReadSst store.sv snapSeq = true ↔ ¬ReachesBack store.sv snapSeq := by
  obtain ⟨oldest, oldest_mem, same, -⟩ := earliest_spec store
  have age := store.ages oldest oldest_mem
  rw [reachesBack_iff, needToReadSst, Bool.or_eq_true, Bool.or_eq_true, decide_eq_true_eq,
    decide_eq_true_eq, decide_eq_true_eq, same]
  omega

variable [DecidableEq V]

/-- `CheckKeyForConflicts` of a key at a snapshot, without a read callback. -/
def CheckedStore.check (store : CheckedStore κ V) (format : ValueFormat κ V)
    (mergeOperator : Option (MergeOperator κ V)) (key : κ) (snapSeq : Nat) (cacheOnly : Bool) :
    CheckStatus :=
  checkKeyForConflicts store.sv (store.request format mergeOperator key snapSeq cacheOnly)

section Check
variable (store : CheckedStore κ V) (format : ValueFormat κ V)
  (mergeOperator : Option (MergeOperator κ V)) (key : κ) (snapSeq : Nat) (cacheOnly : Bool)

/-- What a check without a read callback does: it gives up, or compares the
latest sequence number with the snapshot. -/
theorem checkKey_cases :
    let result := store.check format mergeOperator key snapSeq cacheOnly
    let latest := getLatestSequenceForKey (store.request format mergeOperator key snapSeq cacheOnly).lookup store.sv
      (!needToReadSst store.sv snapSeq) snapSeq
    (cacheOnly && needToReadSst store.sv snapSeq) = true ∧ result.isTryAgain = true ∨
    (cacheOnly && needToReadSst store.sv snapSeq) = false ∧
      result = if latest.status.isError then .failed latest.status
        else if latest.foundRecordForKey && snapSeq < latest.seq then .busy else .ok := by
  intro result latest
  have resultDef : result = let first : CheckStatus := if cacheOnly && needToReadSst store.sv snapSeq then
          (if store.sv.getEarliestMemTableSequenceNumber true = kMaxSequenceNumber then unknownAge snapSeq
            else tooNew snapSeq (store.sv.getEarliestMemTableSequenceNumber true))
        else .ok
      if first ≠ .ok then first
      else if latest.status.isError then .failed latest.status
      else if latest.foundRecordForKey then (if decide (snapSeq < latest.seq) then .busy else .ok)
      else .ok := by
    rfl
  rw [resultDef]
  cases gaveUp : cacheOnly && needToReadSst store.sv snapSeq with
  | true =>
    refine .inl ⟨rfl, ?_⟩
    rw [if_pos rfl]
    split
    · simp [unknownAge, CheckStatus.isTryAgain]
    · simp [tooNew, CheckStatus.isTryAgain]
  | false =>
    refine .inr ⟨rfl, ?_⟩
    cases latest.foundRecordForKey <;> simp

variable {store} {format} {mergeOperator} {key} {snapSeq} {cacheOnly}

/-- A check that succeeds found nothing above the snapshot. -/
theorem check_ok (ok : store.check format mergeOperator key snapSeq cacheOnly = .ok) :
    ∀ entries ∈ sources store.sv, ∀ e ∈ entries, e.1.userKey = key → e.1.sequence ≤ snapSeq := by
  intro entries member e e_mem isKey
  rcases checkKey_cases store format mergeOperator key snapSeq cacheOnly with
    ⟨-, isTryAgain⟩ | ⟨-, resultDef⟩
  · rw [ok] at isTryAgain
    cases isTryAgain
  · rw [ok] at resultDef
    have seen : e ∈ shown (readerOf (store.request format mergeOperator key snapSeq cacheOnly).lookup
        store.bounded.le) (sources store.sv) :=
      mem_shown.mpr ⟨entries, member, e_mem, isKey, store.published entries member e e_mem⟩
    rcases getLatestSequenceForKey_spec store (l := (store.request format mergeOperator key snapSeq
        cacheOnly).lookup) store.bounded.le (!needToReadSst store.sv snapSeq) snapSeq with
      error | ⟨found, newest, first, seq⟩ | ⟨-, old⟩
    · rw [if_pos error] at resultDef
      cases resultDef
    · refine (sequence_le_first store first e seen).trans (not_lt.mp fun above => ?_)
      rw [found, seq] at resultDef
      split at resultDef
      · cases resultDef
      · rw [if_pos (by simpa using above)] at resultDef
        cases resultDef
    · rcases old with below | ⟨cached, noMemtable⟩
      · exact (below e seen).le
      · -- everything is in the files, and those are older than the memtables reach back
        have reached := (needToReadSst_iff store snapSeq).not.mp (by simpa using cached)
        obtain ⟨mem, mem_mem, -, reached⟩ := not_not.mp reached
        rw [sources, shown_append, noMemtable, nil_append] at seen
        obtain ⟨_, file, e_mem, -⟩ := mem_shown.mp seen
        obtain ⟨table, table_mem, rfl⟩ := mem_map.mp file
        exact (store.filesBound mem mem_mem table table_mem e e_mem).trans reached

/-- A check that fails as busy found an entry above the snapshot. -/
theorem check_busy (busy : store.check format mergeOperator key snapSeq cacheOnly = .busy) :
    ∃ entries ∈ sources store.sv, ∃ e ∈ entries, e.1.userKey = key ∧ snapSeq < e.1.sequence := by
  rcases checkKey_cases store format mergeOperator key snapSeq cacheOnly with
    ⟨-, isTryAgain⟩ | ⟨-, resultDef⟩
  · rw [busy] at isTryAgain
    cases isTryAgain
  · rw [busy] at resultDef
    rcases getLatestSequenceForKey_spec store (l := (store.request format mergeOperator key snapSeq
        cacheOnly).lookup) store.bounded.le (!needToReadSst store.sv snapSeq) snapSeq with
      error | ⟨-, newest, first, seq⟩ | ⟨notFound, -⟩
    · rw [if_pos error] at resultDef
      cases resultDef
    · obtain ⟨entries, member, e_mem, isKey, -⟩ := mem_shown.mp (mem_of_mem_head? first)
      refine ⟨entries, member, newest, e_mem, isKey, not_le.mp fun below => ?_⟩
      rw [seq] at resultDef
      split at resultDef
      · cases resultDef
      · rw [if_neg (by simp [below.not_gt])] at resultDef
        cases resultDef
    · rw [notFound] at resultDef
      split at resultDef <;> simp at resultDef

/-- A check gives up exactly when it may not read the files it would have to. -/
theorem check_isTryAgain_iff : (store.check format mergeOperator key snapSeq cacheOnly).isTryAgain ↔
      cacheOnly ∧ ¬ReachesBack store.sv snapSeq := by
  rw [← needToReadSst_iff]
  rcases checkKey_cases store format mergeOperator key snapSeq cacheOnly with
    ⟨gaveUp, isTryAgain⟩ | ⟨looked, resultDef⟩
  · exact iff_of_true isTryAgain (by simpa using gaveUp)
  · refine iff_of_false ?_ (by simpa using looked)
    rw [resultDef]
    split
    · simp [CheckStatus.isTryAgain]
    · split <;> simp [CheckStatus.isTryAgain]

end Check

/-- **Conflict checking is exact.** A check succeeds only if nothing was written
to the key after the snapshot and fails as busy only if something was. It gives
up exactly when it may not read files and the memtables do not reach back to
the snapshot. -/
theorem check_key_exact (store : CheckedStore κ V) (format : ValueFormat κ V)
    (mergeOperator : Option (MergeOperator κ V)) (key : κ) (snapSeq : Nat) (cacheOnly : Bool) :
    (store.check format mergeOperator key snapSeq cacheOnly = .ok →
      ∀ entries ∈ sources store.sv, ∀ e ∈ entries, e.1.userKey = key → e.1.sequence ≤ snapSeq) ∧
    (store.check format mergeOperator key snapSeq cacheOnly = .busy →
      ∃ entries ∈ sources store.sv, ∃ e ∈ entries, e.1.userKey = key ∧ snapSeq < e.1.sequence) ∧
    ((store.check format mergeOperator key snapSeq cacheOnly).isTryAgain ↔
      cacheOnly ∧ ¬ReachesBack store.sv snapSeq) :=
  ⟨check_ok, check_busy, check_isTryAgain_iff⟩

/-- A memtable with a recent write to the key 7, and an older memtable. -/
def twoMemtables : CheckedStore Nat Nat where
  sv :=
    { mem := ⟨⟨⟨[(⟨7, 5, .kTypeValue⟩, 0)], by decide, by decide⟩, [], none, nofun⟩, 4⟩
      imm :=
        ⟨[⟨⟨⟨[(⟨7, 3, .kTypeValue⟩, 0), (⟨8, 2, .kTypeValue⟩, 0)], by decide, by decide⟩, [], none, nofun⟩, 1⟩], []⟩
      levels := [] }
  lastSequence := 6
  bounded := by decide
  published := by decide
  memtablePoints := by decide
  filePoints _ member := nomatch member
  sorted _ member := nomatch member
  newest := by unfold NewerEntries; decide
  lowerBound := by decide
  upperBound := by decide
  filesBound := by decide
  ages := by decide

/-- The key 8 was not written after 4, the key 7 was, and the memtables do not reach back to 0. -/
theorem check_key_of_twoMemtables :
    (∀ entries ∈ sources twoMemtables.sv, ∀ e ∈ entries, e.1.userKey = 8 → e.1.sequence ≤ 4) ∧
    (∃ entries ∈ sources twoMemtables.sv, ∃ e ∈ entries, e.1.userKey = 7 ∧ 4 < e.1.sequence) ∧
    ¬ReachesBack twoMemtables.sv 0 := by
  have exactly := check_key_exact twoMemtables
    ⟨0, fun v => (v, 0), fun _ => .ok 0, fun _ => .ok [], fun _ v => .ok v⟩ none
  exact ⟨(exactly 8 4 true).1 rfl, (exactly 7 4 true).2.1 rfl, ((exactly 7 0 true).2.2.mp rfl).2⟩

end Rocksdb.TransactionUtilProofs
