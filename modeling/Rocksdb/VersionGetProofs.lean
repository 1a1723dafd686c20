import Rocksdb.LookupProofs

/-! `Version::Get` over the files the picker returns, and with it the whole
lookup. Files the picker leaves out hold nothing that could change the answer.
Stopping at the first tombstone over the key is right where the parts agree
with the history of the key. -/
namespace Rocksdb.VersionGetProofs
open MergeHelper FilePicker FilePickerProofs PointLookup LookupHistory LookupProofs InternalKey List
  Lib.SortedLists

/-! ## Positions of files -/

section Positions
variable {α : Type}

/-- The order in which positions are read. -/
def Earlier (a b : Nat × Nat) : Prop := a.1 < b.1 ∨ a.1 = b.1 ∧ a.2 < b.2

instance : Std.Irrefl Earlier := ⟨fun a => by unfold Earlier; omega⟩

instance : Std.Antisymm Earlier := ⟨fun a b => by unfold Earlier; omega⟩

/-- Every position of some levels, in order. -/
def positionsFrom : Nat → List (List α) → List (Nat × Nat)
  | _, [] => []
  | level, files :: deeper => (List.range files.length).map (level, ·) ++ positionsFrom (level + 1) deeper

/-- What is at a position. -/
def itemAt (start : Nat) (levels : List (List α)) (found : Nat × Nat) : Option α :=
  levels[found.1 - start]?.bind (·[found.2]?)

variable {found : Nat × Nat}

theorem itemAt_succ (below : start + 1 ≤ found.1) :
    itemAt start (files :: deeper) found = itemAt (start + 1) deeper found := by
  rw [itemAt, itemAt, show found.1 - start = found.1 - (start + 1) + 1 by omega, getElem?_cons_succ]

theorem le_of_mem_positionsFrom (member : found ∈ positionsFrom start levels) : start ≤ found.1 := by
  induction levels generalizing start with
  | nil => cases member
  | cons _ _ ih =>
    rcases mem_append.mp member with here | below
    · obtain ⟨_, -, rfl⟩ := mem_map.mp here
      exact le_rfl
    · exact Nat.le_of_succ_le (ih below)

private theorem positionsFrom_earlier (start : Nat) (levels : List (List α)) :
    (positionsFrom start levels).Pairwise Earlier := by
  induction levels generalizing start with
  | nil => exact .nil
  | cons _ _ ih =>
    refine pairwise_append.mpr ⟨?_, ih (start + 1), ?_⟩
    · exact pairwise_map.mpr (pairwise_lt_range.imp fun lt => .inr ⟨rfl, lt⟩)
    · intro _ here _ below
      obtain ⟨_, -, rfl⟩ := mem_map.mp here
      exact .inl (le_of_mem_positionsFrom below)

theorem mem_positionsFrom (below : start ≤ found.1) (at_found : itemAt start levels found = some item) :
    found ∈ positionsFrom start levels := by
  induction levels generalizing start with
  | nil => simp [itemAt] at at_found
  | cons _ _ ih =>
    rcases below.eq_or_lt with rfl | lt
    · simp only [itemAt, Nat.sub_self, List.getElem?_cons_zero, Option.bind_some] at at_found
      obtain ⟨bound, -⟩ := List.getElem?_eq_some_iff.mp at_found
      exact mem_append_left _ (mem_map.mpr ⟨found.2, mem_range.mpr bound, rfl⟩)
    · exact mem_append_right _ (ih lt (by rwa [itemAt_succ lt] at at_found))

private theorem filterMap_range (files : List α) :
    (range files.length).filterMap (fun index => files[index]?) = files := by
  induction files with
  | nil => rfl
  | cons _ _ ih =>
    rw [length_cons, range_succ_eq_map, filterMap_cons, filterMap_map]
    simpa [Function.comp_def] using ih

theorem positionsFrom_filterMap (start : Nat) (levels : List (List α)) :
    (positionsFrom start levels).filterMap (itemAt start levels) = levels.flatten := by
  induction levels generalizing start with
  | nil => rfl
  | cons files _ ih =>
    rw [positionsFrom, filterMap_append, flatten_cons]
    congr 1
    · rw [filterMap_map]
      refine Eq.trans (filterMap_congr fun _ _ => ?_) (filterMap_range files)
      simp [itemAt]
    · rw [← ih (start + 1)]
      exact filterMap_congr fun _ member => itemAt_succ (le_of_mem_positionsFrom member)

end Positions

variable {κ V : Type} [LinearOrder κ] {r : Reader κ V}

/-! ## The loop -/

section Visit
variable [DecidableEq V]

/-- The loop of `Version::Get` over files already found. -/
def visitTables (l : Lookup κ V) :
    List (Table κ V) → Status × Nat × GetContext V → Option Status × Status × Nat × GetContext V
  | [], st => (none, st)
  | table :: more, st =>
    if 0 < st.2.1 then (none, st)
    else
      let got := tableCacheGet l table st.2.1 st.2.2
      match got.2.state.returns with
      | some status => (some status, .ok, got)
      | none => visitTables l more (.ok, got)

/-- The loop visits the files at the positions the picker returns. -/
theorem versionLoop_eq (l : Lookup κ V) (levels : List (List (Table κ V))) (fuel : Nat)
    (picker : FilePicker.State) (st : Status × Nat × GetContext V)
    (valid : ∀ found ∈ pickLoop (ranges levels) l.ikey fuel picker, (tableAt levels found).isSome) :
    versionLoop l levels fuel picker st =
      visitTables l ((pickLoop (ranges levels) l.ikey fuel picker).filterMap (tableAt levels)) st := by
  induction fuel generalizing picker st with
  | zero => rfl
  | succ _ ih =>
    rw [pickLoop] at valid ⊢
    rw [versionLoop]
    cases next : getNextFile (ranges levels) l.ikey (budget (ranges levels) + 1) picker with
    | mk found =>
      cases found with
      | none => rfl
      | some found =>
        simp only [next] at valid
        obtain ⟨table, at_found⟩ := Option.isSome_iff_exists.mp (valid found (by simp))
        simp only [filterMap_cons, at_found, visitTables]
        split
        · rfl
        · cases (tableCacheGet l table st.2.1 st.2.2).2.state.returns with
          | some => rfl
          | none => exact ih _ _ fun found member => valid found (mem_cons_of_mem _ member)

/-- **The loop answers the lookup or leaves operands without a base.** -/
theorem visitTables_spec (tables : List (Table κ V)) (readable : ∀ table ∈ tables, Readable r table) (status : Status)
    (seen : Nat) (gathering : Gathering ctx operands) :
    let out := visitTables r.lookup tables (status, seen, ctx)
    let answer := readParts r seen operands (tables.map (filePart r))
    (∃ status, out.1 = some status ∧ answerOf status out.2.2.2.result = answer) ∨
      out.1 = none ∧ ∃ operands, Gathering out.2.2.2 operands ∧ conclude r operands .noBaseValue = answer := by
  induction tables generalizing seen status ctx operands with
  | nil => exact .inr ⟨rfl, operands, gathering, rfl⟩
  | cons table tables ih =>
    intro out answer
    by_cases stop : 0 < seen
    · have outDef : out = (none, status, seen, ctx) := if_pos stop
      rw [outDef]
      exact .inr ⟨rfl, operands, gathering, (readParts_stopped rfl stop operands).symm⟩
    · obtain ⟨covering, matched⟩ := tableCacheGet_matches (readable table (by simp)) seen gathering
      have told : answer = _ := readParts_cons (fun stops => stop stops.2) operands
      set got := tableCacheGet r.lookup table seen ctx
      have outDef : out = (match got.2.state.returns with
          | some status => (some status, .ok, got)
          | none => visitTables r.lookup tables (.ok, got)) := if_neg stop
      have entries : (filePart r table).entries = table.entries.list := rfl
      rw [entries] at told
      cases outcome : scan r (fun seq => seq < max seen ((filePart r table).covering r)) operands
          (visibleEntries r table.entries.list) with
      | done found =>
        simp only [outcome] at matched told
        obtain ⟨status, returns, answered⟩ := matched
        rw [outDef, returns, told]
        exact .inl ⟨status, rfl, answered⟩
      | more operands =>
        simp only [outcome] at matched told
        have goesOn : got.2.state.returns = none := by
          rw [matched.state]
          split <;> rfl
        rw [outDef, goesOn, told, ← covering]
        exact ih (fun table member => readable table (mem_cons_of_mem _ member)) .ok _ matched

omit [LinearOrder κ] in
/-- After the loop the operands are merged without a base. -/
theorem finishVersionGet_spec (status : Status) (gathering : Gathering ctx operands) :
    let finished := finishVersionGet r.lookup status ctx
    answerOf finished.1 finished.2 = conclude r operands .noBaseValue := by
  intro finished
  by_cases none : operands = []
  · have state : ctx.state = .kNotFound := by rw [gathering.state, if_pos none]
    have finishedDef : finished = (.notFound, ctx.result) := if_neg (by simp [state])
    rw [finishedDef, none]
    rfl
  · have state : ctx.state = .kMerge := by rw [gathering.state, if_neg none]
    rw [conclude_of_operands none]
    simp only [finished, finishVersionGet, state, if_true, lookup_doMerge, lookup_mergeOperator,
      lookup_target, lookup_format, lookup_key, gathering.operands, Bool.true_eq_false, if_false]
    cases timedFullMergeTo r.format r.op r.key .noBaseValue operands.reverse r.target with
    | ok => rfl
    | error status => exact answerOf_error status.2 _

/-! ## The files the picker returns -/

/-- Items that contribute nothing may be left out. -/
theorem flatMap_filterMap_filter {β γ δ : Type} (part : β → Option γ) (keep : β → Bool) (f : γ → List δ)
    (xs : List β) (nothing : ∀ x ∈ xs, keep x = false → ∀ p, part x = some p → f p = []) :
    ((xs.filter keep).filterMap part).flatMap f = (xs.filterMap part).flatMap f := by
  induction xs with
  | nil => rfl
  | cons x _ ih =>
    have rest := ih fun x member => nothing x (mem_cons_of_mem _ member)
    cases kept : keep x with
    | true =>
      rw [filter_cons_of_pos kept, filterMap_cons, filterMap_cons]
      split
      · exact rest
      · rw [flatMap_cons, flatMap_cons, rest]
    | false =>
      rw [filter_cons_of_neg (by simp [kept]), filterMap_cons]
      split
      · exact rest
      · next p isPart =>
        rw [flatMap_cons, nothing x (by simp) kept p isPart, rest]
        rfl

omit [DecidableEq V] in
/-- Behind a tombstone all entries of files count as covered. -/
theorem judged_stopped (files : ∀ part ∈ parts, part.isFile = true) (stop : 0 < seen) :
    judged r seen parts = (parts.flatMap fun part => visibleEntries r part.entries).map (·, true) := by
  cases parts with
  | nil => rfl
  | cons part => rw [judged, if_pos ⟨files part (by simp), stop⟩]

omit [DecidableEq V] in
/-- Files that hold nothing for the reader may be left out. -/
theorem judged_filter {β : Type} (part : β → Option (Part κ V)) (keep : β → Bool) (xs : List β)
    (files : ∀ x p, part x = some p → p.isFile = true)
    (silent : ∀ x ∈ xs, keep x = false → ∀ p, part x = some p →
      visibleEntries r p.entries = [] ∧ p.tombstones = []) (seen : Nat) :
    judged r seen ((xs.filter keep).filterMap part) = judged r seen (xs.filterMap part) := by
  have areFiles (ys : List β) : ∀ p ∈ ys.filterMap part, p.isFile = true := by
    intro p member
    obtain ⟨x, -, isPart⟩ := mem_filterMap.mp member
    exact files x p isPart
  induction xs generalizing seen with
  | nil => rfl
  | cons x xs ih =>
    rcases Nat.eq_zero_or_pos seen with rfl | stop
    · have rest := ih fun x member => silent x (mem_cons_of_mem _ member)
      cases kept : keep x with
      | true =>
        rw [filter_cons_of_pos kept, filterMap_cons, filterMap_cons]
        split
        · exact rest 0
        · simp only [judged, rest, lt_irrefl, and_false, if_false]
      | false =>
        rw [filter_cons_of_neg (by simp [kept]), filterMap_cons]
        split
        · exact rest 0
        · next p isPart =>
          obtain ⟨unseen, uncovered⟩ := silent x (by simp) kept p isPart
          simp [judged, unseen, Part.covering, uncovered, FragmenterProofs.visibleCovering, largest, rest]
    · rw [judged_stopped (areFiles _) stop, judged_stopped (areFiles _) stop,
        flatMap_filterMap_filter part keep _ _ fun x member kept p isPart => (silent x member kept p isPart).1]

end Visit

/-- The recorded boundaries of a store as the picker sees them. -/
def layout (store : Store κ V) : Layout κ where
  levels := ranges store.levels
  proper := List.forall_mem_map.mpr fun tables _ => List.forall_mem_map.mpr fun table _ => table.proper
  sorted := by
    intro files member
    rw [PointLookup.ranges, ← List.map_tail] at member
    obtain ⟨tables, tables_mem, rfl⟩ := List.mem_map.mp member
    exact List.pairwise_map.mpr (store.sorted tables tables_mem)

variable {found : Nat × Nat}

theorem tableAt_of_ranges {levels : List (List (Table κ V))}
    {files : List (FdWithKeyRange κ)} {f : FdWithKeyRange κ} (at_level : (ranges levels)[found.1]? = some files)
    (at_index : files[found.2]? = some f) :
    ∃ table, tableAt levels found = some table ∧ table.range = f := by
  rw [PointLookup.ranges, getElem?_map, Option.map_eq_some_iff] at at_level
  obtain ⟨_, at_level, rfl⟩ := at_level
  rw [getElem?_map, Option.map_eq_some_iff] at at_index
  obtain ⟨table, at_index, rfl⟩ := at_index
  exact ⟨table, by simp [tableAt, at_level, at_index], rfl⟩

variable {table : Table κ V}

/-- The positions the picker returns. -/
def picked (r : Reader κ V) (store : Store κ V) : List (Nat × Nat) :=
  pickFiles (ranges store.levels) r.lookup.ikey

theorem picked_eq_filter (r : Reader κ V) (store : Store κ V) :
    picked r store = (positionsFrom 0 store.levels).filter (· ∈ picked r store) := by
  refine List.Pairwise.eq_of_mem_iff (r := Earlier) (pickFiles_increasing (layout store) _)
    ((positionsFrom_earlier 0 store.levels).filter _) fun _ => ?_
  refine ⟨fun member => mem_filter.mpr ⟨?_, by simpa using member⟩, fun member => ?_⟩
  · obtain ⟨_, _, at_level, at_index, -⟩ := pickFiles_at (layout store) member
    obtain ⟨_, at_found, -⟩ := tableAt_of_ranges at_level at_index
    exact mem_positionsFrom (Nat.zero_le _) at_found
  · simpa using (mem_filter.mp member).2

/-- A file that the lookup key is not in shows nothing. -/
theorem filePart_silent (apart : ¬Reaches r table) :
    visibleEntries r (filePart r table).entries = [] ∧ (filePart r table).tombstones = [] := by
  refine ⟨visibleEntries_eq_nil fun e member key visible => apart ?_, if_neg apart⟩
  obtain ⟨low, high⟩ := table.inRange e member
  have lowKey := userKey_le_of_le low
  have highKey := userKey_le_of_le high
  rw [key] at lowKey highKey
  exact ⟨⟨lowKey, highKey⟩, ((ikey_le_iff (table.entries.types e member) key).mpr visible).trans high⟩

/-- The picker returns positions of files. -/
theorem picked_isSome (store : Store κ V) (member : found ∈ picked r store) :
    (tableAt store.levels found).isSome := by
  obtain ⟨_, _, at_level, at_index, -⟩ := pickFiles_at (layout store) member
  obtain ⟨table, at_found, -⟩ := tableAt_of_ranges at_level at_index
  exact Option.isSome_iff_exists.mpr ⟨table, at_found⟩

/-- The lookup key is not in a file the picker leaves out. -/
theorem not_reaches_of_not_picked (store : Store κ V)
    (unpicked : found ∉ picked r store) (at_found : tableAt store.levels found = some table) :
    ¬Reaches r table := by
  intro reaches
  obtain ⟨tables, at_level, at_index⟩ := Option.bind_eq_some_iff.mp at_found
  have at_files : (ranges store.levels)[found.1]? = some (tables.map (·.range)) := by
    simp [PointLookup.ranges, at_level]
  exact unpicked (mem_pickFiles (layout store) at_files (by simp [at_index]) reaches.1 reaches.2)

/-! ## The whole lookup -/

/-- A lookup in a store each of whose components holds only newer entries of
the key than those after it, in which each version that the fold comes to
counts as covered when it is read if and only if it is. A snapshot in the read
options is the sequence number read at; without one that number is the last
published one, and no file holds anything newer. -/
structure OrderedLookup (κ V : Type) [LinearOrder κ] where
  reader : Reader κ V
  store : Store κ V
  snapshot : ∀ s, reader.snapshot = some s → s = reader.sequence
  recent : reader.snapshot = none → ∀ files ∈ store.levels, ∀ f ∈ files, ∀ t ∈ f.tombstones, t.seq ≤ reader.sequence
  newest : (componentsOf reader store).Pairwise (Newer reader.key)
  agrees : Agrees reader (coveredBy reader (allTombstones reader store)) (judged reader 0 (partsOf reader store))

section Whole
variable (lookup : OrderedLookup κ V)

private theorem tombstone_visible_iff (files_mem : files ∈ lookup.store.levels) (f_mem : f ∈ files)
    (t_mem : t ∈ f.tombstones) :
    t.seq ≤ lookup.reader.snapshot.getD kMaxSequenceNumber ↔ t.seq ≤ lookup.reader.sequence := by
  cases given : lookup.reader.snapshot with
  | some s => rw [Option.getD_some, lookup.snapshot s given]
  | none =>
    have old := lookup.recent given files files_mem f f_mem t t_mem
    exact ⟨fun _ => old, fun _ => old.trans lookup.reader.bounded⟩

/-- A level 0 file that the lookup key is not in has no tombstone over it. -/
theorem level0_uncovered {store : Store κ V} (top : store.levels[0]? = some files) (f_mem : f ∈ files)
    (apart : ¬Reaches r f) :
    ∀ t ∈ f.tombstones, ¬t.Covers r.key := by
  intro t t_mem covers
  obtain ⟨low, high⟩ := store.whole files (by rwa [head?_eq_getElem?]) f f_mem t t_mem
  have before := covers.2.trans_le high
  refine apart ⟨⟨low.trans covers.1, before.le⟩, ?_⟩
  exact (lt_iff.mpr (.inl before)).le

private theorem picked_readable {found : Nat × Nat} (member : found ∈ picked lookup.reader lookup.store)
    (at_found : tableAt lookup.store.levels found = some table) :
    Readable lookup.reader table := by
  obtain ⟨_, at_level, at_index⟩ := Option.bind_eq_some_iff.mp at_found
  have table_mem := mem_of_getElem? at_index
  refine ⟨fun _ => tombstone_visible_iff lookup (mem_of_getElem? at_level) table_mem, ?_⟩
  obtain ⟨_, _, in_level, in_files, candidate⟩ := pickFiles_at (layout lookup.store) member
  obtain ⟨same, at_same, rfl⟩ := tableAt_of_ranges in_level in_files
  cases at_found.symm.trans at_same
  rcases Nat.eq_zero_or_pos found.1 with top | deep
  · rw [top] at at_level
    by_cases reaches : Reaches lookup.reader table
    · exact .inl reaches
    · exact .inr (level0_uncovered at_level table_mem reaches)
  · exact .inl (candidate deep)

/-- The file a position stands for, as a part. -/
def partAt (r : Reader κ V) (store : Store κ V) (found : Nat × Nat) : Option (Part κ V) :=
  (tableAt store.levels found).map (filePart r)

private theorem partAt_all (r : Reader κ V) (store : Store κ V) :
    (positionsFrom 0 store.levels).filterMap (partAt r store) =
      store.levels.flatten.map (filePart r) := by
  rw [← positionsFrom_filterMap 0 store.levels, map_filterMap]
  rfl

variable [DecidableEq V] in
/-- **`Version::Get` answers with the history in the files.** -/
theorem versionGet_spec (pending : Pending p operands) :
    let got := (versionGet lookup.reader.lookup lookup.store.levels none p).2
    answerOf got.status got.result = readParts lookup.reader p.maxCoveringTombstoneSeq operands
      (lookup.store.levels.flatten.map (filePart lookup.reader)) := by
  set r := lookup.reader
  set store := lookup.store
  set tables := (picked r store).filterMap (tableAt store.levels) with tablesDef
  have parts : tables.map (filePart r) =
      ((positionsFrom 0 store.levels).filter (· ∈ picked r store)).filterMap (partAt r store) := by
    rw [← picked_eq_filter, tablesDef, map_filterMap]
    rfl
  have told : readParts r p.maxCoveringTombstoneSeq operands (tables.map (filePart r)) =
      readParts r p.maxCoveringTombstoneSeq operands (store.levels.flatten.map (filePart r)) := by
    rw [parts, ← partAt_all, readParts, readParts, judged_filter _ _ _ (fun found part isPart => ?_)
      fun found _ unpicked part isPart => ?_]
    · obtain ⟨_, -, rfl⟩ := Option.map_eq_some_iff.mp isPart
      rfl
    · obtain ⟨table, at_found, rfl⟩ := Option.map_eq_some_iff.mp isPart
      exact filePart_silent (not_reaches_of_not_picked store (of_decide_eq_false unpicked) at_found)
  have gathering : Gathering
      ⟨if p.status = .ok then .kNotFound else .kMerge, none, p.operands, p.result⟩ operands := by
    refine ⟨?_, pending.operands⟩
    by_cases empty : operands = [] <;> simp [pending.status, empty]
  have visited := visitTables_spec (r := r) tables (fun _ member => by
      obtain ⟨found, found_mem, at_found⟩ := mem_filterMap.mp member
      exact picked_readable lookup found_mem at_found) p.status p.maxCoveringTombstoneSeq gathering
  have loop := versionLoop_eq r.lookup store.levels (budget (ranges store.levels) + 1)
    (newPicker (ranges store.levels) r.lookup.ikey) (p.status, p.maxCoveringTombstoneSeq,
      ⟨if p.status = .ok then .kNotFound else .kMerge, none, p.operands, p.result⟩)
    fun _ => picked_isSome store
  have list : (pickLoop (ranges store.levels) r.lookup.ikey (budget (ranges store.levels) + 1)
      (newPicker (ranges store.levels) r.lookup.ikey)).filterMap (tableAt store.levels) = tables := rfl
  rw [list] at loop
  rw [← told]
  simp only [versionGet, loop]
  rcases visited with ⟨_, returned, answered⟩ | ⟨returned, _, gathered, answered⟩
  · simp only [returned]
    exact answered
  · simp only [returned]
    rw [← answered]
    exact finishVersionGet_spec _ gathered

end Whole

variable [DecidableEq V] in
/-- **A point lookup answers with the naive fold over the history of its
key.** -/
theorem get_reads_history (lookup : OrderedLookup κ V) :
    answerOf (getImpl lookup.reader.lookup lookup.store).1 (getImpl lookup.reader.lookup lookup.store).2 =
      readHistory lookup.reader lookup.store := by
  rw [← readParts_eq_readHistory lookup.newest lookup.agrees]
  have start : Pending (V := V) ⟨.ok, [], 0, none⟩ [] := ⟨rfl, rfl⟩
  rcases getFromList_spec (r := lookup.reader) (lookup.store.levels.flatten.map (filePart lookup.reader))
    lookup.store.memtables start
    with ⟨final, answered⟩ | ⟨goesOn, _, pending, told⟩
  · simp only [getImpl, final, Bool.true_or, if_true]
    exact answered
  · simp only [getImpl, goesOn, Bool.false_or, if_neg pending.not_error]
    exact (versionGet_spec lookup pending).trans told

/-! ## A user key in two files of one level -/

section Straddling

/-- A read of a counter, to which a merge adds. -/
def counterReader : Reader Nat Nat where
  format := ⟨0, fun v => (v, 0), fun _ => .ok 0, fun _ => .ok [], fun _ v => .ok v⟩
  op := ⟨fun _ existing operands =>
    match existing with
    | .value v => .newValue (v + operands.sum)
    | _ => .newValue operands.sum, fun _ _ => none, false⟩
  target := .value
  key := 5
  sequence := 20
  bounded := by decide
  snapshot := some 20

/-- A tombstone older than every version of the counter. -/
def oldTombstone : RangeTombstone Nat := ⟨1, 9, 4, by decide⟩

/-- A level whose first file ends between two versions of the counter. The
tombstone is in both files. -/
def straddlingStore (type : ValueType) (isPoint : type = .kTypeMerge ∨ type = .kTypeValue) : Store Nat Nat where
  memtables := []
  levels :=
    [[],
      [{ range := ⟨⟨1, 4, .kTypeRangeDeletion⟩, ⟨5, 9, type⟩⟩
         entries := ⟨[(⟨5, 9, type⟩, 3)], pairwise_singleton _ _, by rcases isPoint with rfl | rfl <;> decide⟩
         tombstones := [oldTombstone]
         filter := fun _ => true
         proper := by rcases isPoint with rfl | rfl <;> decide
         inRange := by rcases isPoint with rfl | rfl <;> decide
         noFalseNegatives := by simp },
       { range := ⟨⟨5, 6, .kTypeValue⟩, ⟨9, kMaxSequenceNumber, .kTypeRangeDeletion⟩⟩
         entries := ⟨[(⟨5, 6, .kTypeValue⟩, 10)], by decide, by decide⟩
         tombstones := [oldTombstone]
         filter := fun _ => true
         proper := by decide
         inRange := by decide
         noFalseNegatives := by decide }]]
  sorted := by rcases isPoint with rfl | rfl <;> decide
  whole := by simp

/-- The first version of the counter is a value, and the second file is not needed. -/
def straddlingLookup : OrderedLookup Nat Nat where
  reader := counterReader
  store := straddlingStore .kTypeValue (.inr rfl)
  snapshot := by rintro _ ⟨⟩; rfl
  recent := nofun
  newest := pairwise_singleton _ _
  agrees := ⟨.inl (by decide), fun _ isBase => nomatch isBase⟩

theorem straddlingLookup_reads_history : getImpl counterReader.lookup straddlingLookup.store = (.ok, some (.value 3)) ∧
    readHistory counterReader straddlingLookup.store = .found (.value 3) := by
  have found : getImpl counterReader.lookup straddlingLookup.store = (.ok, some (.value 3)) := by decide
  refine ⟨found, (get_reads_history straddlingLookup).symm.trans ?_⟩
  rw [show straddlingLookup.reader = counterReader from rfl, found]
  rfl

/-- **A tombstone older than a base value can hide it.** The store has a single
component. Its first file holds the newest version of the counter and an old
tombstone over it, at which `Version::Get` stops; the base value is in the
second file. -/
theorem straddling_base_value_lost :
    (componentsOf counterReader (straddlingStore .kTypeMerge (.inl rfl))).Pairwise (Newer counterReader.key) ∧
    getImpl counterReader.lookup (straddlingStore .kTypeMerge (.inl rfl)) = (.ok, some (.value 3)) ∧
    readHistory counterReader (straddlingStore .kTypeMerge (.inl rfl)) = .found (.value 13) := by
  refine ⟨pairwise_singleton _ _, ?_, ?_⟩ <;> decide

end Straddling

end Rocksdb.VersionGetProofs
