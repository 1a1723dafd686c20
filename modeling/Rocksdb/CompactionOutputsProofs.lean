import Rocksdb.CompactionOutputs
import Rocksdb.RangeDelAggregatorProofs

/-! Cutting the output of a subcompaction into files loses no range tombstone
that is still needed. Each file is responsible for the keys from the one that
opened it up to its upper bound: `AddRangeDels` adds every tombstone over such
a key and extends the boundaries of the file far enough, and not so far that
they reach into the next file. -/
namespace Rocksdb.CompactionOutputsProofs
open RangeDelAggregator RangeDelAggregatorProofs CompactionOutputs SnapshotStripes Lib.SortedLists InternalKey List
open Option (map_eq_some_iff mem_unique mem_def)

variable {κ : Type} [LinearOrder κ] {whole : TruncatedTombstone κ} {file : OutputFile κ}

/-! ## Internal keys -/

section Keys
variable {k : InternalKey κ} {u : κ}

theorem lt_of_userKey_lt (lt : k.userKey < k'.userKey) : k < k' := lt_iff.mpr (.inl lt)

theorem lt_of_newer (le : k.userKey ≤ k'.userKey) (newer : k'.sequence < k.sequence) : k < k' := by
  refine lt_iff.mpr ?_
  rcases le.lt_or_eq with lt | same
  · exact .inl lt
  · exact .inr ⟨same, pack_lt_iff.mpr (.inl newer)⟩

/-- A real key comes after the place before all keys of its user key. -/
theorem beforeKey_lt (le : u ≤ k.userKey) (bounded : k.sequence < kMaxSequenceNumber) :
    beforeKey u < k := lt_of_newer le bounded

/-- A bound that does not lie before the keys of its user key. -/
def Normal (k : InternalKey κ) : Prop := beforeKey k.userKey ≤ k

theorem Normal.userKey_lt (normal : Normal k) (lt : k < beforeKey u) : k.userKey < u := by
  rcases lt_iff.mp (normal.trans_lt lt) with lt | ⟨-, lt⟩
  · exact lt
  · exact absurd lt (lt_irrefl _)

/-- The type of a truncated smallest key only moves it forward. -/
theorem maxValid_le (k : InternalKey κ) : { k with type := .kTypeMaxValid } ≤ k := by
  refine le_iff.mpr (.inr ⟨rfl, ?_⟩)
  have bound : k.type.toNat ≤ ValueType.kTypeMaxValid.toNat := by
    cases k.type <;> decide
  simpa [footer, packSequenceAndType] using bound

end Keys

/-! ## Deeper levels -/

/-- A file of some level holds the user key. -/
def DeeperAt (u : κ) (levels : List (List (κ × κ))) : Prop :=
  ∃ files ∈ levels, ∃ f ∈ files, f.1 ≤ u ∧ u ≤ f.2

/-- Files come in the order of their smallest keys. -/
def SortedLevels (levels : List (List (κ × κ))) : Prop :=
  ∀ files ∈ levels, files.Pairwise (fun a b => a.1 ≤ b.1)

def AnyFile (p : κ × κ → Prop) (levels : List (List (κ × κ))) : Prop := ∃ files ∈ levels, ∃ f ∈ files, p f

/-- What a search from a key on leaves of sorted levels: it passes only files that end
before the key. -/
structure Passes (key : κ) (levels left : List (List (κ × κ))) : Prop where
  sorted : SortedLevels left
  anyFile : ∀ p : κ × κ → Prop, (∀ f, p f → key ≤ f.2) → (AnyFile p left ↔ AnyFile p levels)

section Deeper
variable {key : κ} {files : List (κ × κ)} {levels : List (List (κ × κ))} (reaches : κ → Bool)
  (down : ∀ a b, a ≤ b → reaches b = true → reaches a = true)
include down

private theorem scanFrom_spec (key : κ) (sorted : files.Pairwise (fun a b => a.1 ≤ b.1)) :
    (scanFrom key reaches files).2 <:+ files ∧ (∀ f ∈ files, key ≤ f.2 → f ∈ (scanFrom key reaches files).2) ∧
      ((scanFrom key reaches files).1 = true ↔ ∃ f ∈ files, reaches f.1 = true ∧ key ≤ f.2) := by
  induction files with
  | nil => simp [scanFrom]
  | cons f files ih =>
    obtain ⟨first, later⟩ := pairwise_cons.mp sorted
    rw [scanFrom]
    split
    · next passed =>
      obtain ⟨suffix, stays, answer⟩ := ih later
      refine ⟨suffix.trans (suffix_cons f files), ?_, ?_⟩
      · simpa [not_le.mpr passed] using stays
      · simpa [not_le.mpr passed] using answer
    · next reached =>
      refine ⟨suffix_refl _, fun _ member _ => member, fun early => ⟨f, by simp, early, not_lt.mp reached⟩, ?_⟩
      rintro ⟨g, member, early, -⟩
      rcases mem_cons.mp member with rfl | inRest
      · exact early
      · exact down _ _ (first g inRest) early

/-- **A search through all levels** passes no file that it may still need, and it
answers "not there" exactly if no file has what it looks for. -/
theorem scanEach_spec (key : κ) (sorted : SortedLevels levels) :
    Passes key levels (scanEach (scanFrom key reaches) levels).2 ∧
      ((scanEach (scanFrom key reaches) levels).1 = true ↔
        ¬ AnyFile (fun f => reaches f.1 = true ∧ key ≤ f.2) levels) := by
  induction levels with
  | nil => exact ⟨⟨sorted, fun _ _ => Iff.rfl⟩, by simp [scanEach, AnyFile]⟩
  | cons files levels ih =>
    obtain ⟨filesSorted, restSorted⟩ := forall_mem_cons.mp sorted
    obtain ⟨suffix, stays, overlaps⟩ := scanFrom_spec reaches down key filesSorted
    obtain ⟨passes, answer⟩ := ih restSorted
    have passed {rest : List (List (κ × κ))} (passes : Passes key levels rest) :
        Passes key (files :: levels) ((scanFrom key reaches files).2 :: rest) := by
      refine ⟨forall_mem_cons.mpr ⟨filesSorted.sublist suffix.sublist, passes.sorted⟩, fun p reaches => ?_⟩
      have rest := passes.anyFile p reaches
      rw [AnyFile, AnyFile, exists_mem_cons_iff, exists_mem_cons_iff]
      refine or_congr ⟨?_, ?_⟩ rest
      · exact fun ⟨f, member, holds⟩ => ⟨f, suffix.subset member, holds⟩
      · exact fun ⟨f, member, holds⟩ => ⟨f, stays f member (reaches f holds), holds⟩
    rw [scanEach]
    rcases scan : scanFrom key reaches files with ⟨overlap, _⟩
    rw [scan] at passed overlaps
    cases overlap with
    | true =>
      refine ⟨passed ⟨restSorted, fun _ _ => Iff.rfl⟩, ?_⟩
      exact iff_of_false Bool.false_ne_true (not_not.mpr ⟨files, by simp, overlaps.mp rfl⟩)
    | false =>
      refine ⟨passed passes, ?_⟩
      rw [AnyFile, exists_mem_cons_iff, or_iff_right fun found => Bool.false_ne_true (overlaps.mpr found)]
      exact answer

omit down

/-- A scan passes no file with a key from its first one on, and it answers "not there"
exactly if no file has a key of the range. -/
theorem scanRange_spec (beginKey endKey : κ) (sorted : SortedLevels levels) :
    let scanned := scanEach (scanFrom beginKey fun first => !decide (endKey ≤ first)) levels
    Passes beginKey levels scanned.2 ∧ (scanned.1 = true ↔
      ¬ AnyFile (fun f => f.1 < endKey ∧ beginKey ≤ f.2) levels) := by
  simpa using scanEach_spec (fun a => !decide (endKey ≤ a)) (by simpa using fun _ _ le => le.trans_lt) beginKey sorted

/-- A question about deeper levels: for a user key, or for a range without its end. -/
inductive Query (κ : Type) where
  | key (userKey : κ)
  | range (beginKey endKey : κ)

def Query.start : Query κ → κ
  | .key userKey => userKey
  | .range beginKey _ => beginKey

/-- A file with keys from its smallest to its largest one may have what is asked for. -/
def Query.Meets : Query κ → κ × κ → Prop
  | .key userKey, f => f.1 ≤ userKey ∧ userKey ≤ f.2
  | .range beginKey endKey, f => f.1 < endKey ∧ beginKey ≤ f.2

def Query.ask (sub : Subcompaction κ) (levelPtrs : List (List (κ × κ))) : Query κ → Bool × List (List (κ × κ))
  | .key userKey => keyNotExistsBeyondOutputLevel sub userKey levelPtrs
  | .range beginKey endKey => keyRangeNotExistsBeyondOutputLevel sub beginKey endKey levelPtrs

/-- The answers to questions that are asked one after the other. -/
def answers (sub : Subcompaction κ) : List (List (κ × κ)) → List (Query κ) → List Bool
  | _, [] => []
  | levelPtrs, query :: queries => (query.ask sub levelPtrs).1 :: answers sub (query.ask sub levelPtrs).2 queries

section Asking
variable {sub : Subcompaction κ} (notBottommost : sub.bottommostLevel = false) (leveled : sub.leveled = true)
include notBottommost leveled

theorem Query.ask_spec (query : Query κ) (sorted : SortedLevels levels) :
    Passes query.start levels (query.ask sub levels).2 ∧
      ((query.ask sub levels).1 = true ↔ ¬ AnyFile query.Meets levels) := by
  cases query with
  | key userKey =>
    have spec := scanEach_spec (· ≤ userKey) (by simpa using fun _ _ => le_trans) userKey sorted
    rw [ask, keyNotExistsBeyondOutputLevel, notBottommost, leveled]
    simp only [decide_eq_true_eq] at spec
    exact spec
  | range beginKey endKey =>
    rw [ask, keyRangeNotExistsBeyondOutputLevel, notBottommost, leveled]
    exact scanRange_spec beginKey endKey sorted

private theorem answers_spec (queries : List (Query κ)) (ascending : queries.Pairwise fun q q' => q.start ≤ q'.start)
    (passes : ∀ query ∈ queries, Passes query.start levels left) :
    List.Forall₂ (fun query answer => answer = true ↔ ¬ AnyFile query.Meets levels) queries
      (answers sub left queries) := by
  induction queries generalizing left with
  | nil => exact .nil
  | cons query _ ih =>
    obtain ⟨le, ascending⟩ := pairwise_cons.mp ascending
    obtain ⟨first, later⟩ := forall_mem_cons.mp passes
    obtain ⟨passed, answer⟩ := query.ask_spec notBottommost leveled first.sorted
    have meets : ∀ f, query.Meets f → query.start ≤ f.2 := by cases query <;> exact fun f meets => meets.2
    refine .cons (answer.trans (not_congr (first.anyFile _ meets))) (ih ascending fun other member => ?_)
    refine ⟨passed.sorted, fun p reaches => ?_⟩
    exact (passed.anyFile p fun f holds => (le other member).trans (reaches f holds)).trans
      ((later other member).anyFile p reaches)

end Asking

/-- **Searches with persistent cursors are exact.** Questions with ascending keys that
are asked through one array of cursors get the answers "not there" exactly if no file
of a deeper level may have what is asked for. -/
theorem answers_exact (sub : Subcompaction κ) (notBottommost : sub.bottommostLevel = false)
    (leveled : sub.leveled = true) (sorted : SortedLevels sub.deeperLevels) (queries : List (Query κ))
    (ascending : queries.Pairwise fun q q' => q.start ≤ q'.start) :
    List.Forall₂ (fun query answer => answer = true ↔ ¬ AnyFile query.Meets sub.deeperLevels)
      queries (answers sub sub.deeperLevels queries) :=
  answers_spec notBottommost leveled queries ascending fun _ _ => ⟨sorted, fun _ _ => Iff.rfl⟩

/-- Two files share a boundary key. -/
def sharedBoundary : Subcompaction Nat := ⟨⟨[], []⟩, false, true, [[(1, 3), (3, 5)]], none, none⟩

theorem sharedBoundary_answers : List.Forall₂
    (fun (query : Query Nat) answer => answer = true ↔ ¬ AnyFile query.Meets sharedBoundary.deeperLevels)
    [.key 0, .key 3, .range 5 7, .key 6] [true, false, false, true] := by
  refine answers_exact sharedBoundary rfl rfl ?_ [.key 0, .key 3, .range 5 7, .key 6] ?_
  · simp [SortedLevels, sharedBoundary]
  · simp [Query.start]

end Deeper

/-! ## Clamping -/

section Clamping
variable {lower upper : Option (InternalKey κ)} {t : Tombstone κ}

theorem raisedStart_footer (lower : Option (InternalKey κ)) (t : Tombstone κ) :
    (raisedStart lower t).footer = t.parsedStartKey.footer ∧ (raisedStart lower t).sequence = t.seq := by
  unfold raisedStart
  split
  · exact ⟨rfl, rfl⟩
  · split <;> exact ⟨rfl, rfl⟩

theorem raisedStart_userKey_le : (raisedStart lower t).userKey ≤ u ↔ t.startKey ≤ u ∧ ∀ l ∈ lower, l.userKey ≤ u := by
  unfold raisedStart
  cases lower with
  | none => simp [Tombstone.parsedStartKey]
  | some l =>
    dsimp only
    split
    · rename_i below
      simpa using fun le : l.userKey ≤ u => below.le.trans le
    · rename_i notBelow
      simpa [Tombstone.parsedStartKey] using fun le : t.startKey ≤ u => (not_lt.mp notBelow).trans le

theorem clampedStart_le : clampedStart lower t ≤ x ↔ raisedStart lower t ≤ x ∧ ∀ l ∈ lower, l ≤ x := by
  cases lower with
  | none => simp [clampedStart]
  | some => simp [clampedStart, ← max_def_lt]

theorem le_clampedEnd : x ≤ clampedEnd upper t ↔ x ≤ t.parsedEndKey ∧ ∀ u ∈ upper, x ≤ u := by
  cases upper with
  | none => simp [clampedEnd]
  | some => simp [clampedEnd, ← min_def_lt, and_comm]

theorem clampedEnd_cases (upper : Option (InternalKey κ)) (t : Tombstone κ) :
    clampedEnd upper t = t.parsedEndKey ∨ clampedEnd upper t ∈ upper := by
  cases upper with
  | none => exact .inl rfl
  | some =>
    unfold clampedEnd
    dsimp only
    split <;> simp

/-- A tombstone that reaches between the bounds of a file. -/
structure Fits (lower upper : Option (InternalKey κ)) (t : Tombstone κ) : Prop where
  proper : t.startKey < t.endKey
  ends : ∀ l ∈ lower, l.userKey < t.endKey
  starts : ∀ u ∈ upper, raisedStart lower t ≤ u

theorem raisedStart_userKey_lt (proper : t.startKey < t.endKey)
    (ends : ∀ l ∈ lower, l.userKey < t.endKey) : (raisedStart lower t).userKey < t.endKey := by
  unfold raisedStart
  cases lower with
  | none => exact proper
  | some l =>
    dsimp only
    split
    · exact ends l rfl
    · exact proper

/-- The fragments come in the order of their raised starts. -/
theorem raisedStart_mono (proper : t'.startKey < t'.endKey)
    (ends : ∀ l ∈ lower, l.userKey < t'.endKey) (follows : Follows t' t) :
    raisedStart lower t' ≤ raisedStart lower t := by
  have starts := raisedStart_userKey_le.mp (le_refl (raisedStart lower t).userKey)
  rcases follows with ⟨start, -, _⟩ | later
  · refine le_iff.mpr (.inr ⟨?_, ?_⟩)
    · exact le_antisymm (raisedStart_userKey_le.mpr ⟨start ▸ starts.1, starts.2⟩)
        (raisedStart_userKey_le.mpr (start ▸ (raisedStart_userKey_le.mp le_rfl)))
    · rw [(raisedStart_footer lower t).1, (raisedStart_footer lower t').1]
      simp only [footer, Tombstone.parsedStartKey, packSequenceAndType]
      omega
  · exact (lt_of_userKey_lt
      ((raisedStart_userKey_lt proper ends).trans_le (later.trans starts.1))).le

/-- What is recorded for a tombstone is a range inside the bounds. -/
theorem Fits.clamped (fits : Fits lower upper t)
    (ordered : ∀ l ∈ lower, ∀ u ∈ upper, l ≤ u) : clampedStart lower t ≤ clampedEnd upper t := by
  refine clampedStart_le.mpr ⟨le_clampedEnd.mpr ⟨?_, fits.starts⟩, fun l isLower =>
    le_clampedEnd.mpr ⟨?_, ordered l isLower⟩⟩
  · exact (lt_of_userKey_lt (raisedStart_userKey_lt fits.proper fits.ends)).le
  · exact (lt_of_userKey_lt (fits.ends l isLower)).le

end Clamping

/-! ## The loop -/

section Loop
variable {sub : Subcompaction κ} {lower upper : Option (InternalKey κ)} {t : Tombstone κ}
  {rest list : List (Tombstone κ)} {st : Adding κ} {u : κ}

/-- What the pointers are after the question about one tombstone. -/
def asked (sub : Subcompaction κ) (lower upper : Option (InternalKey κ)) (t : Tombstone κ)
    (levelPtrs : List (List (κ × κ))) : Bool × List (List (κ × κ)) :=
  if t.seq ≤ sub.earliestSnapshot then
    keyRangeNotExistsBeyondOutputLevel sub (clampedStart lower t).userKey (clampedEnd upper t).userKey levelPtrs
  else (false, levelPtrs)

/-- The state after a tombstone was written. -/
def written (lower upper : Option (InternalKey κ)) (t : Tombstone κ) (levelPtrs : List (List (κ × κ)))
    (st : Adding κ) : Adding κ :=
  ⟨true, st.file.updateBoundariesForRange (clampedStart lower t) (clampedEnd upper t), st.added ++ [t], levelPtrs⟩

/-- One round: the tombstone ends before the lower bound, is not needed by
anyone, starts after the upper bound, covers no deeper key, or is written. -/
inductive Round (sub : Subcompaction κ) (lower upper : Option (InternalKey κ)) (t : Tombstone κ)
    (rest : List (Tombstone κ)) (st : Adding κ) : Adding κ → Prop
  | early {l : InternalKey κ} (isLower : l ∈ lower) (ended : t.parsedEndKey ≤ l) :
      Round sub lower upper t rest st (addLoop sub lower upper rest st)
  | obsolete (old : t.seq ≤ sub.earliestSnapshot) (bottommost : sub.bottommostLevel = true)
      (ends : st.reachedLowerBound = true ∨ ∀ l ∈ lower, l < t.parsedEndKey) :
      Round sub lower upper t rest st (addLoop sub lower upper rest { st with reachedLowerBound := true })
  | stop {u : InternalKey κ} (isUpper : u ∈ upper) (after : u < raisedStart lower t)
      (ends : st.reachedLowerBound = true ∨ ∀ l ∈ lower, l < t.parsedEndKey) :
      Round sub lower upper t rest st { st with reachedLowerBound := true }
  | dropped (starts : ∀ u ∈ upper, raisedStart lower t ≤ u)
      (ends : st.reachedLowerBound = true ∨ ∀ l ∈ lower, l < t.parsedEndKey)
      (notThere : (asked sub lower upper t st.levelPtrs).1 = true) :
      Round sub lower upper t rest st (addLoop sub lower upper rest
        { st with reachedLowerBound := true, levelPtrs := (asked sub lower upper t st.levelPtrs).2 })
  | write (starts : ∀ u ∈ upper, raisedStart lower t ≤ u)
      (ends : st.reachedLowerBound = true ∨ ∀ l ∈ lower, l < t.parsedEndKey) :
      Round sub lower upper t rest st (addLoop sub lower upper rest
        (written lower upper t (asked sub lower upper t st.levelPtrs).2 st))

theorem addLoop_round (sub : Subcompaction κ) (lower upper : Option (InternalKey κ)) (t : Tombstone κ)
    (rest : List (Tombstone κ)) (st : Adding κ) :
    Round sub lower upper t rest st (addLoop sub lower upper (t :: rest) st) := by
  rw [addLoop]
  split
  case isTrue early =>
    obtain ⟨-, l, isLower, ended⟩ : st.reachedLowerBound = false ∧ ∃ l ∈ lower, t.parsedEndKey ≤ l := by
      simpa [Option.any_eq_true] using early
    exact .early isLower ended
  case isFalse notEarly =>
    have ends : st.reachedLowerBound = true ∨ ∀ l ∈ lower, l < t.parsedEndKey := by
      simpa [Option.any_eq_true, or_iff_not_imp_left] using notEarly
    dsimp only
    split
    case isTrue obsolete =>
      rw [Bool.and_eq_true, decide_eq_true_eq] at obsolete
      exact .obsolete obsolete.1 obsolete.2 ends
    case isFalse =>
      split
      case isTrue stops =>
        obtain ⟨u, isUpper, after⟩ := (Option.any_eq_true _ _).mp stops
        exact .stop isUpper (of_decide_eq_true after) ends
      case isFalse goesOn =>
        have starts : ∀ u ∈ upper, raisedStart lower t ≤ u := by
          simpa [Option.any_eq_true] using goesOn
        have question : (if decide (t.seq ≤ sub.earliestSnapshot) = true then
            keyRangeNotExistsBeyondOutputLevel sub (clampedStart lower t).userKey
              (clampedEnd upper t).userKey st.levelPtrs
            else (false, st.levelPtrs)) = asked sub lower upper t st.levelPtrs := by
          simp [asked]
        rw [question]
        split
        case isTrue notThere => exact .dropped starts ends notThere
        case isFalse => exact .write starts ends

/-- What the loop has before it: fragments in order, and once the lower bound is
reached only such that end after it. -/
structure Walk (lower : Option (InternalKey κ)) (list : List (Tombstone κ)) (reached : Bool) : Prop where
  normal : ∀ l ∈ lower, Normal l
  proper : ∀ t ∈ list, t.startKey < t.endKey
  ordered : list.Pairwise Follows
  after : reached = true → ∀ t ∈ list, ∀ l ∈ lower, l.userKey < t.endKey

theorem Walk.skip (walk : Walk lower (t :: rest) reached) : Walk lower rest reached where
  normal := walk.normal
  proper other member := walk.proper other (by simp [member])
  ordered := (pairwise_cons.mp walk.ordered).2
  after isReached other member := walk.after isReached other (by simp [member])

theorem Walk.ends (walk : Walk lower (t :: rest) reached)
    (ends : reached = true ∨ ∀ l ∈ lower, l < t.parsedEndKey) : ∀ l ∈ lower, l.userKey < t.endKey := by
  intro l isLower
  rcases ends with isReached | ends
  · exact walk.after isReached t (by simp) l isLower
  · exact (walk.normal l isLower).userKey_lt (ends l isLower)

theorem Walk.next (walk : Walk lower (t :: rest) reached)
    (ends : reached = true ∨ ∀ l ∈ lower, l < t.parsedEndKey) : Walk lower rest true where
  normal := walk.normal
  proper other member := walk.proper other (by simp [member])
  ordered := (pairwise_cons.mp walk.ordered).2
  after _ other member l isLower := by
    have lt := walk.ends ends l isLower
    rcases (pairwise_cons.mp walk.ordered).1 other member with ⟨-, same, -⟩ | later
    · exact same ▸ lt
    · exact lt.trans_le (later.trans (walk.proper other (by simp [member])).le)

/-- **Invariants of the loop.** What every question and every written tombstone
preserves holds at the end. -/
theorem addLoop_invariant (st : Adding κ) (P : FileMetaData κ → List (Tombstone κ) → List (List (κ × κ)) → Prop)
    (walk : Walk lower list st.reachedLowerBound)
    (ask : ∀ t, Fits lower upper t → ∀ file added ptrs, P file added ptrs →
      P file added (asked sub lower upper t ptrs).2)
    (write : ∀ t, Fits lower upper t → ∀ file added ptrs, P file added ptrs →
      P (file.updateBoundariesForRange (clampedStart lower t) (clampedEnd upper t)) (added ++ [t]) ptrs)
    (init : P st.file st.added st.levelPtrs) :
    P (addLoop sub lower upper list st).file (addLoop sub lower upper list st).added
      (addLoop sub lower upper list st).levelPtrs := by
  induction list generalizing st with
  | nil => exact init
  | cons t rest ih =>
    have round := addLoop_round sub lower upper t rest st
    generalize addLoop sub lower upper (t :: rest) st = result at round
    cases round with
    | early => exact ih st walk.skip init
    | obsolete _ _ ends =>
      exact ih { st with reachedLowerBound := true } (walk.next ends) init
    | stop => exact init
    | dropped starts ends =>
      have fits : Fits lower upper t := ⟨walk.proper t (by simp), walk.ends ends, starts⟩
      exact ih { st with
          reachedLowerBound := true, levelPtrs := (asked sub lower upper t st.levelPtrs).2 }
        (walk.next ends) (ask t fits _ _ _ init)
    | write starts ends =>
      have fits : Fits lower upper t := ⟨walk.proper t (by simp), walk.ends ends, starts⟩
      exact ih (written lower upper t (asked sub lower upper t st.levelPtrs).2 st) (walk.next ends)
        (write t fits _ _ _ (ask t fits _ _ _ init))

/-! ### What the loop writes -/

/-- A tombstone over a user key that may not be dropped while the level
pointers stand where they do. -/
def Needed (sub : Subcompaction κ) (u : κ) (seq : Nat) (levelPtrs : List (List (κ × κ))) : Prop :=
  sub.earliestSnapshot < seq ∨ (sub.bottommostLevel = false ∧ (sub.leveled = true → DeeperAt u levelPtrs))

theorem asked_sorted (sorted : SortedLevels ptrs) : SortedLevels (asked sub lower upper t ptrs).2 := by
  unfold asked keyRangeNotExistsBeyondOutputLevel
  split
  · split
    · exact sorted
    · split
      · exact (scanRange_spec _ _ sorted).1.sorted
      · exact sorted
  · exact sorted

/-- A question about a range that starts at or before a user key passes no
file with it. -/
theorem asked_deeper (sorted : SortedLevels ptrs)
    (le : (clampedStart lower t).userKey ≤ u) (deeper : DeeperAt u ptrs) :
    DeeperAt u (asked sub lower upper t ptrs).2 := by
  unfold asked keyRangeNotExistsBeyondOutputLevel
  split
  · split
    · exact deeper
    · split
      · exact ((scanRange_spec _ _ sorted).1.anyFile _ fun _ holds => le.trans holds.2).mpr deeper
      · exact deeper
  · exact deeper

/-- A needed tombstone is found to be needed. -/
theorem asked_needed (sorted : SortedLevels ptrs)
    (le : (clampedStart lower t).userKey ≤ u) (lt : u < (clampedEnd upper t).userKey)
    (needed : Needed sub u t.seq ptrs) : (asked sub lower upper t ptrs).1 = false := by
  unfold asked keyRangeNotExistsBeyondOutputLevel
  rcases needed with recent | ⟨notBottommost, deeper⟩
  · rw [if_neg (not_le.mpr recent)]
  · rw [notBottommost, if_neg Bool.false_ne_true]
    by_cases leveled : sub.leveled = true
    · rw [leveled, if_pos rfl]
      split
      · obtain ⟨files, member, f, inFiles, first, last⟩ := deeper leveled
        refine Bool.eq_false_iff.mpr fun none => (scanRange_spec _ _ sorted).2.mp none ?_
        exact ⟨files, member, f, inFiles, first.trans_lt lt, le.trans last⟩
      · rfl
    · rw [if_neg leveled]
      split <;> rfl

theorem Needed.asked (needed : Needed sub u seq st.levelPtrs) (sorted : SortedLevels st.levelPtrs)
    (le : (clampedStart lower t).userKey ≤ u) :
    Needed sub u seq (CompactionOutputsProofs.asked sub lower upper t st.levelPtrs).2 :=
  needed.imp id fun ⟨notBottommost, deeper⟩ =>
    ⟨notBottommost, fun leveled => asked_deeper sorted le (deeper leveled)⟩

/-- The user key a tombstone is recorded from. -/
theorem clampedStart_userKey_le (start : t.startKey ≤ u) (from_lower : ∀ l ∈ lower, l.userKey ≤ u) :
    (clampedStart lower t).userKey ≤ u := by
  have raised := raisedStart_userKey_le.mpr ⟨start, from_lower⟩
  unfold clampedStart
  cases lower with
  | none => exact raised
  | some l =>
    dsimp only
    split
    · exact from_lower l rfl
    · exact raised

/-- **The loop writes every needed tombstone.** By induction on the fragments:
none before it stops the loop, because the raised starts increase. -/
theorem addLoop_writes (list : List (Tombstone κ)) (st : Adding κ)
    (walk : Walk lower list st.reachedLowerBound) (sorted : SortedLevels st.levelPtrs)
    (member : t ∈ list) (covers : t.startKey ≤ u ∧ u < t.endKey)
    (from_lower : ∀ l ∈ lower, l.userKey ≤ u)
    (starts : ∀ bound ∈ upper, raisedStart lower t ≤ bound)
    (recent : t.seq ≤ sub.earliestSnapshot → u < (clampedEnd upper t).userKey)
    (needed : Needed sub u t.seq st.levelPtrs) :
    t ∈ (addLoop sub lower upper list st).added := by
  induction list generalizing st with
  | nil => cases member
  | cons first rest ih =>
    have round := addLoop_round sub lower upper first rest st
    generalize addLoop sub lower upper (first :: rest) st = result at round
    rcases mem_cons.mp member with rfl | later
    · cases round with
      | early isLower ended =>
        have lt := userKey_le_of_le ended
        exact absurd (covers.2.trans_le (lt.trans (from_lower _ isLower))) (lt_irrefl u)
      | obsolete old bottommost =>
        rcases needed with recent | ⟨notBottommost, -⟩
        · exact absurd old (not_le.mpr recent)
        · rw [notBottommost] at bottommost
          cases bottommost
      | stop isUpper after => exact absurd (starts _ isUpper) (not_le.mpr after)
      | dropped _ _ notThere =>
        have old : t.seq ≤ sub.earliestSnapshot := by
          by_contra isRecent
          simp [CompactionOutputsProofs.asked, isRecent] at notThere
        rw [asked_needed sorted (clampedStart_userKey_le covers.1 from_lower) (recent old) needed] at notThere
        cases notThere
      | write _ ends =>
        exact addLoop_invariant (written lower upper t (asked sub lower upper t st.levelPtrs).2 st)
          (fun _ added _ => t ∈ added) (walk.next ends) (fun _ _ _ _ _ kept => kept)
          (fun _ _ _ _ _ kept => mem_append_left _ kept) (by simp [written])
    · have follows := (pairwise_cons.mp walk.ordered).1 t later
      have firstProper := walk.proper first (by simp)
      have startLe : first.startKey ≤ u := by
        rcases follows with ⟨same, -⟩ | before
        · exact same ▸ covers.1
        · exact firstProper.le.trans (before.trans covers.1)
      have le := clampedStart_userKey_le startLe from_lower
      cases round with
      | early => exact ih st walk.skip sorted later needed
      | obsolete _ _ ends =>
        exact ih { st with reachedLowerBound := true } (walk.next ends) sorted later needed
      | stop isUpper after ends =>
        have mono := raisedStart_mono firstProper (walk.ends ends) follows
        exact absurd (mono.trans (starts _ isUpper)) (not_le.mpr after)
      | dropped _ ends =>
        exact ih { st with
            reachedLowerBound := true, levelPtrs := (asked sub lower upper first st.levelPtrs).2 }
          (walk.next ends) (asked_sorted sorted) later (needed.asked sorted le)
      | write _ ends =>
        exact ih (written lower upper first (asked sub lower upper first st.levelPtrs).2 st)
          (walk.next ends) (asked_sorted sorted) later (needed.asked sorted le)

end Loop

/-! ## One file -/

/-- Recorded boundaries that lie between the bounds of a file. -/
structure Within (lower upper : Option (InternalKey κ)) (file : FileMetaData κ) : Prop where
  both : file.smallest = none ↔ file.largest = none
  lower_le : ∀ s ∈ file.smallest, ∀ l ∈ lower, l ≤ s
  le_upper : ∀ g ∈ file.largest, ∀ u ∈ upper, g ≤ u
  ordered : ∀ s ∈ file.smallest, ∀ g ∈ file.largest, s ≤ g

section File
variable {sub : Subcompaction κ} {lower upper : Option (InternalKey κ)} {file : FileMetaData κ}

/-- The new smallest key is the old one or the start, whichever comes first. -/
theorem updated_smallest (file : FileMetaData κ) (start finish : InternalKey κ) :
    ∃ s, (file.updateBoundariesForRange start finish).smallest = some s ∧ s ≤ start ∧
      (∀ old ∈ file.smallest, s ≤ old) ∧ (s = start ∨ s ∈ file.smallest) := by
  unfold FileMetaData.updateBoundariesForRange
  cases file.smallest with
  | none => exact ⟨start, by simp, le_rfl, by simp, .inl rfl⟩
  | some old =>
    by_cases before : start < old
    · exact ⟨start, by simp [before], le_rfl, by simpa using before.le, .inl rfl⟩
    · exact ⟨old, by simp [before], not_lt.mp before, by simp, .inr rfl⟩

theorem updated_largest (file : FileMetaData κ) (start finish : InternalKey κ) :
    ∃ g, (file.updateBoundariesForRange start finish).largest = some g ∧ finish ≤ g ∧
      (∀ old ∈ file.largest, old ≤ g) ∧ (g = finish ∨ g ∈ file.largest) := by
  unfold FileMetaData.updateBoundariesForRange
  cases file.largest with
  | none => exact ⟨finish, by simp, le_rfl, by simp, .inl rfl⟩
  | some old =>
    by_cases after : old < finish
    · exact ⟨finish, by simp [after], le_rfl, by simpa using after.le, .inl rfl⟩
    · exact ⟨old, by simp [after], not_lt.mp after, by simp, .inr rfl⟩

/-- Extending the boundaries by a range between the bounds. -/
theorem Within.update (within : Within lower upper file) (le : start ≤ finish)
    (lowerLe : ∀ l ∈ lower, l ≤ start) (leUpper : ∀ u ∈ upper, finish ≤ u) :
    Within lower upper (file.updateBoundariesForRange start finish) := by
  obtain ⟨s, smallest, sStart, -, sOld⟩ := updated_smallest file start finish
  obtain ⟨g, largest, finishG, -, gOld⟩ := updated_largest file start finish
  refine ⟨by simp [smallest, largest], ?_, ?_, ?_⟩
  · rw [smallest]
    rintro _ ⟨⟩ l isLower
    rcases sOld with rfl | old
    · exact lowerLe l isLower
    · exact within.lower_le s old l isLower
  · rw [largest]
    rintro _ ⟨⟩ u isUpper
    rcases gOld with rfl | old
    · exact leUpper u isUpper
    · exact within.le_upper g old u isUpper
  · rw [smallest, largest]
    rintro _ ⟨⟩ _ ⟨⟩
    exact sStart.trans (le.trans finishG)

/-- A written tombstone and what the boundaries of its file say of it. -/
structure Recorded (lower upper : Option (InternalKey κ)) (file : FileMetaData κ) (t : Tombstone κ) : Prop where
  smallest_le : ∃ s ∈ file.smallest, s ≤ clampedStart lower t
  le_largest : ∃ g ∈ file.largest, clampedEnd upper t ≤ g

theorem Recorded.update (recorded : Recorded lower upper file t) :
    Recorded lower upper (file.updateBoundariesForRange start finish) t := by
  obtain ⟨s, smallest, -, sOld, -⟩ := updated_smallest file start finish
  obtain ⟨g, largest, -, gOld, -⟩ := updated_largest file start finish
  obtain ⟨old, isOld, le⟩ := recorded.smallest_le
  obtain ⟨old', isOld', le'⟩ := recorded.le_largest
  exact ⟨⟨s, smallest, (sOld old isOld).trans le⟩, ⟨g, largest, le'.trans (gOld old' isOld')⟩⟩

/-- The bounds between which a file takes tombstones. -/
structure Bounds (lower upper : Option (InternalKey κ)) : Prop where
  normal : ∀ l ∈ lower, Normal l
  ordered : ∀ l ∈ lower, ∀ u ∈ upper, l ≤ u

/-- A tombstone of the input over a user key, the newest of its stripe there. -/
structure Leading (sub : Subcompaction κ) (whole : TruncatedTombstone κ) (u : κ) : Prop where
  member : whole ∈ inputTombstones sub.agg
  covers : TruncatedCovers whole u
  bounded : whole.seq ≤ kMaxSequenceNumber
  newest : ∀ other, TruncatedSeqs (inputTombstones sub.agg) u other →
    stripe sub.agg.snapshots other = stripe sub.agg.snapshots whole.seq → other ≤ whole.seq

variable (list : AscendingList sub.agg.snapshots) (bounds : Bounds lower upper) (levelPtrs : List (List (κ × κ)))
include list bounds

theorem newIterator_walk : Walk lower (sub.agg.newIterator lower upper) false :=
  have returned := newIterator_returned lower upper list
  ⟨bounds.normal, returned.proper, returned.ordered, by simp⟩

/-- What the loop leaves behind for one file. -/
theorem addLoop_file (within : Within lower upper file) :
    let st := addLoop sub lower upper (sub.agg.newIterator lower upper) ⟨false, file, [], levelPtrs⟩
    Within lower upper st.file ∧ ∀ t ∈ st.added, Recorded lower upper st.file t := by
  refine addLoop_invariant ⟨false, file, [], levelPtrs⟩
    (fun f added _ => Within lower upper f ∧ ∀ t ∈ added, Recorded lower upper f t)
    (newIterator_walk list bounds) (fun _ _ _ _ _ kept => kept) ?_ ⟨within, by simp⟩
  rintro t fits f _ - ⟨inside, recorded⟩
  have lowerLe := clampedStart_le.mp (le_refl (clampedStart lower t))
  have leUpper := le_clampedEnd.mp (le_refl (clampedEnd upper t))
  refine ⟨inside.update (fits.clamped bounds.ordered) lowerLe.2 leUpper.2, fun other isAdded => ?_⟩
  rcases mem_append.mp isAdded with old | new
  · exact (recorded other old).update
  · obtain rfl := mem_singleton.mp new
    obtain ⟨s, smallest, le, -⟩ := updated_smallest f (clampedStart lower other) (clampedEnd upper other)
    obtain ⟨g, largest, le', -⟩ := updated_largest f (clampedStart lower other) (clampedEnd upper other)
    exact ⟨⟨s, smallest, le⟩, ⟨g, largest, le'⟩⟩

/-- The newest tombstone of a stripe over a user key between the bounds is
written if it is needed. -/
theorem addLoop_file_writes (file : FileMetaData κ) (sorted : SortedLevels levelPtrs) (leading : Leading sub whole u)
    (from_lower : ∀ l ∈ lower, l.userKey ≤ u)
    (starts : ∀ bound ∈ upper, whole.startKey ≤ bound)
    (reach : ∀ bound ∈ upper, u < bound.userKey ∨
      (bound.userKey = u ∧ bound.sequence < whole.seq ∧ sub.earliestSnapshot < whole.seq))
    (needed : Needed sub u whole.seq levelPtrs) :
    ∃ t ∈ (addLoop sub lower upper (sub.agg.newIterator lower upper) ⟨false, file, [], levelPtrs⟩).added,
      (t.startKey ≤ u ∧ u < t.endKey) ∧ t.seq = whole.seq := by
  have returned := newIterator_returned lower upper list
  have merged := mem_mergedTombstones leading.member
    (fun l isLower => (from_lower l isLower).trans_lt leading.covers.2) starts
  have inStripe : NewestOfStripe sub.agg.snapshots (fun s =>
      TruncatedSeqs (sub.agg.mergedTombstones lower upper) u s ∧ s ≤ kMaxSequenceNumber) whole.seq := by
    refine ⟨⟨⟨whole, merged, leading.covers, rfl⟩, leading.bounded⟩, ?_⟩
    rintro other ⟨⟨t, isMerged, covering⟩, -⟩
    exact leading.newest other ⟨t, mem_inputTombstones isMerged, covering⟩
  obtain ⟨t, inList, lies, same⟩ := (returned.newest u whole.seq).mpr inStripe
  refine ⟨t, ?_, lies, same⟩
  have raised := raisedStart_userKey_le.mpr ⟨lies.1, from_lower⟩
  refine addLoop_writes _ _ (newIterator_walk list bounds) sorted
    inList lies from_lower (fun upperKey isUpper => ?_) (fun old => ?_) (same ▸ needed)
  · rcases reach upperKey isUpper with after | ⟨sameKey, newer, -⟩
    · exact (lt_of_userKey_lt (raised.trans_lt after)).le
    · refine (lt_of_newer (raised.trans sameKey.ge) ?_).le
      rw [(raisedStart_footer lower t).2, same]
      exact newer
  · rcases clampedEnd_cases upper t with whole | isUpper
    · exact whole ▸ lies.2
    · rcases reach _ isUpper with after | ⟨-, -, recent⟩
      · exact after
      · exact absurd (same ▸ old) (not_le.mpr recent)

end File

/-- A tombstone of a file covers an internal key after it is truncated to the
recorded boundaries of the file. -/
structure FileCovers (file : OutputFile κ) (t : Tombstone κ) (k : InternalKey κ) : Prop where
  member : t ∈ file.tombstones
  newer : k.sequence < t.seq
  start : (Truncation.ofBoundaries file.file.smallest file.file.largest).startKey t ≤ k
  finish : k < (Truncation.ofBoundaries file.file.smallest file.file.largest).endKey t

/-- A tombstone covers what lies between the keys recorded for it. -/
theorem fileCovers_of_recorded (member : t ∈ file.tombstones) (recorded : Recorded lower upper file.file t)
    (bound : t.seq ≤ kMaxSequenceNumber)
    (covers : t.startKey ≤ k.userKey ∧ k.userKey < t.endKey) (newer : k.sequence < t.seq)
    (from_lower : ∀ l ∈ lower, l ≤ k)
    (before : ∀ g ∈ file.file.largest, k.userKey < g.userKey ∨ (k ≤ g ∧ g.sequence ≠ 0)) :
    FileCovers file t k := by
  have started : t.parsedStartKey ≤ k := (lt_of_newer covers.1 newer).le
  have raised : raisedStart lower t ≤ k := by
    refine (lt_of_newer (raisedStart_userKey_le.mpr ⟨covers.1, fun l isLower =>
      userKey_le_of_le (from_lower l isLower)⟩) ?_).le
    exact (raisedStart_footer lower t).2 ▸ newer
  refine ⟨member, newer, ?_, ?_⟩
  · obtain ⟨s, smallest, le⟩ := recorded.smallest_le
    rw [mem_def] at smallest
    simp only [Truncation.startKey, Truncation.ofBoundaries, smallest, Option.map_some]
    split
    · exact started
    · exact (maxValid_le s).trans (le.trans (clampedStart_le.mpr ⟨raised, from_lower⟩))
  · obtain ⟨g, largest, -⟩ := recorded.le_largest
    rw [mem_def] at largest
    have ends (cut : InternalKey κ) (lt : k < cut) : k < (if t.parsedEndKey ≤ cut then t.parsedEndKey else cut) := by
      split
      · exact lt_of_userKey_lt covers.2
      · exact lt
    have truncated : k < (if g.type = .kTypeRangeDeletion ∧ g.sequence = kMaxSequenceNumber then g
        else if g.sequence = 0 then g else ⟨g.userKey, g.sequence - 1, .kTypeMaxValid⟩) := by
      rcases before g largest with lt | ⟨le, positive⟩
      · split
        · exact lt_of_userKey_lt lt
        · split <;> exact lt_of_userKey_lt lt
      · split
        case isTrue extended =>
          refine lt_of_le_of_ne le fun same => ?_
          have := extended.2
          rw [← same] at this
          omega
        case isFalse => exact le.trans_lt (lt_of_newer le_rfl (by dsimp only; omega))
    simp only [Truncation.endKey, Truncation.ofBoundaries, largest, Option.map_some]
    exact ends _ truncated

/-! ## Cutting the stream -/

/-- The promises about a stream cut into groups, one for each file. Sequence
number zero is given only to the last version of a user key. -/
structure Cutting (sub : Subcompaction κ) (groups : List (List (StreamKey κ))) : Prop where
  opened : ∀ group ∈ groups.tail, group ≠ []
  sorted : groups.flatten.Pairwise (fun a b => a.key ≤ b.key ∧ (a.isRangeDel = false → a.key < b.key))
  zeroLast : groups.flatten.Pairwise
    (fun a b => a.isRangeDel = false → a.key.sequence = 0 → a.key.userKey ≠ b.key.userKey)
  sequences : ∀ k ∈ groups.flatten, k.key.sequence < kMaxSequenceNumber
  inRange : ∀ k ∈ groups.flatten, (∀ first ∈ sub.compStart, first ≤ k.key.userKey) ∧
    ∀ last ∈ sub.compEnd, k.key.userKey < last

/-- The key that opens the next file. -/
def nextKey (groups : List (List (StreamKey κ))) : Option (InternalKey κ) :=
  (groups.head?.bind List.head?).map (·.key)

/-- The lower bound of a file. -/
def fileLower (sub : Subcompaction κ) (isFirst : Bool) (group : List (StreamKey κ)) : Option (InternalKey κ) :=
  if isFirst then sub.compStart.map beforeKey else group.head?.map (·.key)

/-- The upper bound of a file. -/
def fileUpper (sub : Subcompaction κ) (group : List (StreamKey κ)) (groups : List (List (StreamKey κ))) :
    Option (InternalKey κ) :=
  upperBound sub (nextKey groups) (pointBoundaries group)

section Cut
variable {sub : Subcompaction κ} {group : List (StreamKey κ)} {groups : List (List (StreamKey κ))}

variable (cut : Cutting sub (group :: groups))
include cut

theorem Cutting.tail : Cutting sub groups where
  opened other member := cut.opened other (mem_of_mem_tail member)
  sorted := (pairwise_append.mp cut.sorted).2.1
  zeroLast := (pairwise_append.mp cut.zeroLast).2.1
  sequences k member := cut.sequences k (mem_append_right _ member)
  inRange k member := cut.inRange k (mem_append_right _ member)

omit cut in
omit [LinearOrder κ] in
/-- The key that opens the next file is in the stream. -/
theorem nextKey_mem {next} (isNext : next ∈ nextKey groups) : ∃ k ∈ groups.flatten, k.key = next := by
  cases groups with
  | nil => simp [nextKey] at isNext
  | cons group =>
    cases group with
    | nil => simp [nextKey] at isNext
    | cons k =>
      refine ⟨k, by simp, ?_⟩
      simpa [nextKey] using isNext

theorem Cutting.before_next {next} (member : k ∈ group) (isNext : next ∈ nextKey groups) :
    k.key ≤ next ∧ (k.isRangeDel = false → k.key < next) := by
  obtain ⟨k', inRest, rfl⟩ := nextKey_mem isNext
  exact (pairwise_append.mp cut.sorted).2.2 k member k' inRest

/-- The first key of a group is its least one. -/
theorem Cutting.head_le (isFirst : first ∈ group.head?) (member : k ∈ group) : first.key ≤ k.key := by
  cases group with
  | nil => cases member
  | cons head =>
    obtain rfl : head = first := by simpa using isFirst
    rcases mem_cons.mp member with rfl | later
    · exact le_rfl
    · have sorted := (pairwise_append.mp cut.sorted).1
      exact ((pairwise_cons.mp sorted).1 k later).1

omit cut in
omit [LinearOrder κ] in
/-- The source's lower bound: the key that opened the file, whether it was a
tombstone start or a point. -/
theorem lowerBound_eq (opened : isFirst = true ∨ group ≠ []) :
    lowerBound sub isFirst (rangeTombstoneLowerBound group) (pointBoundaries group) =
      fileLower sub isFirst group := by
  unfold lowerBound fileLower
  cases isFirst with
  | true => rfl
  | false =>
    cases group with
    | nil => simp at opened
    | cons first =>
      cases kind : first.isRangeDel with
      | true => simp [rangeTombstoneLowerBound, Option.filter, kind]
      | false => simp [rangeTombstoneLowerBound, pointBoundaries, Option.filter, kind]

omit cut in
omit [LinearOrder κ] in
theorem mem_points (isBoundary : boundary ∈ (pointBoundaries group).smallest ∨
    boundary ∈ (pointBoundaries group).largest) : ∃ k ∈ group, k.isRangeDel = false ∧ k.key = boundary := by
  have origin : ∃ k ∈ group.filter (!·.isRangeDel), k.key = boundary := by
    rcases isBoundary with isSmallest | isLargest
    · obtain ⟨k, found, rfl⟩ := map_eq_some_iff.mp isSmallest
      exact ⟨k, mem_of_head? found, rfl⟩
    · obtain ⟨k, found, rfl⟩ := map_eq_some_iff.mp isLargest
      exact ⟨k, mem_of_getLast? found, rfl⟩
  obtain ⟨k, member, same⟩ := origin
  obtain ⟨inGroup, isPoint⟩ := mem_filter.mp member
  exact ⟨k, inGroup, by simpa using isPoint, same⟩

/-- The largest boundary comes after every point of the group. -/
theorem Cutting.le_largest (member : k ∈ group)
    (isPoint : k.isRangeDel = false) : ∃ g ∈ (pointBoundaries group).largest, k.key ≤ g := by
  have inPoints : k ∈ group.filter (!·.isRangeDel) := mem_filter.mpr ⟨member, by simp [isPoint]⟩
  have sorted := ((pairwise_append.mp cut.sorted).1.sublist (filter_sublist (p := (!·.isRangeDel))))
  obtain ⟨last, found⟩ : ∃ last, (group.filter (!·.isRangeDel)).getLast? = some last :=
    ⟨_, getLast?_eq_some_getLast (ne_nil_of_mem inPoints)⟩
  refine ⟨last.key, map_eq_some_iff.mpr ⟨last, found, rfl⟩, ?_⟩
  obtain ⟨_, split⟩ := getLast?_eq_some_iff.mp found
  rw [split] at inPoints sorted
  rcases mem_append.mp inPoints with early | isLast
  · exact ((pairwise_append.mp sorted).2.2 k early last (by simp)).1
  · exact (congrArg StreamKey.key (mem_singleton.mp isLast)).le

theorem Cutting.lower_normal : ∀ l ∈ fileLower sub isFirst group, Normal l := by
  intro _ isLower
  unfold fileLower at isLower
  split at isLower
  · obtain ⟨first, -, rfl⟩ := map_eq_some_iff.mp isLower
    exact le_rfl
  · obtain ⟨first, found, rfl⟩ := map_eq_some_iff.mp isLower
    have inStream := mem_append_left groups.flatten (mem_of_head? found)
    exact (beforeKey_lt le_rfl (cut.sequences first inStream)).le

/-- The lower bound comes before every key of the group. -/
theorem Cutting.lower_le (member : k ∈ group) : ∀ l ∈ fileLower sub isFirst group, l ≤ k.key := by
  intro _ isLower
  have inStream := mem_append_left groups.flatten member
  unfold fileLower at isLower
  split at isLower
  · obtain ⟨first, isStart, rfl⟩ := map_eq_some_iff.mp isLower
    exact (beforeKey_lt ((cut.inRange k inStream).1 first isStart) (cut.sequences k inStream)).le
  · obtain ⟨_, found, rfl⟩ := map_eq_some_iff.mp isLower
    exact cut.head_le found member

omit cut in
/-- What an upper bound is: the end of the subcompaction, the last point when
the next file goes on with its user key, or the place before the next file. -/
theorem fileUpper_cases (isUpper : up ∈ fileUpper sub group groups) :
    (nextKey groups = none ∧ ∃ last ∈ sub.compEnd, up = beforeKey last) ∨
    (∃ next ∈ nextKey groups, up ∈ (pointBoundaries group).largest ∧ up.userKey = next.userKey) ∨
    (∃ next ∈ nextKey groups, up = beforeKey next.userKey ∧
      ∀ g ∈ (pointBoundaries group).largest, g.userKey ≠ next.userKey) := by
  unfold fileUpper upperBound at isUpper
  split at isUpper
  · rename_i noNext
    obtain ⟨last, isEnd, rfl⟩ := map_eq_some_iff.mp isUpper
    exact .inl ⟨noNext, last, isEnd, rfl⟩
  · rename_i next isNext
    split at isUpper
    case isTrue straddles =>
      obtain ⟨g, isLargest, same⟩ := (Option.any_eq_true _ _).mp straddles
      obtain rfl : g = up := by
        rw [mem_def, isLargest] at isUpper
        exact Option.some.inj isUpper
      exact .inr (.inl ⟨next, isNext, isLargest, of_decide_eq_true same⟩)
    case isFalse apart =>
      refine .inr (.inr ⟨next, isNext, (Option.some.inj isUpper).symm, fun g isLargest same => ?_⟩)
      exact apart ((Option.any_eq_true _ _).mpr ⟨g, isLargest, decide_eq_true same⟩)

omit cut in
/-- A file that another one follows has an upper bound. -/
theorem fileUpper_isSome {next} (sub : Subcompaction κ) (group : List (StreamKey κ))
    (isNext : next ∈ nextKey groups) :
    ∃ up, up ∈ fileUpper sub group groups := by
  unfold fileUpper upperBound
  rw [mem_def.mp isNext]
  dsimp only
  split
  · rename_i straddles
    obtain ⟨g, isLargest, -⟩ := (Option.any_eq_true _ _).mp straddles
    exact ⟨g, isLargest⟩
  · exact ⟨_, rfl⟩

/-- The next file begins after the upper bound, which has its user key. -/
theorem Cutting.upper_lt_next {next} (isUpper : up ∈ fileUpper sub group groups) (isNext : next ∈ nextKey groups) :
    up < next ∧ up.userKey = next.userKey := by
  rcases fileUpper_cases isUpper with ⟨noNext, -⟩ | ⟨_, isOther, isLargest, same⟩ | ⟨_, isOther, rfl, -⟩
  · rw [noNext] at isNext
    cases isNext
  · obtain rfl := mem_unique isNext isOther
    obtain ⟨k, member, isPoint, rfl⟩ := mem_points (.inr isLargest)
    exact ⟨(cut.before_next member isNext).2 isPoint, same⟩
  · obtain rfl := mem_unique isNext isOther
    obtain ⟨k, inRest, rfl⟩ := nextKey_mem isNext
    exact ⟨beforeKey_lt le_rfl (cut.tail.sequences k inRest), rfl⟩

/-- A point of the group comes before the upper bound. If it has the same user
key, then the upper bound is not the oldest version. -/
theorem Cutting.le_upper (member : k ∈ group)
    (isPoint : k.isRangeDel = false) (isUpper : up ∈ fileUpper sub group groups) :
    k.key.userKey < up.userKey ∨ (k.key ≤ up ∧ up.sequence ≠ 0) := by
  obtain ⟨_, isLargest, le⟩ := cut.le_largest member isPoint
  obtain ⟨last, lastMember, lastPoint, rfl⟩ := mem_points (.inr isLargest)
  rcases fileUpper_cases isUpper with ⟨-, finish, isEnd, rfl⟩ | ⟨next, isNext, isUp, same⟩ |
    ⟨next, isNext, rfl, apart⟩
  · exact .inl ((cut.inRange k (mem_append_left _ member)).2 finish isEnd)
  · obtain rfl := mem_unique isUp isLargest
    obtain ⟨k', inRest, rfl⟩ := nextKey_mem isNext
    refine .inr ⟨le, fun zero => ?_⟩
    exact (pairwise_append.mp cut.zeroLast).2.2 last lastMember k' inRest lastPoint zero same
  · have before := userKey_le_of_le ((cut.before_next lastMember isNext).2 lastPoint).le
    have lt : last.key.userKey < next.userKey := lt_of_le_of_ne before (apart _ isLargest)
    exact .inl ((userKey_le_of_le le).trans_lt lt)

/-- The points of a group lie between the bounds of its file. -/
theorem Cutting.within :
    Within (fileLower sub isFirst group) (fileUpper sub group groups) (pointBoundaries group) := by
  refine ⟨by simp [pointBoundaries], ?_, ?_, ?_⟩
  · intro s isSmallest
    obtain ⟨k, member, -, rfl⟩ := mem_points (.inl isSmallest)
    exact cut.lower_le member
  · intro g isLargest _ isUpper
    obtain ⟨k, member, isPoint, rfl⟩ := mem_points (.inr isLargest)
    rcases cut.le_upper member isPoint isUpper with lt | ⟨le, -⟩
    · exact (lt_of_userKey_lt lt).le
    · exact le
  · intro _ isSmallest g isLargest
    obtain ⟨_, member, isPoint, rfl⟩ := mem_points (.inl isSmallest)
    obtain ⟨g', isLargest', le⟩ := cut.le_largest member isPoint
    have same : g' = g := mem_unique isLargest' isLargest
    exact same ▸ le

end Cut

/-! ## The files -/

section Files
variable {sub : Subcompaction κ} {isFirst : Bool} {group : List (StreamKey κ)}
  {groups : List (List (StreamKey κ))} {levelPtrs : List (List (κ × κ))}

/-- One call of `AddRangeDels`. -/
def fileOutput (sub : Subcompaction κ) (isFirst : Bool) (group : List (StreamKey κ))
    (groups : List (List (StreamKey κ))) (levelPtrs : List (List (κ × κ))) :
    OutputFile κ × List (List (κ × κ)) :=
  addRangeDels sub isFirst (rangeTombstoneLowerBound group) (nextKey groups) (pointBoundaries group) levelPtrs

private theorem outputFiles_cons : outputFiles sub isFirst levelPtrs (group :: groups) =
    (fileOutput sub isFirst group groups levelPtrs).1 ::
      outputFiles sub false (fileOutput sub isFirst group groups levelPtrs).2 groups := rfl

variable (cut : Cutting sub (group :: groups)) (opened : isFirst = true ∨ group ≠ [])
include cut opened

/-- A file whose lower bound comes after its upper one gets no tombstone, every
other one what the loop adds. -/
theorem fileOutput_cases (levelPtrs : List (List (κ × κ))) :
    (fileOutput sub isFirst group groups levelPtrs = (⟨pointBoundaries group, []⟩, levelPtrs) ∧
      ∃ l ∈ fileLower sub isFirst group, ∃ u ∈ fileUpper sub group groups, u < l) ∨
    (∃ st, st = addLoop sub (fileLower sub isFirst group) (fileUpper sub group groups)
        (sub.agg.newIterator (fileLower sub isFirst group) (fileUpper sub group groups))
        ⟨false, pointBoundaries group, [], levelPtrs⟩ ∧
      fileOutput sub isFirst group groups levelPtrs = (⟨st.file, st.added⟩, st.levelPtrs) ∧
      Bounds (fileLower sub isFirst group) (fileUpper sub group groups)) := by
  unfold fileOutput addRangeDels
  rw [lowerBound_eq opened]
  by_cases crossed : ∃ l ∈ fileLower sub isFirst group, ∃ u ∈ fileUpper sub group groups, u < l
  · refine .inl ⟨?_, crossed⟩
    exact if_pos crossed
  · refine .inr ⟨_, rfl, ?_, cut.lower_normal, ?_⟩
    · exact if_neg crossed
    · intro l isLower u isUpper
      exact not_lt.mp fun lt => crossed ⟨l, isLower, u, isUpper, lt⟩

/-- The boundaries of a written file lie between its bounds. -/
theorem fileOutput_within (levelPtrs : List (List (κ × κ)))
    (list : AscendingList sub.agg.snapshots) : Within (fileLower sub isFirst group) (fileUpper sub group groups)
    (fileOutput sub isFirst group groups levelPtrs).1.file := by
  rcases fileOutput_cases cut opened levelPtrs with ⟨same, -⟩ | ⟨_, rfl, same, bounds⟩
  · rw [same]
    exact cut.within
  · rw [same]
    exact (addLoop_file list bounds levelPtrs cut.within).1

/-- The pointers a file leaves behind are sorted, and they have passed no key
from the next file on. -/
theorem fileOutput_ptrs (list : AscendingList sub.agg.snapshots) (sorted : SortedLevels levelPtrs) :
    SortedLevels (fileOutput sub isFirst group groups levelPtrs).2 ∧
    ∀ u, (∀ bound ∈ fileUpper sub group groups, bound.userKey ≤ u) → (nextKey groups ≠ none) → DeeperAt u levelPtrs →
      DeeperAt u (fileOutput sub isFirst group groups levelPtrs).2 := by
  rcases fileOutput_cases cut opened levelPtrs with ⟨same, -⟩ | ⟨_, rfl, same, bounds⟩
  · rw [same]
    exact ⟨sorted, fun _ _ _ deeper => deeper⟩
  · rw [same]
    have walk := newIterator_walk list bounds
    constructor
    · exact addLoop_invariant _ (fun _ _ ptrs => SortedLevels ptrs) walk
        (fun _ _ _ _ _ kept => asked_sorted kept) (fun _ _ _ _ _ kept => kept) sorted
    · intro u before notLast deeper
      obtain ⟨next, isNext⟩ := Option.ne_none_iff_exists'.mp notLast
      obtain ⟨up, isUpper⟩ := fileUpper_isSome sub group isNext
      refine (addLoop_invariant _ (fun _ _ ptrs => SortedLevels ptrs ∧ DeeperAt u ptrs) walk
        (fun _ fits _ _ _ kept => ⟨asked_sorted kept.1, asked_deeper kept.1 ?_ kept.2⟩)
        (fun _ _ _ _ _ kept => kept) ⟨sorted, deeper⟩).2
      refine (userKey_le_of_le ?_).trans (before up isUpper)
      exact clampedStart_le.mpr ⟨fits.starts up isUpper, fun l isLower => bounds.ordered l isLower up isUpper⟩

/-- The newest tombstone of a stripe over a key of this file, if needed. -/
theorem fileOutput_covers (list : AscendingList sub.agg.snapshots) (sorted : SortedLevels levelPtrs)
    (leading : Leading sub whole u)
    (from_lower : ∀ l ∈ fileLower sub isFirst group, l.userKey ≤ u)
    (starts : ∀ up ∈ fileUpper sub group groups, whole.startKey ≤ up)
    (reach : ∀ up ∈ fileUpper sub group groups, u < up.userKey ∨
      (up.userKey = u ∧ up.sequence < whole.seq ∧ sub.earliestSnapshot < whole.seq ∧ up.sequence ≠ 0))
    (crossed : ¬∃ l ∈ fileLower sub isFirst group, ∃ up ∈ fileUpper sub group groups, up < l)
    (needed : Needed sub u whole.seq levelPtrs) :
    ∃ t, t.seq = whole.seq ∧ (t.startKey ≤ u ∧ u < t.endKey) ∧
      ∀ k : InternalKey κ, k.userKey = u → k.sequence < whole.seq → (∀ l ∈ fileLower sub isFirst group, l ≤ k) →
        (∀ up ∈ fileUpper sub group groups, k ≤ up) →
        FileCovers (fileOutput sub isFirst group groups levelPtrs).1 t k := by
  rcases fileOutput_cases cut opened levelPtrs with ⟨-, isCrossed⟩ | ⟨_, rfl, same, bounds⟩
  · exact absurd isCrossed crossed
  obtain ⟨t, isAdded, lies, sameSeq⟩ := addLoop_file_writes list bounds
    levelPtrs (pointBoundaries group) sorted leading from_lower starts
    (fun up isUpper => (reach up isUpper).imp id fun facts => ⟨facts.1, facts.2.1, facts.2.2.1⟩) needed
  obtain ⟨within, recorded⟩ := addLoop_file list bounds levelPtrs cut.within
  have isRecorded := recorded t isAdded
  rw [same]
  refine ⟨t, sameSeq, lies, ?_⟩
  rintro k rfl newer fromKey toKey
  refine fileCovers_of_recorded isAdded isRecorded (sameSeq ▸ leading.bounded) lies (sameSeq ▸ newer) fromKey ?_
  intro g isLargest
  obtain ⟨g', isLargest', le⟩ := isRecorded.le_largest
  obtain rfl : g' = g := mem_unique isLargest' isLargest
  have kEnd := le_clampedEnd.mpr ⟨(lt_of_userKey_lt lies.2).le, toKey⟩
  by_cases later : k.userKey < g'.userKey
  · exact .inl later
  · refine .inr ⟨kEnd.trans le, fun zero => ?_⟩
    -- the recorded end has the user key of `k`, so it is the upper bound itself
    have isUpper : clampedEnd (fileUpper sub group groups) t ∈ fileUpper sub group groups := by
      refine (clampedEnd_cases _ t).resolve_left fun whole => ?_
      rw [whole] at le
      exact absurd (lies.2.trans_le (userKey_le_of_le le)) later
    obtain rfl : g' = clampedEnd (fileUpper sub group groups) t :=
      le_antisymm (within.le_upper g' isLargest _ isUpper) le
    rcases reach _ isUpper with after | ⟨-, -, -, positive⟩
    · exact later after
    · exact positive zero

end Files

/-! ## The subcompaction -/

/-- A subcompaction with its stream, cut in any way. -/
structure OutputJob (κ : Type) [LinearOrder κ] where
  sub : Subcompaction κ
  groups : List (List (StreamKey κ))
  snapshots : AscendingList sub.agg.snapshots
  levels : SortedLevels sub.deeperLevels
  nonempty : groups ≠ []
  cut : Cutting sub groups

namespace OutputJob
variable (job : OutputJob κ)

/-- The files the subcompaction writes, one for each group. -/
def outputs : List (OutputFile κ) := subcompactionOutputs job.sub job.groups

/-- A user key the subcompaction is responsible for. -/
def InRange (u : κ) : Prop := (∀ first ∈ job.sub.compStart, first ≤ u) ∧ ∀ last ∈ job.sub.compEnd, u < last

/-- A tombstone of the input over a user key that no other of its snapshot
stripe supersedes there. -/
structure NewestOver (whole : TruncatedTombstone κ) (u : κ) : Prop where
  member : whole ∈ inputTombstones job.sub.agg
  covers : TruncatedCovers whole u
  bounded : whole.seq ≤ kMaxSequenceNumber
  newest : ∀ other, TruncatedSeqs (inputTombstones job.sub.agg) u other →
    stripe job.sub.agg.snapshots other = stripe job.sub.agg.snapshots whole.seq → other ≤ whole.seq

/-- The opening key of the file at an index; the first file has none. -/
def openingKey (i : Nat) (group : List (StreamKey κ)) : Option (InternalKey κ) :=
  if i = 0 then none else group.head?.map (·.key)

end OutputJob

section Run
variable {sub : Subcompaction κ}

theorem nextKey_of_later (later : file ∈ outputFiles sub false levelPtrs groups)
    (opened : ∀ group ∈ groups, group ≠ []) : ∃ next, next ∈ nextKey groups := by
  cases groups with
  | nil => cases later
  | cons group =>
    obtain ⟨first, _, rfl⟩ := exists_cons_of_ne_nil (opened group (by simp))
    exact ⟨first.key, rfl⟩

variable (list : AscendingList sub.agg.snapshots)
include list

variable (groups : List (List (StreamKey κ)))

/-- Files come after the key that opened the first of them. -/
theorem outputFiles_after
    (levelPtrs : List (List (κ × κ))) (cut : Cutting sub groups) (opened : ∀ group ∈ groups, group ≠ []) :
    ∀ file ∈ outputFiles sub false levelPtrs groups, ∀ next ∈ nextKey groups, ∀ s ∈ file.file.smallest, next ≤ s := by
  induction groups generalizing levelPtrs with
  | nil =>
    intro file member
    cases member
  | cons group _ ih =>
    have open' := opened group (by simp)
    intro file member next isNext s isSmallest
    rcases mem_cons.mp member with rfl | later
    · refine (fileOutput_within cut (.inr open') levelPtrs list).lower_le s isSmallest next ?_
      simpa [fileLower, nextKey] using isNext
    · have openedRest := fun g inRest => opened g (mem_cons_of_mem _ inRest)
      obtain ⟨first, isFirst⟩ := nextKey_of_later later openedRest
      obtain ⟨head, inGroup, rfl⟩ : ∃ k ∈ group, k.key = next := by
        obtain ⟨k, found, rfl⟩ := map_eq_some_iff.mp isNext
        exact ⟨k, mem_of_head? found, rfl⟩
      exact (cut.before_next inGroup isFirst).1.trans (ih _ cut.tail openedRest file later first isFirst s isSmallest)

/-- Successive files do not overlap, and each is a range. -/
theorem outputFiles_disjoint (isFirst : Bool) (levelPtrs : List (List (κ × κ)))
    (cut : Cutting sub groups) (opened : ∀ group ∈ groups, isFirst = true ∨ group ≠ []) :
    (∀ file ∈ outputFiles sub isFirst levelPtrs groups, (file.file.smallest = none ↔
      file.file.largest = none) ∧ ∀ s ∈ file.file.smallest, ∀ g ∈ file.file.largest, s ≤ g) ∧
    (outputFiles sub isFirst levelPtrs groups).Pairwise (fun a b =>
      ∀ g ∈ a.file.largest, ∀ s ∈ b.file.smallest, g < s) := by
  induction groups generalizing isFirst levelPtrs with
  | nil => exact ⟨fun file member => absurd member not_mem_nil, List.Pairwise.nil⟩
  | cons group groups ih =>
    have within := fileOutput_within cut (opened group (by simp)) levelPtrs list
    obtain ⟨ranges, disjoint⟩ := ih false (fileOutput sub isFirst group groups levelPtrs).2 cut.tail
      (fun g member => .inr (cut.opened g member))
    refine ⟨?_, pairwise_cons.mpr ⟨?_, disjoint⟩⟩
    · exact forall_mem_cons.mpr ⟨⟨within.both, within.ordered⟩, ranges⟩
    · intro file later g isLargest s isSmallest
      obtain ⟨first, isNext⟩ := nextKey_of_later later cut.opened
      obtain ⟨up, isUpper⟩ := fileUpper_isSome sub group isNext
      exact ((within.le_upper g isLargest up isUpper).trans_lt (cut.upper_lt_next isUpper isNext).1).trans_le
        (outputFiles_after list _ _ cut.tail cut.opened file later first isNext s isSmallest)

/-- What a file holds of a tombstone over a user key. -/
def HoldsOver (file : OutputFile κ) (opening : Option (InternalKey κ)) (seq : Nat) (u : κ) : Prop :=
  (∀ first ∈ opening, first.userKey ≤ u) ∧ ∃ t, t.seq = seq ∧ (t.startKey ≤ u ∧ u < t.endKey) ∧
    ∀ k : InternalKey κ, k.userKey = u → k.sequence < seq → (∀ first ∈ opening, first ≤ k) → FileCovers file t k

/-- The last file that reaches a user key covers it, by induction on the files.
-/
theorem outputFiles_hold (isFirst : Bool) (levelPtrs : List (List (κ × κ))) (cut : Cutting sub groups)
    (nonempty : groups ≠ []) (opened : ∀ group ∈ groups, isFirst = true ∨ group ≠ []) (sorted : SortedLevels levelPtrs)
    {u : κ} (leading : Leading sub whole u)
    (starts : ∀ first ∈ sub.compStart, first ≤ u) (ends : ∀ last ∈ sub.compEnd, u < last)
    (from_lower : ∀ group ∈ groups.head?, ∀ l ∈ fileLower sub isFirst group, l.userKey ≤ u)
    (needed : Needed sub u whole.seq levelPtrs) :
    ∃ i group file, groups[i]? = some group ∧ (outputFiles sub isFirst levelPtrs groups)[i]? = some file ∧
      HoldsOver file (if isFirst = true ∧ i = 0 then none else group.head?.map (·.key)) whole.seq u := by
  induction groups generalizing isFirst levelPtrs with
  | nil => exact absurd rfl nonempty
  | cons group groups ih =>
    have open' := opened group (by simp)
    have lowerLe := from_lower group rfl
    by_cases goesOn : ∃ next ∈ nextKey groups, next.userKey ≤ u
    · obtain ⟨next, isNext, le⟩ := goesOn
      obtain ⟨ptrsSorted, stays⟩ := fileOutput_ptrs cut open' list sorted
      have stillNeeded : Needed sub u whole.seq (fileOutput sub isFirst group groups levelPtrs).2 := by
        refine needed.imp id fun ⟨notBottommost, deeper⟩ => ⟨notBottommost, fun leveled => ?_⟩
        refine stays u (fun up isUpper => ?_) (Option.ne_none_iff_exists'.mpr ⟨next, isNext⟩) (deeper leveled)
        exact (cut.upper_lt_next isUpper isNext).2 ▸ le
      obtain ⟨i, group', file, isGroup, isFile, holds⟩ := ih false _ cut.tail
        (by rintro rfl; cases isNext) (fun g inRest => .inr (cut.opened g inRest)) ptrsSorted
        (by
          intro _ isHead l isLower
          obtain rfl : l = next := by
            rw [nextKey, mem_def.mp isHead] at isNext
            exact mem_unique isLower isNext
          exact le) stillNeeded
      refine ⟨i + 1, group', file, by simpa using isGroup, ?_, ?_⟩
      · rw [outputFiles_cons]
        simpa using isFile
      · simpa using holds
    · have reach : ∀ up ∈ fileUpper sub group groups, u < up.userKey := by
        intro up isUpper
        rcases fileUpper_cases isUpper with ⟨-, last, isEnd, rfl⟩ | ⟨next, isNext, -, same⟩ | ⟨next, isNext, rfl, -⟩
        · exact ends last isEnd
        · exact same ▸ not_le.mp fun le => goesOn ⟨next, isNext, le⟩
        · exact not_le.mp fun le => goesOn ⟨next, isNext, le⟩
      obtain ⟨t, sameSeq, lies, covered⟩ := fileOutput_covers cut open' list sorted leading lowerLe
        (fun up isUpper => (lt_of_userKey_lt (leading.covers.1.trans_lt (reach up isUpper))).le)
        (fun up isUpper => .inl (reach up isUpper))
        (by
          rintro ⟨l, isLower, up, isUpper, lt⟩
          exact absurd (reach up isUpper) (not_lt.mpr ((userKey_le_of_le lt.le).trans (lowerLe l isLower)))) needed
      refine ⟨0, group, _, rfl, by rw [outputFiles_cons]; rfl, ?_⟩
      have lowerKey (l : InternalKey κ) (isLower : l ∈ fileLower sub isFirst group)
          (k : InternalKey κ) (sameKey : k.userKey = u) (newer : k.sequence < whole.seq)
          (after : ∀ first ∈ (if isFirst = true ∧ 0 = 0 then none else group.head?.map (·.key)),
            first ≤ k) : l ≤ k := by
        cases isFirst with
        | true =>
          obtain ⟨first, isStart, rfl⟩ := map_eq_some_iff.mp isLower
          exact (beforeKey_lt (sameKey ▸ starts first isStart) (newer.trans_le leading.bounded)).le
        | false => exact after l isLower
      refine ⟨?_, t, sameSeq, lies, fun k sameKey newer after => ?_⟩
      · intro first isOpening
        cases isFirst with
        | true => simp at isOpening
        | false => exact lowerLe first (by simpa [fileLower] using isOpening)
      · exact covered k sameKey newer (fun l isLower => lowerKey l isLower k sameKey newer after)
          (fun up isUpper => (lt_of_userKey_lt (sameKey ▸ reach up isUpper)).le)

/-- A point is covered in its own file by every tombstone some snapshot keeps
apart from it. -/
theorem outputFiles_own (isFirst : Bool) (levelPtrs : List (List (κ × κ))) (cut : Cutting sub groups)
    (opened : ∀ group ∈ groups, isFirst = true ∨ group ≠ []) (sorted : SortedLevels levelPtrs)
    {i : Nat} {group : List (StreamKey κ)} (isGroup : groups[i]? = some group)
    (isFile : (outputFiles sub isFirst levelPtrs groups)[i]? = some file)
    {point : StreamKey κ} (inGroup : point ∈ group) (isPoint : point.isRangeDel = false)
    (leading : Leading sub whole point.key.userKey)
    (started : whole.startKey ≤ point.key) (newer : point.key.sequence < whole.seq)
    (recent : sub.earliestSnapshot < whole.seq) :
    ∃ t, t.seq = whole.seq ∧ FileCovers file t point.key := by
  induction groups generalizing isFirst levelPtrs i with
  | nil => cases isGroup
  | cons first groups ih =>
    cases i with
    | succ =>
      exact ih false _ cut.tail (fun g inRest => .inr (cut.opened g inRest))
        (fileOutput_ptrs cut (opened first (by simp)) list sorted).1 isGroup
        isFile
    | zero =>
      obtain rfl : first = group := by simpa using isGroup
      cases isFile
      have lowerLe : ∀ l ∈ fileLower sub isFirst first, l ≤ point.key := cut.lower_le inGroup
      have upperGe : ∀ up ∈ fileUpper sub first groups, point.key ≤ up := by
        intro up isUpper
        rcases cut.le_upper inGroup isPoint isUpper with lt | ⟨le, -⟩
        · exact (lt_of_userKey_lt lt).le
        · exact le
      obtain ⟨t, sameSeq, -, covered⟩ := fileOutput_covers cut (opened first (by simp)) list sorted
        leading (fun l isLower => userKey_le_of_le (lowerLe l isLower))
        (fun up isUpper => started.trans (upperGe up isUpper))
        (by
          intro up isUpper
          rcases cut.le_upper inGroup isPoint isUpper with lt | ⟨le, positive⟩
          · exact .inl lt
          · rcases le_iff.mp le with lt | ⟨same, older⟩
            · exact .inl lt
            · refine .inr ⟨same.symm, ?_, recent, positive⟩
              by_contra notOlder
              exact absurd older (not_le.mpr (pack_lt_iff.mpr (.inl (by omega)))))
        (by
          rintro ⟨l, isLower, up, isUpper, lt⟩
          exact absurd ((lowerLe l isLower).trans (upperGe up isUpper)) (not_le.mpr lt))
        (.inl recent)
      exact ⟨t, sameSeq, covered point.key rfl newer lowerLe upperGe⟩

end Run

/-- **Cutting the output keeps every tombstone that is still needed.** For every
user key of the subcompaction and every snapshot stripe, the newest tombstone
over the key is held by a file unless the drop rules allow it to go, and after
truncation to the recorded boundaries of that file it still covers every older
version of the key from the one that opened the file on. A point is covered in
its own file by the tombstones that snapshots keep apart from it. Recorded
boundaries are ranges, and those of successive files do not overlap. -/
theorem add_range_dels_keeps_coverage (job : OutputJob κ) : (∀ whole u, job.InRange u → job.NewestOver whole u →
      Needed job.sub u whole.seq job.sub.deeperLevels →
      ∃ i group file, job.groups[i]? = some group ∧ job.outputs[i]? = some file ∧
        HoldsOver file (OutputJob.openingKey i group) whole.seq u) ∧
    (∀ (i : Nat) (group : List (StreamKey κ)) (file : OutputFile κ),
      job.groups[i]? = some group → job.outputs[i]? = some file →
      ∀ point ∈ group, point.isRangeDel = false →
      ∀ whole, job.NewestOver whole point.key.userKey → whole.startKey ≤ point.key →
        point.key.sequence < whole.seq → job.sub.earliestSnapshot < whole.seq →
        ∃ t, t.seq = whole.seq ∧ FileCovers file t point.key) ∧
    (∀ file ∈ job.outputs, (file.file.smallest = none ↔ file.file.largest = none) ∧
      ∀ s ∈ file.file.smallest, ∀ g ∈ file.file.largest, s ≤ g) ∧
    job.outputs.Pairwise (fun a b => ∀ g ∈ a.file.largest, ∀ s ∈ b.file.smallest, g < s) := by
  have opened : ∀ group ∈ job.groups, true = true ∨ group ≠ [] := fun _ _ => .inl rfl
  refine ⟨?_, ?_, outputFiles_disjoint job.snapshots job.groups true _ job.cut opened⟩
  · rintro whole _ ⟨starts, ends⟩ lies needed
    obtain ⟨i, group, file, isGroup, isFile, holds⟩ := outputFiles_hold job.snapshots job.groups true
      job.sub.deeperLevels job.cut job.nonempty opened job.levels
      ⟨lies.member, lies.covers, lies.bounded, lies.newest⟩ starts ends (by
        intro group _ _ isLower
        obtain ⟨first, isStart, rfl⟩ := map_eq_some_iff.mp isLower
        exact starts first isStart) needed
    exact ⟨i, group, file, isGroup, isFile, by simpa [OutputJob.openingKey] using holds⟩
  · intro _ _ _ isGroup isFile _ inGroup isPoint _ lies started newer recent
    exact outputFiles_own job.snapshots job.groups true job.sub.deeperLevels job.cut opened
      job.levels isGroup isFile inGroup isPoint ⟨lies.member, lies.covers, lies.bounded, lies.newest⟩
      started newer recent

/-- A tombstone over the user keys from 1 to 9, newer than the snapshot, and an output that is
cut between 5 and 6. -/
def straddledJob : OutputJob Nat where
  sub := ⟨⟨[5], [⟨[⟨1, 9, [8]⟩], ⟨none, none⟩⟩]⟩, false, true, [[(1, 9)]], none, none⟩
  groups := [[⟨⟨2, 7, .kTypeValue⟩, false⟩, ⟨⟨5, 6, .kTypeValue⟩, false⟩], [⟨⟨6, 7, .kTypeValue⟩, false⟩]]
  snapshots := ⟨by decide, by decide⟩
  levels := by simp [SortedLevels]
  nonempty := by simp
  cut := ⟨by decide, by decide, by decide, by decide, by simp⟩

theorem straddledJob_keeps_coverage :
    (∀ u ∈ [3, 7], ∃ i group file, straddledJob.groups[i]? = some group ∧ straddledJob.outputs[i]? = some file ∧
      HoldsOver file (OutputJob.openingKey i group) 8 u) ∧
    straddledJob.outputs.Pairwise (fun a b => ∀ g ∈ a.file.largest, ∀ s ∈ b.file.smallest, g < s) := by
  obtain ⟨holds, -, -, disjoint⟩ := add_range_dels_keeps_coverage straddledJob
  set whole : TruncatedTombstone Nat := ⟨⟨1, 8, .kTypeRangeDeletion⟩, ⟨9, kMaxSequenceNumber, .kTypeRangeDeletion⟩, 8, 9⟩
  have only : inputTombstones straddledJob.sub.agg = [whole] := by decide
  refine ⟨fun u inside => holds whole u ⟨nofun, nofun⟩ ⟨?_, ?_, by decide, ?_⟩ (.inl (by decide)), disjoint⟩
  · rw [only]
    exact mem_singleton_self whole
  · revert u
    unfold TruncatedCovers
    decide
  · rintro _ ⟨t, member, -, rfl⟩ -
    rw [only] at member
    rw [mem_singleton.mp member]

end Rocksdb.CompactionOutputsProofs
