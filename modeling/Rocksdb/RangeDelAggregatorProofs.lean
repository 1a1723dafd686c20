import Rocksdb.FragmenterProofs
import Rocksdb.RangeDelAggregator
import Rocksdb.SnapshotStripes

/-! What the aggregator of a compaction says of its tombstones. `NewIterator`
returns, for every user key between its bounds, the newest tombstone of each
snapshot stripe. -/
namespace Rocksdb.RangeDelAggregatorProofs
open RangeTombstoneFragmenter FragmenterProofs RangeDelAggregator SnapshotStripes Lib.SortedLists InternalKey
  CompactionRangeDelAggregator.TruncatedTombstone List

variable {κ : Type} [LinearOrder κ] {snapshots : List Nat}

/-! ## One sequence number for each stripe -/

/-- A sequence number of a set that no other of its stripe exceeds. -/
structure NewestOfStripe (snapshots : List Nat) (seqs : Nat → Prop) (seq : Nat) : Prop where
  present : seqs seq
  newest : ∀ other, seqs other → stripe snapshots other = stripe snapshots seq → other ≤ seq

variable {seq : Nat}

/-- With no snapshot in between two sequence numbers share their stripe. -/
theorem stripe_eq_of_none_between (list : AscendingList snapshots) (bound : seq' ≤ kMaxSequenceNumber) (le : seq ≤ seq')
    (noneBetween : ∀ t ∈ snapshots, seq ≤ t → seq' ≤ t) :
    stripe snapshots seq = stripe snapshots seq' := by
  refine le_antisymm (list.stripe_mono bound le) (list.stripe_le (readPoint_stripe _ _) ?_)
  rcases readPoint_stripe snapshots seq with member | tip
  · exact noneBetween _ member (le_stripe snapshots (le.trans bound))
  · exact tip ▸ bound

/-- The last snapshot below a sequence number. -/
theorem lastBelow_spec (seq : Nat) (list : AscendingList snapshots) :
    match (snapshots.takeWhile (· < seq)).getLast? with
    | none => ∀ t ∈ snapshots, seq ≤ t
    | some snapshot => snapshot ∈ snapshots ∧ snapshot < seq ∧ ∀ t ∈ snapshots, t < seq → t ≤ snapshot := by
  have below (t : Nat) (member : t ∈ snapshots) (lt : t < seq) : t ∈ snapshots.takeWhile (· < seq) := by
    refine mem_takeWhile_of_sorted list.ascending (fun _ _ ab bLt => ?_) member (by simpa using lt)
    simp only [decide_eq_true_eq] at bLt ⊢
    exact ab.trans bLt
  cases found : (snapshots.takeWhile (· < seq)).getLast? with
  | none =>
    intro t member
    by_contra lt
    have inside := below t member (not_le.mp lt)
    simp [getLast?_eq_none_iff.mp found] at inside
  | some snapshot =>
    have member := mem_of_getLast? found
    refine ⟨( takeWhile_prefix _).subset member, by simpa using mem_takeWhile_imp member, ?_⟩
    intro t inside lt
    obtain ⟨_, split⟩ := getLast?_eq_some_iff.mp found
    have ascending := list.ascending.sublist ( takeWhile_prefix (p := (· < seq))).sublist
    rw [split] at ascending
    have early := below t inside lt
    rw [split] at early
    rcases mem_append.mp early with early | last
    · exact ((pairwise_append.mp ascending).2.2 t early snapshot (by simp)).le
    · exact (mem_singleton.mp last).le

variable {seqs : List Nat}

/-- Thinning keeps exactly the newest sequence number of each stripe up to the
next snapshot, by induction on the sequence numbers. -/
theorem mem_preservedSeqs {next} (list : AscendingList snapshots) (point : ReadPoint snapshots next)
    (bounded : next ≤ kMaxSequenceNumber)
    (descending : seqs.Pairwise (· ≥ ·)) :
    seq ∈ preservedSeqs snapshots next seqs ↔ NewestOfStripe snapshots (fun s => s ∈ seqs ∧ s ≤ next) seq := by
  induction seqs generalizing next with
  | nil =>
    simp only [preservedSeqs, not_mem_nil, false_iff]
    exact fun newest => absurd newest.present.1 (by simp)
  | cons first rest ih =>
    obtain ⟨dominated, restDescending⟩ := pairwise_cons.mp descending
    have below : ∀ s ∈ first :: rest, s ≤ first := forall_mem_cons.mpr ⟨le_rfl, dominated⟩
    rw [preservedSeqs]
    by_cases reached : first ≤ next
    · have firstBound := reached.trans bounded
      have firstNewest : NewestOfStripe snapshots (fun s => s ∈ first :: rest ∧ s ≤ next) first :=
        ⟨⟨by simp, reached⟩, fun s inside _ => below s inside.1⟩
      have sameStripe (noneBetween : ∀ t ∈ snapshots, seq ≤ t → first ≤ t)
          (newest : NewestOfStripe snapshots (fun s => s ∈ first :: rest ∧ s ≤ next) seq) :
          seq = first := by
        have le := below seq newest.present.1
        exact le_antisymm le (newest.newest first firstNewest.present
          (stripe_eq_of_none_between list firstBound le noneBetween).symm)
      rw [if_pos reached]
      have last := lastBelow_spec first list
      cases found : (snapshots.takeWhile (· < first)).getLast? with
      | none =>
        rw [found] at last
        simp only [mem_singleton]
        exact ⟨fun same => same ▸ firstNewest, sameStripe fun t member _ => last t member⟩
      | some snapshot =>
        rw [found] at last
        obtain ⟨member, lt, largest⟩ := last
        have step := ih (.inl member) (lt.le.trans firstBound) restDescending
        refine (mem_cons.trans (or_congr Iff.rfl step)).trans ?_
        constructor
        · rintro (rfl | older)
          · exact firstNewest
          · refine ⟨⟨mem_cons_of_mem _ older.present.1,
              older.present.2.trans (lt.le.trans reached)⟩, fun s inside same => ?_⟩
            by_cases early : s ≤ snapshot
            · rcases mem_cons.mp inside.1 with rfl | inRest
              · exact absurd early (not_le.mpr lt)
              · exact older.newest s ⟨inRest, early⟩ same
            · -- the snapshot sees `seq` and not `s`, so their stripes differ
              have seen := list.stripe_le (.inl member) older.present.2
              have := le_stripe snapshots (inside.2.trans bounded)
              omega
        · intro newest
          by_cases early : seq ≤ snapshot
          · have inRest : seq ∈ rest := by
              rcases mem_cons.mp newest.present.1 with rfl | inRest
              · exact absurd early (not_le.mpr lt)
              · exact inRest
            exact .inr ⟨⟨inRest, early⟩, fun s inside same =>
              newest.newest s ⟨mem_cons_of_mem _ inside.1, inside.2.trans (lt.le.trans reached)⟩ same⟩
          · refine .inl (sameStripe (fun t tMember le => ?_) newest)
            by_contra between
            exact early (le.trans (largest t tMember (not_le.mp between)))
    · rw [if_neg reached, ih point bounded restDescending]
      have outside (s : Nat) : s ∈ first :: rest ∧ s ≤ next ↔ s ∈ rest ∧ s ≤ next := by
        constructor
        · rintro ⟨member, le⟩
          rcases mem_cons.mp member with rfl | member
          · exact absurd le reached
          · exact ⟨member, le⟩
        · exact fun ⟨member, le⟩ => ⟨mem_cons_of_mem _ member, le⟩
      simp only [outside]

private theorem preservedSeqs_sublist (snapshots : List Nat) (next : Nat) (seqs : List Nat) :
    (preservedSeqs snapshots next seqs).Sublist seqs := by
  induction seqs generalizing next with
  | nil => exact List.Sublist.refl _
  | cons first rest ih =>
    rw [preservedSeqs]
    split
    · cases (snapshots.takeWhile (· < first)).getLast? with
      | none => exact (nil_sublist rest).cons_cons first
      | some snapshot => exact (ih snapshot).cons_cons first
    · exact (ih next).cons first

omit [LinearOrder κ] in
/-- What a compaction writes for one fragment. -/
theorem seqnumsToFlush_compaction (list : AscendingList snapshots) (keys : List (InternalKey κ)) :
    (seqnumsToFlush true snapshots keys).Pairwise (· ≥ ·) ∧ ∀ seq, seq ∈ seqnumsToFlush true snapshots keys ↔
        NewestOfStripe snapshots (fun s => s ∈ keys.map (·.sequence) ∧ s ≤ kMaxSequenceNumber) seq := by
  have descending : ((keys.map (·.sequence)).insertionSort (· ≥ ·)).Pairwise (· ≥ ·) := pairwise_insertionSort _ _
  constructor
  · exact descending.sublist (preservedSeqs_sublist _ _ _)
  · intro _
    refine (mem_preservedSeqs list (.inr rfl) le_rfl descending).trans ?_
    simp only [mem_insertionSort]

/-- Every sequence number has a newest one of its stripe at or above it. -/
theorem exists_newest (snapshots : List Nat) (member : seq ∈ seqs) :
    ∃ newest, NewestOfStripe snapshots (· ∈ seqs) newest ∧ seq ≤ newest ∧
      stripe snapshots newest = stripe snapshots seq := by
  have inside : seq ∈ seqs.filter (stripe snapshots · = stripe snapshots seq) := mem_filter.mpr ⟨member, by simp⟩
  cases found : (seqs.filter (stripe snapshots · = stripe snapshots seq)).max? with
  | none => simp [max?_eq_none_iff.mp found] at inside
  | some newest =>
    obtain ⟨isMember, largest⟩ := max?_eq_some_iff.mp found
    obtain ⟨isMember, same⟩ := mem_filter.mp isMember
    replace same : stripe snapshots newest = stripe snapshots seq := by simpa using same
    refine ⟨newest, ⟨isMember, fun other present sameOther => ?_⟩, largest seq inside, same⟩
    exact largest other (mem_filter.mpr ⟨present, by simpa using sameOther.trans same⟩)

private theorem preservedSeqs_descending {next} (list : AscendingList snapshots) (point : ReadPoint snapshots next)
    (bounded : next ≤ kMaxSequenceNumber)
    (descending : seqs.Pairwise (· ≥ ·)) : (preservedSeqs snapshots next seqs).Pairwise (· > ·) := by
  induction seqs generalizing next with
  | nil => exact List.Pairwise.nil
  | cons first _ ih =>
    obtain ⟨-, restDescending⟩ := pairwise_cons.mp descending
    rw [preservedSeqs]
    split
    case isFalse => exact ih point bounded restDescending
    case isTrue reached =>
      have last := lastBelow_spec first list
      cases found : (snapshots.takeWhile (· < first)).getLast? with
      | none => exact pairwise_singleton _ _
      | some =>
        rw [found] at last
        have snapshotBounded := last.2.1.le.trans (reached.trans bounded)
        refine pairwise_cons.mpr ⟨fun _ member => ?_, ih (.inl last.1) snapshotBounded restDescending⟩
        have kept := (mem_preservedSeqs list (.inl last.1) snapshotBounded restDescending).mp member
        exact kept.present.2.trans_lt last.2.1

/-- **Fragmenting for compaction keeps the newest tombstone of each stripe.** A
fragment lists, newest first and each once, exactly those sequence numbers of
tombstones over it that no other of their stripe exceeds; so every snapshot and
the tip find the same newest tombstone over every key as in the original list. -/
theorem compaction_fragments_keep_newest (unfragmented : List (RangeTombstone κ))
    (list : AscendingList snapshots) (bounded : ∀ t ∈ unfragmented, t.seq ≤ kMaxSequenceNumber) :
    let fragments := fragmentedRangeTombstoneList true snapshots unfragmented
    (∀ st ∈ fragments, st.seqs.Pairwise (· > ·) ∧ ∀ key, StackCovers st key →
      ∀ seq, seq ∈ st.seqs ↔ NewestOfStripe snapshots (CoveringSeqs unfragmented key) seq) ∧
    ∀ key s lower, ReadPoint snapshots s →
      (FragmentedRangeTombstoneIterator.new fragments s lower).maxCoveringTombstoneSeqnum key =
        largest (visibleCovering unfragmented key s) := by
  intro fragments
  have spec := fragmentedRangeTombstoneList_exact true snapshots unfragmented
  have inRange {key : κ} {seq : Nat} (covering : CoveringSeqs unfragmented key seq) : seq ≤ kMaxSequenceNumber := by
    obtain ⟨t, member, -, rfl⟩ := covering
    exact bounded t member
  have exactSeqs {st : RangeTombstoneStack κ} (member : st ∈ fragments) {key : κ}
      (covers : StackCovers st key) : st.seqs.Pairwise (· > ·) ∧
        ∀ seq, seq ∈ st.seqs ↔ NewestOfStripe snapshots (CoveringSeqs unfragmented key) seq := by
    obtain ⟨keys, -, stored, written⟩ := spec.exact.written st member key covers
    have sorted : ((keys.map (·.sequence)).insertionSort (· ≥ ·)).Pairwise (· ≥ ·) := pairwise_insertionSort _ _
    refine ⟨stored ▸ preservedSeqs_descending list (.inr rfl) le_rfl sorted, fun seq => ?_⟩
    rw [stored, (seqnumsToFlush_compaction list keys).2]
    have same (s : Nat) : s ∈ keys.map (·.sequence) ∧ s ≤ kMaxSequenceNumber ↔ CoveringSeqs unfragmented key s :=
      (and_congr_left' (written s)).trans (and_iff_left_of_imp inRange)
    simp only [same]
  refine ⟨fun st member => ?_, fun key s lower point => ?_⟩
  · have covers : StackCovers st st.startKey := ⟨le_rfl, spec.wellFormed.nonempty st member⟩
    exact ⟨(exactSeqs member covers).1, fun key covers => (exactSeqs member covers).2⟩
  · refine spec.maxCovering key s lower fun st member covers => ?_
    obtain ⟨descending, members⟩ := exactSeqs member covers
    refine ⟨descending.imp le_of_lt, fun seq listed => ((members seq).mp listed).present, ?_⟩
    intro seq covering _
    obtain ⟨_, -, -, written⟩ := spec.exact.written st member key covers
    obtain ⟨newest, isNewest, newer, same⟩ := exists_newest snapshots ((written seq).mpr covering)
    have covers := (written newest).mp isNewest.present
    refine ⟨newest, (members newest).mpr ⟨covers, fun other present =>
      isNewest.newest other ((written other).mpr present)⟩, newer, ?_⟩
    rwa [← list.stripe_le_iff (inRange covers) point, same, list.stripe_le_iff (inRange covering) point]

theorem compaction_fragments_two_stripes :
    let tombstones := [(⟨1, 9, 7, by decide⟩ : RangeTombstone Nat), ⟨1, 9, 5, by decide⟩, ⟨3, 6, 2, by decide⟩]
    let fragments := fragmentedRangeTombstoneList true [4] tombstones
    (fragments.map (·.seqs) = [[7], [7, 2], [7]]) ∧
      (FragmentedRangeTombstoneIterator.new fragments 4 0).maxCoveringTombstoneSeqnum 5 =
        largest (visibleCovering tombstones 5 4) :=
  ⟨by decide, (compaction_fragments_keep_newest _ ⟨by decide, by decide⟩ (by decide)).2 5 4 0 (by decide)⟩

/-! ## NewIterator -/

/-- The tombstones of all input files, truncated to their files. -/
def inputTombstones (agg : CompactionRangeDelAggregator κ) : List (TruncatedTombstone κ) :=
  agg.parents.flatMap fun file =>
    (TruncatedRangeDelIterator.new file.bounds (allTombstones file.fragments)).tombstones

/-- The user keys between the ends of a truncated tombstone. -/
def TruncatedCovers (t : TruncatedTombstone κ) (key : κ) : Prop :=
  t.startKey.userKey ≤ key ∧ key < t.endKey.userKey

/-- The sequence numbers of the tombstones over a user key. -/
def TruncatedSeqs (tombstones : List (TruncatedTombstone κ)) (key : κ) (seq : Nat) : Prop :=
  ∃ t ∈ tombstones, TruncatedCovers t key ∧ t.seq = seq

theorem Truncation.endKey_le (bounds : Truncation κ) (t : Tombstone κ) :
    bounds.endKey t ≤ t.parsedEndKey ∧ ∀ largest ∈ bounds.largest, bounds.endKey t ≤ largest := by
  unfold Truncation.endKey
  cases bounds.largest with
  | none => exact ⟨le_rfl, by simp⟩
  | some =>
    dsimp only
    split
    · exact ⟨le_rfl, by simpa⟩
    · exact ⟨(not_le.mp ‹_›).le, by simp⟩

variable {t : TruncatedTombstone κ}

/-- A tombstone of a truncated iterator is one that was cut off. -/
theorem mem_new (member : t ∈ (TruncatedRangeDelIterator.new bounds tombstones).tombstones) :
    ∃ whole, t = ⟨bounds.startKey whole, bounds.endKey whole, whole.seq, whole.endKey⟩ := by
  obtain ⟨whole, -, rfl⟩ := mem_map.mp member
  exact ⟨whole, rfl⟩

/-- `Seek` passes only tombstones that end at or before the target. -/
theorem mem_seek (member : t ∈ (TruncatedRangeDelIterator.new bounds tombstones).tombstones)
    (after : target < t.endKey.userKey) :
    t ∈ (TruncatedRangeDelIterator.new bounds tombstones).seek target := by
  obtain ⟨whole, cut⟩ := mem_new member
  obtain ⟨beforeEnd, beforeLargest⟩ := Truncation.endKey_le bounds whole
  have inBounds : ¬bounds.largest.any (· ≤ ⟨target, kMaxSequenceNumber, .kTypeRangeDeletion⟩) := by
    rw [Option.any_eq_true]
    rintro ⟨largest, isLargest, passed⟩
    refine absurd (of_decide_eq_true passed) (not_le.mpr ?_)
    refine lt_iff.mpr (.inl (after.trans_le ?_))
    rw [cut]
    exact userKey_le_of_le (beforeLargest largest isLargest)
  unfold TruncatedRangeDelIterator.seek
  have same : (TruncatedRangeDelIterator.new bounds tombstones).bounds = bounds := rfl
  rw [same, if_neg inBounds]
  refine mem_dropWhile_of_not member ?_
  simp only [decide_eq_true_eq, not_le]
  rw [cut] at after ⊢
  exact after.trans_le (userKey_le_of_le beforeEnd)

variable {agg : CompactionRangeDelAggregator κ} {lower upper : Option (InternalKey κ)}

/-- What reaches between the bounds is merged. -/
theorem mem_mergedTombstones (member : t ∈ inputTombstones agg)
    (ends : ∀ l ∈ lower, l.userKey < t.endKey.userKey) (starts : ∀ u ∈ upper, t.startKey ≤ u) :
    t ∈ agg.mergedTombstones lower upper := by
  obtain ⟨_, isParent, member⟩ := mem_flatMap.mp member
  refine mem_takeWhile_of_sorted (pairwise_insertionSort _ _) (fun _ _ ab holds => ?_) ?_ ?_
  · rw [Option.all_eq_true] at holds ⊢
    intro u isUpper
    simpa using ab.trans (by simpa using holds u isUpper)
  · rw [mem_insertionSort, mem_flatten]
    refine ⟨_, mem_map_of_mem isParent, ?_⟩
    cases lower with
    | none => exact member
    | some l =>
      refine mem_dropWhile_of_not (mem_seek member (ends l rfl)) ?_
      simp only [decide_eq_true_eq, not_le]
      exact lt_iff.mpr (.inl (ends l rfl))
  · rw [Option.all_eq_true]
    intro u isUpper
    simpa using starts u isUpper

theorem mem_inputTombstones (member : t ∈ agg.mergedTombstones lower upper) : t ∈ inputTombstones agg := by
  have merged := ( takeWhile_prefix _).subset member
  rw [mem_insertionSort, mem_flatten] at merged
  obtain ⟨_, isChild, member⟩ := merged
  obtain ⟨file, isParent, rfl⟩ := mem_map.mp isChild
  refine mem_flatMap.mpr ⟨file, isParent, ?_⟩
  cases lower with
  | none => exact member
  | some =>
    have sought := (dropWhile_suffix _).subset member
    unfold TruncatedRangeDelIterator.seek at sought
    split at sought
    · cases sought
    · exact (dropWhile_suffix _).subset sought

/-- The fragmenter sees a truncated tombstone through its user keys. -/
theorem coveringSeqs_range? (tombstones : List (TruncatedTombstone κ)) (key : κ) (seq : Nat) :
    CoveringSeqs (tombstones.filterMap range?) key seq ↔ TruncatedSeqs tombstones key seq := by
  unfold CoveringSeqs TruncatedSeqs TruncatedCovers
  simp only [mem_filterMap, range?]
  constructor
  · rintro ⟨_, ⟨t, member, cut⟩, covers, rfl⟩
    split at cut
    · cases cut
      exact ⟨t, member, covers, rfl⟩
    · cases cut
  · rintro ⟨t, member, covers, rfl⟩
    exact ⟨⟨t.startKey.userKey, t.endKey.userKey, t.seq, covers.1.trans covers.2.le⟩,
      ⟨t, member, dif_pos (covers.1.trans covers.2.le)⟩, covers, rfl⟩

/-- Two tombstones of an iterator over fragments belong to one fragment, the
newer one first, or to fragments that follow each other. -/
def Follows (a b : Tombstone κ) : Prop :=
  (a.startKey = b.startKey ∧ a.endKey = b.endKey ∧ b.seq ≤ a.seq) ∨ a.endKey ≤ b.startKey

/-- What `NewIterator` returns between two bounds. -/
structure Returned (agg : CompactionRangeDelAggregator κ) (lower upper : Option (InternalKey κ))
    (tombstones : List (Tombstone κ)) : Prop where
  proper : ∀ t ∈ tombstones, t.startKey < t.endKey
  ordered : tombstones.Pairwise Follows
  newest : ∀ key seq, (∃ t ∈ tombstones, (t.startKey ≤ key ∧ key < t.endKey) ∧ t.seq = seq) ↔
    NewestOfStripe agg.snapshots
      (fun s => TruncatedSeqs (agg.mergedTombstones lower upper) key s ∧ s ≤ kMaxSequenceNumber) seq

omit [LinearOrder κ] in
private theorem mem_allTombstones {t : Tombstone κ} : t ∈ allTombstones fragments ↔
      ∃ st ∈ fragments, st.startKey = t.startKey ∧ st.endKey = t.endKey ∧ t.seq ∈ st.seqs := by
  simp only [allTombstones, mem_flatMap, mem_map]
  constructor
  · rintro ⟨st, member, seq, isSeq, rfl⟩
    exact ⟨st, member, rfl, rfl, isSeq⟩
  · rintro ⟨st, member, start, finish, isSeq⟩
    exact ⟨st, member, t.seq, isSeq, by rw [start, finish]⟩

/-- Fragments that are sorted and list their sequence numbers newest first are
visited in order. -/
theorem allTombstones_follow {fragments : List (RangeTombstoneStack κ)} (wellFormed : WellFormed fragments)
    (descending : ∀ st ∈ fragments, st.seqs.Pairwise (· ≥ ·)) :
    (allTombstones fragments).Pairwise Follows := by
  unfold allTombstones
  rw [pairwise_flatMap]
  constructor
  · intro st member
    exact pairwise_map.mpr ((descending st member).imp fun le => .inl ⟨rfl, rfl, le⟩)
  · refine wellFormed.disjoint.imp fun le _ inFirst _ inSecond => .inr ?_
    obtain ⟨_, -, rfl⟩ := mem_map.mp inFirst
    obtain ⟨_, -, rfl⟩ := mem_map.mp inSecond
    exact le

/-- **`NewIterator` returns the newest tombstone of every stripe.** -/
theorem newIterator_returned (lower upper : Option (InternalKey κ)) (list : AscendingList agg.snapshots) :
    Returned agg lower upper (agg.newIterator lower upper) := by
  unfold CompactionRangeDelAggregator.newIterator
  set merged := agg.mergedTombstones lower upper
  have spec := fragmentedRangeTombstoneList_exact true agg.snapshots (merged.filterMap range?)
  generalize fragmentedRangeTombstoneList true agg.snapshots (merged.filterMap range?) = fragments at spec ⊢
  have seqs (st : RangeTombstoneStack κ) (member : st ∈ fragments) (key : κ)
      (covers : StackCovers st key) (seq : Nat) :
      seq ∈ st.seqs ↔
        NewestOfStripe agg.snapshots (fun s => TruncatedSeqs merged key s ∧ s ≤ kMaxSequenceNumber) seq := by
    obtain ⟨keys, -, stored, written⟩ := spec.exact.written st member key covers
    rw [stored, (seqnumsToFlush_compaction list keys).2]
    simp only [written, coveringSeqs_range?]
  refine ⟨?_, ?_, ?_⟩
  · intro t member
    obtain ⟨st, inFragments, start, finish, -⟩ := mem_allTombstones.mp member
    exact start ▸ finish ▸ spec.wellFormed.nonempty st inFragments
  · refine allTombstones_follow spec.wellFormed fun st member => ?_
    obtain ⟨keys, -, stored, -⟩ := spec.exact.written st member st.startKey
      ⟨le_rfl, spec.wellFormed.nonempty st member⟩
    exact stored ▸ (seqnumsToFlush_compaction list keys).1
  · intro key seq
    constructor
    · rintro ⟨t, member, covers, rfl⟩
      obtain ⟨st, inFragments, start, finish, isSeq⟩ := mem_allTombstones.mp member
      exact (seqs st inFragments key ⟨start ▸ covers.1, finish ▸ covers.2⟩ t.seq).mp isSeq
    · intro newest
      obtain ⟨st, inFragments, covers⟩ := spec.exact.complete key seq trivial
        ((coveringSeqs_range? _ key seq).mpr newest.present.1)
      exact ⟨⟨st.startKey, st.endKey, seq⟩, mem_allTombstones.mpr
        ⟨st, inFragments, rfl, rfl, (seqs st inFragments key covers seq).mpr newest⟩, covers, rfl⟩

end Rocksdb.RangeDelAggregatorProofs
