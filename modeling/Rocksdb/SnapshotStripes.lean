import Rocksdb.CompactionIterator

/-! Snapshot stripes: the snapshots of a compaction cut the sequence numbers
into intervals, and every reader that exists sees either a whole interval or
none of it. Each stripe is named by the first snapshot that sees it, or by the
largest sequence number when only the tip does. -/
namespace Rocksdb.SnapshotStripes
open CompactionIterator

/-- A list of snapshots as a compaction receives it. -/
structure AscendingList (snapshots : List Nat) : Prop where
  ascending : snapshots.Pairwise (· < ·)
  bounded : ∀ s ∈ snapshots, s ≤ kMaxSequenceNumber

/-- Snapshots of a database that has been written to. -/
structure SnapshotList (snapshots : List Nat) : Prop extends AscendingList snapshots where
  positive : ∀ s ∈ snapshots, 0 < s

/-- The points in time that can still be read: the snapshots and the tip. -/
def ReadPoint (snapshots : List Nat) (s : Nat) : Prop := s ∈ snapshots ∨ s = kMaxSequenceNumber

instance (snapshots : List Nat) (s : Nat) : Decidable (ReadPoint snapshots s) := inferInstanceAs (Decidable (_ ∨ _))

/-- The first read point that sees a sequence number. -/
def stripe (snapshots : List Nat) (seq : Nat) : Nat :=
  (snapshots.find? (seq ≤ ·)).getD kMaxSequenceNumber

/-- The last snapshot that does not see a sequence number, zero for none. -/
def prevSnapshot (snapshots : List Nat) (seq : Nat) : Nat :=
  let i := snapshots.findIdx (seq ≤ ·)
  if i = 0 then 0 else snapshots[i - 1]?.getD 0

theorem visibleSnapshot_eq {κ V δ : Type} (cfg : Config κ V δ) (seq : Nat) :
    cfg.visibleSnapshot seq = (stripe cfg.snapshots seq, prevSnapshot cfg.snapshots seq) := by
  unfold Config.visibleSnapshot
  split
  case isTrue empty =>
    rw [List.isEmpty_iff] at empty
    simp [empty, stripe, prevSnapshot, Config.earliestSnapshot]
  case isFalse =>
    simp [Config.findEarliestVisibleSnapshot, stripe, prevSnapshot, List.find?_eq_getElem?_findIdx]

variable {snapshots : List Nat}

theorem readPoint_stripe (snapshots : List Nat) (seq : Nat) : ReadPoint snapshots (stripe snapshots seq) := by
  unfold stripe
  cases found : snapshots.find? (seq ≤ ·) with
  | none => exact .inr rfl
  | some => exact .inl (List.mem_of_find?_eq_some found)

theorem le_stripe (snapshots : List Nat) (bound : seq ≤ kMaxSequenceNumber) : seq ≤ stripe snapshots seq := by
  unfold stripe
  cases found : snapshots.find? (seq ≤ ·) with
  | none => exact bound
  | some => simpa using List.find?_some found

section Ascending
variable (list : AscendingList snapshots)
include list

theorem AscendingList.stripe_le (point : ReadPoint snapshots s) (visible : seq ≤ s) : stripe snapshots seq ≤ s := by
  unfold stripe
  cases found : snapshots.find? (seq ≤ ·) with
  | none =>
    rcases point with member | rfl
    · exact absurd visible (by simpa using List.find?_eq_none.mp found s member)
    · exact le_rfl
  | some t =>
    obtain ⟨-, _, _, split, skipped⟩ := List.find?_eq_some_iff_append.mp found
    rcases point with member | rfl
    · rw [split] at member
      have ascending := list.ascending
      rw [split] at ascending
      rcases List.mem_append.mp member with early | late
      · exact absurd visible (by simpa using skipped s early)
      · rcases List.mem_cons.mp late with rfl | late
        · exact le_rfl
        · exact ((List.pairwise_cons.mp (List.pairwise_append.mp ascending).2.1).1 s late).le
    · exact list.bounded t (List.mem_of_find?_eq_some found)

/-- A reader sees a sequence number exactly when it sees its stripe. -/
theorem AscendingList.stripe_le_iff (bound : seq ≤ kMaxSequenceNumber)
    (point : ReadPoint snapshots s) : stripe snapshots seq ≤ s ↔ seq ≤ s :=
  ⟨(le_stripe snapshots bound).trans, list.stripe_le point⟩

theorem AscendingList.stripe_mono (bound : seq' ≤ kMaxSequenceNumber) (le : seq ≤ seq') :
    stripe snapshots seq ≤ stripe snapshots seq' :=
  list.stripe_le (readPoint_stripe snapshots seq') (le.trans (le_stripe snapshots bound))

theorem AscendingList.earliest_le (point : ReadPoint snapshots s) : snapshots.headD kMaxSequenceNumber ≤ s := by
  cases snapshots with
  | nil =>
    rcases point with member | rfl
    · cases member
    · exact le_rfl
  | cons first =>
    rcases point with member | rfl
    · rcases List.mem_cons.mp member with rfl | member
      · exact le_rfl
      · exact ((List.pairwise_cons.mp list.ascending).1 s member).le
    · exact list.bounded first (by simp)

omit list in
theorem stripe_of_le_earliest (le : seq ≤ snapshots.headD kMaxSequenceNumber) :
    stripe snapshots seq = snapshots.headD kMaxSequenceNumber := by
  cases snapshots with
  | nil => rfl
  | cons first =>
    have visible : seq ≤ first := le
    simp [stripe, visible]

/-- The previous snapshot is zero or a snapshot below the sequence number, and
no snapshot lies between the two. -/
theorem AscendingList.prevSnapshot_spec (seq : Nat) : (prevSnapshot snapshots seq = 0 ∨
      prevSnapshot snapshots seq ∈ snapshots ∧ prevSnapshot snapshots seq < seq) ∧
    ∀ t ∈ snapshots, t < seq → t ≤ prevSnapshot snapshots seq := by
  set i := snapshots.findIdx (fun s => decide (seq ≤ s)) with iDef
  have bound : i ≤ snapshots.length := List.findIdx_le_length
  have below (j : Nat) (lt : j < i) (jBound : j < snapshots.length) : snapshots[j] < seq := by
    simpa using List.not_of_lt_findIdx lt
  have late (t : Nat) (member : t ∈ snapshots) (lt : t < seq) : ∃ j, ∃ _ : j < snapshots.length,
      j < i ∧ snapshots[j] = t := by
    obtain ⟨j, jBound, rfl⟩ := List.mem_iff_getElem.mp member
    refine ⟨j, jBound, ?_, rfl⟩
    by_contra past
    have iBound : i < snapshots.length := by omega
    have reached : seq ≤ snapshots[i] := by simpa using List.findIdx_getElem (w := iBound)
    have := List.pairwise_iff_getElem.mp list.ascending i j iBound jBound
    by_cases same : i = j
    · subst same
      omega
    · have := this (by omega)
      omega
  unfold prevSnapshot
  by_cases zero : i = 0
  · rw [if_pos zero]
    refine ⟨.inl rfl, fun t member lt => ?_⟩
    obtain ⟨j, -, _, -⟩ := late t member lt
    omega
  · have last : i - 1 < snapshots.length := by omega
    rw [if_neg zero, List.getElem?_eq_getElem last, Option.getD_some]
    refine ⟨.inr ⟨List.getElem_mem last, below _ (by omega) last⟩, fun t member lt => ?_⟩
    obtain ⟨j, jBound, _, rfl⟩ := late t member lt
    by_cases same : j = i - 1
    · subst same
      exact le_rfl
    · exact (List.pairwise_iff_getElem.mp list.ascending j (i - 1) jBound last (by omega)).le

end Ascending

variable (list : SnapshotList snapshots)
include list

theorem SnapshotList.readPoint_pos (point : ReadPoint snapshots s) : 0 < s := by
  rcases point with member | rfl
  · exact list.positive s member
  · decide

theorem SnapshotList.stripe_pos : 0 < stripe snapshots seq := list.readPoint_pos (readPoint_stripe snapshots seq)

/-- The test with which the iterator looks ahead decides whether an older
sequence number lies in the same stripe. -/
theorem SnapshotList.same_stripe_iff (bound : seq ≤ kMaxSequenceNumber) (le : seq' ≤ seq) :
    prevSnapshot snapshots seq = 0 ∨ prevSnapshot snapshots seq < seq' ↔
      stripe snapshots seq' = stripe snapshots seq := by
  obtain ⟨isPrev, largest⟩ := list.prevSnapshot_spec seq
  have bound' := le.trans bound
  constructor
  · intro _
    refine le_antisymm (list.stripe_mono bound le) (not_lt.mp fun lt => ?_)
    have unseen : stripe snapshots seq' < seq :=
      not_le.mp fun visible => lt.not_ge (list.stripe_le (readPoint_stripe _ _) visible)
    rcases readPoint_stripe snapshots seq' with member | tip
    · have between := largest _ member unseen
      have positive := list.positive _ member
      have seen := le_stripe snapshots bound'
      omega
    · omega
  · intro _
    by_contra between
    obtain ⟨nonzero, reached⟩ := not_or.mp between
    obtain ⟨member, _⟩ := isPrev.resolve_left nonzero
    have seen := list.stripe_le (.inl member) (not_lt.mp reached)
    have := le_stripe snapshots bound
    omega

end Rocksdb.SnapshotStripes
