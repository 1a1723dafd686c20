import Rocksdb.Lib.SortedLists
import Rocksdb.RangeTombstoneFragmenter

/-! Fragmenting keeps exactly the coverage of the original tombstones. The
sweep invariant splits the user keys at the current start key: below it the
written fragments already tell the whole story, from it on the open end keys
do. Both statements speak of the same independent set, the sequence numbers
of the original tombstones that cover a key. -/
namespace Rocksdb.FragmenterProofs
open RangeTombstoneFragmenter Lib.SortedLists FragmentedRangeTombstoneIterator List

variable {κ : Type} [LinearOrder κ]

/-- The sequence numbers of the tombstones over a user key. -/
def CoveringSeqs (tombstones : List (RangeTombstone κ)) (key : κ) (seq : Nat) : Prop :=
  ∃ t ∈ tombstones, t.Covers key ∧ t.seq = seq

/-- The sequence numbers of the open tombstones that reach past a user key. -/
def OpenSeqs (keys : List (InternalKey κ)) (key : κ) (seq : Nat) : Prop :=
  ∃ e ∈ keys, key < e.userKey ∧ e.sequence = seq

/-- The user keys of a fragment. -/
def StackCovers (stack : RangeTombstoneStack κ) (key : κ) : Prop :=
  stack.startKey ≤ key ∧ key < stack.endKey

/-- The fragment was written from open end keys with exactly these sequence
numbers. -/
def WrittenFrom (forCompaction : Bool) (snapshots : List Nat) (seqs : Nat → Prop)
    (stack : RangeTombstoneStack κ) : Prop :=
  ∃ keys : List (InternalKey κ), keys ≠ [] ∧ stack.seqs = seqnumsToFlush forCompaction snapshots keys ∧
    ∀ seq, seq ∈ keys.map (·.sequence) ↔ seqs seq

/-- Fragments are non-empty, sorted and disjoint. -/
structure WellFormed (fragments : List (RangeTombstoneStack κ)) : Prop where
  nonempty : ∀ st ∈ fragments, st.startKey < st.endKey
  disjoint : fragments.Pairwise (fun a b => a.endKey ≤ b.startKey)

/-- The fragments say exactly what `seqs` says of every key they cover, and
they cover every key `inside` of which it says anything. -/
structure Exact (forCompaction : Bool) (snapshots : List Nat) (seqs : κ → Nat → Prop)
    (inside : κ → Prop) (fragments : List (RangeTombstoneStack κ)) : Prop where
  written : ∀ st ∈ fragments, ∀ key, StackCovers st key → WrittenFrom forCompaction snapshots (seqs key) st
  complete : ∀ key seq, inside key → seqs key seq → ∃ st ∈ fragments, StackCovers st key

omit [LinearOrder κ] in
theorem WrittenFrom.congr (written : WrittenFrom fc snapshots seqs stack) (same : ∀ seq, seqs seq ↔ seqs' seq) :
    WrittenFrom fc snapshots seqs' stack := by
  obtain ⟨keys, nonempty, stored, members⟩ := written
  exact ⟨keys, nonempty, stored, fun seq => (members seq).trans (same seq)⟩

private theorem open_cons_of_le {it : InternalKey κ} (passed : it.userKey ≤ key) :
    OpenSeqs (it :: rest) key seq ↔ OpenSeqs rest key seq := by
  constructor
  · rintro ⟨e, member, lt, same⟩
    rcases mem_cons.mp member with rfl | member
    · exact absurd lt (not_lt.mpr passed)
    · exact ⟨e, member, lt, same⟩
  · rintro ⟨e, member, lt, same⟩
    exact ⟨e, mem_cons_of_mem _ member, lt, same⟩

/-- Every end key of a sorted set is past a key before its first one. -/
private theorem open_all {it : InternalKey κ}
    (sorted : (it :: rest).Pairwise (fun a b => a.userKey ≤ b.userKey)) (before : key < it.userKey) :
    seq ∈ (it :: rest).map (·.sequence) ↔ OpenSeqs (it :: rest) key seq := by
  have first := (pairwise_cons.mp sorted).1
  constructor
  · intro member
    obtain ⟨e, member, same⟩ := mem_map.mp member
    refine ⟨e, member, ?_, same⟩
    rcases mem_cons.mp member with rfl | member
    · exact before
    · exact before.trans_le (first e member)
  · rintro ⟨e, member, -, same⟩
    exact mem_map.mpr ⟨e, member, same⟩

/-- What one flush up to `next` leaves behind: fragments between the current
start key and `next`, and the end keys that reach `next`. -/
structure FlushSpec (fc : Bool) (snapshots : List Nat) (next cur : κ)
    (keys : List (InternalKey κ)) (fragments : List (RangeTombstoneStack κ))
    (opened : List (InternalKey κ)) : Prop where
  wellFormed : WellFormed fragments
  starts : ∀ st ∈ fragments, cur ≤ st.startKey
  ends : ∀ st ∈ fragments, st.endKey ≤ next
  exact : Exact fc snapshots (OpenSeqs keys) (fun key => cur ≤ key ∧ key < next) fragments
  rest : ∀ key seq, next ≤ key → (OpenSeqs keys key seq ↔ OpenSeqs opened key seq)
  sublist : opened.Sublist keys
  reach : ∀ e ∈ opened, next ≤ e.userKey

/-- The loop of the flush, by induction on the end keys left to visit. -/
theorem flushLoop_spec (fc : Bool) (snapshots : List Nat) (next cur : κ)
    (keys : List (InternalKey κ)) (sorted : keys.Pairwise (fun a b => a.userKey ≤ b.userKey))
    (after : ∀ e ∈ keys, cur ≤ e.userKey) (before : cur ≤ next)
    (last : cur = next → ∀ e ∈ keys, e.userKey ≤ next) :
    FlushSpec fc snapshots next cur keys (flushLoop fc snapshots next cur keys).1
      ((flushLoop fc snapshots next cur keys).2.getD []) := by
  induction keys generalizing cur with
  | nil =>
    refine ⟨⟨by simp [flushLoop], by simp [flushLoop]⟩, by simp [flushLoop], by simp [flushLoop],
      ⟨by simp [flushLoop], ?_⟩, by simp [flushLoop], by simp [flushLoop], by simp [flushLoop]⟩
    rintro key seq - ⟨e, member, -⟩
    cases member
  | cons it rest ih =>
    obtain ⟨first, restSorted⟩ := pairwise_cons.mp sorted
    have itAfter : cur ≤ it.userKey := after it (by simp)
    by_cases empty : cur = it.userKey
    · -- an empty tombstone contributes to no key from `cur` on
      have spec := ih cur restSorted (fun e member => after e (by simp [member])) before
        (fun same e member => last same e (by simp [member]))
      have step : flushLoop fc snapshots next cur (it :: rest) =
          flushLoop fc snapshots next cur rest := by simp [flushLoop, empty]
      rw [step]
      refine ⟨spec.wellFormed, spec.starts, spec.ends, ⟨?_, ?_⟩, ?_, spec.sublist.cons _, spec.reach⟩
      · intro st member key covers
        have passed : it.userKey ≤ key := empty ▸ (spec.starts st member).trans covers.1
        exact (spec.exact.written st member key covers).congr (fun seq => (open_cons_of_le passed).symm)
      · intro key seq inside opened
        exact spec.exact.complete key seq inside ((open_cons_of_le (empty ▸ inside.1)).mp opened)
      · intro key seq le
        exact (open_cons_of_le (empty ▸ before.trans le)).trans (spec.rest key seq le)
    · have curLt : cur < it.userKey := lt_of_le_of_ne itAfter empty
      by_cases reached : next ≤ it.userKey
      · have step : flushLoop fc snapshots next cur (it :: rest) =
            ([⟨cur, next, seqnumsToFlush fc snapshots (it :: rest)⟩], some (it :: rest)) := by
          simp [flushLoop, empty, reached]
        have curNext : cur < next := by
          refine lt_of_le_of_ne before (fun same => ?_)
          have := last same it (by simp)
          exact absurd curLt (not_lt.mpr (same ▸ this))
        rw [step]
        refine ⟨⟨by simpa using curNext, by simp⟩, by simp, by simp, ⟨?_, ?_⟩, by simp, by simp, ?_⟩
        · intro st member key covers
          obtain rfl := mem_singleton.mp member
          exact ⟨it :: rest, by simp, rfl, fun seq => open_all sorted (covers.2.trans_le reached)⟩
        · rintro key seq inside -
          exact ⟨_, mem_singleton.mpr rfl, inside⟩
        · exact forall_mem_cons.mpr ⟨reached, fun e member => reached.trans (first e member)⟩
      · have itNext : it.userKey < next := not_le.mp reached
        have spec := ih it.userKey restSorted first itNext.le (fun same => absurd same itNext.ne)
        have step : flushLoop fc snapshots next cur (it :: rest) =
            (⟨cur, it.userKey, seqnumsToFlush fc snapshots (it :: rest)⟩ ::
              (flushLoop fc snapshots next it.userKey rest).1,
              (flushLoop fc snapshots next it.userKey rest).2) := by
          simp [flushLoop, empty, reached]
        rw [step]
        refine ⟨⟨?_, ?_⟩, ?_, ?_, ⟨?_, ?_⟩, ?_, spec.sublist.cons _, spec.reach⟩
        · exact forall_mem_cons.mpr ⟨curLt, spec.wellFormed.nonempty⟩
        · exact pairwise_cons.mpr ⟨spec.starts, spec.wellFormed.disjoint⟩
        · exact forall_mem_cons.mpr ⟨le_rfl, fun st member => curLt.le.trans (spec.starts st member)⟩
        · exact forall_mem_cons.mpr ⟨itNext.le, spec.ends⟩
        · intro st member key covers
          rcases mem_cons.mp member with rfl | member
          · exact ⟨it :: rest, by simp, rfl, fun seq => open_all sorted covers.2⟩
          · exact (spec.exact.written st member key covers).congr
              (fun seq => (open_cons_of_le ((spec.starts st member).trans covers.1)).symm)
        · intro key seq inside opened
          by_cases early : key < it.userKey
          · exact ⟨_, mem_cons_self, inside.1, early⟩
          · obtain ⟨st, member, covers⟩ := spec.exact.complete key seq ⟨not_lt.mp early, inside.2⟩
              ((open_cons_of_le (not_lt.mp early)).mp opened)
            exact ⟨st, mem_cons_of_mem _ member, covers⟩
        · intro key seq le
          exact (open_cons_of_le (itNext.le.trans le)).trans (spec.rest key seq le)

/-- The sweep after the tombstones `seen`: fragments below the current start
key and open end keys from it on. -/
structure SweepInv (fc : Bool) (snapshots : List Nat) (seen : List (RangeTombstone κ))
    (sweep : Sweep κ) : Prop where
  wellFormed : WellFormed sweep.tombstones
  ends : ∀ st ∈ sweep.tombstones, st.endKey ≤ sweep.curStartKey
  exact : Exact fc snapshots (CoveringSeqs seen) (· < sweep.curStartKey) sweep.tombstones
  opened : ∀ key seq, sweep.curStartKey ≤ key → (CoveringSeqs seen key seq ↔ OpenSeqs sweep.curEndKeys key seq)
  sorted : sweep.curEndKeys.Pairwise (· ≤ ·)
  after : ∀ e ∈ sweep.curEndKeys, sweep.curStartKey ≤ e.userKey

private theorem userKeys_sorted {keys : List (InternalKey κ)} (sorted : keys.Pairwise (· ≤ ·)) :
    keys.Pairwise (fun a b => a.userKey ≤ b.userKey) :=
  sorted.imp InternalKey.userKey_le_of_le

variable {fc : Bool} {snapshots : List Nat} {seen : List (RangeTombstone κ)} {sweep : Sweep κ}
  {next : κ} {t : RangeTombstone κ} {keys : List (InternalKey κ)}

/-- Flushing moves the start key forward and loses no coverage. -/
theorem flush_keeps_inv (inv : SweepInv fc snapshots seen sweep) (before : sweep.curStartKey ≤ next)
    (last : sweep.curStartKey = next → ∀ e ∈ sweep.curEndKeys, e.userKey ≤ next) :
    SweepInv fc snapshots seen (flushCurrentTombstones fc snapshots sweep next) := by
  have spec := flushLoop_spec fc snapshots next sweep.curStartKey sweep.curEndKeys
    (userKeys_sorted inv.sorted) inv.after before last
  refine ⟨⟨?_, ?_⟩, ?_, ⟨?_, ?_⟩, ?_, ?_, spec.reach⟩
  · exact forall_mem_append.mpr ⟨inv.wellFormed.nonempty, spec.wellFormed.nonempty⟩
  · refine pairwise_append.mpr ⟨inv.wellFormed.disjoint, spec.wellFormed.disjoint, ?_⟩
    intro a old b new
    exact (inv.ends a old).trans (spec.starts b new)
  · exact forall_mem_append.mpr ⟨fun st member => (inv.ends st member).trans before, spec.ends⟩
  · intro st member key covers
    rcases mem_append.mp member with member | member
    · exact inv.exact.written st member key covers
    · exact (spec.exact.written st member key covers).congr
        (fun seq => (inv.opened key seq ((spec.starts st member).trans covers.1)).symm)
  · intro key seq lt covering
    by_cases early : key < sweep.curStartKey
    · obtain ⟨st, member, covers⟩ := inv.exact.complete key seq early covering
      exact ⟨st, mem_append_left _ member, covers⟩
    · have from_cur := not_lt.mp early
      obtain ⟨st, member, covers⟩ := spec.exact.complete key seq ⟨from_cur, lt⟩
        ((inv.opened key seq from_cur).mp covering)
      exact ⟨st, mem_append_right _ member, covers⟩
  · intro key seq le
    exact (inv.opened key seq (before.trans le)).trans (spec.rest key seq le)
  · exact inv.sorted.sublist spec.sublist

/-- With nothing open the start key may jump over the gap. -/
private theorem jump_keeps_inv (inv : SweepInv fc snapshots seen sweep)
    (empty : sweep.curEndKeys = []) (before : sweep.curStartKey ≤ next) :
    SweepInv fc snapshots seen { sweep with curStartKey := next } := by
  have none_open : ∀ key seq, sweep.curStartKey ≤ key → ¬ CoveringSeqs seen key seq := by
    intro key seq le covering
    obtain ⟨_, member, -⟩ := (inv.opened key seq le).mp covering
    simp [empty] at member
  refine ⟨inv.wellFormed, fun st member => (inv.ends st member).trans before,
    ⟨inv.exact.written, ?_⟩, fun key seq le => inv.opened key seq (before.trans le),
    inv.sorted, by simp [empty]⟩
  rintro key seq - covering
  by_cases early : key < sweep.curStartKey
  · exact inv.exact.complete key seq early covering
  · exact absurd covering (none_open key seq (not_lt.mp early))

private theorem covering_append (key : κ) (seq : Nat) :
    CoveringSeqs (seen ++ [t]) key seq ↔ CoveringSeqs seen key seq ∨ (t.Covers key ∧ t.seq = seq) := by
  simp [CoveringSeqs, or_and_right, exists_or]

private theorem mem_emplace : e ∈ emplace k keys ↔ e = k ∨ e ∈ keys := by
  unfold emplace
  split
  · rename_i present
    constructor
    · exact Or.inr
    · rintro (rfl | member)
      · exact present
      · exact member
  · exact mem_orderedInsert _

private theorem emplace_sorted (sorted : keys.Pairwise (· ≤ ·)) : (emplace k keys).Pairwise (· ≤ ·) := by
  unfold emplace
  split
  · exact sorted
  · exact sorted.orderedInsert k keys

/-- Opening a tombstone at the current start key adds exactly its coverage. -/
private theorem open_keeps_inv (inv : SweepInv fc snapshots seen sweep) (start : t.startKey = sweep.curStartKey) :
    SweepInv fc snapshots (seen ++ [t]) { sweep with
      curEndKeys := emplace ⟨t.endKey, t.seq, .kTypeRangeDeletion⟩ sweep.curEndKeys } := by
  have below : ∀ key seq, key < sweep.curStartKey →
      (CoveringSeqs seen key seq ↔ CoveringSeqs (seen ++ [t]) key seq) := by
    intro key seq lt
    rw [covering_append]
    exact ⟨Or.inl, fun either => either.resolve_right (fun covers => absurd (start ▸ covers.1.1) (not_le.mpr lt))⟩
  refine ⟨inv.wellFormed, inv.ends, ⟨?_, ?_⟩, ?_, emplace_sorted inv.sorted, ?_⟩
  · intro st member key covers
    exact (inv.exact.written st member key covers).congr
      (fun seq => below key seq (covers.2.trans_le (inv.ends st member)))
  · intro key seq lt covering
    exact inv.exact.complete key seq lt ((below key seq lt).mpr covering)
  · intro key seq le
    rw [covering_append, inv.opened key seq le]
    constructor
    · rintro (⟨e, member, facts⟩ | ⟨covers, same⟩)
      · exact ⟨e, mem_emplace.mpr (.inr member), facts⟩
      · exact ⟨_, mem_emplace.mpr (.inl rfl), covers.2, same⟩
    · rintro ⟨e, member, lt, same⟩
      rcases mem_emplace.mp member with rfl | member
      · exact .inr ⟨⟨start ▸ le, lt⟩, same⟩
      · exact .inl ⟨e, member, lt, same⟩
  · intro e member
    rcases mem_emplace.mp member with rfl | member
    · exact start ▸ t.ordered
    · exact inv.after e member

/-- One tombstone of the sorted input. -/
theorem fragmentStep_keeps_inv (inv : SweepInv fc snapshots seen sweep) (ascending : sweep.curStartKey ≤ t.startKey) :
    SweepInv fc snapshots (seen ++ [t]) (fragmentStep fc snapshots sweep t) := by
  unfold fragmentStep
  by_cases moved : sweep.curEndKeys ≠ [] ∧ sweep.curStartKey ≠ t.startKey
  · simp only [moved, ne_eq, not_false_eq_true, and_self, ↓reduceIte]
    exact open_keeps_inv (flush_keeps_inv inv ascending (fun same => absurd same moved.2)) rfl
  · simp only [moved, ↓reduceIte]
    by_cases same : sweep.curStartKey = t.startKey
    · have settled : { sweep with curStartKey := t.startKey } = sweep := by rw [← same]
      simpa only [same, settled] using open_keeps_inv inv same.symm
    · have empty : sweep.curEndKeys = [] := by
        by_contra filled
        exact moved ⟨filled, same⟩
      exact open_keeps_inv (jump_keeps_inv inv empty ascending) rfl

/-- The whole sweep over tombstones sorted by start key. -/
theorem sweep_keeps_inv (rest : List (RangeTombstone κ)) (inv : SweepInv fc snapshots seen sweep)
    (ascending : (sweep.curStartKey :: rest.map (·.startKey)).Pairwise (· ≤ ·)) :
    SweepInv fc snapshots (seen ++ rest) (rest.foldl (fragmentStep fc snapshots) sweep) := by
  induction rest generalizing seen sweep with
  | nil => simpa using inv
  | cons t _ ih =>
    obtain ⟨first, later⟩ := pairwise_cons.mp ascending
    have stepped := fragmentStep_keeps_inv inv (first t.startKey (by simp))
    have swept := ih stepped (by simpa [fragmentStep] using later)
    simpa using swept

/-- Fragments that tell exactly what the tombstones cover. -/
structure Fragments (fc : Bool) (snapshots : List Nat) (tombstones : List (RangeTombstone κ))
    (fragments : List (RangeTombstoneStack κ)) : Prop where
  wellFormed : WellFormed fragments
  exact : Exact fc snapshots (CoveringSeqs tombstones) (fun _ => True) fragments

/-- The final flush reaches the largest open end key, past which nothing is
covered. -/
theorem fragmentTombstones_exact (fc : Bool) (snapshots : List Nat) (tombstones : List (RangeTombstone κ))
    (sorted : (tombstones.map (·.startKey)).Pairwise (· ≤ ·)) :
    Fragments fc snapshots tombstones (fragmentTombstones fc snapshots tombstones) := by
  cases tombstones with
  | nil =>
    refine ⟨⟨by simp [fragmentTombstones], by simp [fragmentTombstones]⟩, ⟨by simp [fragmentTombstones], ?_⟩⟩
    rintro key seq - ⟨_, member, -⟩
    cases member
  | cons first rest =>
    have start : SweepInv fc snapshots [first]
        ⟨first.startKey, [⟨first.endKey, first.seq, .kTypeRangeDeletion⟩], []⟩ := by
      have base : SweepInv fc snapshots [] (⟨first.startKey, [], []⟩ : Sweep κ) :=
        ⟨⟨by simp, by simp⟩, by simp, ⟨by simp, by simp [CoveringSeqs]⟩,
          by simp [CoveringSeqs, OpenSeqs], by simp, by simp⟩
      exact open_keeps_inv base rfl
    have inv := sweep_keeps_inv rest start sorted
    simp only [fragmentTombstones]
    generalize rest.foldl (fragmentStep fc snapshots) _ = sweep at inv
    cases found : sweep.curEndKeys.getLast? with
    | none =>
      have empty : sweep.curEndKeys = [] := getLast?_eq_none_iff.mp found
      refine ⟨inv.wellFormed, ⟨inv.exact.written, ?_⟩⟩
      rintro key seq - covering
      by_cases early : key < sweep.curStartKey
      · exact inv.exact.complete key seq early covering
      · obtain ⟨e, member, -⟩ := (inv.opened key seq (not_lt.mp early)).mp covering
        simp [empty] at member
    | some last =>
      have lastMember : last ∈ sweep.curEndKeys := mem_of_getLast? found
      have greatest : ∀ e ∈ sweep.curEndKeys, e.userKey ≤ last.userKey := by
        intro e member
        obtain ⟨_, split⟩ := getLast?_eq_some_iff.mp found
        rw [split] at member
        rcases mem_append.mp member with member | member
        · have sortedSplit := split ▸ userKeys_sorted inv.sorted
          exact (pairwise_append.mp sortedSplit).2.2 e member last (by simp)
        · rw [mem_singleton.mp member]
      have flushed := flush_keeps_inv inv (inv.after last lastMember) (fun _ => greatest)
      refine ⟨flushed.wellFormed, ⟨flushed.exact.written, ?_⟩⟩
      rintro key seq - covering
      by_cases early : key < last.userKey
      · exact flushed.exact.complete key seq early covering
      · have past : last.userKey ≤ key := not_lt.mp early
        obtain ⟨e, member, lt, -⟩ := (inv.opened key seq ((inv.after last lastMember).trans past)).mp covering
        exact absurd lt (not_lt.mpr ((greatest e member).trans past))

variable {tombstones : List (RangeTombstone κ)}

private theorem startKeys_sorted (sorted : tombstones.Pairwise (fun a b => a.serializeKey ≤ b.serializeKey)) :
    (tombstones.map (·.startKey)).Pairwise (· ≤ ·) :=
  pairwise_map.mpr (sorted.imp InternalKey.userKey_le_of_le)

private theorem Fragments.congr (fragments : Fragments fc snapshots tombstones stacked)
    (same : ∀ t, t ∈ tombstones ↔ t ∈ tombstones') : Fragments fc snapshots tombstones' stacked := by
  have covering : ∀ key seq, CoveringSeqs tombstones key seq ↔ CoveringSeqs tombstones' key seq :=
    fun key seq => exists_congr fun t => and_congr (same t) Iff.rfl
  exact ⟨fragments.wellFormed,
    fun st member key covers => (fragments.exact.written st member key covers).congr (covering key),
    fun key seq inside covered => fragments.exact.complete key seq inside ((covering key seq).mpr covered)⟩

/-- The constructor fragments any list of tombstones, sorted or not. -/
theorem fragmentedRangeTombstoneList_exact (fc : Bool) (snapshots : List Nat)
    (unfragmented : List (RangeTombstone κ)) :
    Fragments fc snapshots unfragmented (fragmentedRangeTombstoneList fc snapshots unfragmented) := by
  unfold fragmentedRangeTombstoneList
  split
  · rename_i sorted
    exact fragmentTombstones_exact fc snapshots _ (startKeys_sorted sorted.pairwise)
  · have total : Std.Total (fun a b : RangeTombstone κ => a.serializeKey ≤ b.serializeKey) :=
      ⟨fun a b => le_total a.serializeKey b.serializeKey⟩
    exact (fragmentTombstones_exact fc snapshots _ (startKeys_sorted
      (pairwise_insertionSort _ _))).congr (fun _ => mem_insertionSort _)

/-- The fragment over a key is the first one that ends after it. -/
theorem find_covering {key : κ} (wellFormed : WellFormed fragments) (member : st ∈ fragments)
    (covers : StackCovers st key) : fragments.find? (key < ·.endKey) = some st := by
  obtain ⟨before, after, split⟩ := append_of_mem member
  subst split
  refine find?_eq_some_iff_append.mpr ⟨by simpa using covers.2, before, after, rfl, ?_⟩
  intro earlier inside
  have ends : earlier.endKey ≤ st.startKey :=
    (pairwise_append.mp wellFormed.disjoint).2.2 earlier inside st (by simp)
  simpa using ends.trans covers.1

/-- The covering lookup reads the first fragment that ends after the key. -/
theorem maxCoveringTombstoneSeqnum_eq (fragments : List (RangeTombstoneStack κ)) (upper lower : Nat) (key : κ) :
    (new fragments upper lower).maxCoveringTombstoneSeqnum key = match fragments.find? (key < ·.endKey) with
      | none => 0
      | some st => if st.startKey ≤ key then (st.seqs.find? (· ≤ upper)).getD 0 else 0 := by
  unfold maxCoveringTombstoneSeqnum seekToCoveringTombstone setMaxVisibleSeq new seq? stack?
  dsimp only
  rw [find?_eq_getElem?_findIdx]
  cases fragments[fragments.findIdx (key < ·.endKey)]? with
  | none => rfl
  | some st =>
    dsimp only [Option.map_some, Option.getD_some, Option.bind_some]
    rw [find?_eq_getElem?_findIdx]
    cases st.seqs[st.seqs.findIdx (· ≤ upper)]? with
    | none => simp
    | some => simp

/-- The sequence numbers of the tombstones over a key that a bound admits. -/
def visibleCovering (tombstones : List (RangeTombstone κ)) (key : κ) (upper : Nat) : List Nat :=
  (tombstones.filter fun t => t.Covers key ∧ t.seq ≤ upper).map (·.seq)

private theorem mem_visibleCovering :
    seq ∈ visibleCovering tombstones key upper ↔ CoveringSeqs tombstones key seq ∧ seq ≤ upper := by
  simp only [visibleCovering, mem_map, mem_filter, decide_eq_true_eq, CoveringSeqs]
  constructor
  · rintro ⟨t, ⟨member, covers, le⟩, rfl⟩
    exact ⟨⟨t, member, covers, rfl⟩, le⟩
  · rintro ⟨⟨t, member, covers, rfl⟩, le⟩
    exact ⟨t, ⟨member, covers, le⟩, rfl⟩

omit [LinearOrder κ] in
/-- Fragmenting for reads keeps every sequence number, newest first. -/
theorem seqnumsToFlush_read (snapshots : List Nat) (keys : List (InternalKey κ)) :
    (seqnumsToFlush false snapshots keys).Pairwise (· ≥ ·) ∧
      ∀ seq, seq ∈ seqnumsToFlush false snapshots keys ↔ seq ∈ keys.map (·.sequence) := by
  constructor
  · exact pairwise_insertionSort _ _
  · intro _
    exact mem_insertionSort _

/-- A covering lookup answers with the largest visible sequence number of an
original tombstone over the key, if the fragment over the key lists such numbers
newest first and dominates those it leaves out. -/
theorem Fragments.maxCovering
    {fragments : List (RangeTombstoneStack κ)} (spec : Fragments fc snapshots tombstones fragments)
    (key : κ) (upper lower : Nat)
    (lists : ∀ st ∈ fragments, StackCovers st key → st.seqs.Pairwise (· ≥ ·) ∧
      (∀ seq ∈ st.seqs, CoveringSeqs tombstones key seq) ∧
      ∀ seq, CoveringSeqs tombstones key seq → seq ≤ upper → ∃ newer ∈ st.seqs, seq ≤ newer ∧ newer ≤ upper) :
    (new fragments upper lower).maxCoveringTombstoneSeqnum key = largest (visibleCovering tombstones key upper) := by
  rw [maxCoveringTombstoneSeqnum_eq]
  by_cases covered : ∃ st ∈ fragments, StackCovers st key
  · obtain ⟨st, member, covers⟩ := covered
    obtain ⟨descending, original, dominates⟩ := lists st member covers
    rw [find_covering spec.wellFormed member covers]
    simp only [covers.1, ↓reduceIte]
    cases found : st.seqs.find? (· ≤ upper) with
    | none =>
      refine (largest_eq_zero fun seq visible => ?_).symm
      obtain ⟨covering, le⟩ := mem_visibleCovering.mp visible
      obtain ⟨newer, listed, -, newerLe⟩ := dominates seq covering le
      exact absurd newerLe (by simpa using find?_eq_none.mp found newer listed)
    | some seq =>
      refine (largest_eq (mem_visibleCovering.mpr ⟨?_, ?_⟩) ?_).symm
      · exact original seq (mem_of_find?_eq_some found)
      · simpa using find?_some found
      · intro x visible
        obtain ⟨covering, le⟩ := mem_visibleCovering.mp visible
        obtain ⟨newer, listed, xLe, newerLe⟩ := dominates x covering le
        exact xLe.trans (find_le_dominates descending found newer listed newerLe)
  · have none_covering : ∀ seq, ¬ CoveringSeqs tombstones key seq :=
      fun seq covering => covered (spec.exact.complete key seq trivial covering)
    rw [largest_eq_zero fun seq visible => none_covering seq (mem_visibleCovering.mp visible).1]
    cases found : fragments.find? (key < ·.endKey) with
    | none => rfl
    | some st =>
      have ends : key < st.endKey := by simpa using find?_some found
      have starts : ¬ st.startKey ≤ key := fun le => covered ⟨st, mem_of_find?_eq_some found, le, ends⟩
      simp [starts]

theorem maxCoveringTombstoneSeqnum_largest (snapshots : List Nat)
    (unfragmented : List (RangeTombstone κ)) (key : κ) (upper lower : Nat) :
    (new (fragmentedRangeTombstoneList false snapshots unfragmented)
      upper lower).maxCoveringTombstoneSeqnum key = largest (visibleCovering unfragmented key upper) := by
  have spec := fragmentedRangeTombstoneList_exact false snapshots unfragmented
  refine spec.maxCovering key upper lower fun st member covers => ?_
  obtain ⟨keys, -, stored, written⟩ := spec.exact.written st member key covers
  obtain ⟨descending, members⟩ := seqnumsToFlush_read snapshots keys
  have exactSeqs : ∀ seq, seq ∈ st.seqs ↔ CoveringSeqs unfragmented key seq :=
    fun seq => stored ▸ (members seq).trans (written seq)
  exact ⟨stored ▸ descending, fun seq => (exactSeqs seq).mp,
    fun seq covering le => ⟨seq, (exactSeqs seq).mpr covering, le_rfl, le⟩⟩

/-- **Fragmenting preserves coverage.** Whatever the order and overlap of the
tombstones, the fragments are non-empty, sorted and disjoint, list their
sequence numbers newest first, and answer every covering lookup with the
largest visible sequence number of an original tombstone over the key. -/
theorem fragmenting_preserves_coverage (snapshots : List Nat) (unfragmented : List (RangeTombstone κ)) :
    let fragments := fragmentedRangeTombstoneList false snapshots unfragmented
    (∀ st ∈ fragments, st.startKey < st.endKey ∧ st.seqs ≠ [] ∧ st.seqs.Pairwise (· ≥ ·)) ∧
    fragments.Pairwise (fun a b => a.endKey ≤ b.startKey) ∧
    ∀ key upper lower, (FragmentedRangeTombstoneIterator.new fragments upper lower).maxCoveringTombstoneSeqnum key =
        largest (visibleCovering unfragmented key upper) := by
  intro _
  have spec := fragmentedRangeTombstoneList_exact false snapshots unfragmented
  refine ⟨?_, spec.wellFormed.disjoint, maxCoveringTombstoneSeqnum_largest snapshots unfragmented⟩
  intro st member
  have proper := spec.wellFormed.nonempty st member
  obtain ⟨keys, nonempty, stored, -⟩ := spec.exact.written st member st.startKey ⟨le_rfl, proper⟩
  obtain ⟨descending, members⟩ := seqnumsToFlush_read snapshots keys
  refine ⟨proper, ?_, stored ▸ descending⟩
  obtain ⟨e, _, rfl⟩ := exists_cons_of_ne_nil nonempty
  exact ne_nil_of_mem (stored ▸ (members e.sequence).mpr (by simp))

end Rocksdb.FragmenterProofs
