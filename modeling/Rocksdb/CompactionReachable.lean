import Rocksdb.CompactionRun

/-! Every state a compaction goes through, and what the iterator remembers in
it of the entry it looked at last. A version is dropped as hidden only behind a
newer one that the same snapshots see. -/
namespace Rocksdb.CompactionReachable
open MergeHelper CompactionIterator SnapshotStripes CompactionSteps CompactionRun

variable {κ V δ : Type}

/-! ## Reachable states -/

section Reach
variable [DecidableEq κ]

/-- The states of a compaction of `input`, with the point entries it has looked
at, the last one first. -/
inductive Reachable (cfg : Config κ V δ) (input : List (Entry κ V)) (agg : δ) :
    List (Entry κ V) → State κ V δ → Prop
  | start : Reachable cfg input agg [] (State.new input agg)
  | sentinel {seen st e rest} (before : Reachable cfg input agg seen st) (reading : Reading st e rest)
      (isSentinel : e.isDeleteRangeSentinelKey = true) :
      Reachable cfg input agg seen (processEntry cfg st e rest)
  | point {seen st e rest} (before : Reachable cfg input agg seen st) (reading : Reading st e rest)
      (isPoint : e.isDeleteRangeSentinelKey = false) :
      Reachable cfg input agg (e :: seen) (processEntry cfg st e rest)
  | prepare {seen st} (flag : Bool) (before : Reachable cfg input agg seen st) :
      Reachable cfg input agg seen (prepareOutput cfg { st with hasOutputtedKey := flag })
  | takeMerge {seen st first ikey value more} (before : Reachable cfg input agg seen st)
      (valid : st.out.isSome) (mergeOut : st.mergeOut = first :: (ikey, value) :: more) :
      Reachable cfg input agg seen { st with
        mergeOut := (ikey, value) :: more
        out := some ⟨ikey, value, false, .kMerge1⟩ }
  | take {seen st} (before : Reachable cfg input agg seen st) (valid : st.out.isSome) :
      Reachable cfg input agg seen { resume st with atNext := false, out := none }

variable {cfg : Config κ V δ} {input : List (Entry κ V)} {agg : δ} {st : State κ V δ}

theorem inputLoop_reachable (fuel : Nat) : ∀ st, (∃ seen, Reachable cfg input agg seen st) → Idle st →
    ∃ seen, Reachable cfg input agg seen (inputLoop cfg fuel st) := by
  induction fuel with
  | zero => exact fun st reached _ => reached
  | succ _ ih =>
    rintro st ⟨seen, reached⟩ idle
    rw [inputLoop]
    cases at_head : st.input with
    | nil => exact ⟨seen, reached⟩
    | cons e rest =>
      have reading : Reading st e rest := ⟨at_head, idle.out, idle.atNext, idle.mergeOut, idle.status⟩
      set st' := processEntry cfg st e rest
      have processed : ∃ seen, Reachable cfg input agg seen st' := by
        cases isSentinel : e.isDeleteRangeSentinelKey with
        | true => exact ⟨_, .sentinel reached reading isSentinel⟩
        | false => exact ⟨_, .point reached reading isSentinel⟩
      dsimp only
      rw [if_neg (by simp [idle.out, idle.status])]
      by_cases stopped : st'.out.isSome ∨ st'.status ≠ .ok
      · rwa [inputLoop_stopped stopped]
      · obtain ⟨noOutput, good⟩ := not_or.mp stopped
        have none : st'.out = none := by simpa using noOutput
        obtain ⟨-, atNext, mergeOut⟩ := (processEntry_consumes cfg reading).1 none (not_not.mp good)
        exact ih _ processed ⟨none, atNext, mergeOut, not_not.mp good⟩

private theorem next_reachable (reached : ∃ seen, Reachable cfg input agg seen st) (valid : st.out.isSome)
    (status : st.status = .ok) : ∃ seen, Reachable cfg input agg seen (next cfg st) := by
  obtain ⟨seen, reached⟩ := reached
  obtain ⟨seen', advanced⟩ : ∃ seen, Reachable cfg input agg seen (advance cfg st) := by
    unfold advance
    split
    case h_1 mergeOut => exact ⟨seen, reached.takeMerge valid mergeOut⟩
    case h_2 =>
      obtain ⟨mergeOut, kept, -⟩ := resume_fields st
      exact inputLoop_reachable _ _ ⟨seen, reached.take valid⟩ ⟨rfl, rfl, mergeOut, kept.trans status⟩
  rw [next]
  split
  · exact ⟨seen', advanced.prepare true⟩
  · exact ⟨seen', advanced.prepare _⟩

private theorem drain_reachable (fuel : Nat) : ∀ st, (∃ seen, Reachable cfg input agg seen st) →
    ∃ seen, Reachable cfg input agg seen (drain cfg fuel st).2 := by
  induction fuel with
  | zero => exact fun st reached => reached
  | succ _ ih =>
    intro _ reached
    rw [drain]
    split
    · exact reached
    case h_2 o out =>
      split
      · exact reached
      case isFalse good =>
        exact ih _ (next_reachable reached (by simp [out]) (not_not.mp good))

/-- A whole compaction stays among the reachable states. -/
theorem compact_reachable (cfg : Config κ V δ) (input : List (Entry κ V)) (agg : δ) :
    ∃ seen, Reachable cfg input agg seen (compact cfg input agg).2 := by
  obtain ⟨seen, first⟩ := inputLoop_reachable (input.length + 1) (State.new input agg)
    ⟨[], .start⟩ ⟨rfl, rfl, rfl, rfl⟩
  exact drain_reachable _ _ ⟨seen, first.prepare _⟩

end Reach

/-! ## What is remembered -/

/-- The iterator remembers the point entry it looked at last, if any, and what
it has still to read lies behind that. -/
structure Tracked (cfg : Config κ V δ) (input seen : List (Entry κ V)) (st : State κ V δ) : Prop where
  ahead : st.status = .ok → unread st <:+ input
  last : ∀ u, st.currentUserKey = some u → ∃ newer, seen.head? = some newer ∧
    newer.key.userKey = u ∧ st.currentUserKeySequence = newer.key.sequence ∧
    st.currentUserKeySnapshot = stripe cfg.snapshots newer.key.sequence ∧
    (st.status = .ok → (newer :: unread st).Sublist input)

section Track
variable {cfg : Config κ V δ} {input : List (Entry κ V)} {agg : δ} {st : State κ V δ} {seen : List (Entry κ V)}

theorem unread_of_reading (reading : Reading st e rest) : unread st = e :: rest := by
  simp [unread, reading.out, reading.input]

private theorem unread_take (valid : st.out.isSome) :
    unread { resume st with atNext := false, out := none } = unread st := by
  unfold resume unread
  cases st.mergeOut with
  | nil => cases st.atNext <;> simp [valid]
  | cons => simp

/-- What taking an output keeps: only outputs of a merge end the user key. -/
theorem resume_same (st : State κ V δ) : (resume st).currentUserKeySequence = st.currentUserKeySequence ∧
    (resume st).currentUserKeySnapshot = st.currentUserKeySnapshot ∧
    ((resume st).currentUserKey = st.currentUserKey ∨ st.mergeOut ≠ [] ∧ (resume st).currentUserKey = none) := by
  unfold resume
  split
  · split <;> exact ⟨rfl, rfl, .inl rfl⟩
  case h_2 mergeOut =>
    refine ⟨rfl, rfl, ?_⟩
    split <;> simp [mergeOut]

/-- Reading on, or forgetting the user key, keeps the rest as it was. -/
theorem Tracked.move (tracked : Tracked cfg input seen st) (status : st'.status = .ok → st.status = .ok)
    (tail : unread st' <:+ unread st)
    (kept : st'.currentUserKey = none ∨ st'.currentUserKey = st.currentUserKey ∧
      st'.currentUserKeySequence = st.currentUserKeySequence ∧
      st'.currentUserKeySnapshot = st.currentUserKeySnapshot) : Tracked cfg input seen st' := by
  refine ⟨fun good => tail.trans (tracked.ahead (status good)), fun u isCurrent => ?_⟩
  rcases kept with none | ⟨same, sequence, snapshot⟩
  · simp [none] at isCurrent
  · obtain ⟨newer, isLast, sameKey, sequence', snapshot', order⟩ := tracked.last u (same ▸ isCurrent)
    exact ⟨newer, isLast, sameKey, sequence.trans sequence', snapshot.trans snapshot',
      fun good => (tail.sublist.cons_cons newer).trans (order (status good))⟩

variable [DecidableEq κ] in
/-- Every state of a compaction is tracked, by induction on its steps. -/
theorem Reachable.tracked (reached : Reachable cfg input agg seen st) : Tracked cfg input seen st := by
  induction reached with
  | start => exact ⟨fun _ => List.suffix_rfl, by simp [State.new]⟩
  | @sentinel _ _ _ _ _ reading isSentinel ih =>
    rw [processEntry, if_pos isSentinel]
    refine ih.move id ?_ (.inr ⟨rfl, rfl, rfl⟩)
    rw [unread_of_reading reading]
    simp [unread, reading.mergeOut, reading.atNext, reading.input]
  | @point _ st e rest _ reading isPoint ih =>
    have passes := processEntry_passes cfg reading isPoint
    obtain ⟨-, sequence, snapshot, -⟩ := beginEntry_fields cfg st e.key
    have whole := ih.ahead reading.status
    rw [unread_of_reading reading] at whole
    have moved (good : (processEntry cfg st e rest).status = .ok) :=
      (passes.moved.resolve_left fun failed => failed.2.2 good).suffix
    refine ⟨fun good => (moved good).trans ((List.suffix_cons e rest).trans whole),
      fun _ isCurrent => ⟨e, rfl, ?_, passes.sequence.trans sequence, passes.snapshot.trans snapshot,
        fun good => ((moved good).sublist.cons_cons e).trans whole.sublist⟩⟩
    rcases passes.current with same | none
    · exact Option.some.inj (same.symm.trans isCurrent)
    · simp [none] at isCurrent
  | @prepare _ st flag _ ih =>
    obtain ⟨same, isSome⟩ := prepareOutput_same cfg { st with hasOutputtedKey := flag }
    have kept : unread (prepareOutput cfg { st with hasOutputtedKey := flag }) = unread st := by
      simp only [unread, isSome, same.input, same.mergeOut, same.atNext]
    refine ih.move (fun good => not_not.mp fun bad => ?_) (by rw [kept])
      (.inr ⟨same.currentUserKey, same.currentUserKeySequence, same.currentUserKeySnapshot⟩)
    exact prepareOutput_bad (show { st with hasOutputtedKey := flag }.status ≠ .ok from bad) good
  | takeMerge _ _ mergeOut ih =>
    refine ih.move id ?_ (.inr ⟨rfl, rfl, rfl⟩)
    simp [unread, mergeOut]
  | @take _ st _ valid ih =>
    refine ih.move (fun good => (resume_fields st).2.1.symm.trans good) (by rw [unread_take valid]) ?_
    obtain ⟨sequence, snapshot, current⟩ := resume_same st
    exact current.symm.imp And.right fun same => ⟨same, sequence, snapshot⟩

end Track

/-! ## Hidden versions -/

/-- A compaction of sorted entries. -/
structure SortedJob (κ V δ : Type) [LinearOrder κ] where
  cfg : Config κ V δ
  agg : δ
  input : List (Entry κ V)
  snapshots : AscendingList cfg.snapshots
  bounded : ∀ e ∈ input, e.key.sequence ≤ kMaxSequenceNumber
  sorted : input.Pairwise (fun a b => a.key ≤ b.key)

variable [LinearOrder κ] {job : SortedJob κ V δ} {seen : List (Entry κ V)} {st : State κ V δ}
  {e : Entry κ V} {rest : List (Entry κ V)}

/-- What is remembered of the user key of the next entry comes from an entry in
front of it. -/
theorem Tracked.newer (tracked : Tracked job.cfg job.input seen st) (reading : Reading st e rest)
    (isCurrent : st.currentUserKey = some e.key.userKey) :
    ∃ newer, seen.head? = some newer ∧ newer.key.userKey = e.key.userKey ∧
      [newer, e].Sublist job.input ∧ e.key.sequence ≤ newer.key.sequence ∧
      newer.key.sequence ≤ kMaxSequenceNumber ∧
      st.currentUserKeySnapshot = stripe job.cfg.snapshots newer.key.sequence := by
  obtain ⟨newer, isLast, sameKey, -, snapshot, order⟩ := tracked.last _ isCurrent
  have inOrder : [newer, e].Sublist job.input := by
    refine List.Sublist.trans ?_ (order reading.status)
    rw [unread_of_reading reading]
    exact ((List.nil_sublist rest).cons_cons e).cons_cons newer
  have le : newer.key ≤ e.key := by simpa using job.sorted.sublist inOrder
  exact ⟨newer, isLast, sameKey, inOrder, InternalKey.sequence_le_of_le le sameKey,
    job.bounded newer (inOrder.subset (by simp)), snapshot⟩

theorem Tracked.mem (tracked : Tracked job.cfg job.input seen st) (reading : Reading st e rest) : e ∈ job.input :=
  (tracked.ahead reading.status).subset (by simp [unread_of_reading reading])

/-- **Nothing is hidden but by a newer version.** Whenever the iterator drops an
entry by the same-snapshot rule, the point entry it looked at just before is a
version of the same user key from in front of it, and exactly the same
snapshots see the two; unless the entry has sequence number zero and there is
a snapshot of that number. -/
theorem hidden_behind_newer_version
    (reached : Reachable job.cfg job.input job.agg seen st) (reading : Reading st e rest)
    (hidden : Hidden job.cfg st e.key) (positive : 0 ∉ job.cfg.snapshots ∨ 0 < e.key.sequence) :
    ∃ newer, seen.head? = some newer ∧ newer.key.userKey = e.key.userKey ∧
      [newer, e].Sublist job.input ∧ e.key.sequence ≤ newer.key.sequence ∧
      ∀ s ∈ job.cfg.snapshots, newer.key.sequence ≤ s ↔ e.key.sequence ≤ s := by
  have bounded := job.bounded e (reached.tracked.mem reading)
  obtain ⟨-, -, shared⟩ := hidden
  rw [enterKey_eq, visibleSnapshot_eq] at shared
  by_cases isCurrent : st.currentUserKey = some e.key.userKey
  · obtain ⟨newer, isLast, sameKey, inOrder, older, newerBounded, snapshot⟩ :=
      reached.tracked.newer reading isCurrent
    simp only [isCurrent, if_true, snapshot] at shared
    have sameStripe : stripe job.cfg.snapshots newer.key.sequence = stripe job.cfg.snapshots e.key.sequence := by
      have := job.snapshots.stripe_mono newerBounded older
      omega
    refine ⟨newer, isLast, sameKey, inOrder, older, fun _ member => ?_⟩
    rw [← job.snapshots.stripe_le_iff newerBounded (.inl member), sameStripe,
      job.snapshots.stripe_le_iff bounded (.inl member)]
  · -- nothing is remembered, so the snapshot that sees the entry has number zero
    simp only [isCurrent, if_false, lt_self_iff_false, false_and, or_false] at shared
    have := le_stripe job.cfg.snapshots bounded
    rcases readPoint_stripe job.cfg.snapshots e.key.sequence with member | tip
    · rw [← shared] at member
      rcases positive with absent | later
      · exact absurd member absent
      · omega
    · rw [← shared] at tip
      simp [kMaxSequenceNumber] at tip

/-- A flush of plain puts. -/
def flushConfig (snapshots : List Nat) : Config Nat Nat Unit := numbersConfig snapshots none

/-- Two versions of a key above the only snapshot. -/
def twoVersions : SortedJob Nat Nat Unit where
  cfg := flushConfig [2]
  agg := ()
  input := [⟨⟨7, 5, .kTypeValue⟩, 1, false⟩, ⟨⟨7, 3, .kTypeValue⟩, 0, false⟩]
  snapshots := ⟨by decide, by decide⟩
  bounded := by decide
  sorted := by decide

theorem second_version_hidden : ∃ newer, (twoVersions.input.take 1).head? = some newer ∧ newer.key.userKey = 7 ∧
      [newer, ⟨⟨7, 3, .kTypeValue⟩, 0, false⟩].Sublist twoVersions.input ∧ 3 ≤ newer.key.sequence ∧
      ∀ s ∈ twoVersions.cfg.snapshots, newer.key.sequence ≤ s ↔ 3 ≤ s :=
  have reached : Reachable twoVersions.cfg twoVersions.input twoVersions.agg (twoVersions.input.take 1) _ :=
    (Reachable.start.point ⟨rfl, rfl, rfl, rfl, rfl⟩ rfl).take rfl
  hidden_behind_newer_version reached ⟨rfl, rfl, rfl, rfl, rfl⟩ (by decide)
    (.inl (by decide))

/-- A snapshot of the empty database has number zero, which the iterator also
starts a user key with: the only version of a key is dropped as hidden, though
the snapshot sees it. -/
theorem only_version_hidden :
    let e : Entry Nat Nat := ⟨⟨7, 0, .kTypeValue⟩, 1, false⟩
    let cfg := flushConfig [0]
    AscendingList cfg.snapshots ∧ Hidden cfg (State.new [e] ()) e.key ∧
      (compact cfg [e] ()).1 = [] ∧ (compact cfg [e] ()).2.status = .ok ∧
      ∀ s ∈ cfg.snapshots, e.key.sequence ≤ s := by
  refine ⟨⟨by decide, by decide⟩, by decide, by decide, by decide, by decide⟩

end Rocksdb.CompactionReachable
