import Rocksdb.CompactionRun

/-! The iterator writes strictly increasing internal keys. Several branches
rewrite the key of an entry, but never to a sequence number that is larger
than the one it came with; and once a key has been moved down to a smaller
sequence number, no entry of its user key is written any more. -/
namespace Rocksdb.CompactionOrder
open MergeHelper CompactionIterator SnapshotStripes CompactionSteps CompactionRun InternalKey
open List hiding after

variable {κ V δ : Type}

/-! ## Positions in order -/

section Order
variable [LinearOrder κ]

/-- A position in front of another one in the order of internal keys. -/
def Precedes (a b : κ × Nat) : Prop := a.1 < b.1 ∨ a.1 = b.1 ∧ b.2 < a.2

theorem Precedes.trans {a b c : κ × Nat} (ab : Precedes a b) (bc : Precedes b c) : Precedes a c := by
  rcases ab with lt | ⟨same, lt⟩
  · exact .inl (lt.trans_le (bc.elim le_of_lt (·.1.le)))
  · rcases bc with lt' | ⟨same', lt'⟩
    · exact .inl (same ▸ lt')
    · exact .inr ⟨same.trans same', lt'.trans lt⟩

/-- Moving a key down keeps what is in front of it in front. -/
theorem Precedes.lower {a b : κ × Nat} (ab : Precedes a b) (le : seq ≤ b.2) : Precedes a (b.1, seq) :=
  ab.imp_right fun ⟨same, lt⟩ => ⟨same, le.trans_lt lt⟩

theorem Precedes.lt {a b : InternalKey κ} (ab : Precedes (position a) (position b)) : a < b :=
  lt_iff.mpr (ab.imp_right fun ⟨same, lt⟩ => ⟨same, pack_lt_iff.mpr (.inl lt)⟩)

theorem precedes_of_le {a b : InternalKey κ} (le : a ≤ b) (ne : position a ≠ position b) :
    Precedes (position a) (position b) := by
  rcases le_iff.mp le with lt | ⟨same, footer⟩
  · exact .inl lt
  · refine .inr ⟨same, lt_of_le_of_ne (not_lt.mp fun lt => ?_) fun eq => ne (Prod.ext same eq.symm)⟩
    exact footer.not_gt (pack_lt_iff.mpr (.inl lt))

end Order

/-- A compaction as the order of its output depends on it. Every entry has its
own sequence number, as the database hands them out. -/
structure OrderedJob (κ V δ : Type) [LinearOrder κ] where
  cfg : Config κ V δ
  agg : δ
  input : List (Entry κ V)
  snapshots : AscendingList cfg.snapshots
  sorted : input.Pairwise (fun a b => a.key ≤ b.key)
  distinct : input.Pairwise (fun a b => a.isDeleteRangeSentinelKey = false →
    b.isDeleteRangeSentinelKey = false → position a.key ≠ position b.key)
  bounded : ∀ e ∈ input, e.key.sequence ≤ kMaxSequenceNumber
  /-- Nothing lies below the bottommost level. -/
  consistent : cfg.bottommostLevel → ∀ u, cfg.keyNotExistsBeyondOutputLevel u
  /-- Snapshots for write conflict checks are snapshots. -/
  writeConflict : cfg.earliestSnapshot ≤ cfg.earliestWriteConflictSnapshot
  /-- A `TimedPut` prefers a sequence number older than its own. -/
  preferred : ∀ e ∈ input, e.key.type = .kTypeValuePreferredSeqno → e.key.sequence ≠ 0 →
    (cfg.format.parsePackedValueWithSeqno e.value).2 < e.key.sequence

variable [LinearOrder κ] {job : OrderedJob κ V δ}

theorem OrderedJob.points_increasing (job : OrderedJob κ V δ) {input : List (Entry κ V)}
    (suffix : input <:+ job.input) : (pointPositions input).Pairwise Precedes := by
  refine pairwise_map.mpr (pairwise_filter.mpr ?_)
  have both := (job.sorted.and job.distinct).sublist suffix.sublist
  exact both.imp fun ⟨le, ne⟩ isPoint isPoint' =>
    precedes_of_le le (ne (by simpa using isPoint) (by simpa using isPoint'))

/-- Where an iterator stands between two outputs. -/
structure Place (κ V : Type) where
  input : List (Entry κ V)
  current : Option κ
  snapshot : Nat
  clear : Bool

/-- No entry of the user key of `e` is output any more: rule (A) or the rules
for `SingleDelete` drop all of them. -/
structure Closed (job : OrderedJob κ V δ) (p : Place κ V) (e : Entry κ V) : Prop where
  clear : p.clear = false
  current : p.current = some e.key.userKey
  snapshot : p.snapshot = stripe job.cfg.snapshots e.key.sequence
  early : e.key.sequence ≤ job.cfg.earliestSnapshot
  absent : job.cfg.keyNotExistsBeyondOutputLevel e.key.userKey

/-- The emitted positions increase, and every entry that can still be output
comes after them. -/
structure Ordered (job : OrderedJob κ V δ) (emitted : List (κ × Nat)) (p : Place κ V) : Prop where
  suffix : p.input <:+ job.input
  increasing : emitted.Pairwise Precedes
  ahead : ∀ k ∈ emitted, ∀ e ∈ p.input, e.isDeleteRangeSentinelKey = false →
    Precedes k (position e.key) ∨ k.1 = e.key.userKey ∧ Closed job p e

section Moves
variable {emitted : List (κ × Nat)} {p : Place κ V} {e : Entry κ V} {rest rest' : List (Entry κ V)}
  (ordered : Ordered job emitted p) (at_head : p.input = e :: rest)
include ordered at_head

/-- The entries behind the next one come after it. -/
theorem Ordered.behind (isPoint : e.isDeleteRangeSentinelKey = false) (tail : rest' <:+ rest) :
    ∀ r ∈ rest', r.isDeleteRangeSentinelKey = false → Precedes (position e.key) (position r.key) := by
  intro r member r_point
  have suffix := ordered.suffix
  rw [at_head] at suffix
  have le := (pairwise_cons.mp (job.sorted.sublist suffix.sublist)).1 r (tail.subset member)
  have ne := (pairwise_cons.mp (job.distinct.sublist suffix.sublist)).1 r (tail.subset member)
  exact precedes_of_le le (ne isPoint r_point)

theorem Ordered.tail_suffix (tail : rest' <:+ rest) : rest' <:+ job.input :=
  tail.trans ((suffix_cons e rest).trans (at_head ▸ ordered.suffix))

theorem Ordered.userKey_le (member : r ∈ rest) : e.key.userKey ≤ r.key.userKey := by
  have suffix := ordered.suffix
  rw [at_head] at suffix
  exact userKey_le_of_le ((pairwise_cons.mp (job.sorted.sublist suffix.sublist)).1 r member)

/-- Unless its user key is closed, an entry comes after everything emitted. -/
theorem Ordered.opens (isPoint : e.isDeleteRangeSentinelKey = false) (notClosed : ¬Closed job p e) :
    ∀ k ∈ emitted, Precedes k (position e.key) := fun k member =>
  (ordered.ahead k member e (by simp [at_head]) isPoint).resolve_right fun closed => notClosed closed.2

/-- Sentinels do not matter. -/
theorem Ordered.skipSentinel : Ordered job emitted { p with input := rest } := by
  refine ⟨ordered.tail_suffix at_head (suffix_refl _), ordered.increasing, ?_⟩
  intro k k_mem r r_mem r_point
  refine (ordered.ahead k k_mem r (by simp [at_head, r_mem]) r_point).imp_right ?_
  exact fun ⟨key, closed⟩ => ⟨key, closed.clear, closed.current, closed.snapshot, closed.early, closed.absent⟩

variable (isPoint : e.isDeleteRangeSentinelKey = false)
include isPoint

/-- At the first entry of a user key nothing is closed. -/
theorem Ordered.enter (other : p.current ≠ some e.key.userKey) (snapshot : Nat) :
    Ordered job emitted { p with current := some e.key.userKey, snapshot := snapshot } := by
  refine ⟨ordered.suffix, ordered.increasing, fun k k_mem r r_mem r_point => .inl ?_⟩
  have first := ordered.opens at_head isPoint (fun closed => other closed.current) k k_mem
  rw [at_head] at r_mem
  rcases mem_cons.mp r_mem with rfl | later
  · exact first
  · exact first.trans (ordered.behind at_head isPoint (suffix_refl _) r later r_point)

/-- Dropping an entry, perhaps with others behind it. -/
theorem Ordered.drop (tail : rest' <:+ rest) : Ordered job emitted
      ⟨rest', some e.key.userKey, stripe job.cfg.snapshots e.key.sequence, p.clear⟩ := by
  refine ⟨ordered.tail_suffix at_head tail, ordered.increasing, fun k k_mem r r_mem r_point => ?_⟩
  rcases ordered.ahead k k_mem e (by simp [at_head]) isPoint with first | ⟨key, closed⟩
  · exact .inl (first.trans (ordered.behind at_head isPoint tail r r_mem r_point))
  · refine (ordered.ahead k k_mem r (by simp [at_head, tail.subset r_mem]) r_point).imp_right ?_
    exact fun ⟨key', closed'⟩ => ⟨key', closed'.clear, key.symm.trans key' ▸ rfl,
      closed.snapshot.symm.trans closed'.snapshot, closed'.early, closed'.absent⟩

/-- Dropping the last entry of a user key. -/
theorem Ordered.dropLast (tail : rest' <:+ rest)
    (last : ∀ r ∈ rest', r.key.userKey ≠ e.key.userKey) (current : Option κ) (snapshot : Nat)
    (clear : Bool) : Ordered job emitted ⟨rest', current, snapshot, clear⟩ := by
  refine ⟨ordered.tail_suffix at_head tail, ordered.increasing, fun k k_mem r r_mem r_point => ?_⟩
  have later := ordered.behind at_head isPoint tail r r_mem r_point
  rcases ordered.ahead k k_mem e (by simp [at_head]) isPoint with first | ⟨key, -⟩
  · exact .inl (first.trans later)
  · refine .inl (.inl ?_)
    rw [key]
    exact later.resolve_right fun same => last r r_mem same.1.symm

/-- Outputs in place of an entry and of others behind it. -/
theorem Ordered.emit (opens : ∀ k ∈ emitted, Precedes k (position e.key)) (tail : rest' <:+ rest)
    {outputs : List (κ × Nat)} (increasing : outputs.Pairwise Precedes)
    (lower : ∀ q ∈ outputs, q.1 = e.key.userKey ∧ q.2 ≤ e.key.sequence)
    (ahead : ∀ q ∈ outputs, ∀ r ∈ rest', r.isDeleteRangeSentinelKey = false → Precedes q (position r.key) ∨
        q.1 = r.key.userKey ∧ Closed job ⟨rest', current, snapshot, clear⟩ r) :
    Ordered job (emitted ++ outputs) ⟨rest', current, snapshot, clear⟩ := by
  refine ⟨ordered.tail_suffix at_head tail, ?_, fun k k_mem r r_mem r_point => ?_⟩
  · refine pairwise_append.mpr ⟨ordered.increasing, increasing, fun k k_mem q q_mem => ?_⟩
    have moved := (opens k k_mem).lower (lower q q_mem).2
    rwa [show ((position e.key).1, q.2) = q from Prod.ext (lower q q_mem).1.symm rfl] at moved
  · rcases mem_append.mp k_mem with old | new
    · exact .inl ((opens k old).trans (ordered.behind at_head isPoint tail r r_mem r_point))
    · exact ahead k new r r_mem r_point

/-- One output in the place of an entry. It may move down where that closes the
user key. -/
theorem Ordered.emitOne (opens : ∀ k ∈ emitted, Precedes k (position e.key)) (tail : rest' <:+ rest)
    (key : q.1 = e.key.userKey) (lower : q.2 ≤ e.key.sequence)
    (stays : q.2 = e.key.sequence ∨ (∀ r ∈ rest', r.key.userKey ≠ e.key.userKey) ∨
      e.key.sequence ≤ job.cfg.earliestSnapshot ∧ job.cfg.keyNotExistsBeyondOutputLevel e.key.userKey ∧
        current = some e.key.userKey ∧ clear = false) :
    Ordered job (emitted ++ [q]) ⟨rest', current, stripe job.cfg.snapshots e.key.sequence, clear⟩ := by
  refine ordered.emit at_head isPoint opens tail (pairwise_singleton _ _) (by simp [key, lower])
    fun q' q_mem r r_mem r_point => ?_
  obtain rfl := mem_singleton.mp q_mem
  have later := ordered.behind at_head isPoint tail r r_mem r_point
  rcases stays with same | last | ⟨early, absent, isCurrent, notClear⟩
  · exact .inl ((Prod.ext key same : q' = position e.key) ▸ later)
  · refine .inl (.inl ?_)
    rw [key]
    exact later.resolve_right fun same => last r r_mem same.1.symm
  · rcases later with lt | ⟨same, lt⟩
    · exact .inl (.inl (key ▸ lt))
    · have same : e.key.userKey = r.key.userKey := same
      have older := (le_of_lt lt).trans early
      refine .inr ⟨key.trans same, notClear, isCurrent.trans (congrArg some same), ?_, older, same ▸ absent⟩
      exact (stripe_of_le_earliest early).trans (stripe_of_le_earliest older).symm

end Moves

/-! ## The rules of `NextFromInput` -/

/-- Where the iterator stands. -/
def placeOf (st : State κ V δ) : Place κ V :=
  ⟨st.input, st.currentUserKey, st.currentUserKeySnapshot, st.clearAndOutputNextKey⟩

/-- The positions of the outputs that are point entries. -/
def emittedOf (outs : List (Output κ V)) : List (κ × Nat) :=
  (outs.filter fun o => !o.isRangeDel).map (position ·.ikey)

/-- The merge outputs behind the current one. -/
def queued (st : State κ V δ) : List (κ × Nat) := st.mergeOut.tail.map (position ·.1)

/-- The output `o` may be written as it is and, if `PrepareOutput` zeroes it,
with sequence number zero. -/
structure Holds (job : OrderedJob κ V δ) (emitted : List (κ × Nat)) (st : State κ V δ)
    (o : Output κ V) : Prop where
  kept : Ordered job (emitted ++ emittedOf [o] ++ queued st) (placeOf (resume st))
  zeroed : ∀ toPenultimate, zeroesSeq job.cfg toPenultimate o →
    Ordered job (emitted ++ [(o.ikey.userKey, 0)] ++ queued st) (placeOf (resume st))
  operands : ∀ p ∈ st.mergeOut.tail, p.1.type = .kTypeMerge

/-- What one iteration leaves behind. -/
structure Result (job : OrderedJob κ V δ) (emitted : List (κ × Nat)) (st : State κ V δ) : Prop where
  dropped : st.out = none → st.status = .ok → Ordered job emitted (placeOf st)
  held : ∀ o, st.out = some o → Holds job emitted st o

/-- The state in which the rules look at the point entry `e`, with `p` the
place before it. -/
structure Begun (job : OrderedJob κ V δ) (p : Place κ V) (st : State κ V δ) (e : Entry κ V)
    (rest : List (Entry κ V)) : Prop extends Reading st e rest where
  isPoint : e.isDeleteRangeSentinelKey = false
  placeInput : p.input = e :: rest
  current : st.currentUserKey = some e.key.userKey
  snapshot : st.currentUserKeySnapshot = stripe job.cfg.snapshots e.key.sequence
  clear : st.clearAndOutputNextKey = p.clear

variable {emitted : List (κ × Nat)} {st : State κ V δ} {e : Entry κ V} {rest : List (Entry κ V)}

private theorem begin_spec (ordered : Ordered job emitted (placeOf st)) (reading : Reading st e rest)
    (isPoint : e.isDeleteRangeSentinelKey = false) :
    ∃ p, Ordered job emitted p ∧ p.snapshot = (enterKey st e.key.userKey).currentUserKeySnapshot ∧
      Begun job p (beginEntry job.cfg st e.key) e rest := by
  have begun := beginEntry_reading job.cfg reading
  by_cases same : st.currentUserKey = some e.key.userKey
  · refine ⟨placeOf st, ordered, ?_, begun, isPoint, reading.input, ?_, ?_, ?_⟩
    all_goals simp [placeOf, beginEntry, enterKey_eq, visibleSnapshot_eq, same]
  · refine ⟨_, ordered.enter reading.input isPoint same 0, ?_, begun, isPoint, reading.input, ?_, ?_, ?_⟩
    all_goals simp [placeOf, beginEntry, enterKey_eq, visibleSnapshot_eq, same]

omit [LinearOrder κ] in
theorem placeOf_resume (mergeOut : st.mergeOut = []) : placeOf (resume st) =
    ⟨remaining st, st.currentUserKey, st.currentUserKeySnapshot, st.clearAndOutputNextKey⟩ := by
  unfold resume remaining placeOf
  rw [mergeOut]
  dsimp only
  split <;> rfl

omit [LinearOrder κ] in
theorem placeOf_resume_merge (mergeOut : st.mergeOut = first :: more) : placeOf (resume st) =
    ⟨st.input, if st.mergeUntilStatus = .mergeInProgress then none else st.currentUserKey,
      st.currentUserKeySnapshot, st.clearAndOutputNextKey⟩ := by
  unfold resume placeOf
  rw [mergeOut]

theorem zeroesSeq_absent (zeroes : zeroesSeq job.cfg toPenultimate o) (u : κ) :
    job.cfg.keyNotExistsBeyondOutputLevel u := by
  simp only [zeroesSeq, Bool.and_eq_true] at zeroes
  exact job.consistent zeroes.1.1.1.1.1 u

section Rules
variable {p : Place κ V} (ordered : Ordered job emitted p) (begun : Begun job p st e rest)
include ordered begun

/-- Any rule that drops the entry, perhaps with others behind it. -/
theorem drop_result (out : st'.out = none) (tail : st'.input <:+ rest)
    (current : st'.currentUserKey = st.currentUserKey)
    (snapshot : st'.currentUserKeySnapshot = st.currentUserKeySnapshot)
    (clear : st'.clearAndOutputNextKey = st.clearAndOutputNextKey) : Result job emitted st' := by
  refine ⟨fun _ _ => ?_, by simp [out]⟩
  have moved := ordered.drop begun.placeInput begun.isPoint tail
  simpa [placeOf, current, snapshot, clear, begun.current, begun.snapshot, begun.clear] using moved

/-- Any rule that outputs one entry in the place of `e`. It comes with the
sequence number of `e`, or with a smaller one where no older entry of the user
key can be output any more. -/
theorem output_result (opens : ∀ q ∈ emitted, Precedes q (position e.key))
    (out : st'.out = some ⟨k, value, false, context⟩) (mergeOut : st'.mergeOut = [])
    (tail : remaining st' <:+ rest)
    (snapshot : st'.currentUserKeySnapshot = st.currentUserKeySnapshot)
    (key : k.userKey = e.key.userKey) (lower : k.sequence ≤ e.key.sequence)
    (lowers : k.sequence = e.key.sequence ∨ e.key.sequence ≤ job.cfg.earliestSnapshot ∧
      job.cfg.keyNotExistsBeyondOutputLevel e.key.userKey)
    (closes : (∀ r ∈ remaining st', r.key.userKey ≠ e.key.userKey) ∨ job.cfg.earliestSnapshot < e.key.sequence ∨
      st'.currentUserKey = some e.key.userKey ∧ st'.clearAndOutputNextKey = false) :
    Result job emitted st' := by
  refine ⟨by simp [out], fun _ out' => ?_⟩
  cases out.symm.trans out'
  have emitted (seq : Nat) (le : seq ≤ e.key.sequence)
      (stays : seq = e.key.sequence ∨ e.key.sequence ≤ job.cfg.earliestSnapshot ∧
        job.cfg.keyNotExistsBeyondOutputLevel e.key.userKey) :
      Ordered job (emitted ++ [(e.key.userKey, seq)]) (placeOf (resume st')) := by
    rw [placeOf_resume mergeOut, snapshot, begun.snapshot]
    refine ordered.emitOne begun.placeInput begun.isPoint opens tail rfl le ?_
    rcases stays with same | ⟨early, absent⟩
    · exact .inl same
    · rcases closes with last | late | ⟨current, clear⟩
      · exact .inr (.inl last)
      · exact absurd early late.not_ge
      · exact .inr (.inr ⟨early, absent, current, clear⟩)
  refine ⟨?_, fun _ zeroes => ?_, by simp [mergeOut]⟩
  · simpa [emittedOf, queued, mergeOut, position, key] using emitted k.sequence lower lowers
  · have early := zeroesSeq_early zeroes
    have absent := zeroesSeq_absent zeroes e.key.userKey
    have moved := emitted 0 (Nat.zero_le _) (.inr ⟨lowers.elim (fun same => same ▸ early) (·.1), absent⟩)
    simpa [queued, mergeOut, key] using moved

private theorem clearPut_result (isClear : p.clear) (lastSnapshot : Nat) :
    Result job emitted (clearPut job.cfg st e.key lastSnapshot) := by
  have opens := ordered.opens begun.placeInput begun.isPoint (fun closed => by simp [closed.clear] at isClear)
  have key : (if isPutType e.key.type then { e.key with type := .kTypeValue } else e.key).userKey =
      e.key.userKey := by split <;> rfl
  have sequence : (if isPutType e.key.type then { e.key with type := .kTypeValue }
      else e.key).sequence = e.key.sequence := by split <;> rfl
  refine output_result ordered begun opens rfl (by simp [clearPut, begun.mergeOut]) ?_
    (by simp [clearPut]) key sequence.le (.inl sequence) (.inr (.inr ?_))
  · simp [remaining, clearPut, begun.atNext, begun.input]
  · simp [clearPut, begun.current]

/-- An operand below the earliest snapshot can be merged with one above it only
if that snapshot is zero. -/
theorem same_stripe_of_merged (source : q ∈ position e.key :: pointPositions consumed)
    (within : ∀ c ∈ consumed, c.isDeleteRangeSentinelKey = false → prevSnapshot job.cfg.snapshots e.key.sequence = 0 ∨
        prevSnapshot job.cfg.snapshots e.key.sequence < c.key.sequence)
    (early : q.2 ≤ job.cfg.earliestSnapshot) (older : seq < q.2) :
    stripe job.cfg.snapshots e.key.sequence = stripe job.cfg.snapshots seq := by
  have seqEarly := older.le.trans early
  by_cases late : e.key.sequence ≤ job.cfg.earliestSnapshot
  · exact (stripe_of_le_earliest late).trans (stripe_of_le_earliest seqEarly).symm
  · exfalso
    have member : e ∈ job.input := ordered.suffix.subset (by simp [begun.placeInput])
    have bounded := job.bounded e member
    have isSnapshot : job.cfg.earliestSnapshot ∈ job.cfg.snapshots := by
      unfold Config.earliestSnapshot at late ⊢
      cases shape : job.cfg.snapshots with
      | nil => simp [shape, bounded] at late
      | cons => simp
    have below := (job.snapshots.prevSnapshot_spec e.key.sequence).2 _ isSnapshot (not_le.mp late)
    rcases mem_cons.mp source with rfl | fromConsumed
    · exact late early
    · obtain ⟨c, c_mem, rfl⟩ := mem_map.mp fromConsumed
      obtain ⟨c_consumed, c_point⟩ := mem_filter.mp c_mem
      have := within c c_consumed (by simpa using c_point)
      simp only [position] at early older
      omega

/-- Where the outputs of a merge stand: in the place of `e`, in front of what is
left of the input. -/
theorem merge_outputs (split : rest = consumed ++ after)
    (sources : List.Sublist outputs (position e.key :: pointPositions consumed))
    (sameKey : ∀ c ∈ consumed, c.isDeleteRangeSentinelKey = false → c.key.userKey = e.key.userKey) :
    outputs.Pairwise Precedes ∧ (∀ q ∈ outputs, q.1 = e.key.userKey ∧ q.2 ≤ e.key.sequence) ∧
      ∀ q ∈ outputs, ∀ r ∈ after, r.isDeleteRangeSentinelKey = false → Precedes q (position r.key) := by
  have all := job.points_increasing (begun.placeInput ▸ ordered.suffix)
  have points : pointPositions (e :: rest) = (position e.key :: pointPositions consumed) ++ pointPositions after := by
    rw [split]
    simp [pointPositions, begun.isPoint]
  rw [points] at all
  obtain ⟨increasing, -, ahead⟩ := pairwise_append.mp all
  refine ⟨increasing.sublist sources, fun q q_mem => ?_, fun q q_mem _ r_mem r_point => ?_⟩
  · rcases mem_cons.mp (sources.subset q_mem) with rfl | fromConsumed
    · exact ⟨rfl, le_rfl⟩
    · have behind := (pairwise_cons.mp increasing).1 q fromConsumed
      obtain ⟨c, c_mem, rfl⟩ := mem_map.mp fromConsumed
      obtain ⟨c_consumed, c_point⟩ := mem_filter.mp c_mem
      have same := sameKey c c_consumed (by simpa using c_point)
      exact ⟨same, behind.elim (fun lt => absurd same lt.ne') (·.2.le)⟩
  · exact ahead q (sources.subset q_mem) _
      (mem_map_of_mem (mem_filter.mpr ⟨r_mem, by simp [r_point]⟩))

private theorem mergeEntry_result (opens : ∀ q ∈ emitted, Precedes q (position e.key))
    (notClear : p.clear = false) (isMerge : e.key.type = .kTypeMerge) :
    Result job emitted (mergeEntry job.cfg st (e :: rest) (prevSnapshot job.cfg.snapshots e.key.sequence)) := by
  unfold mergeEntry
  split
  case h_1 => exact ⟨by simp, by simp [begun.out]⟩
  case h_2 op _ =>
    obtain ⟨_, split, merged, within⟩ := mergeUntil_merged ⟨job.cfg.format, op,
      job.cfg.shouldDelete, prevSnapshot job.cfg.snapshots e.key.sequence, job.cfg.bottommostLevel⟩
      begun.isPoint isMerge st.rangeDelAgg rest
    dsimp only at split merged within ⊢
    generalize mergeUntil _ st.rangeDelAgg (e :: rest) = result at split merged ⊢
    have tail : result.input <:+ rest := split ▸ suffix_append _ _
    obtain ⟨increasing, lower, behind⟩ := merge_outputs ordered begun split merged.sublist
      fun c c_mem c_point => (within c c_mem c_point).1
    have emits (current : Option κ) : Ordered job (emitted ++ result.output.map (position ·.1))
        ⟨result.input, current, st.currentUserKeySnapshot, st.clearAndOutputNextKey⟩ :=
      ordered.emit begun.placeInput begun.isPoint opens tail increasing lower
        fun q q_mem r r_mem r_point => .inl (behind q q_mem r r_mem r_point)
    split
    case isTrue failed => exact ⟨fun _ ok => absurd ok failed.1, by simp [begun.out]⟩
    case isFalse =>
      cases output : result.output with
      | nil =>
        refine ⟨fun _ _ => ?_, by simp [begun.out]⟩
        have moved := emits none
        rw [output, map_nil, append_nil] at moved
        exact moved
      | cons first more =>
        obtain ⟨ikey, value⟩ := first
        have member : position ikey ∈ result.output.map (position ·.1) := by simp [output]
        refine ⟨by simp, fun o out => ?_⟩
        cases out
        refine ⟨?_, fun _ zeroes => ?_, ?_⟩
        · have moved := emits (if result.status = .mergeInProgress then none else st.currentUserKey)
          simpa [emittedOf, queued, placeOf, resume, output] using moved
        · -- only the result of a full merge is zeroed, and then it stands alone
          have early := zeroesSeq_early zeroes
          obtain ⟨single, finished, -⟩ := merged.types.resolve_left fun operands =>
            zeroesSeq_notMerge zeroes (operands (ikey, value) (by simp [output]))
          obtain rfl : more = [] := by simpa [output] using single
          have moved : Ordered job (emitted ++ [(ikey.userKey, 0)])
              ⟨result.input, st.currentUserKey, st.currentUserKeySnapshot, st.clearAndOutputNextKey⟩ := by
            refine ordered.emit begun.placeInput begun.isPoint opens tail (pairwise_singleton _ _)
              (fun q q_mem => ?_) fun _ q_mem r r_mem r_point => ?_
            all_goals obtain rfl := mem_singleton.mp q_mem
            · exact ⟨(lower _ member).1, Nat.zero_le _⟩
            rcases behind _ member r r_mem r_point with lt | ⟨same, lt⟩
            · exact .inl (.inl lt)
            · have same : ikey.userKey = r.key.userKey := same
              refine .inr ⟨same, begun.clear.trans notClear, ?_, ?_, lt.le.trans early, zeroesSeq_absent zeroes _⟩
              · rw [begun.current, ← same, ← (lower _ member).1]
                rfl
              · dsimp only
                rw [begun.snapshot]
                exact same_stripe_of_merged ordered begun (merged.sublist.subset member)
                  (fun c c_mem c_point => (within c c_mem c_point).2) early lt
          simpa [queued, placeOf, resume, finished] using moved
        · rcases merged.types with operands | ⟨single, -⟩
          · rw [output] at operands
            exact fun p p_mem => operands p (mem_cons_of_mem _ p_mem)
          · obtain rfl : more = [] := by simpa [output] using single
            simp

/-- **Every rule keeps the order.** A `SingleDelete` is kept only where its user
key is not closed; the other rules are not reached there. -/
theorem rule_result (notClear : p.clear = false)
    (opens : e.key.type ≠ .kTypeSingleDeletion → ∀ q ∈ emitted, Precedes q (position e.key))
    (rule : Rule job.cfg (prevSnapshot job.cfg.snapshots e.key.sequence) e st rest st') :
    Result job emitted st' := by
  have closes : st.currentUserKey = some e.key.userKey ∧ st.clearAndOutputNextKey = false :=
    ⟨begun.current, begun.clear.trans notClear⟩
  have left : (if st.atNext then st.input else st.input.tail) <:+ rest := by
    simp [begun.atNext, begun.input]
  cases rule with
  | obsolete | covered => exact drop_result ordered begun begun.out (suffix_refl _) rfl rfl rfl
  | dropDelete => exact drop_result ordered begun begun.out (dropWhile_suffix _) rfl rfl rfl
  | keepDelete type =>
    exact output_result ordered begun (opens (by simp [type])) rfl begun.mergeOut
      (dropWhile_suffix _) rfl rfl le_rfl (.inl rfl) (.inr (.inr closes))
  | swap type early absent =>
    have member : e ∈ job.input := ordered.suffix.subset (by simp [begun.placeInput])
    refine output_result ordered begun (opens (by simp [type])) rfl begun.mergeOut left rfl rfl ?_
      (.inr ⟨early, absent.elim (job.consistent · _) id⟩) (.inr (.inr closes))
    split
    case isTrue nonzero => exact (job.preferred e member type nonzero).le
    case isFalse => exact le_rfl
  | merge type => exact mergeEntry_result ordered begun (opens (by simp [type])) notClear type
  | keep notSingle =>
    exact output_result ordered begun (opens notSingle) rfl begun.mergeOut left rfl rfl le_rfl (.inl rfl)
      (.inr (.inr closes))
  | @single after _ _ passed rule =>
    have tail : after <:+ rest := passed ▸ dropWhile_suffix _
    have opensIf (needed : ¬Obsolete job.cfg e) : ∀ q ∈ emitted, Precedes q (position e.key) :=
      ordered.opens begun.placeInput begun.isPoint fun closed => needed ⟨closed.early, closed.absent⟩
    have gone (last : ∀ next ∈ after.head?, next.key.userKey ≠ e.key.userKey) :
        ∀ r ∈ after, r.key.userKey ≠ e.key.userKey :=
      other_key_behind (fun _ member => ordered.userKey_le begun.placeInput (tail.subset member))
        (job.sorted.sublist (ordered.tail_suffix begun.placeInput tail).sublist) last
    have keeps {current : Option κ} {clear : Bool} {context : ValidContext}
        (late : job.cfg.earliestSnapshot < e.key.sequence) : Result job emitted
        { keepSingleDelete { st with input := after, currentUserKey := current } e.key e.value context
          with clearAndOutputNextKey := clear } :=
      output_result ordered begun (opensIf fun obsolete => late.not_ge obsolete.1) rfl begun.mergeOut
        tail rfl rfl le_rfl (.inl rfl) (.inr (.inl late))
    cases rule with
    | forget last =>
      exact ⟨fun _ _ => ordered.dropLast begun.placeInput begun.isPoint tail (gone last) _ _ _, by simp [begun.out]⟩
    | keepLast last needed =>
      exact output_result ordered begun (opensIf needed) rfl begun.mergeOut tail rfl rfl le_rfl
        (.inl rfl) (.inl (gone last))
    | repeated => exact drop_result ordered begun begun.out tail rfl rfl rfl
    | zeroed behind | pair behind =>
      exact drop_result ordered begun begun.out (behind.suffix.trans tail) rfl rfl rfl
    | keepForConflicts _ _ late => exact keeps (job.writeConflict.trans_lt late)
    | keepForSnapshot _ far =>
      obtain ⟨member, lt⟩ := ((job.snapshots.prevSnapshot_spec e.key.sequence).1).resolve_left (not_or.mp far).1
      exact keeps ((job.snapshots.earliest_le (.inl member)).trans_lt lt)

end Rules

/-- **Each iteration keeps the order.** -/
theorem processEntry_result (ordered : Ordered job emitted (placeOf st)) (reading : Reading st e rest) :
    Result job emitted (processEntry job.cfg st e rest) := by
  by_cases isSentinel : e.isDeleteRangeSentinelKey = true
  · rw [processEntry, if_pos isSentinel]
    refine ⟨by simp, fun o out => ?_⟩
    cases out
    refine ⟨?_, by simp [zeroesSeq], by simp [reading.mergeOut]⟩
    have skipped := ordered.skipSentinel reading.input
    simpa [emittedOf, queued, placeOf, resume, reading.mergeOut, reading.atNext, reading.input] using skipped
  · have isPoint : e.isDeleteRangeSentinelKey = false := by simpa using isSentinel
    obtain ⟨_, ordered, lastSnapshot, begun⟩ := begin_spec ordered reading isPoint
    have clearSame := (beginEntry_fields job.cfg st e.key).2.2.2.symm.trans begun.clear
    rcases processEntry_cases job.cfg st rest isPoint with
      ⟨isClear, eq⟩ | ⟨-, eq⟩ | ⟨notClear, notHidden, rule⟩
    · rw [eq]
      exact clearPut_result ordered begun (clearSame.symm.trans isClear) _
    · rw [eq]
      exact drop_result ordered begun (by simp [begun.out]) (suffix_refl _) (by simp) (by simp)
        (by simp)
    · refine rule_result ordered begun (clearSame.symm.trans notClear) (fun notSingle => ?_) rule
      refine ordered.opens begun.placeInput begun.isPoint fun closed => notHidden ⟨notClear, notSingle, .inl ?_⟩
      rw [← lastSnapshot, closed.snapshot, visibleSnapshot_eq]

/-! ## Whole compactions -/

omit [LinearOrder κ] in
theorem emittedOf_append (outs : List (Output κ V)) (o : Output κ V) :
    emittedOf (outs ++ [o]) = emittedOf outs ++ emittedOf [o] := by
  simp [emittedOf]

omit [LinearOrder κ] in
private theorem placeOf_resume_congr (same : SameExceptOutput { st with hasOutputtedKey := flag } st') :
    placeOf (resume st') = placeOf (resume st) := by
  cases mergeOut : st.mergeOut with
  | nil =>
    rw [placeOf_resume mergeOut, placeOf_resume (same.mergeOut.trans mergeOut), remaining, remaining,
      same.atNext, same.input, same.currentUserKey, same.currentUserKeySnapshot,
      same.clearAndOutputNextKey]
  | cons =>
    rw [placeOf_resume_merge mergeOut, placeOf_resume_merge (same.mergeOut.trans mergeOut), same.input,
      same.currentUserKey, same.currentUserKeySnapshot, same.clearAndOutputNextKey,
      same.mergeUntilStatus]

/-- Whatever `PrepareOutput` makes of an output, it may be written. -/
theorem Holds.prepared (holds : Holds job emitted st o) (out : st.out = some o)
    (out' : (prepareOutput job.cfg { st with hasOutputtedKey := flag }).out = some o') :
    Ordered job (emitted ++ emittedOf [o'] ++ queued st)
      (placeOf (resume (prepareOutput job.cfg { st with hasOutputtedKey := flag }))) := by
  obtain ⟨same, shape⟩ := prepareOutput_spec job.cfg { st with hasOutputtedKey := flag } out
  rw [placeOf_resume_congr same]
  rcases shape with ⟨kept, -⟩ | ⟨⟨toPenultimate, zeroes⟩, kept, -⟩
  · cases out'.symm.trans kept
    exact holds.kept
  · cases out'.symm.trans kept
    have isPoint : o.isRangeDel = false := by
      simp only [zeroesSeq, Bool.and_eq_true] at zeroes
      simpa using zeroes.2
    simpa [emittedOf, isPoint, position] using holds.zeroed toPenultimate zeroes

/-- The invariant of the run. -/
def orderInvariant (job : OrderedJob κ V δ) : Invariant job.cfg where
  Ready outs st := Ordered job (emittedOf outs) (placeOf st)
  Held outs st := (emittedOf outs).Pairwise Precedes ∧ ∀ o, st.out = some o → Holds job (emittedOf outs) st o
  Written outs := (emittedOf outs).Pairwise Precedes
  Fails := True
  readyWritten ready := ready.increasing
  heldWritten held := held.1
  drop ready reading out good := (processEntry_result ready reading).dropped out good
  hold ready reading _ := ⟨ready.increasing, (processEntry_result ready reading).held⟩
  dropFails _ _ _ := trivial
  prepareFails _ _ _ _ := trivial
  takeMerge {outs st} flag o first ikey value more held status out mergeOut := by
    obtain ⟨o', was⟩ := out_of_prepared out
    have holds := held.2 o' was
    have sameMerge := (prepareOutput_spec job.cfg { st with hasOutputtedKey := flag } was).1.mergeOut
    have queue : st.mergeOut = first :: (ikey, value) :: more := sameMerge.symm.trans mergeOut
    have written := holds.prepared was out
    rw [← emittedOf_append] at written
    refine ⟨(List.pairwise_append.mp written.increasing).1, fun o'' out'' => ?_⟩
    obtain rfl : _ = o'' := Option.some.inj out''
    have operands := holds.operands
    simp only [queue, List.tail_cons] at operands
    refine ⟨?_, ?_, fun p p_mem => operands p (List.mem_cons_of_mem _ p_mem)⟩
    · rw [placeOf_resume_merge mergeOut] at written
      rw [placeOf_resume_merge rfl]
      simpa [queued, queue, emittedOf] using written
    · exact fun _ zeroes => absurd (operands (ikey, value) (by simp)) (zeroesSeq_notMerge zeroes)
  take {outs st} flag o held status out short := by
    obtain ⟨o', was⟩ := out_of_prepared out
    have sameMerge := (prepareOutput_spec job.cfg { st with hasOutputtedKey := flag } was).1.mergeOut
    rw [sameMerge] at short
    have last : queued st = [] := by
      simp only [queued, List.map_eq_nil_iff]
      exact List.length_eq_zero_iff.mp (by rw [List.length_tail]; exact Nat.sub_eq_zero_of_le short)
    have written := (held.2 o' was).prepared was out
    rwa [last, List.append_nil, ← emittedOf_append] at written

/-- **The iterator writes strictly increasing internal keys**, whether the
compaction runs to its end or stops with a bad status. -/
theorem compaction_output_increasing (job : OrderedJob κ V δ) :
    (((compact job.cfg job.input job.agg).1.filter fun o => !o.isRangeDel).map (·.ikey)).Pairwise (· < ·) := by
  have start : (orderInvariant job).Ready [] (State.new job.input job.agg) :=
    ⟨suffix_refl _, List.Pairwise.nil, by simp [emittedOf]⟩
  have written : (emittedOf (compact job.cfg job.input job.agg).1).Pairwise Precedes := by
    rcases (orderInvariant job).compact_spec start with ⟨-, -, written⟩ | ⟨-, -, -, ready⟩
    · exact written
    · exact ready.increasing
  rw [emittedOf, pairwise_map] at written
  exact pairwise_map.mpr (written.imp Precedes.lt)

/-- A timed put that takes its preferred sequence number and loses it, a single delete that is
kept with its put, and a put that loses its sequence number. -/
def rewrittenJob : OrderedJob Nat Nat Unit where
  cfg := numbersConfig [7] (some ⟨true, false, fun _ => true, false, fun _ => true⟩)
  agg := ()
  input := [⟨⟨1, 6, .kTypeValuePreferredSeqno⟩, 8, false⟩, ⟨⟨2, 9, .kTypeSingleDeletion⟩, 0, false⟩,
    ⟨⟨2, 8, .kTypeValue⟩, 9, false⟩, ⟨⟨3, 2, .kTypeValue⟩, 7, false⟩]
  snapshots := ⟨by decide, by decide⟩
  sorted := by decide
  distinct := by decide
  bounded := by decide
  consistent := fun _ _ => rfl
  writeConflict := by decide
  preferred := by decide

theorem rewrittenJob_increasing :
    (compact rewrittenJob.cfg rewrittenJob.input rewrittenJob.agg).1.map (·.ikey) =
      [⟨1, 0, .kTypeValue⟩, ⟨2, 9, .kTypeSingleDeletion⟩, ⟨2, 8, .kTypeValue⟩, ⟨3, 0, .kTypeValue⟩] ∧
    (((compact rewrittenJob.cfg rewrittenJob.input rewrittenJob.agg).1.filter fun o => !o.isRangeDel).map
      (·.ikey)).Pairwise (· < ·) :=
  ⟨by decide, compaction_output_increasing rewrittenJob⟩

/-- A flush of a `SingleDelete`, and of a `TimedPut` and a `SingleDelete` that
share a sequence number. -/
def sharedSequenceConfig : Config Nat Nat Unit := numbersConfig [1] none

def sharedSequenceInput : List (Entry Nat Nat) :=
  [⟨⟨1, 5, .kTypeSingleDeletion⟩, 0, false⟩, ⟨⟨1, 4, .kTypeValuePreferredSeqno⟩, 0, false⟩,
    ⟨⟨1, 4, .kTypeSingleDeletion⟩, 0, false⟩]

/-- Distinct internal keys are not enough. The put that is emptied of its value
also loses its type, and then stands behind an entry with its own sequence
number that follows it. -/
theorem shared_sequence_not_increasing : (sharedSequenceInput.map (·.key)).Pairwise (· < ·) ∧
    ((compact sharedSequenceConfig sharedSequenceInput ()).1.map (·.ikey)) =
      [⟨1, 5, .kTypeSingleDeletion⟩, ⟨1, 4, .kTypeValue⟩, ⟨1, 4, .kTypeSingleDeletion⟩] ∧
    ¬((compact sharedSequenceConfig sharedSequenceInput ()).1.map (·.ikey)).Pairwise (· < ·) := by
  decide

end Rocksdb.CompactionOrder
