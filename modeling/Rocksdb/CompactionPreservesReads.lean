import Rocksdb.CompactionReads
import Rocksdb.CompactionRun

/-! The iterator makes only moves that keep every read. Each rule of
`NextFromInput` is matched with the move it makes; the invariant rule for runs
then gives the result for whole compactions. -/
namespace Rocksdb.CompactionPreservesReads
open MergeHelper CompactionIterator SnapshotStripes CompactionReads CompactionSteps CompactionRun List

variable {κ V δ : Type} [LinearOrder κ] {job : PointJob κ V δ}
  {written : List (Point κ V)} {st : State κ V δ} {e : Entry κ V} {rest : List (Entry κ V)}

/-- The pass an iterator has made when it has written `written`. -/
def passOf (written : List (Point κ V)) (st : State κ V δ) : Pass κ V :=
  ⟨written, st.input, st.currentUserKey, st.currentUserKeySnapshot, st.clearAndOutputNextKey, st.lastKeySeqZeroed⟩

/-- A written point that readers cannot tell from an output. -/
structure StandsFor (job : PointJob κ V δ) (w : Point κ V) (o : Output κ V) : Prop where
  key : w.1.userKey = o.ikey.userKey
  visible : ∀ s, ReadPoint job.cfg.snapshots s → (w.1.sequence ≤ s ↔ o.ikey.sequence ≤ s)
  answer : answer w = answer (outputPoint o)

/-- The output `o` may be written, in whatever form `PrepareOutput` gives it. -/
def Writable (job : PointJob κ V δ) (written : List (Point κ V)) (st : State κ V δ) (o : Output κ V) : Prop :=
  ∀ w zeroed, StandsFor job w o → (zeroed = true → w.1.sequence = 0 ∨ st.lastKeySeqZeroed = true) →
    Keeps job ⟨written ++ [w], remaining st, st.currentUserKey, st.currentUserKeySnapshot,
      st.clearAndOutputNextKey, zeroed⟩

/-- What one iteration leaves behind. -/
structure Result (job : PointJob κ V δ) (written : List (Point κ V)) (st : State κ V δ) : Prop where
  status : st.status = .ok
  mergeOut : st.mergeOut = []
  dropped : st.out = none → Keeps job (passOf written st)
  output : ∀ o, st.out = some o → Writable job written st o

/-- The state in which the rules look at the entry `e`, with `p` the pass up to
it. -/
structure Begun (p : Pass κ V) (st : State κ V δ) (e : Entry κ V) (rest : List (Entry κ V)) : Prop
    extends Reading st e rest where
  passInput : p.input = e :: rest
  passCurrent : p.current = some e.key.userKey
  current : st.currentUserKey = some e.key.userKey
  clear : st.clearAndOutputNextKey = p.clear
  zeroed : st.lastKeySeqZeroed = p.zeroed

/-- Entering the user key of the next entry keeps the invariant. -/
theorem begin_spec (keeps : Keeps job (passOf written st)) (reading : Reading st e rest) :
    ∃ p, p.written = written ∧ Keeps job p ∧ p.snapshot = (enterKey st e.key.userKey).currentUserKeySnapshot ∧
      (beginEntry job.cfg st e.key).currentUserKeySnapshot = stripeOf job e ∧
      Begun p (beginEntry job.cfg st e.key) e rest := by
  have begun := beginEntry_reading job.cfg reading
  by_cases same : st.currentUserKey = some e.key.userKey
  · refine ⟨passOf written st, rfl, keeps, ?_, ?_, begun, reading.input, same, ?_, ?_, ?_⟩
    · simp [passOf, enterKey_eq, same]
    · simp [beginEntry, visibleSnapshot_eq, stripeOf]
    all_goals simp [beginEntry, enterKey_eq, passOf, same]
  · refine ⟨_, rfl, keeps.enter reading.input same, ?_, ?_, begun, reading.input, rfl, ?_, ?_, ?_⟩
    · simp [enterKey_eq, same]
    · simp [beginEntry, visibleSnapshot_eq, stripeOf]
    all_goals simp [beginEntry, enterKey_eq, passOf, same]

section Rules
variable {p : Pass κ V} (keeps : Keeps job p) (begun : Begun p st e rest)
  (snapshot : st.currentUserKeySnapshot = stripeOf job e)
include keeps begun snapshot

private theorem clearPut_result (isClear : p.clear) (lastSnapshot : Nat) :
    Result job p.written (clearPut job.cfg st e.key lastSnapshot) := by
  refine ⟨by simp [clearPut, begun.status], by simp [clearPut, begun.mergeOut], by simp [clearPut], ?_⟩
  intro o out _ zeroed stands zeroing
  have key : o.ikey.userKey = e.key.userKey ∧ o.ikey.sequence = e.key.sequence := by
    simp only [clearPut, Option.some.injEq] at out
    rw [← out]
    split <;> exact ⟨rfl, rfl⟩
  have moved := keeps.emitCleared begun.passInput isClear (stands.key.trans key.1)
    (fun s point => by rw [stands.visible s point, key.2])
    zeroed (fun isZeroed => by simpa [clearPut, begun.zeroed] using zeroing isZeroed)
  simpa [remaining, clearPut, begun.atNext, begun.input, begun.current, snapshot] using moved

private theorem hide_result (notClear : p.clear = false) (isShadowed : shadowed job p.current p.snapshot e)
    (same : p.snapshot = stripeOf job e) (lastSequence : Nat) :
    Result job p.written
      { st.logFatal (lastSequence < e.key.sequence) .lastSequenceBelowSequence with input := rest } := by
  refine ⟨by simp [begun.status], by simp [begun.mergeOut], fun _ => ?_, by simp [begun.out]⟩
  have moved := keeps.hide begun.passInput notClear isShadowed
  have shape : ({ p with input := rest } : Pass κ V) = passOf p.written
      { st.logFatal (lastSequence < e.key.sequence) .lastSequenceBelowSequence with input := rest } := by
    simp [passOf, begun.passCurrent, begun.current, begun.clear, begun.zeroed, snapshot, same]
  rwa [shape] at moved

omit keeps in
/-- Any rule that drops the entry, perhaps with others behind it. -/
theorem drop_result (moved : Keeps job ⟨p.written, rest', some e.key.userKey, stripeOf job e, p.clear, p.zeroed⟩) :
    Result job p.written { st with input := rest' } := by
  refine ⟨begun.status, begun.mergeOut, fun _ => ?_, by simp [begun.out]⟩
  simpa [passOf, begun.current, begun.clear, begun.zeroed, snapshot] using moved

variable (counts : ¬shadowed job p.current p.snapshot e)
include counts

/-- Any rule that outputs the entry as it is. -/
theorem output_result (status : st'.status = .ok) (mergeOut : st'.mergeOut = [])
    (out : st'.out = some ⟨e.key, e.value, false, context⟩)
    (current : st'.currentUserKey = some e.key.userKey)
    (snapshot' : st'.currentUserKeySnapshot = st.currentUserKeySnapshot)
    (zeroed' : st'.lastKeySeqZeroed = st.lastKeySeqZeroed)
    (dropped : List (Entry κ V)) (split : rest = dropped ++ remaining st')
    (sameKey : ∀ r ∈ dropped, r.key.userKey = e.key.userKey)
    (sameStripe : ∀ r ∈ dropped, stripeOf job r = stripeOf job e)
    (clearing : st'.clearAndOutputNextKey → ∃ next more, remaining st' = next :: more ∧
      next.key.userKey = e.key.userKey ∧ next.key.type = .kTypeValue ∧
      stripeOf job next = stripeOf job e) :
    Result job p.written st' := by
  refine ⟨status, mergeOut, by simp [out], ?_⟩
  intro _ out' _ zeroed stands zeroing
  cases out.symm.trans out'
  rw [current, snapshot', snapshot]
  refine keeps.emit dropped (by rw [begun.passInput, split]) counts sameKey sameStripe
    ⟨stands.key, stands.visible, stands.answer⟩ clearing fun isZeroed => ?_
  rw [zeroed', begun.zeroed] at zeroing
  exact (zeroing isZeroed).imp_right fun before => ⟨before, begun.passCurrent⟩

omit counts in
omit snapshot in
/-- Behind an entry of another user key no entry of this one is left. -/
theorem no_entry_behind (dropped : List (Entry κ V)) (split : rest = dropped ++ rest')
    (other : ∀ next ∈ rest'.head?, next.key.userKey ≠ e.key.userKey) :
    ∀ r ∈ rest', r.key.userKey ≠ e.key.userKey := by
  have sorted := keeps.sorted
  rw [begun.passInput, split] at sorted
  obtain ⟨first, restSorted⟩ := pairwise_cons.mp sorted
  exact other_key_behind (fun r r_mem => InternalKey.userKey_le_of_le (first r (by simp [r_mem])))
    (pairwise_append.mp restSorted).2.1 other

private theorem obsoleteDelete_result (notClear : p.clear = false)
    (type : e.key.type = .kTypeDeletion) (early : e.key.sequence ≤ job.cfg.earliestSnapshot)
    (absent : job.cfg.keyNotExistsBeyondOutputLevel e.key.userKey) :
    Result job p.written { st with input := rest } := by
  have sorted := keeps.sorted
  rw [begun.passInput] at sorted
  have member := keeps.mem (e := e) (by simp [begun.passInput])
  refine drop_result begun snapshot ?_
  rw [notClear]
  refine keeps.drop [] begun.passInput counts (by simp) (by simp) (by simp [type]) ?_
    fun isZeroed => ⟨isZeroed, begun.passCurrent⟩
  intro s _ _
  rw [read_live_of_shadowed, job.keyTruthful _ absent s]
  intro r r_mem sameKey
  have r_input := keeps.mem (e := r) (by simp [begun.passInput, r_mem])
  have older := (stripeOf_le member ((pairwise_cons.mp sorted).1 r r_mem) sameKey.symm).1
  refine shadowed_iff.mpr ⟨by rw [sameKey], job.snapshots.stripe_pos, ?_, fun isSingle => ?_⟩
  · exact (stripe_of_le_earliest (older.trans early)).trans (stripe_of_le_earliest early).symm
  · have contract := job.singleDeletes r r_input isSingle
    rw [sameKey] at contract
    rcases contract.types e (by simp [entriesOf, member]) with put | single
    · simp [type] at put
    · simp [type] at single

omit counts in
omit snapshot in
/-- What the rule for bottommost deletions passes lies in the stripe of the
deletion. -/
theorem skipped_inStripe (passed : r ∈ rest.takeWhile (inStripe (prevSnapshot job.cfg.snapshots e.key.sequence) e)) :
    r.key.userKey = e.key.userKey ∧ stripeOf job r = stripeOf job e := by
  have sorted := keeps.sorted
  rw [begun.passInput] at sorted
  have member := keeps.mem (e := e) (by simp [begun.passInput])
  have r_rest : r ∈ rest := (takeWhile_sublist _).subset passed
  have taken := mem_takeWhile_imp passed
  have notSentinel := job.notSentinel r (keeps.mem (by simp [begun.passInput, r_rest]))
  simp only [inStripe, notSentinel, Bool.or_false, Bool.and_eq_true, Bool.or_eq_true, decide_eq_true_eq] at taken
  have older := (stripeOf_le member ((pairwise_cons.mp sorted).1 r r_rest) taken.1.symm).1
  exact ⟨taken.1, (job.snapshots.same_stripe_iff (job.bounded e member) older).mp taken.2⟩

private theorem dropDelete_result (notClear : p.clear = false)
    (type : e.key.type = .kTypeDeletion) (bottom : job.cfg.bottommostLevel)
    (split : rest = dropped ++ rest')
    (skipped : ∀ r ∈ dropped, r.key.userKey = e.key.userKey ∧ stripeOf job r = stripeOf job e)
    (last : ∀ next ∈ rest'.head?, next.key.userKey ≠ e.key.userKey) :
    Result job p.written { st with input := rest' } := by
  have member := keeps.mem (e := e) (by simp [begun.passInput])
  refine drop_result begun snapshot ?_
  rw [notClear]
  refine keeps.drop _ (by rw [begun.passInput, split]) counts (fun r r_mem => (skipped r r_mem).1)
    (fun r r_mem => (skipped r r_mem).2) (by simp [type]) ?_
    fun isZeroed => ⟨isZeroed, begun.passCurrent⟩
  intro s _ _
  rw [read_live_of_shadowed, job.bottommostTruthful bottom e member s]
  intro r r_mem sameKey
  exact absurd sameKey (no_entry_behind keeps begun _ split last r r_mem)

/-- The rules for a `SingleDelete`, by its contract. -/
theorem single_result (notClear : p.clear = false) (type : e.key.type = .kTypeSingleDeletion)
    (rule : SingleRule job.cfg (prevSnapshot job.cfg.snapshots e.key.sequence) e st rest st') :
    Result job p.written st' := by
  have member := keeps.mem (e := e) (by simp [begun.passInput])
  have notPut : e.key.type ≠ .kTypeValue := by simp [type]
  have keepHere (context : ValidContext) (clear : Bool)
      (clearing : clear → ∃ next more, rest = next :: more ∧ next.key.userKey = e.key.userKey ∧
        next.key.type = .kTypeValue ∧ stripeOf job next = stripeOf job e) :
      Result job p.written { keepSingleDelete { st with input := rest } e.key e.value context with
        clearAndOutputNextKey := clear } :=
    output_result keeps begun snapshot counts begun.status begun.mergeOut rfl begun.current rfl rfl [] rfl
      (by simp) (by simp) clearing
  have done (last : ∀ next ∈ rest.head?, next.key.userKey ≠ e.key.userKey) (r : Entry κ V)
      (r_mem : r ∈ rest) : some e.key.userKey ≠ some r.key.userKey := fun same =>
    no_entry_behind keeps begun [] rfl last r r_mem (Option.some.inj same).symm
  -- by the contract the entry behind is a put
  have put {next : Entry κ V} {more : List (Entry κ V)} (behind : Behind e rest next more) :
      next.key.type = .kTypeValue ∧ next.key.sequence ≤ e.key.sequence ∧
        SingleDeleteContract (e :: next :: entriesOf more e.key.userKey) (job.deeper e.key.userKey) := by
    have contract := keeps.contract begun.passInput type
    rw [behind.shape, entriesOf, filter_cons_of_pos (by simpa using behind.sameKey)] at contract
    have older := (isChain_cons_cons.mp contract.alternates).1
    exact ⟨(contract.types next (by simp)).resolve_right fun single => older.2 (type.trans single.symm),
      older.1.le, contract⟩
  have stripes {next : Entry κ V} {more : List (Entry κ V)} (behind : Behind e rest next more) :=
    job.snapshots.same_stripe_iff (job.bounded e member) (put behind).2.1
  cases rule with
  | forget last why =>
    have moved : Keeps job ⟨p.written, rest, some e.key.userKey, stripeOf job e, false, p.zeroed⟩ := by
      rcases why with obsolete | zeroed
      · refine keeps.drop [] begun.passInput counts (by simp) (by simp) notPut ?_
          fun isZeroed => ⟨isZeroed, begun.passCurrent⟩
        intro s _ seen
        rw [read_live_of_shadowed, job.keyTruthful _ obsolete.2 s]
        exact fun r r_mem same => absurd (congrArg some same.symm) (done last r r_mem)
      · have wasZeroed : p.zeroed = true := begun.zeroed ▸ zeroed
        rw [wasZeroed]
        exact keeps.dropZeroed [] begun.passInput counts (by simp) wasZeroed begun.passCurrent
    refine ⟨begun.status, begun.mergeOut, fun _ => ?_, by simp [begun.out]⟩
    have forgotten := moved.forget rfl (done last) (stripeOf job e) p.zeroed
    simpa [passOf, begun.clear, notClear, begun.zeroed, snapshot] using forgotten
  | keepLast last =>
    refine ⟨begun.status, begun.mergeOut, by simp [keepSingleDelete], ?_⟩
    intro o out w zeroed stands zeroing
    have kept : Keeps job ⟨p.written ++ [w], rest, some e.key.userKey, st.currentUserKeySnapshot, false, zeroed⟩ := by
      have written := (keepHere .kKeepSD false (by simp)).output o out w zeroed stands zeroing
      simpa [remaining, keepSingleDelete, begun.current] using written
    have forgotten := kept.forget rfl (done last) st.currentUserKeySnapshot zeroed
    simpa [remaining, keepSingleDelete, begun.clear, notClear] using forgotten
  | @zeroed next more behind zeroed =>
    have wasZeroed : p.zeroed = true := begun.zeroed ▸ zeroed
    refine drop_result begun snapshot ?_
    rw [notClear, wasZeroed]
    exact keeps.dropZeroed [next] (begun.passInput.trans (behind.shape ▸ rfl)) counts (by simp [behind.sameKey])
      wasZeroed begun.passCurrent
  | repeated behind _ marker => simp [isTombstone, (put behind).1] at marker
  | @pair next more behind near =>
    refine drop_result begun snapshot ?_
    rw [notClear]
    refine keeps.drop [next] (begun.passInput.trans (behind.shape ▸ rfl)) counts (by simp [behind.sameKey])
      (forall_mem_singleton.mpr ((stripes behind).mp near)) notPut ?_
      fun isZeroed => ⟨isZeroed, begun.passCurrent⟩
    exact fun _ _ seen => read_after_pair (put behind).2.2 type seen
  | @keepForConflicts next more behind near =>
    exact keepHere _ true fun _ =>
      ⟨next, more, behind.shape, behind.sameKey, (put behind).1, (stripes behind).mp near⟩
  | keepForSnapshot =>
    have kept := keepHere .kKeepSDForSnapshot false (by simp)
    simpa [keepSingleDelete, begun.clear, notClear] using kept

/-- **Every rule keeps every read.** -/
theorem rule_result (notClear : p.clear = false)
    (rule : Rule job.cfg (prevSnapshot job.cfg.snapshots e.key.sequence) e st rest st') :
    Result job p.written st' := by
  have types := job.types e (keeps.mem (by simp [begun.passInput]))
  cases rule with
  | obsolete type obsolete =>
    exact obsoleteDelete_result keeps begun snapshot counts notClear type obsolete.1 obsolete.2
  | covered deleted => simp [job.noRangeTombstones] at deleted
  | dropDelete type bottommost last =>
    exact dropDelete_result keeps begun snapshot counts notClear type bottommost
      takeWhile_append_dropWhile.symm (fun r passed => skipped_inStripe keeps begun passed)
      last
  | keepDelete =>
    exact output_result keeps begun snapshot counts begun.status begun.mergeOut rfl begun.current rfl rfl
      _ takeWhile_append_dropWhile.symm
      (fun r passed => (skipped_inStripe keeps begun passed).1)
      (fun r passed => (skipped_inStripe keeps begun passed).2) (by simp [begun.clear, notClear])
  | swap type => simp [type] at types
  | merge type => simp [type] at types
  | keep =>
    exact output_result keeps begun snapshot counts begun.status begun.mergeOut rfl begun.current rfl rfl
      [] (by simp [remaining, begun.atNext, begun.input]) (by simp) (by simp)
      (by simp [begun.clear, notClear])
  | single type passed rule =>
    rw [passed, dropWhile_sentinels fun r r_mem =>
      job.notSentinel r (keeps.mem (by simp [begun.passInput, r_mem]))] at rule
    exact single_result keeps begun snapshot counts notClear type rule

end Rules

/-- **Each iteration keeps every read.** -/
theorem processEntry_result (keeps : Keeps job (passOf written st)) (reading : Reading st e rest) :
    Result job written (processEntry job.cfg st e rest) := by
  obtain ⟨p, rfl, keeps, lastSnapshot, snapshot, begun⟩ := begin_spec keeps reading
  have isPoint := job.notSentinel e (keeps.mem (by simp [begun.passInput]))
  have clearSame := (beginEntry_fields job.cfg st e.key).2.2.2.symm.trans begun.clear
  rcases processEntry_cases job.cfg st rest isPoint with
    ⟨isClear, eq⟩ | ⟨⟨notClear, notSingle, shared⟩, eq⟩ | ⟨notClear, notHidden, rule⟩
  · rw [eq]
    exact clearPut_result keeps begun snapshot (clearSame.symm.trans isClear) _
  · rw [visibleSnapshot_eq, ← lastSnapshot] at shared
    have below := keeps.below e (by simp [begun.passInput]) begun.passCurrent
    have same : p.snapshot = stripeOf job e := by
      rcases shared with same | ⟨entered, lower⟩
      · exact same
      · exact absurd (below entered) lower.not_ge
    rw [eq]
    exact hide_result keeps begun snapshot (clearSame.symm.trans notClear) (shadowed_iff.mpr
      ⟨begun.passCurrent, same ▸ job.snapshots.stripe_pos, same.symm, notSingle⟩) same _
  · refine rule_result keeps begun snapshot (fun isShadowed => ?_) (clearSame.symm.trans notClear) rule
    obtain ⟨-, -, same, notSingle⟩ := shadowed_iff.mp isShadowed
    refine notHidden ⟨notClear, notSingle, .inl ?_⟩
    rw [← lastSnapshot, ← same, visibleSnapshot_eq]
    rfl

/-! ## Whole compactions -/

/-- A bad status can only come from per key placement. -/
def usesPerKeyPlacement (cfg : Config κ V δ) : Prop :=
  ∃ c, cfg.compaction = some c ∧ c.supportsPerKeyPlacement = true

/-- The invariant of the run. -/
def readsInvariant (job : PointJob κ V δ) : Invariant job.cfg where
  Ready outs st := Keeps job (passOf (outs.map outputPoint) st)
  Held outs st := st.mergeOut = [] ∧ ∀ o, st.out = some o → Writable job (outs.map outputPoint) st o
  Written _ := True
  Fails := usesPerKeyPlacement job.cfg
  readyWritten _ := trivial
  heldWritten _ := trivial
  drop ready reading out _ := (processEntry_result ready reading).dropped out
  hold ready reading _ := ⟨(processEntry_result ready reading).mergeOut, (processEntry_result ready reading).output⟩
  dropFails ready reading bad := absurd (processEntry_result ready reading).status bad
  prepareFails flag held status bad := by
    by_contra noPlacement
    refine bad ((prepareOutput_status fun c some => ?_).trans status)
    by_contra supports
    exact noPlacement ⟨c, some, by simpa using supports⟩
  takeMerge flag _ _ _ _ _ held status out mergeOut := by
    obtain ⟨o, was⟩ := out_of_prepared out
    have none := (prepareOutput_spec job.cfg _ was).1.mergeOut.trans held.1
    rw [none] at mergeOut
    cases mergeOut
  take {outs st} flag o held status out short := by
    obtain ⟨o', was⟩ := out_of_prepared out
    obtain ⟨same, shape⟩ := prepareOutput_spec job.cfg _ was
    have noMerge := same.mergeOut.trans held.1
    set prepared := prepareOutput job.cfg { st with hasOutputtedKey := flag }
    have stands : StandsFor job (outputPoint o) o' ∧
        (prepared.lastKeySeqZeroed = true → o.ikey.sequence = 0 ∨ st.lastKeySeqZeroed = true) := by
      rcases shape with ⟨kept, zeroed⟩ | ⟨⟨toPenultimate, zeroes⟩, kept, zeroed⟩
      · cases out.symm.trans kept
        exact ⟨⟨rfl, fun _ _ => Iff.rfl, rfl⟩, fun isZeroed => .inr (zeroed.symm.trans isZeroed)⟩
      · cases out.symm.trans kept
        refine ⟨⟨rfl, fun s point => ?_, rfl⟩, fun _ => .inl rfl⟩
        have early := zeroesSeq_early zeroes
        exact iff_of_true (Nat.zero_le s) (early.trans (job.snapshots.earliest_le point))
    have moved := held.2 o' was (outputPoint o) prepared.lastKeySeqZeroed stands.1 stands.2
    have resumed : passOf ((outs ++ [o]).map outputPoint) { resume prepared with atNext := false, out := none } =
        ⟨outs.map outputPoint ++ [outputPoint o], remaining st, st.currentUserKey,
          st.currentUserKeySnapshot, st.clearAndOutputNextKey, prepared.lastKeySeqZeroed⟩ := by
      simp only [passOf, resume, noMerge, remaining, same.atNext, List.map_append, List.map_cons, List.map_nil]
      split <;> simp only [same.input, same.currentUserKey, same.currentUserKeySnapshot, same.clearAndOutputNextKey]
    rwa [resumed]

private theorem keeps_start (job : PointJob κ V δ) : Keeps job (passOf [] (State.new job.input job.agg)) := by
  refine ⟨suffix_refl _, by simp [passOf, State.new], by simp [passOf, State.new],
    by simp [passOf, State.new], by simp [passOf, State.new], fun _ _ _ => ?_⟩
  simp [passOf, State.new, live, shadowed]

/-- **Compaction never changes what a reader sees.** Reading any user key at
any listed snapshot or at the tip, over the deeper levels, gives the same from
the output of the compaction as from its input. Without per key placement the
compaction cannot fail. -/
theorem compaction_preserves_reads (job : PointJob κ V δ) :
    let result := compact job.cfg job.input job.agg
    (¬usesPerKeyPlacement job.cfg → result.2.status = .ok) ∧
    (result.2.status = .ok → ∀ u s, ReadPoint job.cfg.snapshots s → readAt (result.1.map outputPoint) job.deeper u s =
        readAt (job.input.map entryPoint) job.deeper u s) := by
  rcases (readsInvariant job).compact_spec (keeps_start job) with
    ⟨placed, bad, -⟩ | ⟨good, -, empty, keeps⟩
  · exact ⟨fun notPlaced => absurd placed notPlaced, fun good => absurd good bad⟩
  · refine ⟨fun _ => good, fun _ u s point => ?_⟩
    have reads := keeps.reads u s point
    simpa [passOf, live, empty] using reads

/-- A key that is deeper too, a single delete with its put, and a delete of a key that is
not deeper. -/
def mixedJob : PointJob Nat Nat Unit where
  cfg := numbersConfig [4] (some ⟨false, false, fun u => u ≠ 1, false, fun _ => true⟩)
  agg := ()
  input := [⟨⟨1, 9, .kTypeValue⟩, 10, false⟩, ⟨⟨1, 6, .kTypeDeletion⟩, 0, false⟩, ⟨⟨1, 3, .kTypeDeletion⟩, 0, false⟩,
    ⟨⟨2, 8, .kTypeSingleDeletion⟩, 0, false⟩, ⟨⟨2, 7, .kTypeValue⟩, 12, false⟩, ⟨⟨3, 4, .kTypeDeletion⟩, 0, false⟩]
  deeper := fun u _ => if u = 1 then some 99 else none
  snapshots := ⟨⟨by decide, by decide⟩, by decide⟩
  notSentinel := by decide
  types := by decide
  bounded := by decide
  sorted := by decide
  noRangeTombstones := fun _ _ => rfl
  bottommostTruthful := nofun
  keyTruthful := fun u absent _ => if_neg (of_decide_eq_true absent)
  singleDeletes := by
    intro e member type
    have isTwo : e.key.userKey = 2 := by revert e; decide
    rw [isTwo]
    exact ⟨by decide, by decide, fun _ _ _ _ _ => rfl⟩

theorem mixedJob_preserves_reads :
    let result := compact mixedJob.cfg mixedJob.input mixedJob.agg
    result.1.map (·.ikey) =
      [⟨1, 9, .kTypeValue⟩, ⟨1, 3, .kTypeDeletion⟩, ⟨2, 8, .kTypeSingleDeletion⟩, ⟨2, 7, .kTypeValue⟩] ∧
      ∀ u s, ReadPoint [4] s → readAt (result.1.map outputPoint) mixedJob.deeper u s =
        readAt (mixedJob.input.map entryPoint) mixedJob.deeper u s :=
  ⟨by decide, (compaction_preserves_reads mixedJob).2 (by decide)⟩

end Rocksdb.CompactionPreservesReads
