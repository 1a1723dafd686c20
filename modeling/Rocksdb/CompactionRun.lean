import Rocksdb.CompactionSteps

/-! How a `CompactionIterator` runs: every iteration consumes input, so its
loops end, and an invariant that each iteration and each output keep holds of
everything a whole compaction writes. -/
namespace Rocksdb.CompactionRun
open MergeHelper CompactionIterator CompactionSteps List

variable {κ V δ : Type}

/-! ## Termination -/

/-- The outputs the iterator can still make from a valid state without more
input than it has. -/
def pending (st : State κ V δ) : Nat :=
  if st.mergeOut.isEmpty then st.input.length + (if st.atNext then 1 else 0)
  else st.input.length + st.mergeOut.length

/-- An iteration from `n` entries of input that goes on leaves fewer, and one
that outputs leaves room for its outputs. -/
def Consumes (n : Nat) (st : State κ V δ) : Prop :=
  (st.out = none → st.status = .ok → st.input.length < n ∧ st.atNext = false ∧ st.mergeOut = []) ∧
  (st.out.isSome → pending st ≤ n)

variable {cfg : Config κ V δ} {st : State κ V δ} {entry : Entry κ V} {rest : List (Entry κ V)}

variable [DecidableEq κ] in
/-- **Every iteration consumes input.** -/
theorem processEntry_consumes (cfg : Config κ V δ) (reading : Reading st entry rest) :
    Consumes (rest.length + 1) (processEntry cfg st entry rest) := by
  cases isSentinel : entry.isDeleteRangeSentinelKey with
  | true =>
    simp [processEntry, isSentinel, Consumes, pending, reading.mergeOut, reading.atNext, reading.input]
  | false =>
    have passes := processEntry_passes cfg reading isSentinel
    generalize processEntry cfg st entry rest = st' at passes
    have shorter : st'.out.isSome ∨ st'.status = .ok → (unread st').length ≤ rest.length := by
      intro live
      rcases passes.moved with ⟨-, none, bad⟩ | ⟨_, split, -⟩
      · simp [none, bad] at live
      · simp [split]
    constructor
    · intro none good
      have := shorter (.inr good)
      rw [unread, if_neg (by simp [none])] at this
      exact ⟨Nat.lt_succ_of_le this, passes.idle none good⟩
    · intro valid
      have := shorter (.inl valid)
      have room := passes.room
      unfold pending
      cases mergeOut : st'.mergeOut with
      | nil => cases atNext : st'.atNext <;> simp_all [unread]
      | cons => simpa [mergeOut, Nat.add_comm] using room (by simp [mergeOut])

/-- Behind an entry of another user key no entry of this one is left. -/
theorem other_key_behind {κ : Type} [LinearOrder κ] {u : κ} {rest : List (Entry κ V)}
    (above : ∀ r ∈ rest, u ≤ r.key.userKey) (sorted : rest.Pairwise (fun a b => a.key ≤ b.key))
    (other : ∀ next ∈ rest.head?, next.key.userKey ≠ u) : ∀ r ∈ rest, r.key.userKey ≠ u := by
  intro r r_mem same
  cases rest with
  | nil => cases r_mem
  | cons next more =>
    refine other next rfl (le_antisymm ?_ (above next (by simp)))
    rcases mem_cons.mp r_mem with rfl | later
    · exact same.le
    · exact same ▸ InternalKey.userKey_le_of_le ((pairwise_cons.mp sorted).1 r later)

/-! ## Preparing an output -/

/-- What `PrepareOutput` leaves alone. -/
structure SameExceptOutput (st st' : State κ V δ) : Prop where
  input : st'.input = st.input
  atNext : st'.atNext = st.atNext
  currentUserKey : st'.currentUserKey = st.currentUserKey
  currentUserKeySequence : st'.currentUserKeySequence = st.currentUserKeySequence
  currentUserKeySnapshot : st'.currentUserKeySnapshot = st.currentUserKeySnapshot
  clearAndOutputNextKey : st'.clearAndOutputNextKey = st.clearAndOutputNextKey
  mergeOut : st'.mergeOut = st.mergeOut
  mergeUntilStatus : st'.mergeUntilStatus = st.mergeUntilStatus

private theorem decideOutputLevel_frame (c : CompactionProxy κ) (ikey : InternalKey κ) :
    SameExceptOutput st (decideOutputLevel cfg c st ikey) ∧ (decideOutputLevel cfg c st ikey).out = st.out ∧
      (decideOutputLevel cfg c st ikey).lastKeySeqZeroed = st.lastKeySeqZeroed := by
  unfold decideOutputLevel
  dsimp only
  split
  · split <;> exact ⟨by constructor <;> rfl, rfl, rfl⟩
  · exact ⟨by constructor <;> rfl, rfl, rfl⟩

variable (cfg st)

private theorem placeOutput_frame (o : Output κ V) :
    SameExceptOutput st (placeOutput cfg st o) ∧ (placeOutput cfg st o).out = st.out ∧
      (placeOutput cfg st o).lastKeySeqZeroed = st.lastKeySeqZeroed := by
  unfold placeOutput
  split
  · split
    · exact decideOutputLevel_frame _ _
    · exact ⟨by constructor <;> rfl, rfl, rfl⟩
  · exact ⟨by constructor <;> rfl, rfl, rfl⟩

variable {o : Output κ V}

/-- `PrepareOutput` keeps the output, or zeroes its sequence number where the
bottommost level allows it. -/
theorem prepareOutput_spec (out : st.out = some o) :
    SameExceptOutput st (prepareOutput cfg st) ∧
    ((prepareOutput cfg st).out = some o ∧ (prepareOutput cfg st).lastKeySeqZeroed = st.lastKeySeqZeroed ∨
      (∃ toPenultimate, zeroesSeq cfg toPenultimate o) ∧
        (prepareOutput cfg st).out = some { o with ikey := { o.ikey with sequence := 0 } } ∧
        (prepareOutput cfg st).lastKeySeqZeroed = true) := by
  unfold prepareOutput
  rw [out]
  dsimp only
  obtain ⟨same, outSame, zeroedSame⟩ := placeOutput_frame cfg st o
  split
  case isTrue zeroes =>
    refine ⟨?_, .inr ⟨⟨_, zeroes⟩, rfl, rfl⟩⟩
    simp only [logFatal_eq]
    exact ⟨same.input, same.atNext, same.currentUserKey, same.currentUserKeySequence,
      same.currentUserKeySnapshot, same.clearAndOutputNextKey, same.mergeOut, same.mergeUntilStatus⟩
  case isFalse => exact ⟨same, .inl ⟨outSame.trans out, zeroedSame⟩⟩

theorem prepareOutput_same :
    SameExceptOutput st (prepareOutput cfg st) ∧ (prepareOutput cfg st).out.isSome = st.out.isSome := by
  cases out : st.out with
  | none => exact ⟨by constructor <;> simp [prepareOutput, out], by simp [prepareOutput, out]⟩
  | some =>
    obtain ⟨same, ⟨kept, -⟩ | ⟨-, zeroed, -⟩⟩ := prepareOutput_spec cfg st out
    · exact ⟨same, by simp [kept]⟩
    · exact ⟨same, by simp [zeroed]⟩

variable {cfg st}

theorem out_of_prepared (out : (prepareOutput cfg st).out = some o) : ∃ o', st.out = some o' := by
  exact Option.isSome_iff_exists.mp ((prepareOutput_same cfg st).2.symm.trans (by simp [out]))

theorem zeroesSeq_early (zeroes : zeroesSeq cfg toPenultimate o) : o.ikey.sequence ≤ cfg.earliestSnapshot := by
  simp only [zeroesSeq, Bool.and_eq_true, decide_eq_true_eq] at zeroes
  exact zeroes.1.1.1.1.2

theorem zeroesSeq_notMerge (zeroes : zeroesSeq cfg toPenultimate o) : o.ikey.type ≠ .kTypeMerge := by
  simp only [zeroesSeq, Bool.and_eq_true, decide_eq_true_eq] at zeroes
  exact zeroes.1.1.1.2

/-- The status goes bad only where per key placement is in use. -/
theorem prepareOutput_status (noPlacement : ∀ c, cfg.compaction = some c → c.supportsPerKeyPlacement = false) :
    (prepareOutput cfg st).status = st.status := by
  have placed (o : Output κ V) : placeOutput cfg st o = st := by
    unfold placeOutput
    split
    case h_1 c some => simp [noPlacement c some]
    case h_2 => rfl
  unfold prepareOutput
  split
  · rfl
  · rw [placed]
    dsimp only
    split <;> simp

theorem prepareOutput_bad (bad : st.status ≠ .ok) : (prepareOutput cfg st).status ≠ .ok := by
  have placed (o : Output κ V) : (placeOutput cfg st o).status ≠ .ok := by
    unfold placeOutput decideOutputLevel
    split
    · split
      · dsimp only
        split
        · split
          · simp
          · exact bad
        · exact bad
      · exact bad
    · exact bad
  unfold prepareOutput
  split
  · exact bad
  case h_2 o _ =>
    dsimp only
    split
    · simpa using placed o
    · exact placed o

/-- The input left once the current output has been taken. -/
def remaining (st : State κ V δ) : List (Entry κ V) := if st.atNext then st.input else st.input.tail

theorem resume_fields (st : State κ V δ) : (resume st).mergeOut = [] ∧ (resume st).status = st.status ∧
      (resume st).input.length ≤ pending st - 1 := by
  unfold resume pending
  split
  case h_1 mergeOut =>
    split
    case isTrue atNext => simp [mergeOut]
    case isFalse atNext => simp [mergeOut]
  case h_2 mergeOut =>
    refine ⟨rfl, rfl, ?_⟩
    simp [mergeOut]

theorem pending_prepared (cfg : Config κ V δ) (st : State κ V δ) (flag : Bool) :
    pending (prepareOutput cfg { st with hasOutputtedKey := flag }) = pending st := by
  have same := (prepareOutput_same cfg { st with hasOutputtedKey := flag }).1
  simp only [pending, same.input, same.mergeOut, same.atNext]

/-- The iterator is about to look at its input. -/
structure Idle (st : State κ V δ) : Prop where
  out : st.out = none
  atNext : st.atNext = false
  mergeOut : st.mergeOut = []
  status : st.status = .ok

/-! ## The invariant rule -/

variable [DecidableEq κ]

/-- What has to be shown once for each iteration and each output. `Ready`
holds with the given outputs whenever the iterator is about to look at its
input, `Held` whenever it has found the next output. `Written` holds of the outputs
at any time, also when the compaction stops early, and `Fails` collects the
reasons for a bad status. -/
structure Invariant (cfg : Config κ V δ) where
  Ready : List (Output κ V) → State κ V δ → Prop
  Held : List (Output κ V) → State κ V δ → Prop
  Written : List (Output κ V) → Prop
  Fails : Prop
  readyWritten : ∀ {outs st}, Ready outs st → Written outs
  heldWritten : ∀ {outs st}, Held outs st → Written outs
  drop : ∀ {outs st entry rest}, Ready outs st → Reading st entry rest →
    (processEntry cfg st entry rest).out = none → (processEntry cfg st entry rest).status = .ok →
    Ready outs (processEntry cfg st entry rest)
  hold : ∀ {outs st entry rest}, Ready outs st → Reading st entry rest →
    (processEntry cfg st entry rest).out.isSome → Held outs (processEntry cfg st entry rest)
  dropFails : ∀ {outs st entry rest}, Ready outs st → Reading st entry rest →
    (processEntry cfg st entry rest).status ≠ .ok → Fails
  prepareFails : ∀ {outs st} flag, Held outs st → st.status = .ok →
    (prepareOutput cfg { st with hasOutputtedKey := flag }).status ≠ .ok → Fails
  takeMerge : ∀ {outs st} flag {o first ikey value more}, Held outs st → st.status = .ok →
    (prepareOutput cfg { st with hasOutputtedKey := flag }).out = some o →
    (prepareOutput cfg { st with hasOutputtedKey := flag }).mergeOut = first :: (ikey, value) :: more →
    Held (outs ++ [o]) { prepareOutput cfg { st with hasOutputtedKey := flag } with
      mergeOut := (ikey, value) :: more
      out := some ⟨ikey, value, false, .kMerge1⟩ }
  take : ∀ {outs st} flag {o}, Held outs st → st.status = .ok →
    (prepareOutput cfg { st with hasOutputtedKey := flag }).out = some o →
    (prepareOutput cfg { st with hasOutputtedKey := flag }).mergeOut.length ≤ 1 →
    Ready (outs ++ [o]) { resume (prepareOutput cfg { st with hasOutputtedKey := flag }) with
      atNext := false
      out := none }

theorem inputLoop_stopped (stopped : st.out.isSome ∨ st.status ≠ .ok) : inputLoop cfg fuel st = st := by
  cases fuel with
  | zero => rfl
  | succ =>
    rw [inputLoop]
    split
    · rfl
    · rw [if_pos stopped]

theorem drain_stopped (stopped : st.out = none ∨ st.status ≠ .ok) : drain cfg fuel st = ([], st) := by
  cases fuel with
  | zero => rfl
  | succ =>
    rw [drain]
    split
    · rfl
    case h_2 o out => rw [if_pos (stopped.resolve_left (by simp [out]))]

namespace Invariant
variable (inv : Invariant cfg)

/-- A look at the input fails, or it stops with an output or at the end. -/
def Looked (outs : List (Output κ V)) (size : Nat) (st' : State κ V δ) : Prop :=
  inv.Fails ∧ st'.status ≠ .ok ∨ st'.status = .ok ∧
    (st'.out.isSome ∧ inv.Held outs st' ∧ 0 < size ∧ pending st' ≤ size ∨
      st'.out = none ∧ st'.input = [] ∧ inv.Ready outs st')

private theorem inputLoop_spec (fuel : Nat) : ∀ st, inv.Ready outs st → Idle st → st.input.length < fuel →
      inv.Looked outs st.input.length (inputLoop cfg fuel st) := by
  induction fuel with
  | zero => intro st _ _ enough; omega
  | succ _ ih =>
    intro st ready idle enough
    rw [inputLoop]
    cases at_head : st.input with
    | nil => exact .inr ⟨idle.status, .inr ⟨idle.out, at_head, ready⟩⟩
    | cons entry rest =>
      have reading : Reading st entry rest := ⟨at_head, idle.out, idle.atNext, idle.mergeOut, idle.status⟩
      rw [at_head, length_cons] at enough
      have consumes := processEntry_consumes cfg reading
      dsimp only
      rw [if_neg (by simp [idle.out, idle.status])]
      by_cases good : (processEntry cfg st entry rest).status = .ok
      · cases out : (processEntry cfg st entry rest).out with
        | none =>
          obtain ⟨_, atNext, mergeOut⟩ := consumes.1 out good
          have rest_spec := ih _ (inv.drop ready reading out good) ⟨out, atNext, mergeOut, good⟩ (by omega)
          refine rest_spec.imp_right fun ⟨good', cases'⟩ => ⟨good', cases'.imp_left ?_⟩
          rintro ⟨isSome, held, -, room⟩
          exact ⟨isSome, held, Nat.succ_pos _, room.trans (by rw [length_cons]; omega)⟩
        | some =>
          have isSome : (processEntry cfg st entry rest).out.isSome := by simp [out]
          rw [inputLoop_stopped (.inl isSome)]
          exact .inr ⟨good, .inl ⟨isSome, inv.hold ready reading isSome, Nat.succ_pos _, consumes.2 isSome⟩⟩
      · rw [inputLoop_stopped (.inr good)]
        exact .inl ⟨inv.dropFails ready reading good, good⟩

/-- A fresh look at the input, from whatever state is ready for it. -/
theorem nextFromInput_spec (st : State κ V δ) (ready : inv.Ready outs { st with atNext := false, out := none })
    (mergeOut : st.mergeOut = []) (status : st.status = .ok) :
    inv.Looked outs st.input.length (nextFromInput cfg st) :=
  inv.inputLoop_spec (st.input.length + 1) _ ready ⟨rfl, rfl, mergeOut, status⟩ (Nat.lt_succ_self _)

/-- The end of a run: no output is pending, and the input is used up. -/
def Finished (outs : List (Output κ V)) (st : State κ V δ) : Prop :=
  st.status = .ok ∧ st.out = none ∧ st.input = [] ∧ inv.Ready outs st

/-- From a valid state to the end of the run. -/
theorem drain_spec (fuel : Nat) : ∀ (outs : List (Output κ V)) (st : State κ V δ) (flag : Bool), inv.Held outs st →
      st.out.isSome → st.status = .ok → pending st < fuel →
      let result := drain cfg fuel (prepareOutput cfg { st with hasOutputtedKey := flag })
      inv.Fails ∧ result.2.status ≠ .ok ∧ inv.Written (outs ++ result.1) ∨
        inv.Finished (outs ++ result.1) result.2 := by
  induction fuel with
  | zero => intro outs st flag _ _ _ enough; omega
  | succ fuel ih =>
    intro outs st flag held isSome status enough
    set flagged : State κ V δ := { st with hasOutputtedKey := flag } with flaggedDef
    obtain ⟨same, sameOut⟩ := prepareOutput_same cfg flagged
    set prepared := prepareOutput cfg flagged with preparedDef
    obtain ⟨o', out'⟩ := Option.isSome_iff_exists.mp (sameOut.trans isSome)
    by_cases good : prepared.status = .ok
    · have outsSplit (more : List (Output κ V)) : outs ++ o' :: more = (outs ++ [o']) ++ more := by simp
      have unfolded : drain cfg (fuel + 1) prepared =
          (o' :: (drain cfg fuel (next cfg prepared)).1, (drain cfg fuel (next cfg prepared)).2) := by
        rw [drain, out']
        simp [good]
      have pendingSame : pending prepared = pending st := by
        simp only [pending, same.input, same.mergeOut, same.atNext, flaggedDef]
      rw [← pendingSame] at enough
      dsimp only
      rw [unfolded, outsSplit]
      by_cases more : ∃ first ikey value tail, prepared.mergeOut = first :: (ikey, value) :: tail
      · obtain ⟨first, ikey, value, tail, mergeOut⟩ := more
        have heldNext := inv.takeMerge flag held status out' mergeOut
        have step : next cfg prepared = prepareOutput cfg { { prepared with
            mergeOut := (ikey, value) :: tail
            out := some ⟨ikey, value, false, .kMerge1⟩ } with hasOutputtedKey := true } := by
          simp [CompactionIterator.next, advance, mergeOut]
        rw [step]
        refine ih _ _ true heldNext rfl good ?_
        simp only [pending, mergeOut, isEmpty_cons, Bool.false_eq_true, if_false, length_cons] at enough ⊢
        omega
      · have short : prepared.mergeOut.length ≤ 1 := by
          match mergeOut : prepared.mergeOut with
          | [] => simp
          | [_] => simp
          | first :: (ikey, value) :: tail => exact absurd ⟨first, ikey, value, tail, mergeOut⟩ more
        have ready := inv.take flag held status out' short
        have step : advance cfg prepared = nextFromInput cfg (resume prepared) := by
          unfold advance
          split
          case h_1 first ikey value tail mergeOut =>
            exact absurd ⟨first, ikey, value, tail, mergeOut⟩ more
          case h_2 => rfl
        obtain ⟨resumedMerge, resumedStatus, _⟩ := resume_fields prepared
        rcases inv.nextFromInput_spec (resume prepared) ready resumedMerge (resumedStatus.trans good) with
          ⟨fails, bad⟩ | ⟨good', ⟨isSome', held', nonempty, room⟩ | ⟨none', empty, ready'⟩⟩
        · have stillBad : (next cfg prepared).status ≠ .ok := by
            rw [CompactionIterator.next, step]
            split
            · exact prepareOutput_bad bad
            · exact prepareOutput_bad bad
          rw [drain_stopped (.inr stillBad), append_nil]
          exact .inl ⟨fails, stillBad, inv.readyWritten ready⟩
        · rw [CompactionIterator.next, step, if_pos isSome']
          exact ih _ _ true held' isSome' good' (by omega)
        · have stop : next cfg prepared = nextFromInput cfg (resume prepared) := by
            rw [CompactionIterator.next, step, if_neg (by simp [none']), prepareOutput, none']
          rw [stop, drain_stopped (.inl none'), append_nil]
          exact .inr ⟨good', none', empty, ready'⟩
    · dsimp only
      rw [drain_stopped (.inr good), append_nil]
      exact .inl ⟨inv.prepareFails flag held status good, good, inv.heldWritten held⟩

/-- **The invariant rule.** Unless the status goes bad, a compaction uses up
its input and ends ready, with everything it has written. -/
theorem compact_spec (start : inv.Ready [] (State.new input agg)) :
    inv.Fails ∧ (compact cfg input agg).2.status ≠ .ok ∧ inv.Written (compact cfg input agg).1 ∨
      inv.Finished (compact cfg input agg).1 (compact cfg input agg).2 := by
  unfold compact seekToFirst
  rcases inv.nextFromInput_spec (State.new input agg) start rfl rfl with
    ⟨fails, bad⟩ | ⟨good, ⟨isSome, held, -, room⟩ | ⟨none, empty, ready⟩⟩
  · rw [drain_stopped (.inr (prepareOutput_bad bad))]
    exact .inl ⟨fails, prepareOutput_bad bad, inv.readyWritten start⟩
  · exact inv.drain_spec (input.length + 1) [] _ _ held isSome good (Nat.lt_succ_of_le room)
  · rw [prepareOutput, none, drain_stopped (.inl none)]
    exact .inr ⟨good, none, empty, ready⟩

end Invariant

/-- What is written, with what can still come of the input. -/
def sizeInvariant (cfg : Config κ V δ) (size : Nat) : Invariant cfg where
  Ready outs st := outs.length + st.input.length ≤ size
  Held outs st := outs.length + 1 + (pending st - 1) ≤ size
  Written outs := outs.length ≤ size
  Fails := True
  readyWritten := by omega
  heldWritten := by omega
  drop ready reading out good := by
    have consumes := (processEntry_consumes cfg reading).1 out good
    rw [reading.input, length_cons] at ready
    omega
  hold ready reading isSome := by
    have consumes := (processEntry_consumes cfg reading).2 isSome
    rw [reading.input, length_cons] at ready
    omega
  dropFails _ _ _ := trivial
  prepareFails _ _ _ _ := trivial
  takeMerge {_ st} flag _ _ _ _ _ held _ _ mergeOut := by
    rw [← pending_prepared cfg st flag, pending, mergeOut] at held
    simp [pending] at held ⊢
    omega
  take {_ st} flag _ held _ _ _ := by
    have left := (resume_fields (prepareOutput cfg { st with hasOutputtedKey := flag })).2.2
    rw [pending_prepared] at left
    simp
    omega

/-- **A compaction reads all of its input and writes no more entries than that**, unless its status goes bad. -/
theorem compaction_never_grows (cfg : Config κ V δ) (input : List (Entry κ V)) (agg : δ) :
    let (outs, st) := compact cfg input agg
    outs.length ≤ input.length ∧ (st.status = .ok → st.out = none ∧ st.input = []) := by
  have start : (sizeInvariant cfg input.length).Ready [] (State.new input agg) := by simp [sizeInvariant, State.new]
  rcases (sizeInvariant cfg input.length).compact_spec start with ⟨-, bad, written⟩ | ⟨-, out, used, ready⟩
  · exact ⟨written, fun good => absurd good bad⟩
  · exact ⟨(Nat.le_add_right _ _).trans ready, fun _ => ⟨out, used⟩⟩

end Rocksdb.CompactionRun
