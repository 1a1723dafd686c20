import Mathlib.Data.List.TakeWhile
import Rocksdb.SnapshotStripes

/-! What one iteration of a `CompactionIterator` can do, said once: where it
leaves the input, what it remembers of the entry, and what it outputs. -/
namespace Rocksdb.CompactionSteps
open MergeHelper CompactionIterator SnapshotStripes List

variable {κ V δ : Type}

/-! ## The state an entry is looked at in -/

@[simp] theorem logFatal_eq (st : State κ V δ) (condition : Bool) (fatal : Fatal) : st.logFatal condition fatal =
      { st with fatals := if condition then fatal :: st.fatals else st.fatals } := by
  unfold State.logFatal
  split <;> rfl

theorem enterKey_eq [DecidableEq κ] (st : State κ V δ) (u : κ) : enterKey st u = { st with
        currentUserKey := some u
        currentUserKeySequence :=
          if st.currentUserKey = some u then st.currentUserKeySequence else kMaxSequenceNumber
        currentUserKeySnapshot :=
          if st.currentUserKey = some u then st.currentUserKeySnapshot else 0
        hasOutputtedKey := if st.currentUserKey = some u then st.hasOutputtedKey else false
        lastKeySeqZeroed := if st.currentUserKey = some u then st.lastKeySeqZeroed else false } := by
  unfold enterKey
  split
  case isTrue same => cases st; simp_all
  case isFalse => rfl

/-- A deletion marker. -/
def isTombstone (t : ValueType) : Bool := t = .kTypeDeletion || t = .kTypeSingleDeletion

/-- Where an internal key stands, whatever its type. -/
def position (k : InternalKey κ) : κ × Nat := (k.userKey, k.sequence)

/-! ## Merge outputs -/

section Merge
variable [DecidableEq κ] (job : MergeJob κ V δ)

/-- What a merge leaves of the operands it was given: some of their positions,
and operands again unless everything went into one entry. -/
structure Merged (positions : List (κ × Nat)) (output : List (InternalKey κ × V)) (status : Status) :
    Prop where
  sublist : List.Sublist (output.map (position ·.1)) positions
  types : (∀ p ∈ output, p.1.type = .kTypeMerge) ∨ output.length ≤ 1 ∧ status ≠ .mergeInProgress ∧
    ∀ p ∈ output, isTombstone p.1.type = false

omit [DecidableEq κ] in
theorem finishFullMerge_merged (operands : ∀ p ∈ kept, p.1.type = .kTypeMerge) (base : BaseValue V) :
    Merged (kept.map (position ·.1)) (finishFullMerge job base kept).output
      (finishFullMerge job base kept).status := by
  cases kept with
  | nil => exact ⟨List.Sublist.refl _, .inl (by simp [finishFullMerge])⟩
  | cons =>
    dsimp only [finishFullMerge]
    split
    case h_1 result merged =>
      refine ⟨by simp [position], .inr ⟨le_rfl, by simp, ?_⟩⟩
      unfold timedFullMerge at merged
      repeat' split at merged
      all_goals cases merged <;> simp [isTombstone]
    · split <;> exact ⟨List.Sublist.refl _, .inl operands⟩

omit [DecidableEq κ] in
private theorem finishOperands_merged (operands : ∀ p ∈ kept, p.1.type = .kTypeMerge) (hit : Bool)
    (input : List (Entry κ V)) :
    Merged (kept.map (position ·.1)) (finishOperands job hit input kept).output
      (finishOperands job hit input kept).status := by
  cases kept with
  | nil => exact ⟨List.Sublist.refl _, .inl (by simp [finishOperands])⟩
  | cons head =>
    dsimp only [finishOperands]
    split
    · exact finishFullMerge_merged job operands _
    · split
      · split
        · exact ⟨by simp, .inl (by simpa using operands head (by simp))⟩
        · exact ⟨List.Sublist.refl _, .inl operands⟩
      · exact ⟨List.Sublist.refl _, .inl operands⟩

/-- The positions of the point entries of an input. -/
def pointPositions (input : List (Entry κ V)) : List (κ × Nat) :=
  (input.filter fun e => !e.isDeleteRangeSentinelKey).map (position ·.key)

/-- `MergeUntil` consumes a stretch of one user key inside one stripe. Its
outputs stand where consumed entries stood. -/
theorem mergeLoop_merged (origKey : κ) (input : List (Entry κ V)) :
    ∀ (agg : δ) (kept : List (InternalKey κ × V)), (∀ p ∈ kept, p.1.type = .kTypeMerge) →
      let result := mergeLoop job origKey false agg kept input
      ∃ consumed, input = consumed ++ result.input ∧
        Merged (kept.map (position ·.1) ++ pointPositions consumed) result.output result.status ∧
        ∀ c ∈ consumed, c.isDeleteRangeSentinelKey = false → c.key.userKey = origKey ∧
          (job.stopBefore = 0 ∨ job.stopBefore < c.key.sequence) := by
  induction input with
  | nil =>
    intro agg kept operands
    refine ⟨[], rfl, ?_, by simp⟩
    simpa [pointPositions, mergeLoop] using finishOperands_merged job operands false []
  | cons entry rest ih =>
    intro agg kept operands
    rw [mergeLoop]
    split
    case isTrue sentinel =>
      obtain ⟨consumed, split, merged, within⟩ := ih agg kept operands
      refine ⟨entry :: consumed, by rw [cons_append, ← split], ?_, ?_⟩
      · simpa [pointPositions, sentinel] using merged
      · exact forall_mem_cons.mpr ⟨by simp [sentinel], within⟩
    case isFalse isPoint =>
      -- stopping before the entry leaves the operands as they are
      have stops (finished : MergeAttempt κ V)
          (merged : Merged (kept.map (position ·.1)) finished.output finished.status) :
          ∃ consumed, entry :: rest = consumed ++ entry :: rest ∧
            Merged (kept.map (position ·.1) ++ pointPositions consumed) finished.output finished.status ∧
            ∀ c ∈ consumed, c.isDeleteRangeSentinelKey = false → c.key.userKey = origKey ∧
              (job.stopBefore = 0 ∨ job.stopBefore < c.key.sequence) :=
        ⟨[], rfl, by simpa [pointPositions] using merged, by simp⟩
      split
      · exact stops _ (finishOperands_merged job operands true _)
      case isFalse sameKey =>
        split
        · exact stops _ (finishOperands_merged job operands false _)
        case isFalse inStripe =>
          have here : entry.key.userKey = origKey ∧ (job.stopBefore = 0 ∨ job.stopBefore < entry.key.sequence) := by
            refine ⟨by simpa using sameKey, ?_⟩
            by_contra outside
            obtain ⟨nonzero, below⟩ := not_or.mp outside
            exact inStripe ⟨rfl, Nat.pos_of_ne_zero nonzero, not_lt.mp below⟩
          have pointHere (more : List (Entry κ V)) : pointPositions (entry :: more) =
              position entry.key :: pointPositions more := by
            simp [pointPositions, isPoint]
          split
          · split
            · exact ⟨[], rfl, ⟨by simp, .inl (by simp)⟩, by simp⟩
            · dsimp only
              split
              case h_1 =>
                exact ⟨[], rfl, ⟨by simp [pointPositions], .inl operands⟩, by simp⟩
              case h_2 base _ =>
                have merged := finishFullMerge_merged job operands base
                by_cases done : (finishFullMerge job base kept).done
                · refine ⟨[entry], by simp [done], ⟨?_, merged.types⟩, ?_⟩
                  · exact merged.sublist.trans (sublist_append_left _ _)
                  · exact forall_mem_singleton.mpr fun _ => here
                · refine ⟨[], by simp [done], ⟨?_, merged.types⟩, by simp⟩
                  simpa [pointPositions] using merged.sublist
          case isFalse isMerge =>
            obtain ⟨consumed, split, merged, within⟩ := ih (job.shouldDelete agg entry.key).2
              (if (job.shouldDelete agg entry.key).1 then kept else kept ++ [(entry.key, entry.value)]) (by
                  split
                  · exact operands
                  · exact forall_mem_append.mpr ⟨operands, forall_mem_singleton.mpr (by simpa using isMerge)⟩)
            refine ⟨entry :: consumed, by rw [cons_append, ← split], ⟨?_, merged.types⟩, ?_⟩
            · refine merged.sublist.trans ?_
              rw [pointHere]
              split
              · exact List.Sublist.append_left (sublist_cons_self _ _) _
              · simp
            · exact forall_mem_cons.mpr ⟨fun _ => here, within⟩

/-- The first entry `MergeUntil` is called at is an operand. -/
theorem mergeUntil_eq {job : MergeJob κ V δ} {agg : δ} {entry : Entry κ V} {rest : List (Entry κ V)}
    (isPoint : entry.isDeleteRangeSentinelKey = false) (isMerge : entry.key.type = .kTypeMerge) :
    mergeUntil job agg (entry :: rest) = mergeLoop job entry.key.userKey false (job.shouldDelete agg entry.key).2
        (if (job.shouldDelete agg entry.key).1 then [] else [(entry.key, entry.value)]) rest := by
  simp [mergeUntil, mergeLoop, isPoint, isMerge]

/-- The same for `MergeUntil`, called at the merge entry `e`. -/
theorem mergeUntil_merged {e : Entry κ V} (isPoint : e.isDeleteRangeSentinelKey = false)
    (isMerge : e.key.type = .kTypeMerge) (agg : δ) (rest : List (Entry κ V)) :
    let result := mergeUntil job agg (e :: rest)
    ∃ consumed, rest = consumed ++ result.input ∧
      Merged (position e.key :: pointPositions consumed) result.output result.status ∧
      ∀ c ∈ consumed, c.isDeleteRangeSentinelKey = false → c.key.userKey = e.key.userKey ∧
        (job.stopBefore = 0 ∨ job.stopBefore < c.key.sequence) := by
  rw [mergeUntil_eq isPoint isMerge]
  obtain ⟨consumed, split, merged, within⟩ := mergeLoop_merged job e.key.userKey rest (job.shouldDelete agg e.key).2
    (if (job.shouldDelete agg e.key).1 then [] else [(e.key, e.value)]) (by split <;> simp [isMerge])
  refine ⟨consumed, split, ⟨merged.sublist.trans ?_, merged.types⟩, within⟩
  split <;> simp

end Merge

/-- What every rule finds: an entry has been read and nothing is output. -/
structure Reading (st : State κ V δ) (entry : Entry κ V) (rest : List (Entry κ V)) : Prop where
  input : st.input = entry :: rest
  out : st.out = none
  atNext : st.atNext = false
  mergeOut : st.mergeOut = []
  status : st.status = .ok

variable {rest : List (Entry κ V)}

theorem beginEntry_reading [DecidableEq κ] (cfg : Config κ V δ) (reading : Reading st entry rest) :
    Reading (beginEntry cfg st entry.key) entry rest := by
  obtain ⟨_, _, _, _, _⟩ := reading
  constructor <;> simpa [beginEntry, enterKey_eq]

/-! ## Moving on -/

/-- The input that is left once the current output, if any, has been taken. -/
def unread (st : State κ V δ) : List (Entry κ V) :=
  if st.out.isSome && st.mergeOut.isEmpty && !st.atNext then st.input.tail else st.input

/-- From `rest` the input has moved on to `after`, past entries of the user key
of `e`. -/
def Skips (e : Entry κ V) (rest after : List (Entry κ V)) : Prop :=
  ∃ dropped, rest = dropped ++ after ∧
    ∀ r ∈ dropped, r.isDeleteRangeSentinelKey = false → r.key.userKey = e.key.userKey

theorem Skips.refl (e : Entry κ V) (rest : List (Entry κ V)) : Skips e rest rest := ⟨[], rfl, by simp⟩

variable {e : Entry κ V} {after : List (Entry κ V)}

theorem Skips.suffix (skips : Skips e rest after) : after <:+ rest := by
  obtain ⟨_, rfl, -⟩ := skips
  exact suffix_append _ _

theorem Skips.next {next : Entry κ V}
    (skips : Skips e rest (next :: after)) (sameKey : next.key.userKey = e.key.userKey) :
    Skips e rest after := by
  obtain ⟨dropped, rfl, within⟩ := skips
  exact ⟨dropped ++ [next], by simp, forall_mem_append.mpr ⟨within, forall_mem_singleton.mpr fun _ => sameKey⟩⟩

theorem Skips.dropWhile (rest : List (Entry κ V)) (p : Entry κ V → Bool)
    (sameKey : ∀ r, p r → r.key.userKey = e.key.userKey) : Skips e rest (rest.dropWhile p) :=
  ⟨rest.takeWhile p, takeWhile_append_dropWhile.symm, fun r member _ => sameKey r (mem_takeWhile_imp member)⟩

/-! ## The rules -/

section Rules
variable [DecidableEq κ] (cfg : Config κ V δ) (prev : Nat) (e : Entry κ V) (b : State κ V δ)

/-- A deletion that no reader needs any more: every snapshot sees it, and there
is nothing below to delete. -/
def Obsolete : Prop :=
  e.key.sequence ≤ cfg.earliestSnapshot ∧ cfg.keyNotExistsBeyondOutputLevel e.key.userKey

/-- Entries that the rule for bottommost deletions passes. -/
def inStripe (next : Entry κ V) : Bool :=
  next.key.userKey = e.key.userKey && (prev = 0 || next.isDeleteRangeSentinelKey || prev < next.key.sequence)

/-- The entry behind a `SingleDelete`, if it has the same user key. -/
structure Behind (after : List (Entry κ V)) (next : Entry κ V) (more : List (Entry κ V)) : Prop where
  shape : after = next :: more
  sameKey : next.key.userKey = e.key.userKey

omit [DecidableEq κ] in
theorem Behind.suffix {e next : Entry κ V}
    (behind : Behind e after next more) : more <:+ after := behind.shape ▸ suffix_cons next more

/-- What the rules do with a `SingleDelete`. The input stands at `after`. -/
inductive SingleRule (after : List (Entry κ V)) : State κ V δ → Prop
  | forget (last : ∀ next ∈ after.head?, next.key.userKey ≠ e.key.userKey)
      (why : Obsolete cfg e ∨ b.lastKeySeqZeroed = true) :
      SingleRule after { b with input := after, currentUserKey := none }
  | keepLast (last : ∀ next ∈ after.head?, next.key.userKey ≠ e.key.userKey)
      (needed : ¬Obsolete cfg e) :
      SingleRule after (keepSingleDelete { b with input := after, currentUserKey := none } e.key e.value .kKeepSD)
  | zeroed {next more} (behind : Behind e after next more) (zeroed : b.lastKeySeqZeroed = true) :
      SingleRule after { b with input := more }
  | repeated {next more status} (behind : Behind e after next more)
      (near : prev = 0 ∨ prev < next.key.sequence) (marker : isTombstone next.key.type) :
      SingleRule after { b with input := after, status := status }
  | pair {next more} (behind : Behind e after next more) (near : prev = 0 ∨ prev < next.key.sequence)
      (droppable : cfg.singleDeleteDroppable b.hasOutputtedKey e.key.sequence) :
      SingleRule after { b with input := more }
  | keepForConflicts {next more} (behind : Behind e after next more)
      (near : prev = 0 ∨ prev < next.key.sequence)
      (late : cfg.earliestWriteConflictSnapshot < e.key.sequence) :
      SingleRule after { keepSingleDelete { b with input := after } e.key e.value
        .kKeepSDForConflictCheck with clearAndOutputNextKey := true }
  | keepForSnapshot {next more} (behind : Behind e after next more)
      (far : ¬(prev = 0 ∨ prev < next.key.sequence)) :
      SingleRule after (keepSingleDelete { b with input := after } e.key e.value .kKeepSDForSnapshot)

theorem dropWhile_sentinels {e : Entry κ V}
    (points : ∀ r ∈ rest, r.isDeleteRangeSentinelKey = false) : (rest.dropWhile fun next =>
      next.isDeleteRangeSentinelKey && next.key.userKey = e.key.userKey) = rest := by
  cases rest with
  | nil => rfl
  | cons next more => simp [points next (by simp)]

/-- What the rules do with an entry `e` that is neither hidden nor the put of a
kept `SingleDelete`. -/
inductive Rule (rest : List (Entry κ V)) : State κ V δ → Prop
  | single {after st} (type : e.key.type = .kTypeSingleDeletion)
      (passed : after = rest.dropWhile fun next =>
        next.isDeleteRangeSentinelKey && next.key.userKey = e.key.userKey)
      (rule : SingleRule cfg prev e b after st) : Rule rest st
  | obsolete (type : e.key.type = .kTypeDeletion) (obsolete : Obsolete cfg e) :
      Rule rest { b with input := rest }
  | covered (deleted : (cfg.shouldDelete b.rangeDelAgg e.key).1) :
      Rule rest { b with rangeDelAgg := (cfg.shouldDelete b.rangeDelAgg e.key).2, input := rest }
  | dropDelete (type : e.key.type = .kTypeDeletion) (bottommost : cfg.bottommostLevel)
      (last : ∀ next ∈ (rest.dropWhile (inStripe prev e)).head?, next.key.userKey ≠ e.key.userKey) :
      Rule rest { b with input := rest.dropWhile (inStripe prev e) }
  | keepDelete (type : e.key.type = .kTypeDeletion) (bottommost : cfg.bottommostLevel) :
      Rule rest { b with
        input := rest.dropWhile (inStripe prev e)
        out := some ⟨e.key, e.value, false, .kKeepDel⟩
        atNext := true }
  | swap {agg value saved} (type : e.key.type = .kTypeValuePreferredSeqno)
      (early : e.key.sequence ≤ cfg.earliestSnapshot)
      (absent : cfg.bottommostLevel ∨ cfg.keyNotExistsBeyondOutputLevel e.key.userKey) :
      Rule rest { b with
        rangeDelAgg := agg
        savedSeqForPenulCheck := saved
        out := some ⟨⟨e.key.userKey, if e.key.sequence ≠ 0 then
          (cfg.format.parsePackedValueWithSeqno e.value).2 else e.key.sequence, .kTypeValue⟩, value,
          false, .kSwapPreferredSeqno⟩ }
  | merge (type : e.key.type = .kTypeMerge) : Rule rest (mergeEntry cfg b (e :: rest) prev)
  | keep {agg} (notSingle : e.key.type ≠ .kTypeSingleDeletion) :
      Rule rest { b with rangeDelAgg := agg, out := some ⟨e.key, e.value, false, .kNewUserKey⟩ }

variable {cfg prev e b} {st : State κ V δ}

private theorem singleDelete_rule (after : List (Entry κ V)) :
    SingleRule cfg prev e b after (singleDelete cfg { b with input := after } e.key e.value prev) := by
  have last (last : ∀ next ∈ after.head?, next.key.userKey ≠ e.key.userKey) : SingleRule cfg prev e b
      after (singleDelete.lastSingleDelete cfg e.key e.value { b with input := after }) := by
    unfold singleDelete.lastSingleDelete
    dsimp only
    split
    case isTrue obsolete => exact .forget last (.inl obsolete)
    case isFalse needed =>
      split
      case isTrue zeroed => exact .forget last (.inr zeroed)
      case isFalse => exact .keepLast last needed
  unfold singleDelete
  split
  case h_2 shape => exact last (by simp_all)
  case h_1 next more shape =>
    split
    case isFalse other => exact last (by simp_all)
    case isTrue sameKey =>
      have behind : Behind e after next more := ⟨shape, sameKey⟩
      split
      case isTrue zeroed => exact .zeroed behind zeroed
      case isFalse =>
        split
        case isFalse far => exact .keepForSnapshot behind far
        case isTrue near =>
          split
          case isTrue single => exact .repeated behind near (by simp [isTombstone, single])
          case isFalse =>
            split
            case isTrue delete =>
              have marker : isTombstone next.key.type := by simp [isTombstone, delete]
              split
              · exact .repeated behind near marker
              · exact .repeated behind near marker
            case isFalse =>
              split
              case isTrue droppable => exact .pair behind near droppable
              case isFalse needed =>
                simp only [Config.singleDeleteDroppable, Bool.or_eq_true, decide_eq_true_eq, not_or, not_le] at needed
                exact .keepForConflicts behind near needed.1.2

/-- Rule (A) takes an entry for hidden: it shares its snapshot with what is
remembered of its user key. -/
def Hidden (cfg : Config κ V δ) (st : State κ V δ) (ikey : InternalKey κ) : Prop :=
  let lastSnapshot := (enterKey st ikey.userKey).currentUserKeySnapshot
  let snapshot := (cfg.visibleSnapshot ikey.sequence).1
  st.clearAndOutputNextKey = false ∧ ikey.type ≠ .kTypeSingleDeletion ∧
    (lastSnapshot = snapshot ∨ (0 < lastSnapshot ∧ lastSnapshot < snapshot))

instance (cfg : Config κ V δ) (st : State κ V δ) (ikey : InternalKey κ) : Decidable (Hidden cfg st ikey) :=
  inferInstanceAs (Decidable (_ ∧ _ ∧ _))

theorem beginEntry_fields (cfg : Config κ V δ) (st : State κ V δ) (k : InternalKey κ) :
    (beginEntry cfg st k).currentUserKey = some k.userKey ∧
    (beginEntry cfg st k).currentUserKeySequence = k.sequence ∧
    (beginEntry cfg st k).currentUserKeySnapshot = stripe cfg.snapshots k.sequence ∧
    (beginEntry cfg st k).clearAndOutputNextKey = st.clearAndOutputNextKey := by
  simp [beginEntry, enterKey_eq, visibleSnapshot_eq]

/-- **All that an iteration at a point entry can do.** -/
theorem processEntry_cases (cfg : Config κ V δ) (st : State κ V δ) (rest : List (Entry κ V))
    (isPoint : e.isDeleteRangeSentinelKey = false) :
    st.clearAndOutputNextKey = true ∧ processEntry cfg st e rest =
        clearPut cfg (beginEntry cfg st e.key) e.key (enterKey st e.key.userKey).currentUserKeySnapshot ∨
      Hidden cfg st e.key ∧ processEntry cfg st e rest =
        { (beginEntry cfg st e.key).logFatal
            ((enterKey st e.key.userKey).currentUserKeySequence < e.key.sequence)
            .lastSequenceBelowSequence with input := rest } ∨
      st.clearAndOutputNextKey = false ∧ ¬Hidden cfg st e.key ∧
        Rule cfg (prevSnapshot cfg.snapshots e.key.sequence) e (beginEntry cfg st e.key) rest
          (processEntry cfg st e rest) := by
  obtain ⟨-, -, snapshot, clearSame⟩ := beginEntry_fields cfg st e.key
  have visible := visibleSnapshot_eq cfg e.key.sequence
  unfold processEntry Hidden
  rw [if_neg (by simp [isPoint]), visible]
  unfold processPoint
  dsimp only
  split
  case isTrue clear => exact .inl ⟨clearSame.symm.trans clear, rfl⟩
  case isFalse notClear =>
    replace notClear : st.clearAndOutputNextKey = false := by simpa [clearSame] using notClear
    refine .inr ?_
    split
    case isTrue single =>
      exact .inr ⟨notClear, by simp [single], .single single rfl (singleDelete_rule _)⟩
    case isFalse notSingle =>
      split
      case isTrue same => exact .inl ⟨⟨notClear, notSingle, snapshot ▸ same⟩, rfl⟩
      case isFalse different =>
        refine .inr ⟨notClear, fun hidden => different (snapshot ▸ hidden.2.2), ?_⟩
        split
        case isTrue obsolete => exact .obsolete obsolete.1 obsolete.2
        case isFalse =>
          split
          case isTrue delete =>
            unfold bottommostDelete
            dsimp only
            split
            case h_1 next more shape =>
              have shape : rest.dropWhile (inStripe _ e) = next :: more := shape
              split
              case isTrue => exact .keepDelete delete.1 delete.2
              case isFalse other => exact .dropDelete delete.1 delete.2 (by simpa [shape] using other)
            case h_2 shape =>
              have shape : rest.dropWhile (inStripe _ e) = [] := shape
              exact .dropDelete delete.1 delete.2 (by simp [shape])
          case isFalse =>
            split
            case isTrue timed =>
              unfold swapPreferredSeqno
              dsimp only
              split
              case isTrue deleted => exact .covered deleted
              case isFalse =>
                split
                · exact .keep notSingle
                · exact .swap timed.1 timed.2.1 timed.2.2
            case isFalse =>
              split
              case isTrue isMerge => exact .merge isMerge
              case isFalse =>
                unfold newUserKey
                dsimp only
                split
                case isTrue deleted => exact .covered deleted
                case isFalse => exact .keep notSingle

end Rules

/-! ## One iteration -/

/-- An iteration at `e` moves on in the input, unless a merge fails, and
remembers `e` or nothing. If it asks for the next value to be cleared, then the
next entry is one of the same user key. -/
structure Passes (e : Entry κ V) (rest : List (Entry κ V)) (b st : State κ V δ) : Prop where
  moved : (e.key.type = .kTypeMerge ∧ st.out = none ∧ st.status ≠ .ok) ∨ Skips e rest (unread st)
  idle : st.out = none → st.status = .ok → st.atNext = false ∧ st.mergeOut = []
  room : st.mergeOut ≠ [] → st.mergeOut.length + st.input.length ≤ rest.length + 1
  current : st.currentUserKey = some e.key.userKey ∨ st.currentUserKey = none
  sequence : st.currentUserKeySequence = b.currentUserKeySequence
  snapshot : st.currentUserKeySnapshot = b.currentUserKeySnapshot
  clearing : st.clearAndOutputNextKey = true → st.currentUserKey = some e.key.userKey ∧
    ∃ next more, unread st = next :: more ∧ next.key.userKey = e.key.userKey
  plain : e.key.type ≠ .kTypeMerge → st.mergeOut = []

section Iteration
variable [DecidableEq κ] {prev : Nat} {b : State κ V δ} {e : Entry κ V} {rest after : List (Entry κ V)}
  (reading : Reading b e rest) (notClear : b.clearAndOutputNextKey = false)
include reading notClear

omit [DecidableEq κ] in
/-- A rule that drops input. -/
theorem drop_passes (skips : Skips e rest after) (isKey : key = some e.key.userKey ∨ key = none) :
    Passes e rest b { b with input := after, rangeDelAgg := agg, currentUserKey := key, status := status } :=
  ⟨.inr (by simpa [unread, reading.out] using skips), fun _ _ => ⟨reading.atNext, reading.mergeOut⟩,
    by simp [reading.mergeOut], isKey, rfl, rfl, by simp [notClear], fun _ => reading.mergeOut⟩

omit [DecidableEq κ] in
/-- A rule that outputs one entry. -/
theorem output_passes (skips : Skips e rest (if atNext then after else after.tail))
    (isKey : key = some e.key.userKey ∨ key = none) :
    Passes e rest b { b with
      input := after
      rangeDelAgg := agg
      currentUserKey := key
      savedSeqForPenulCheck := saved
      out := some ⟨k, value, false, context⟩
      atNext := atNext } := by
  refine ⟨.inr ?_, by simp, by simp [reading.mergeOut], isKey, rfl, rfl, by simp [notClear],
    fun _ => reading.mergeOut⟩
  cases atNext <;> simpa [unread, reading.mergeOut] using skips

private theorem mergeEntry_passes (current : b.currentUserKey = some e.key.userKey)
    (isPoint : e.isDeleteRangeSentinelKey = false) (isMerge : e.key.type = .kTypeMerge) :
    Passes e rest b (mergeEntry cfg b (e :: rest) prev) := by
  unfold mergeEntry
  split
  · exact ⟨.inl ⟨isMerge, reading.out, by simp⟩, by simp, by simp [reading.mergeOut], .inl current, rfl,
      rfl, by simp [notClear], fun _ => reading.mergeOut⟩
  case h_2 op _ =>
    obtain ⟨consumed, split, merged, within⟩ := mergeUntil_merged
      ⟨cfg.format, op, cfg.shouldDelete, prev, cfg.bottommostLevel⟩ isPoint isMerge b.rangeDelAgg rest
    generalize mergeUntil _ b.rangeDelAgg (e :: rest) = result at split merged ⊢
    have skips : Skips e rest result.input := ⟨consumed, split, fun c member c_point => (within c member c_point).1⟩
    have room : result.output.length + result.input.length ≤ rest.length + 1 := by
      have outputs := merged.sublist.length_le
      have points : (pointPositions consumed).length ≤ consumed.length := by
        simpa [pointPositions] using length_filter_le _ consumed
      simp only [length_map, length_cons] at outputs
      simp only [split, length_append]
      omega
    have notPlain (other : e.key.type ≠ .kTypeMerge) : result.output = [] := absurd isMerge other
    dsimp only
    split
    case isTrue failed =>
      exact ⟨.inl ⟨isMerge, reading.out, failed.1⟩, fun _ good => absurd good failed.1, fun _ => room,
        .inl current, rfl, rfl, by simp [notClear], notPlain⟩
    case isFalse =>
      split
      case h_1 found =>
        exact ⟨.inr (by simpa [unread, found] using skips), by simp, fun _ => room, .inl current, rfl,
          rfl, by simp [notClear], notPlain⟩
      case h_2 found =>
        exact ⟨.inr (by simpa [unread, reading.out] using skips), fun _ _ => ⟨reading.atNext, found⟩,
          fun _ => room, .inr rfl, rfl, rfl, by simp [notClear], notPlain⟩

/-- Every rule passes its entry. -/
theorem Rule.passes (rule : Rule cfg prev e b rest st)
    (current : b.currentUserKey = some e.key.userKey) (isPoint : e.isDeleteRangeSentinelKey = false) :
    Passes e rest b st := by
  have here := Skips.refl e rest
  have keptHere : Skips e rest (if b.atNext then b.input else b.input.tail) := by
    simpa [reading.atNext, reading.input] using here
  have stripe : Skips e rest (rest.dropWhile (inStripe prev e)) :=
    Skips.dropWhile rest _ fun r holds => by simp_all [inStripe]
  cases rule with
  | obsolete | covered => exact drop_passes reading notClear here (.inl current)
  | dropDelete => exact drop_passes reading notClear stripe (.inl current)
  | keepDelete => exact output_passes reading notClear stripe (.inl current)
  | swap | keep => exact output_passes reading notClear keptHere (.inl current)
  | merge type => exact mergeEntry_passes reading notClear current isPoint type
  | @single after _ _ passed rule =>
    have skips : Skips e rest after := passed ▸ Skips.dropWhile rest _ fun _ _ => by simp_all
    cases rule with
    | forget => exact drop_passes reading notClear skips (.inr rfl)
    | keepLast => exact output_passes reading notClear skips (.inr rfl)
    | repeated => exact drop_passes reading notClear skips (.inl current)
    | zeroed behind | pair behind =>
      exact drop_passes reading notClear ((behind.shape ▸ skips).next behind.sameKey) (.inl current)
    | keepForSnapshot => exact output_passes reading notClear skips (.inl current)
    | @keepForConflicts next more behind =>
      have kept : Passes e rest b (keepSingleDelete { b with input := after } e.key e.value
          .kKeepSDForConflictCheck) := output_passes reading notClear skips (.inl current)
      refine ⟨kept.moved, kept.idle, kept.room, kept.current, rfl, rfl, fun _ => ?_, kept.plain⟩
      exact ⟨current, next, more, by simp [unread, keepSingleDelete, reading.mergeOut, behind.shape], behind.sameKey⟩

end Iteration

/-- Whatever the rule, the iteration passes its entry. -/
theorem processEntry_passes [DecidableEq κ] (cfg : Config κ V δ) (reading : Reading st e rest)
    (isPoint : e.isDeleteRangeSentinelKey = false) :
    Passes e rest (beginEntry cfg st e.key) (processEntry cfg st e rest) := by
  have begun := beginEntry_reading cfg reading
  obtain ⟨current, -, -, clearSame⟩ := beginEntry_fields cfg st e.key
  have skips := Skips.refl e rest
  rcases processEntry_cases cfg st rest isPoint with ⟨-, eq⟩ | ⟨hidden, eq⟩ | ⟨notClear, -, rule⟩
  · rw [eq]
    constructor
    case moved =>
      exact .inr (by simpa [unread, clearPut, begun.mergeOut, begun.atNext, begun.input] using skips)
    all_goals simp [clearPut, current, begun.mergeOut]
  · rw [eq]
    constructor
    case moved => exact .inr (by simpa [unread, begun.out] using skips)
    all_goals simp [current, begun.mergeOut, begun.atNext, clearSame, hidden.1]
  · exact rule.passes begun (clearSame.trans notClear) current isPoint

end Rocksdb.CompactionSteps
