import Mathlib.Algebra.Group.Nat.Defs

/-! Sampled times of sequence numbers (`db/seqno_to_time_mapping.cc`), oldest first. Numbers
and times are of 64 bits and are only compared, or subtracted from larger ones. The binary
searches of an ordered mapping are given by what they find, the first entry past a bound. -/
namespace Rocksdb
open List

structure SeqnoTimePair where
  seqno : Nat
  time : Nat
  deriving DecidableEq

structure SeqnoToTimeMapping where
  pairs : List SeqnoTimePair := []
  maxTimeSpan : Nat := 2 ^ 64 - 1
  capacity : Nat := 2 ^ 64 - 1
  /-- The pairs are sorted and within the limits. -/
  enforced : Bool := true
  deriving DecidableEq

namespace SeqnoToTimeMapping
variable (m : SeqnoToTimeMapping)

/-! ## Answers -/

/-- `std::upper_bound` by time, as an index. -/
def findGreaterTime (time : Nat) : Nat := m.pairs.findIdx (time < ·.time)

/-- `std::lower_bound` by sequence number. -/
def findGreaterEqSeqno (seqno : Nat) : Nat := m.pairs.findIdx (seqno ≤ ·.seqno)

def findGreaterSeqno (seqno : Nat) : Nat := m.pairs.findIdx (seqno < ·.seqno)

/-- The entry before an index, unless that is the beginning. -/
def before (pairs : List SeqnoTimePair) (it : Nat) : Option SeqnoTimePair := if it = 0 then none else pairs[it - 1]?

/-- Zero is `kUnknownTimeBeforeAll`. -/
def getProximalTimeBeforeSeqno (seqno : Nat) : Nat :=
  ((before m.pairs (m.findGreaterEqSeqno seqno)).map (·.time)).getD 0

/-- Zero is `kUnknownSeqnoBeforeAll`. -/
def getProximalSeqnoBeforeTime (time : Nat) : Nat :=
  ((before m.pairs (m.findGreaterTime time)).map (·.seqno)).getD 0

/-! ## Pruning and copying -/

/-- The cutoff of `EnforceMaxTimeSpan`, if there is anything to prune. -/
def cutoffTime (now : Nat) : Option Nat :=
  if m.pairs.length ≤ 1 then none
  else
    let now := if now > 0 then now else (m.pairs.getLast?.map (·.time)).getD 0
    if now < m.maxTimeSpan then none else some (now - m.maxTimeSpan)

/-- The loop of `EnforceMaxTimeSpan`. -/
def popOld (cutoffTime : Nat) : List SeqnoTimePair → List SeqnoTimePair
  | p :: q :: rest => if p.time ≤ cutoffTime ∧ q.time ≤ cutoffTime then popOld cutoffTime (q :: rest) else p :: q :: rest
  | pairs => pairs

def enforceMaxTimeSpan (now : Nat) : SeqnoToTimeMapping :=
  match m.cutoffTime now with
  | none => m
  | some cutoffTime => { m with pairs := popOld cutoffTime m.pairs }

def copyFromSeqnoRange (m src : SeqnoToTimeMapping) (fromSeqno toSeqno : Nat) : SeqnoToTimeMapping :=
  let it := src.findGreaterEqSeqno fromSeqno
  let itEnd := if toSeqno < fromSeqno then it else src.findGreaterSeqno toSeqno
  { m with
    pairs := m.pairs ++ (src.pairs.take itEnd).drop (it - 1)
    enforced := m.enforced && m.pairs.isEmpty && 2 ^ 64 - 1 ≤ m.maxTimeSpan && 2 ^ 64 - 1 ≤ m.capacity }

/-! ## Answers that matter -/

/-- A popped entry has another one behind it that is early enough. -/
theorem before_popOld (after : cutoff ≤ time) (pairs : List SeqnoTimePair) :
    before (popOld cutoff pairs) ((popOld cutoff pairs).findIdx (time < ·.time)) =
      before pairs (pairs.findIdx (time < ·.time)) := by
  fun_induction popOld cutoff pairs with
  | case1 p q _ _ ih =>
    have early : ¬time < p.time := by omega
    have next : ¬time < q.time := by omega
    rw [ih]
    simp [findIdx_cons, early, next, before]
  | case2 | case3 => rfl

/-- The entry before an index is found in a part of the list that holds both. -/
theorem before_part {pairs : List SeqnoTimePair} (inside : k < pairs.findIdx p ∨ k = 0) (stop : pairs.findIdx p ≤ n) :
    before ((pairs.take n).drop k) (((pairs.take n).drop k).findIdx p) = before pairs (pairs.findIdx p) := by
  have bound : pairs.findIdx p ≤ pairs.length := findIdx_le_length
  have index : ((pairs.take n).drop k).findIdx p = pairs.findIdx p - k := by
    have whole := @findIdx_append _ p ((pairs.take n).take k) ((pairs.take n).drop k)
    simp only [take_append_drop, findIdx_take, length_take] at whole
    rw [if_neg (by omega)] at whole
    omega
  rw [index, before, before]
  by_cases first : pairs.findIdx p = 0
  · rw [if_pos (by omega), if_pos first]
  · rw [if_neg (by omega), if_neg first, getElem?_drop, getElem?_take, if_pos (by omega)]
    congr 1
    omega

/-- **Pruning and copying keep the answers that matter**: those for times from the cutoff on, and
those for sequence numbers of the range. -/
theorem pruned_answers (m : SeqnoToTimeMapping) :
    (∀ now time, (∀ cutoff ∈ m.cutoffTime now, cutoff ≤ time) →
      (m.enforceMaxTimeSpan now).getProximalSeqnoBeforeTime time = m.getProximalSeqnoBeforeTime time) ∧
    ∀ fromSeqno toSeqno seqno, fromSeqno ≤ seqno → seqno ≤ toSeqno →
      let copy := copyFromSeqnoRange {} m fromSeqno toSeqno
      copy.enforced = true ∧ copy.getProximalTimeBeforeSeqno seqno = m.getProximalTimeBeforeSeqno seqno := by
  refine ⟨fun _ _ after => ?_, fun fromSeqno toSeqno seqno _ _ => ⟨rfl, ?_⟩⟩
  · unfold enforceMaxTimeSpan
    split
    · rfl
    · next cutoff isCutoff =>
      exact congrArg (fun p => (Option.map SeqnoTimePair.seqno p).getD 0) (before_popOld (after cutoff isCutoff) m.pairs)
  · have start : m.findGreaterEqSeqno fromSeqno ≤ m.findGreaterEqSeqno seqno :=
      findIdx_le_findIdx fun p _ late => by simp at late ⊢; omega
    have stop : m.findGreaterEqSeqno seqno ≤ m.findGreaterSeqno toSeqno :=
      findIdx_le_findIdx fun _ _ late => by simp at late ⊢; omega
    have part := before_part (k := m.findGreaterEqSeqno fromSeqno - 1) (by unfold findGreaterEqSeqno at *; omega) stop
    simp only [getProximalTimeBeforeSeqno, findGreaterEqSeqno, copyFromSeqnoRange,
      if_neg (by omega : ¬toSeqno < fromSeqno),
      nil_append] at part ⊢
    rw [part]

theorem pruned_answers_of_three :
    let m : SeqnoToTimeMapping := { pairs := [⟨10, 500⟩, ⟨20, 600⟩, ⟨30, 700⟩], maxTimeSpan := 50 }
    (m.enforceMaxTimeSpan 0).getProximalSeqnoBeforeTime 650 = 20 ∧
      (copyFromSeqnoRange {} m 15 25).getProximalTimeBeforeSeqno 21 = 600 :=
  ⟨(pruned_answers _).1 0 650 (by decide), ((pruned_answers _).2 15 25 21 (by decide) (by decide)).2⟩

end SeqnoToTimeMapping

end Rocksdb
