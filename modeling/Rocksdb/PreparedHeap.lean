import Mathlib.Data.List.Sort
import Rocksdb.DbFormat

/-! The prepared sequence numbers of `WritePreparedTxnDB::PreparedHeap`
(`utilities/transactions/write_prepared_txn_db.h`). They are pushed in ascending order, and an erased
one that is not at the front is remembered until it gets there. -/
namespace Rocksdb
open List

/-- The queue `heap_`, `erased_heap_` in ascending order and `heap_top_`. -/
structure PreparedHeap where
  heap : List Nat
  erasedHeap : List Nat
  heapTop : Nat

namespace PreparedHeap

def new : PreparedHeap := ⟨[], [], kMaxSequenceNumber⟩

def top (h : PreparedHeap) : Nat := h.heapTop

def empty (h : PreparedHeap) : Bool := h.top = kMaxSequenceNumber

def push (h : PreparedHeap) (v : Nat) : PreparedHeap :=
  { h with heap := h.heap ++ [v], heapTop := if h.heap.isEmpty then v else h.heapTop }

/-- The two loops of `pop`: erased numbers leave with the front, and all when the queue is empty. -/
def dropErased : List Nat → List Nat → List Nat × List Nat
  | front :: heap, erased :: rest =>
    if erased ≤ front then dropErased (if front = erased then heap else front :: heap) rest
    else (front :: heap, erased :: rest)
  | heap, erased => (heap, if heap.isEmpty then [] else erased)

def pop (h : PreparedHeap) : PreparedHeap :=
  let left := dropErased h.heap.tail h.erasedHeap
  ⟨left.1, left.2, left.1.headD kMaxSequenceNumber⟩

def erase (h : PreparedHeap) (seq : Nat) : PreparedHeap :=
  if h.empty then h
  else if seq < h.top then h
  else if h.top = seq then h.pop
  else { h with erasedHeap := h.erasedHeap.orderedInsert (· ≤ ·) seq }

/-- The heaps that calls lead to, with a bound of what was pushed and what of it is left. -/
inductive Reached : PreparedHeap → Nat → Finset Nat → Prop
  | new : Reached .new 0 ∅
  | push : Reached h bound live → bound ≤ v → Reached (h.push v) (v + 1) (insert v live)
  | pop : Reached h bound live → live.Nonempty → Reached h.pop bound (live.erase h.top)
  | erase : Reached h bound live → seq ∈ live → Reached (h.erase seq) bound (live.erase seq)

structure Inv (h : PreparedHeap) (bound : Nat) (live : Finset Nat) : Prop where
  sorted : h.heap.Pairwise (· < ·)
  bounded : ∀ x ∈ h.heap, x < bound
  ascending : h.erasedHeap.Pairwise (· ≤ ·)
  nodup : h.erasedHeap.Nodup
  within : ∀ e ∈ h.erasedHeap, e ∈ h.heap ∧ h.heapTop < e
  front : h.heapTop = h.heap.headD kMaxSequenceNumber
  members : ∀ x, x ∈ live ↔ x ∈ h.heap ∧ x ∉ h.erasedHeap

private theorem dropErased_spec (sorted : queue.Pairwise (· < ·)) (ascending : erased.Pairwise (· ≤ ·))
    (nodup : erased.Nodup)
    (within : ∀ e ∈ erased, e ∈ queue) :
    let left := dropErased queue erased
    left.1.Sublist queue ∧ left.2.Sublist erased ∧
      (∀ e ∈ left.2, e ∈ left.1 ∧ left.1.headD kMaxSequenceNumber < e) ∧
      ∀ x, x ∈ left.1 ∧ x ∉ left.2 ↔ x ∈ queue ∧ x ∉ erased := by
  induction erased generalizing queue with
  | nil => cases queue <;> simp [dropErased]
  | cons e erased ih =>
    obtain ⟨first, ascending⟩ := pairwise_cons.mp ascending
    obtain ⟨new, nodup⟩ := nodup_cons.mp nodup
    cases queue with
    | nil => exact absurd (within e mem_cons_self) not_mem_nil
    | cons front queue =>
      obtain ⟨before, sortedRest⟩ := pairwise_cons.mp sorted
      rcases mem_cons.mp (within e mem_cons_self) with rfl | later
      · obtain ⟨queues, erases, ahead, same⟩ := ih sortedRest ascending nodup (by grind)
        rw [dropErased, if_pos le_rfl, if_pos rfl]
        exact ⟨queues.cons _, erases.cons _, ahead, fun x => (same x).trans (by grind)⟩
      · have below := before e later
        rw [dropErased, if_neg (not_le.mpr below)]
        exact ⟨.refl _, .refl _, by grind, fun _ => .rfl⟩

variable {h : PreparedHeap} {bound : Nat} {live : Finset Nat}

section
variable (inv : Inv h bound live)
include inv

/-- Nothing is left, or the front is, and is the least. -/
theorem front_cases : live = ∅ ∧ h.heapTop = kMaxSequenceNumber ∨
    ∃ rest, h.heap = h.heapTop :: rest ∧ h.heapTop ∈ live ∧ ∀ x ∈ live, h.heapTop ≤ x := by
  obtain ⟨sorted, -, -, -, within, front, members⟩ := inv
  cases heap : h.heap with
  | nil => exact .inl ⟨by ext x; simp [members, heap], by rw [front, heap]; rfl⟩
  | cons x rest =>
    rw [heap] at front sorted
    obtain rfl : h.heapTop = x := front
    obtain ⟨before, -⟩ := pairwise_cons.mp sorted
    exact .inr ⟨rest, rfl, by grind, by grind⟩

private theorem inv_push (le : bound ≤ v) : Inv (h.push v) (v + 1) (insert v live) := by
  obtain ⟨sorted, bounded, ascending, nodup, within, front, members⟩ := inv
  unfold push
  refine ⟨pairwise_append.mpr ⟨sorted, pairwise_singleton _ _, by grind⟩, by grind, ascending,
    nodup, by grind, ?_, by grind⟩
  cases heap : h.heap <;> simp_all

theorem inv_pop (nonempty : live.Nonempty) : Inv h.pop bound (live.erase h.heapTop) := by
  obtain ⟨rest, heap, -⟩ := (front_cases inv).resolve_left fun none => nonempty.ne_empty none.1
  obtain ⟨sorted, bounded, ascending, nodup, within, -, members⟩ := inv
  rw [heap] at sorted bounded within members
  obtain ⟨before, sorted⟩ := pairwise_cons.mp sorted
  obtain ⟨heaps, erases, ahead, same⟩ := dropErased_spec sorted ascending nodup (by grind)
  rw [pop, heap, tail_cons]
  refine ⟨sorted.sublist heaps, fun x member => bounded x (mem_cons_of_mem _ (heaps.subset member)),
    ascending.sublist erases, nodup.sublist erases, ahead, rfl, fun x => ?_⟩
  rw [same, Finset.mem_erase, members]
  grind

private theorem inv_erase (small : bound ≤ kMaxSequenceNumber) (member : seq ∈ live) :
    Inv (h.erase seq) bound (live.erase seq) := by
  obtain ⟨rest, heap, -, least⟩ := (front_cases inv).resolve_left fun none => Finset.ne_empty_of_mem member none.1
  have popped := inv_pop inv ⟨seq, member⟩
  obtain ⟨sorted, bounded, ascending, nodup, within, front, members⟩ := inv
  have below := bounded h.heapTop (heap ▸ mem_cons_self)
  have le := least seq member
  unfold erase empty top
  rw [if_neg (by rw [decide_eq_true_eq]; omega), if_neg (not_lt.mpr le)]
  split
  · next same => exact same ▸ popped
  · have perm := perm_orderedInsert (· ≤ ·) seq h.erasedHeap
    refine ⟨sorted, bounded, ascending.orderedInsert _ _, perm.nodup_iff.mpr (by grind), ?_, front, ?_⟩ <;>
      simp only [perm.mem_iff] <;> grind

end

theorem Reached.keeps (reached : Reached h bound live) (small : bound ≤ kMaxSequenceNumber) : Inv h bound live := by
  induction reached with
  | new => exact ⟨.nil, nofun, .nil, .nil, nofun, rfl, by simp [PreparedHeap.new]⟩
  | push _ le ih => exact inv_push (ih (by omega)) le
  | pop _ nonempty ih => exact inv_pop (ih small) nonempty
  | erase _ member ih => exact inv_erase (ih small) small member

/-- **The heap reports the minimum** of what was pushed and is left, if that is below `kMaxSequenceNumber`. -/
theorem Reached.top_least (reached : Reached h bound live) (small : bound ≤ kMaxSequenceNumber) :
    (h.empty = true ↔ live = ∅) ∧ (live.Nonempty → h.top ∈ live ∧ ∀ x ∈ live, h.top ≤ x) := by
  have inv := reached.keeps small
  unfold PreparedHeap.empty PreparedHeap.top
  rcases front_cases inv with ⟨none, top⟩ | ⟨rest, heap, member, least⟩
  · simp [none, top]
  · have below := inv.bounded h.heapTop (heap ▸ mem_cons_self)
    exact ⟨iff_of_false (by rw [decide_eq_true_eq]; omega) (Finset.ne_empty_of_mem member), fun _ => ⟨member, least⟩⟩

/-- A heap with the greatest sequence number in it reports to be empty. -/
theorem greatest_reported_empty : ∃ h bound live, Reached h bound live ∧ live.Nonempty ∧ h.empty = true :=
  ⟨_, _, _, .push .new (Nat.zero_le kMaxSequenceNumber), ⟨_, Finset.mem_insert_self _ _⟩, by decide⟩

/-- Of three numbers the second is erased, and leaves with the first. -/
theorem top_least_seven :
    let h := (((new.push 3).push 5).push 7).erase 5
    h.erasedHeap = [5] ∧ h.pop.heap = [7] ∧
      h.pop.top ∈ ((insert 7 (insert 5 (insert 3 ∅)) : Finset Nat).erase 5).erase h.top := by
  refine ⟨by decide, by decide,
    ((Reached.top_least (.pop (.erase (.push (.push (.push .new (Nat.zero_le 3)) ?_) ?_) ?_) ?_)
    ?_).2 ⟨7, ?_⟩).1⟩ <;> decide

end PreparedHeap

end Rocksdb
