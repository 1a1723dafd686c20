import Rocksdb.CoalesceColumns

/-! The coalescing iterator is a cursor over the union of its column families. All that
is said about moving forward with the minimum heap holds for moving backward with the
maximum heap, so lists are turned round and the proofs are about one direction. -/
namespace Rocksdb.MultiCf
open Heaps Lib.Cursor Lib.LittleEndian Lib.SortedLists List

variable {κ : Type} [LinearOrder κ] {e : Entry κ} {call : Call κ}

/-! ## Directions -/

namespace HeapType
variable {α : Type} [LinearOrder α] (t : HeapType) {a b : α}

/-- The order in which an iterator with this heap moves. -/
def before (a b : α) : Prop :=
  match t with
  | .min => a < b
  | .max => b < a

instance : DecidableRel (t.before (α := α)) := fun a b =>
  match t with
  | .min => inferInstanceAs (Decidable (a < b))
  | .max => inferInstanceAs (Decidable (b < a))

theorem before_trans (first : t.before a b) (second : t.before b c) : t.before a c := by
  cases t with
  | min => exact lt_trans first second
  | max => exact lt_trans second first

theorem before_asymm (first : t.before a b) : ¬t.before b a := by
  cases t with
  | min => exact lt_asymm first
  | max => exact lt_asymm first

theorem before_irrefl (a : α) : ¬t.before a a := fun self => t.before_asymm self self

theorem before_total (a b : α) : a = b ∨ t.before a b ∨ t.before b a := by
  cases t with
  | min => exact (lt_trichotomy a b).elim (.inr ∘ .inl) fun rest => rest.elim .inl (.inr ∘ .inr)
  | max => exact (lt_trichotomy a b).elim (.inr ∘ .inr) fun rest => rest.elim .inl (.inr ∘ .inl)

theorem before_coe (t : HeapType) {a b : κ} : t.before (a : WithBot κ) (b : WithBot κ) ↔ t.before a b := by
  cases t with
  | min => exact WithBot.coe_lt_coe
  | max => exact WithBot.coe_lt_coe

/-- A list in the order of the moves. -/
def orient {β : Type} (l : List β) : List β :=
  match t with
  | .min => l
  | .max => l.reverse

theorem mem_orient {β : Type} {l : List β} {x : β} : x ∈ t.orient l ↔ x ∈ l := by
  cases t with
  | min => exact Iff.rfl
  | max => exact mem_reverse

theorem orient_sorted {β : Type} (key : β → α) {l : List β} (sorted : l.Pairwise fun x y => key x < key y) :
    (t.orient l).Pairwise fun x y => t.before (key x) (key y) := by
  cases t with
  | min => exact sorted
  | max => exact pairwise_reverse.mpr sorted

end HeapType

/-! ## Calls -/

/-- The heap of a call. -/
def heapTypeOf : Call κ → HeapType
  | .seekToFirst | .seek _ | .next => .min
  | .seekToLast | .seekForPrev _ | .prev => .max

/-- The keys that a seek may land on. -/
def reach : Call κ → κ → Bool
  | .seek target, k => target ≤ k
  | .seekForPrev target, k => k ≤ target
  | _, _ => true

/-- The call that goes on in the direction of the heap. -/
def HeapType.advance : HeapType → Call κ
  | .min => .next
  | .max => .prev

def isSeek : Call κ → Bool
  | .next | .prev => false
  | _ => true

/-- A cursor over a list sorted by keys. -/
def keyed {α : Type} (key : α → κ) (l : List α) : Tracks α κ where
  forward := l
  backward := l
  before a b := key a < key b
  atOrAfter target a := target ≤ key a
  atOrBefore target a := key a ≤ target

section Keyed
variable {α : Type} {key : α → κ} {l : List α} {here : Option α}

theorem keyed_seek (seeks : isSeek call = true) :
    (keyed key l).step here call = ((heapTypeOf call).orient l).find? (reach call <| key ·) := by
  cases call with
  | seekToFirst => exact head?_eq_find? l
  | seekToLast => exact head?_reverse.symm.trans (head?_eq_find? l.reverse)
  | seek => rfl
  | seekForPrev => rfl
  | next => cases seeks
  | prev => cases seeks

theorem keyed_advance (t : HeapType) :
    (keyed key l).step here t.advance = here.bind fun x => (t.orient l).find? fun y => t.before (key x) (key y) := by
  cases t with
  | min => rfl
  | max => rfl

end Keyed

/-- Landing places that are closed in the direction of the moves. -/
def Upper (t : HeapType) (p : κ → Bool) : Prop := ∀ a b, p a = true → t.before a b → p b = true

private theorem upper_reach (call : Call κ) : Upper (heapTypeOf call) (reach call) := by
  intro _ _ reached before
  cases call with
  | seek => exact decide_eq_true ((of_decide_eq_true reached).trans before.le)
  | seekForPrev => exact decide_eq_true (before.le.trans (of_decide_eq_true reached))
  | _ => rfl

private theorem upper_before (t : HeapType) (k : κ) : Upper t fun x => decide (t.before k x) :=
  fun _ _ first second => decide_eq_true (t.before_trans (of_decide_eq_true first) second)

/-! ## The union -/

/-- The user keys of the families, in order. -/
def unionKeys (families : List (Family κ)) : List κ :=
  sortedUnion (families.flatMap fun f => f.entries.map Entry.key)

/-- The cursor over the union. -/
def unionTracks (families : List (Family κ)) : Tracks κ κ := keyed id (unionKeys families)

theorem mem_unionKeys {families : List (Family κ)} {k : κ} :
    k ∈ unionKeys families ↔ ∃ f ∈ families, ∃ e ∈ f.entries, e.key = k := by
  simp [unionKeys, mem_sortedUnion]

section Landing
variable {families : List (Family κ)} {f : Family κ} {t : HeapType} {p : κ → Bool} {k : κ}

/-- The entry of a family where its iterator stands when all of them have moved to the first place in `p`. -/
def Family.landing (f : Family κ) (t : HeapType) (p : κ → Bool) : Option (Entry κ) :=
  (t.orient f.entries).find? (p ·.key)

/-- At a key or after it. -/
def HeapType.atOrAfter (t : HeapType) (k x : κ) : Bool := !decide (t.before x k)

private theorem landing_eq_none (nothing : (t.orient (unionKeys families)).find? p = none) (member : f ∈ families) :
    f.landing t p = none := by
  refine find?_eq_none.mpr fun e inside => ?_
  have inUnion : e.key ∈ unionKeys families := mem_unionKeys.mpr ⟨f, member, e, t.mem_orient.mp inside, rfl⟩
  exact find?_eq_none.mp nothing e.key (t.mem_orient.mpr inUnion)

/-- Where the cursor over the union lands decides where the iterators are. -/
theorem landing_eq_atOrAfter (upper : Upper t p) (landed : (t.orient (unionKeys families)).find? p = some k)
    (member : f ∈ families) : f.landing t p = f.landing t (t.atOrAfter k) := by
  refine find?_congr fun e inside => ?_
  have inUnion : e.key ∈ unionKeys families := mem_unionKeys.mpr ⟨f, member, e, t.mem_orient.mp inside, rfl⟩
  have sorted : (t.orient (unionKeys families)).Pairwise t.before := t.orient_sorted id (sortedUnion_sorted _)
  have reached : p k = true := find?_some landed
  rw [Bool.eq_iff_iff, HeapType.atOrAfter, Bool.not_eq_true', decide_eq_false_iff_not]
  constructor
  · intro isMatch
    rcases find?_first sorted landed (t.mem_orient.mpr inUnion) isMatch with same | after
    · exact same ▸ t.before_irrefl _
    · exact t.before_asymm after
  · intro notBefore
    rcases t.before_total e.key k with same | before | after
    · exact same ▸ reached
    · exact absurd before notBefore
    · exact upper k e.key reached after

/-- From a key on, a family that has the key is at it. -/
theorem landing_atOrAfter_of_key (member : e ∈ f.entries) (key : e.key = k) :
    f.landing t (t.atOrAfter k) = some e := by
  refine find?_eq_first (t.orient_sorted Entry.key f.sorted) (t.mem_orient.mpr member) ?_ fun _ _ isMatch => ?_
  · simp [HeapType.atOrAfter, key, t.before_irrefl]
  · rw [key]
    simpa [HeapType.atOrAfter] using isMatch

theorem mem_of_landing (landed : f.landing t p = some e) : e ∈ f.entries ∧ p e.key = true :=
  ⟨t.mem_orient.mp (mem_of_find?_eq_some landed), by simpa using find?_some landed⟩

/-- A family that is not at the key is after it. -/
theorem landing_atOrAfter_eq_before (notHere : ∀ e, f.landing t (t.atOrAfter k) = some e → e.key ≠ k) :
    f.landing t (t.atOrAfter k) = f.landing t (fun x => decide (t.before k x)) := by
  refine find?_congr fun e inside => ?_
  have ne : e.key ≠ k := fun same => notHere e (landing_atOrAfter_of_key (t.mem_orient.mp inside) same) same
  rw [HeapType.atOrAfter, Bool.eq_iff_iff, Bool.not_eq_true', decide_eq_false_iff_not, decide_eq_true_iff]
  constructor
  · intro notBefore
    exact ((t.before_total e.key k).resolve_left ne).resolve_left notBefore
  · exact fun after => t.before_asymm after

end Landing

/-! ## The order of the items -/

section Items
variable (t : HeapType) (children : List (ChildIter κ))

theorem itemLess_eq_false_iff : itemLess t children i j = false ↔
    keyOf children i = keyOf children j ∧ i ≤ j ∨ t.before (keyOf children i) (keyOf children j) := by
  have split : itemLess t children i j = true ↔
      keyOf children i = keyOf children j ∧ j < i ∨ t.before (keyOf children j) (keyOf children i) := by
    unfold itemLess
    split
    · next same =>
      rw [same]
      simp [t.before_irrefl]
    · next ne => cases t <;> simp [ne, HeapType.before]
  rw [← Bool.not_eq_true, split, not_or, not_and, Nat.not_lt]
  rcases t.before_total (keyOf children i) (keyOf children j) with same | before | after
  · simp [same, t.before_irrefl]
  · have ne : keyOf children i ≠ keyOf children j := fun same => t.before_irrefl _ (same ▸ before)
    simp [ne, before, t.before_asymm before]
  · have ne : keyOf children i ≠ keyOf children j := fun same => t.before_irrefl _ (same ▸ after)
    simp [ne, after, t.before_asymm after]

theorem itemLess_weak : StrictWeak (itemLess t children) := by
  constructor
  · intro i j less
    have notFalse : itemLess t children i j ≠ false := by simp [less]
    rw [Ne, itemLess_eq_false_iff, not_or, not_and, Nat.not_le] at notFalse
    rw [itemLess_eq_false_iff]
    rcases t.before_total (keyOf children i) (keyOf children j) with same | before | after
    · exact .inl ⟨same.symm, (notFalse.1 same).le⟩
    · exact absurd before notFalse.2
    · exact .inr after
  · intro _ _ _ first second
    rw [itemLess_eq_false_iff] at first second ⊢
    rcases first with ⟨same, le⟩ | before <;> rcases second with ⟨same', le'⟩ | before'
    · exact .inl ⟨same.trans same', le.trans le'⟩
    · exact .inr (same ▸ before')
    · exact .inr (same' ▸ before)
    · exact .inr (t.before_trans before before')

end Items

namespace CoalescingIterator
variable {it it' : CoalescingIterator κ} {which : Nat → Prop}

/-! ## Moving one iterator -/

section StepChild
variable {i : Nat} {child : ChildIter κ}

theorem stepChild_getElem? : (it.stepChild call i).children[j]? =
    if i = j then it.children[j]?.map (ChildIter.step call) else it.children[j]? := by
  rw [stepChild, getElem?_modify]
  split
  · rfl
  · exact Option.map_id'

theorem entryOf_stepChild_of_ne (ne : j ≠ i) : entryOf (it.stepChild call i).children j = entryOf it.children j := by
  rw [entryOf, entryOf, stepChild_getElem?, if_neg (Ne.symm ne)]

theorem less_stepChild (a_ne : a ≠ i) (b_ne : b ≠ i) : (it.stepChild call i).less a b = it.less a b := by
  unfold less itemLess keyOf
  rw [entryOf_stepChild_of_ne a_ne, entryOf_stepChild_of_ne b_ne]
  rfl

private theorem entryOf_stepChild (call : Call κ) (found : it.children[i]? = some child) :
    entryOf (it.stepChild call i).children i = (child.step call).here := by
  rw [entryOf, stepChild_getElem?, if_pos rfl, found]
  rfl

end StepChild

/-! ## The heap of items -/

/-- The heap holds the items of valid iterators among `which`. -/
structure Filled (it : CoalescingIterator κ) (which : Nat → Prop) : Prop where
  valid : it.heap.Valid it.less
  nodup : it.heap.data.Nodup
  members : ∀ i, i ∈ it.heap.data ↔ which i ∧ (entryOf it.children i).isSome

theorem weak : StrictWeak it.less := itemLess_weak it.heapType it.children

variable {i : Nat}

theorem Filled.stepAndPush (filled : Filled it which) (call : Call κ) (notYet : ¬which i) :
    Filled (it.stepAndPush call i) fun j => which j ∨ j = i := by
  have absent : i ∉ it.heap.data := fun inside => notYet ((filled.members i).mp inside).1
  have valid : it.heap.Valid (it.stepChild call i).less := filled.valid.congr fun _ inside _ inside' =>
    less_stepChild (ne_of_mem_of_not_mem inside absent) (ne_of_mem_of_not_mem inside' absent)
  have others {j : Nat} (ne : j ≠ i) : j ∈ it.heap.data ↔
      (which j ∨ j = i) ∧ (entryOf (it.stepChild call i).children j).isSome := by
    rw [filled.members, entryOf_stepChild_of_ne ne]
    simp [ne]
  rw [CoalescingIterator.stepAndPush]
  split
  · next isValid =>
    obtain ⟨pushed, perm⟩ := BinaryHeap.push_spec weak valid i
    refine ⟨pushed, perm.nodup_iff.mpr (nodup_cons.mpr ⟨absent, filled.nodup⟩), fun j => ?_⟩
    change j ∈ ((BinaryHeap.push (it.stepChild call i).less it.heap i).data) ↔
      (which j ∨ j = i) ∧ (entryOf (it.stepChild call i).children j).isSome
    rw [perm.mem_iff, mem_cons]
    by_cases same : j = i
    · subst same
      simp [isValid]
    · rw [← others same]
      simp [same]
  · next isInvalid =>
    refine ⟨valid, filled.nodup, fun j => ?_⟩
    by_cases same : j = i
    · subst same
      simp only [isInvalid, Bool.false_eq_true, and_false, iff_false]
      exact absent
    · exact others same

theorem stepAndPush_children (call : Call κ) (i : Nat) :
    (it.stepAndPush call i).children = (it.stepChild call i).children := by
  rw [stepAndPush]
  split <;> rfl

theorem modify_families {f : ChildIter κ → ChildIter κ} (keeps : ∀ child, (f child).family = child.family)
    (children : List (ChildIter κ)) (i : Nat) :
    (children.modify i f).map ChildIter.family = children.map ChildIter.family := by
  refine ext_getElem? fun j => ?_
  rw [getElem?_map, getElem?_map, getElem?_modify]
  cases children[j]? with
  | none => rfl
  | some child =>
    split
    · exact congrArg some (keeps child)
    · rfl

theorem stepChild_families (call : Call κ) (i : Nat) :
    (it.stepChild call i).children.map ChildIter.family = it.children.map ChildIter.family :=
  modify_families (f := ChildIter.step call) (fun _ => rfl) _ _

/-- What moving iterators and the heap leaves alone. -/
structure Steady (it it' : CoalescingIterator κ) : Prop where
  families : it'.children.map ChildIter.family = it.children.map ChildIter.family
  allowUnpreparedValue : it'.allowUnpreparedValue = it.allowUnpreparedValue
  heapType : it'.heapType = it.heapType
  value : it'.value = it.value
  wideColumns : it'.wideColumns = it.wideColumns

theorem Steady.rfl : Steady it it := ⟨Eq.refl _, Eq.refl _, Eq.refl _, Eq.refl _, Eq.refl _⟩

theorem Steady.trans (first : Steady it it') (second : Steady it' it'') : Steady it it'' :=
  ⟨second.1.trans first.1, second.2.trans first.2, second.3.trans first.3, second.4.trans first.4,
    second.5.trans first.5⟩

theorem stepAndPush_steady (call : Call κ) (i : Nat) : Steady it (it.stepAndPush call i) := by
  refine ⟨by rw [stepAndPush_children, stepChild_families], ?_, ?_, ?_, ?_⟩ <;>
  · rw [stepAndPush]
    split <;> rfl

/-- The loop of `SeekCommon`. -/
theorem seekLoop_spec (call : Call κ) (start : CoalescingIterator κ) (empty : start.heap = .empty) (n : Nat) :
    let it := (range n).foldl (fun it i => it.stepAndPush call i) start
    Filled it (· < n) ∧ Steady start it ∧
      ∀ i, it.children[i]? = if i < n then start.children[i]?.map (ChildIter.step call) else start.children[i]? := by
  induction n with
  | zero =>
    refine ⟨⟨?_, ?_, fun i => ?_⟩, .rfl, fun i => rfl⟩
    · exact empty ▸ BinaryHeap.valid_empty
    · exact empty ▸ nodup_nil
    · simp [empty, BinaryHeap.empty]
  | succ n ih =>
    obtain ⟨filled, steady, children⟩ := ih
    rw [range_succ, foldl_append, foldl_cons, foldl_nil]
    generalize (range n).foldl (fun it i => it.stepAndPush call i) start = it at filled steady children ⊢
    have pushed := filled.stepAndPush call (Nat.lt_irrefl n)
    refine ⟨⟨pushed.valid, pushed.nodup, fun i => ?_⟩, steady.trans (stepAndPush_steady call n), fun i => ?_⟩
    · rw [pushed.members, Nat.lt_succ_iff_lt_or_eq]
    · rw [stepAndPush_children, stepChild_getElem?, children]
      rcases Nat.lt_trichotomy i n with less | rfl | more
      · rw [if_neg less.ne', if_pos less, if_pos (less.trans (Nat.lt_succ_self n))]
      · rw [if_pos (Eq.refl _), if_neg (Nat.lt_irrefl i), if_pos (Nat.lt_succ_self i)]
      · rw [if_neg more.ne, if_neg more.not_gt, if_neg (by omega)]

/-! ## Positions -/

/-- An iterator has moved to the first place in `p`. -/
def Stands (t : HeapType) (p : κ → Bool) (child : ChildIter κ) : Prop := child.here = child.family.landing t p

section Stands
variable {t : HeapType} {k : κ} {child : ChildIter κ}

theorem stands_advance (here : child.here = some e) (key : e.key = k) :
    Stands t (fun x => decide (t.before k x)) (child.step t.advance) := by
  refine (keyed_advance t).trans ?_
  rw [here, Option.bind_some, key]
  rfl

private theorem ne_of_stands_before (stands : Stands t (fun x => decide (t.before k x)) child)
    (here : child.here = some e) : e.key ≠ k := by
  intro same
  have after := of_decide_eq_true (mem_of_landing (stands.symm.trans here)).2
  exact t.before_irrefl k (same ▸ after)

end Stands

theorem keyOf_eq_coe_iff {children : List (ChildIter κ)} {k : κ} :
    keyOf children i = (k : WithBot κ) ↔ ∃ e, entryOf children i = some e ∧ e.key = k := Option.map_eq_some_iff

theorem entryOf_eq_some_iff {children : List (ChildIter κ)} :
    entryOf children i = some e ↔ ∃ child, children[i]? = some child ∧ child.here = some e := Option.bind_eq_some_iff

/-! ## Advancing -/

/-- The state of the loop of `AdvanceIterator`: the top is off the heap, and the other iterators with its key move on. -/
structure Advancing (t : HeapType) (top : Nat) (k : κ) (it : CoalescingIterator κ) : Prop where
  heapType : it.heapType = t
  filled : Filled it (· ≠ top)
  topKey : keyOf it.children top = (k : WithBot κ)
  positions : ∀ i child, it.children[i]? = some child → i ≠ top →
    Stands t (t.atOrAfter k) child ∨ Stands t (fun x => decide (t.before k x)) child

/-- Iterators that have yet to move. -/
def behind (it : CoalescingIterator κ) (k : κ) : Nat :=
  it.heap.data.countP fun i => keyOf it.children i = (k : WithBot κ)

section Advancing
variable {t : HeapType} {top : Nat} {k : κ}

/-- One round: the iterator at the top of the rest moves, and its item is put in its place or taken off. -/
theorem Advancing.round (advancing : Advancing t top k it) {current : Nat} (found : it.heap.top? = some current)
    (same : keyOf it.children current = (k : WithBot κ)) {heap : BinaryHeap Nat}
    (moved : heap = if (entryOf (it.stepChild t.advance current).children current).isSome then
      it.heap.replaceTop (it.stepChild t.advance current).less current
      else it.heap.pop (it.stepChild t.advance current).less) :
    Advancing t top k { it.stepChild t.advance current with heap } ∧
      behind { it.stepChild t.advance current with heap } k < it.behind k := by
  set after := it.stepChild t.advance current
  obtain ⟨rest, data⟩ := head?_eq_some_iff.mp found
  obtain ⟨notInRest, nodup⟩ := nodup_cons.mp (data ▸ advancing.filled.nodup)
  have inside : current ∈ it.heap.data := by simp [data]
  have ne := ((advancing.filled.members current).mp inside).1
  obtain ⟨_, entry, key⟩ := keyOf_eq_coe_iff.mp same
  obtain ⟨child, at_current, here⟩ := entryOf_eq_some_iff.mp entry
  have stands : Stands t (fun x => decide (t.before k x)) (child.step t.advance) := stands_advance here key
  have stepped := entryOf_stepChild t.advance at_current
  have others {j : Nat} (member : j ∈ rest) : j ≠ current := ne_of_mem_of_not_mem member notInRest
  have keys {j : Nat} (ne : j ≠ current) :
      keyOf after.children j = keyOf it.children j := by
    rw [keyOf, keyOf, entryOf_stepChild_of_ne ne]
  have loose : it.heap.Loose after.less := by
    refine advancing.filled.valid.loosen fun x x_mem _ y_mem => less_stepChild (others ?_) (others ?_)
    · rwa [data] at x_mem
    · rwa [data] at y_mem
  have passed : keyOf after.children current ≠ (k : WithBot κ) := by
    intro again
    obtain ⟨_, entry', key'⟩ := keyOf_eq_coe_iff.mp again
    exact ne_of_stands_before stands (stepped.symm.trans entry') key'
  have fewer : rest.countP (fun j => keyOf after.children j = (k : WithBot κ)) < it.behind k := by
    rw [behind, data, countP_cons_of_pos (by simpa using same), countP_congr fun j member => by
      rw [keys (others member)]]
    exact Nat.lt_succ_self _
  have positions (i : Nat) (other : ChildIter κ) (at_i : after.children[i]? = some other)
      (notTop : i ≠ top) : Stands t (t.atOrAfter k) other ∨ Stands t (fun x => decide (t.before k x)) other := by
    rw [stepChild_getElem?] at at_i
    split at at_i
    · next isCurrent =>
      subst isCurrent
      rw [at_current] at at_i
      cases at_i
      exact .inr stands
    · exact advancing.positions i other at_i notTop
  have topKey : keyOf after.children top = (k : WithBot κ) := by
    rw [keys ne.symm, advancing.topKey]
  have rest_iff {j : Nat} (ne : j ≠ current) :
      j ∈ rest ↔ j ≠ top ∧ (entryOf after.children j).isSome := by
    rw [entryOf_stepChild_of_ne ne, ← advancing.filled.members, data]
    simp [ne]
  subst moved
  split
  · next isValid =>
    obtain ⟨valid, perm⟩ := BinaryHeap.replaceTop_spec weak loose data current
    refine ⟨⟨advancing.heapType, ⟨valid, perm.nodup_iff.mpr (data ▸ advancing.filled.nodup), fun j => ?_⟩, topKey,
      positions⟩, ?_⟩
    · refine perm.mem_iff.trans ?_
      by_cases isCurrent : j = current
      · subst isCurrent
        exact iff_of_true mem_cons_self ⟨ne, isValid⟩
      · rw [mem_cons, or_iff_right isCurrent]
        exact rest_iff isCurrent
    · refine (perm.countP_eq _).trans_lt ?_
      rw [countP_cons_of_neg (by simpa using passed)]
      exact fewer
  · next isInvalid =>
    obtain ⟨valid, perm⟩ := BinaryHeap.pop_spec weak loose data
    refine ⟨⟨advancing.heapType, ⟨valid, perm.nodup_iff.mpr nodup, fun j => ?_⟩, topKey, positions⟩,
      (perm.countP_eq _).trans_lt fewer⟩
    refine perm.mem_iff.trans ?_
    by_cases isCurrent : j = current
    · subst isCurrent
      exact iff_of_false notInRest fun both => isInvalid both.2
    · exact rest_iff isCurrent

/-- When no item is left with the key, every other iterator is past it. -/
theorem Advancing.done (advancing : Advancing t top k it)
    (passed : ∀ i ∈ it.heap.data, keyOf it.children i ≠ (k : WithBot κ)) {i : Nat} {child : ChildIter κ}
    (at_i : it.children[i]? = some child) (ne : i ≠ top) : Stands t (fun x => decide (t.before k x)) child := by
  rcases advancing.positions i child at_i ne with atKey | after
  · rw [Stands] at atKey ⊢
    rw [atKey, landing_atOrAfter_eq_before fun e landed key => ?_]
    have entry := entryOf_eq_some_iff.mpr ⟨child, at_i, atKey.trans landed⟩
    exact passed i ((advancing.filled.members i).mpr ⟨ne, by rw [entry]; rfl⟩) (keyOf_eq_coe_iff.mpr ⟨e, entry, key⟩)
  · exact after

/-- No iterator is before the key. -/
theorem Advancing.not_before (advancing : Advancing t top k it) {i : Nat} (member : i ∈ it.heap.data) :
    ¬t.before (keyOf it.children i) (k : WithBot κ) := by
  obtain ⟨ne, isValid⟩ := (advancing.filled.members i).mp member
  obtain ⟨e, entry⟩ := Option.isSome_iff_exists.mp isValid
  obtain ⟨child, at_i, here⟩ := entryOf_eq_some_iff.mp entry
  rw [keyOf_eq_coe_iff.mpr ⟨e, entry, rfl⟩, t.before_coe]
  rcases advancing.positions i child at_i ne with atKey | after
  · simpa [HeapType.atOrAfter] using (mem_of_landing (atKey.symm.trans here)).2
  · exact t.before_asymm (of_decide_eq_true (mem_of_landing (after.symm.trans here)).2)

private theorem advanceLoop_spec (rounds : Nat) (it : CoalescingIterator κ) (advancing : Advancing t top k it)
    (enough : it.behind k < rounds) :
    ∃ it', advanceLoop t.advance top rounds it = some it' ∧ Steady it it' ∧ Advancing t top k it' ∧
      ∀ i ∈ it'.heap.data, keyOf it'.children i ≠ (k : WithBot κ) := by
  induction rounds generalizing it with
  | zero => exact absurd enough (Nat.not_lt_zero _)
  | succ _ ih =>
    rw [advanceLoop]
    split
    · next empty =>
      refine ⟨it, rfl, .rfl, advancing, fun i member => ?_⟩
      rw [head?_eq_none_iff.mp empty] at member
      cases member
    · next current found =>
      rw [advancing.topKey]
      split
      · next ne =>
        refine ⟨it, rfl, .rfl, advancing, fun i member same => ?_⟩
        have inside : current ∈ it.heap.data := mem_of_head? found
        have first := advancing.filled.valid.top_largest weak found i member
        rw [less, advancing.heapType, itemLess_eq_false_iff, same] at first
        rcases first with ⟨equal, -⟩ | before
        · exact ne equal
        · exact advancing.not_before inside before
      · next same =>
        obtain ⟨advanced, _⟩ := advancing.round found (not_not.mp same) rfl
        obtain ⟨it', result, steady, rest⟩ := ih _ advanced (by omega)
        exact ⟨it', result, ⟨steady.families.trans (stepChild_families _ _), steady.2, steady.3, steady.4, steady.5⟩,
          rest⟩

end Advancing

/-! ## Between calls -/

/-- The iterators are where the cursor over the union is. -/
structure Settled (families : List (Family κ)) (it : CoalescingIterator κ) (here : Option κ) : Prop where
  childFamilies : it.children.map ChildIter.family = families
  filled : Filled it fun _ => True
  positions : ∀ child ∈ it.children,
    child.here = here.bind fun k => child.family.landing it.heapType (it.heapType.atOrAfter k)
  member : ∀ k, here = some k → k ∈ unionKeys families

section Settled
variable {families : List (Family κ)} {here : Option κ} {p : κ → Bool} {k : κ}

theorem settled_of_stands (same : it.children.map ChildIter.family = families) (filled : Filled it fun _ => True)
    (upper : Upper it.heapType p) (stands : ∀ child ∈ it.children, Stands it.heapType p child) :
    Settled families it ((it.heapType.orient (unionKeys families)).find? p) := by
  have inFamilies (child : ChildIter κ) (inside : child ∈ it.children) : child.family ∈ families :=
    same ▸ mem_map_of_mem inside
  refine ⟨same, filled, fun child inside => ?_, fun _ landed => ?_⟩
  · rw [stands child inside]
    cases landed : (it.heapType.orient (unionKeys families)).find? p with
    | none => exact landing_eq_none landed (inFamilies child inside)
    | some => exact landing_eq_atOrAfter upper landed (inFamilies child inside)
  · exact it.heapType.mem_orient.mp (mem_of_find?_eq_some landed)

/-- The iterators at the key are those of the families that have it. -/
theorem Settled.entryOf_iff (settled : Settled families it (some k)) {i : Nat} :
    entryOf it.children i = some e ∧ e.key = k ↔ ∃ f, families[i]? = some f ∧ e ∈ f.entries ∧ e.key = k := by
  have familyAt (i : Nat) : families[i]? = it.children[i]?.map ChildIter.family := by
    rw [← settled.childFamilies, getElem?_map]
  constructor
  · rintro ⟨entry, key⟩
    obtain ⟨child, at_i, stands⟩ := entryOf_eq_some_iff.mp entry
    have landed := settled.positions child (mem_of_getElem? at_i)
    exact ⟨child.family, by rw [familyAt, at_i]; rfl, (mem_of_landing (landed.symm.trans stands)).1, key⟩
  · rintro ⟨_, at_i, inside, key⟩
    rw [familyAt] at at_i
    obtain ⟨child, at_child, rfl⟩ := Option.map_eq_some_iff.mp at_i
    have landed := settled.positions child (mem_of_getElem? at_child)
    exact ⟨entryOf_eq_some_iff.mpr ⟨child, at_child, landed.trans (landing_atOrAfter_of_key inside key)⟩, key⟩

theorem Settled.not_before (settled : Settled families it (some k)) {i : Nat}
    (entry : entryOf it.children i = some e) : ¬it.heapType.before e.key k := by
  obtain ⟨child, at_i, stands⟩ := entryOf_eq_some_iff.mp entry
  have landed := settled.positions child (mem_of_getElem? at_i)
  simpa [HeapType.atOrAfter] using (mem_of_landing (landed.symm.trans stands)).2

/-- The top of the heap is at the key. -/
theorem Settled.top (settled : Settled families it (some k)) :
    ∃ top, it.heap.top? = some top ∧ keyOf it.children top = (k : WithBot κ) := by
  obtain ⟨f, inFamilies, e, inside, key⟩ := mem_unionKeys.mp (settled.member k rfl)
  obtain ⟨i, at_i⟩ := mem_iff_getElem?.mp inFamilies
  have entry := (settled.entryOf_iff.mpr ⟨f, at_i, inside, key⟩).1
  have member : i ∈ it.heap.data := (settled.filled.members i).mpr ⟨trivial, by rw [entry]; rfl⟩
  obtain ⟨top, found⟩ := Option.isSome_iff_exists.mp (isSome_head?.mpr (ne_nil_of_mem member))
  refine ⟨top, found, ?_⟩
  have isValid := ((settled.filled.members top).mp (mem_of_head? found)).2
  obtain ⟨topEntry, entry'⟩ := Option.isSome_iff_exists.mp isValid
  have first := settled.filled.valid.top_largest weak found i member
  rw [less, itemLess_eq_false_iff, keyOf_eq_coe_iff.mpr ⟨e, entry, key⟩] at first
  rcases first with ⟨equal, -⟩ | before
  · exact equal
  · rw [keyOf_eq_coe_iff.mpr ⟨topEntry, entry', rfl⟩, it.heapType.before_coe] at before
    exact absurd before (settled.not_before entry')

theorem Settled.valid_eq (settled : Settled families it here) : it.valid = here.isSome := by
  cases here with
  | some =>
    obtain ⟨top, found, -⟩ := settled.top
    rw [valid, found]
    rfl
  | none =>
    have empty : it.heap.data = [] := by
      refine eq_nil_iff_forall_not_mem.mpr fun i member => ?_
      obtain ⟨_, entry⟩ := Option.isSome_iff_exists.mp ((settled.filled.members i).mp member).2
      obtain ⟨child, at_i, stands⟩ := entryOf_eq_some_iff.mp entry
      rw [settled.positions child (mem_of_getElem? at_i)] at stands
      cases stands
    rw [valid, BinaryHeap.top?, empty]
    rfl

theorem Settled.key_eq (settled : Settled families it here) : it.key = here := by
  cases here with
  | some =>
    obtain ⟨top, found, key⟩ := settled.top
    rw [CoalescingIterator.key, found]
    exact key
  | none =>
    have invalid := settled.valid_eq
    rw [valid, Option.isSome_none, Option.isSome_eq_false_iff, Option.isNone_iff_eq_none] at invalid
    rw [CoalescingIterator.key, invalid]
    rfl

/-- `SeekCommon` up to its end. -/
theorem seekCommon_settled (here : Option κ) (seeks : isSeek call = true)
    (same : it.children.map ChildIter.family = families) (heapType : it.heapType = heapTypeOf call) :
    ∃ it', it.seekCommon call = it'.populate ∧ Steady it.reset it' ∧
      Settled families it' ((unionTracks families).step here call) := by
  obtain ⟨filled, steady, children⟩ := seekLoop_spec call { it.reset with heap := .empty } rfl it.children.length
  refine ⟨_, rfl, ⟨steady.1, steady.2, steady.3, steady.4, steady.5⟩, ?_⟩
  generalize foldl _ _ _ = it' at filled steady children ⊢
  have isType := steady.heapType.trans heapType
  have lengths : it'.children.length = it.children.length := by
    have mapped := congrArg length steady.families
    rwa [length_map, length_map] at mapped
  have everywhere : Filled it' fun _ => True := by
    refine ⟨filled.valid, filled.nodup, fun i => (filled.members i).trans (and_congr_left fun isValid => ?_)⟩
    obtain ⟨_, entry⟩ := Option.isSome_iff_exists.mp isValid
    obtain ⟨child, at_i, -⟩ := entryOf_eq_some_iff.mp entry
    exact iff_of_true (lengths ▸ (List.getElem?_eq_some_iff.mp at_i).1) trivial
  have settled := settled_of_stands (steady.families.trans same) everywhere (isType ▸ upper_reach call)
    fun _ inside => by
      obtain ⟨i, at_i⟩ := mem_iff_getElem?.mp inside
      have inRange : i < it.children.length := lengths ▸ (List.getElem?_eq_some_iff.mp at_i).1
      rw [children, if_pos inRange] at at_i
      obtain ⟨_, -, rfl⟩ := Option.map_eq_some_iff.mp at_i
      exact isType ▸ keyed_seek seeks
  rw [isType] at settled
  rwa [unionTracks, keyed_seek seeks]

/-- `AdvanceIterator` up to its end. -/
theorem advanceIterator_settled (settled : Settled families it (some k)) :
    ∃ it', it.advanceIterator it.heapType.advance = some it'.populate ∧ Steady it.reset it' ∧
      Settled families it' ((unionTracks families).step (some k) it.heapType.advance) := by
  obtain ⟨top, found, topKey⟩ := settled.top
  obtain ⟨_, data⟩ := head?_eq_some_iff.mp found
  obtain ⟨notInRest, nodup⟩ := nodup_cons.mp (data ▸ settled.filled.nodup)
  obtain ⟨valid, perm⟩ := BinaryHeap.pop_spec weak settled.filled.valid.loose data
  have advancing : Advancing it.heapType top k { it.reset with heap := it.heap.pop it.less } := by
    refine ⟨rfl, ⟨valid, perm.nodup_iff.mpr nodup, fun j => perm.mem_iff.trans ?_⟩, topKey,
      fun i child at_i _ => .inl ?_⟩
    · by_cases isTop : j = top
      · subst isTop
        exact iff_of_false notInRest fun both => both.1 rfl
      · have members := settled.filled.members j
        rw [data, mem_cons, or_iff_right isTop] at members
        rw [members, and_iff_right trivial]
        exact (and_iff_right isTop).symm
    · exact settled.positions child (mem_of_getElem? at_i)
  obtain ⟨it₁, result, steady, advanced, passed⟩ := advanceLoop_spec _ _ advancing
    (Nat.lt_succ_of_le countP_le_length)
  have steady' : Steady it.reset it₁ := ⟨steady.1, steady.2, steady.3, steady.4, steady.5⟩
  have whole := steady'.trans (stepAndPush_steady it.heapType.advance top)
  refine ⟨it₁.stepAndPush it.heapType.advance top, ?_, whole, ?_⟩
  · rw [advanceIterator]
    rw [show it.reset.heap.top? = some top from found]
    exact congrArg (Option.map _) result
  have pushed := advanced.filled.stepAndPush it.heapType.advance (fun ne => ne rfl)
  have everywhere : Filled (it₁.stepAndPush it.heapType.advance top) fun _ => True :=
    ⟨pushed.valid, pushed.nodup, fun i => (pushed.members i).trans
      (and_congr_left fun _ => iff_of_true (ne_or_eq i top) trivial)⟩
  have isType := whole.heapType
  have landed := settled_of_stands (whole.families.trans settled.childFamilies)
    everywhere (by rw [isType]; exact upper_before _ k) fun _ inside => by
      obtain ⟨_, at_i⟩ := mem_iff_getElem?.mp inside
      rw [stepAndPush_children, stepChild_getElem?] at at_i
      rw [isType]
      split at at_i
      · next isTop =>
        subst isTop
        obtain ⟨_, at_old, rfl⟩ := Option.map_eq_some_iff.mp at_i
        obtain ⟨_, entry, key⟩ := keyOf_eq_coe_iff.mp advanced.topKey
        obtain ⟨_, at_old', here⟩ := entryOf_eq_some_iff.mp entry
        cases at_old.symm.trans at_old'
        exact stands_advance here key
      · next ne => exact advanced.done passed at_i (Ne.symm ne)
  rw [isType] at landed
  rw [unionTracks, keyed_advance]
  exact landed

end Settled

/-! ## Populating -/

private theorem populateLoop_spec (t : HeapType) (children : List (ChildIter κ)) (top : Nat) (heap : BinaryHeap Nat)
    (toPopulate : List Nat) (valid : heap.Valid (itemLess t children))
    (first : ∀ i ∈ heap.data, itemLess t children top i = false)
    (taken : ∀ i ∈ toPopulate, keyOf children i = keyOf children top) :
    ∃ heap' items, populateLoop (itemLess t children) children top heap toPopulate = (heap', items) ∧
      heap'.Valid (itemLess t children) ∧ (items ++ heap'.data).Perm (toPopulate ++ heap.data) ∧
      (∀ i ∈ items, keyOf children i = keyOf children top) ∧
        ∀ i ∈ heap'.data, keyOf children i ≠ keyOf children top := by
  rw [populateLoop]
  split
  · next empty =>
    refine ⟨heap, toPopulate, rfl, valid, .refl _, taken, fun i member => ?_⟩
    rw [head?_eq_none_iff.mp empty] at member
    cases member
  · next current found =>
    obtain ⟨_, data⟩ := head?_eq_some_iff.mp found
    have inside : current ∈ heap.data := by simp [data]
    split
    · next ne =>
      refine ⟨heap, toPopulate, rfl, valid, .refl _, taken, fun i member same => ?_⟩
      have afterTop := (itemLess_eq_false_iff t children).mp (first current inside)
      have beforeI := (itemLess_eq_false_iff t children).mp (valid.top_largest (itemLess_weak t children) found i member)
      rw [same] at beforeI
      rcases beforeI with ⟨equal, -⟩ | before
      · exact ne equal
      · rcases afterTop with ⟨equal, -⟩ | after
        · exact ne equal.symm
        · exact t.before_asymm before after
    · next same =>
      obtain ⟨popped, perm⟩ := BinaryHeap.pop_spec (itemLess_weak t children) valid.loose data
      have decreases := BinaryHeap.size_pop_lt (itemLess t children) found
      obtain ⟨heap', items, result, valid', permAll, ends⟩ :=
        populateLoop_spec t children top (heap.pop (itemLess t children)) (toPopulate ++ [current]) popped
          (fun i member => first i (data ▸ mem_cons_of_mem _ (perm.mem_iff.mp member)))
          (forall_mem_append.mpr ⟨taken, forall_mem_singleton.mpr (not_not.mp same)⟩)
      refine ⟨heap', items, result, valid', permAll.trans ?_, ends⟩
      rw [append_assoc, singleton_append, data]
      exact (perm.cons current).append_left toPopulate
  termination_by heap.size

section Shows
variable {families : List (Family κ)} {here : Option κ} {k : κ}

/-- The value of the default column, which is the first one if there is one. -/
def defaultValue : List WideColumn → Bytes
  | [] => []
  | first :: _ => if first.name = [] then first.value else []

theorem populateIterator_spec (settled : Settled families it (some k)) (columns : it.wideColumns = [])
    (value : it.value = []) :
    Settled families it.populateIterator (some k) ∧ it.populateIterator.wideColumns = coalesced families k ∧
      it.populateIterator.value = defaultValue (coalesced families k) ∧
      it.populateIterator.allowUnpreparedValue = it.allowUnpreparedValue := by
  obtain ⟨top, found, topKey⟩ := settled.top
  obtain ⟨_, data⟩ := head?_eq_some_iff.mp found
  obtain ⟨popped, perm⟩ := BinaryHeap.pop_spec weak settled.filled.valid.loose data
  obtain ⟨heap, items, result, valid, permItems, atKey, past⟩ :=
    populateLoop_spec it.heapType it.children top (it.heap.pop it.less) [top] popped
      (fun i member => settled.filled.valid.top_largest weak found i
        (data ▸ mem_cons_of_mem _ (perm.mem_iff.mp member)))
      (fun i member => by rw [mem_singleton.mp member])
  obtain ⟨pushed, permPushed⟩ := BinaryHeap.pushAll_spec weak valid items
  have whole : (items ++ heap.data).Perm it.heap.data := permItems.trans (data ▸ perm.cons top)
  have items_iff (i : Nat) : i ∈ items ↔ keyOf it.children i = (k : WithBot κ) := by
    constructor
    · exact fun member => (atKey i member).trans topKey
    · intro key
      obtain ⟨e, entry, -⟩ := keyOf_eq_coe_iff.mp key
      have member := (settled.filled.members i).mpr ⟨trivial, by rw [entry]; rfl⟩
      rcases mem_append.mp (whole.mem_iff.mpr member) with isItem | left
      · exact isItem
      · exact absurd (key.trans topKey.symm) (past i left)
  have members (x : WideColumn × Nat) : x ∈ items.flatMap (columnsOf it.children) ↔ numbered families k x := by
    rw [mem_flatMap, numbered]
    constructor
    · rintro ⟨i, isItem, isColumn⟩
      obtain ⟨e, entry, key⟩ := keyOf_eq_coe_iff.mp ((items_iff i).mp isItem)
      obtain ⟨f, at_i, inside, -⟩ := settled.entryOf_iff.mp ⟨entry, key⟩
      rw [columnsOf, entry] at isColumn
      obtain ⟨c, inColumns, rfl⟩ := mem_map.mp isColumn
      exact ⟨f, at_i, mem_columnsAt.mpr ⟨e, inside, key, inColumns⟩⟩
    · rintro ⟨f, at_i, isColumn⟩
      obtain ⟨e, inside, key, inColumns⟩ := mem_columnsAt.mp isColumn
      have entry := (settled.entryOf_iff.mpr ⟨f, at_i, inside, key⟩).1
      refine ⟨x.2, (items_iff x.2).mpr (keyOf_eq_coe_iff.mpr ⟨e, entry, key⟩), ?_⟩
      rw [columnsOf, entry]
      exact mem_map.mpr ⟨x.1, inColumns, rfl⟩
  obtain ⟨mem_iff, sorted⟩ := coalesceColumns_spec (distinct_of_numbered members)
  have coalescedColumns := sorted_ext sorted (coalesced_sorted families k) fun c =>
    (mem_iff c).trans (mem_coalesced members).symm
  rw [populateIterator, found]
  dsimp only
  rw [show populateLoop it.less it.children top (it.heap.pop it.less) [top] = (heap, items) from result]
  refine ⟨⟨settled.childFamilies, ⟨pushed, ?_, fun i => ?_⟩, settled.positions, settled.member⟩, ?_, ?_, rfl⟩
  · exact (permPushed.trans whole).nodup_iff.mpr settled.filled.nodup
  · exact (permPushed.trans whole).mem_iff.trans (settled.filled.members i)
  · rw [coalesce]
    rw [columns, coalescedColumns]
  · rw [coalesce]
    rw [columns, coalescedColumns, value]
    rfl

/-- What the iterator shows after a call. -/
structure Shows (families : List (Family κ)) (allow : Bool) (it : CoalescingIterator κ) (here : Option κ) : Prop where
  settled : Settled families it here
  allowed : it.allowUnpreparedValue = allow
  wideColumns : ∀ k, here = some k → it.wideColumns = if allow then [] else coalesced families k
  value : ∀ k, here = some k → it.value = if allow then [] else defaultValue (coalesced families k)

theorem populate_shows (settled : Settled families it' here) (steady : Steady it.reset it') :
    Shows families it.allowUnpreparedValue it'.populate here := by
  rw [populate, settled.valid_eq]
  have allowed := steady.allowUnpreparedValue
  split
  · next prepares =>
    obtain ⟨notAllowed, isSome⟩ := Bool.and_eq_true_iff.mp prepares
    obtain ⟨k, rfl⟩ := Option.isSome_iff_exists.mp isSome
    obtain ⟨populated, columns, value, same⟩ := populateIterator_spec settled steady.wideColumns steady.value
    have no : it.allowUnpreparedValue = false := by
      rw [← show it'.allowUnpreparedValue = it.allowUnpreparedValue from allowed]
      simpa using notAllowed
    refine ⟨populated, same.trans allowed, fun k' same => ?_, fun _ same => ?_⟩
    · cases same
      rw [columns, no]
      rfl
    · cases same
      rw [value, no]
      rfl
  · next leaves =>
    have yes (k : κ) (isHere : here = some k) : it.allowUnpreparedValue = true := by
      rw [isHere, show it'.allowUnpreparedValue = it.allowUnpreparedValue from allowed] at leaves
      simpa using leaves
    refine ⟨settled, allowed, fun k isHere => ?_, fun k isHere => ?_⟩
    · rw [yes k isHere]
      exact steady.wideColumns
    · rw [yes k isHere]
      exact steady.value

/-! ## Calls -/

/-- The call that seeks to a key in the direction of the heap. -/
def seekCall : HeapType → κ → Call κ
  | .min, target => .seek target
  | .max, target => .seekForPrev target

private theorem union_seek_self (t : HeapType) (member : k ∈ unionKeys families) :
    (unionTracks families).step here (seekCall t k) = some k := by
  have seeks : isSeek (seekCall t k) = true := by cases t <;> rfl
  have isType : heapTypeOf (seekCall t k) = t := by cases t <;> rfl
  rw [unionTracks, keyed_seek seeks, isType]
  refine find?_eq_first (t.orient_sorted id (sortedUnion_sorted _)) (t.mem_orient.mpr member) ?_ fun _ _ isMatch => ?_
  · cases t <;> simp [seekCall, reach]
  · cases t with
    | min => exact not_lt.mpr (of_decide_eq_true isMatch)
    | max => exact not_lt.mpr (of_decide_eq_true isMatch)

private theorem step_advance (t : HeapType) (key : it.key = some k) : it.step t.advance =
    if it.heapType = t then it.advanceIterator t.advance
    else ((it.getHeap t).seekCommon (seekCall t k)).advanceIterator t.advance := by
  cases t with
  | min | max =>
    rw [HeapType.advance, step, key]
    cases it.heapType <;> rfl

private theorem step_seek (seeks : isSeek call = true) :
    it.step call = some ((it.getHeap (heapTypeOf call)).seekCommon call) := by
  cases call with
  | next => cases seeks
  | prev => cases seeks
  | _ => rfl

theorem getHeap_spec (t : HeapType) : (it.getHeap t).heapType = t ∧ (it.getHeap t).children = it.children ∧
    (it.getHeap t).allowUnpreparedValue = it.allowUnpreparedValue := by
  rw [getHeap]
  split
  · next same => exact ⟨same, rfl, rfl⟩
  · exact ⟨rfl, rfl, rfl⟩

private theorem populate_heapType : it.populate.heapType = it.heapType := by
  rw [populate]
  split
  · rw [populateIterator]
    split <;> rfl
  · rfl

theorem seek_shows (here : Option κ) (same : it.children.map ChildIter.family = families) (seeks : isSeek call = true) :
    Shows families it.allowUnpreparedValue ((it.getHeap (heapTypeOf call)).seekCommon call)
        ((unionTracks families).step here call) ∧
      ((it.getHeap (heapTypeOf call)).seekCommon call).heapType = heapTypeOf call := by
  obtain ⟨heapType, children, allowed⟩ := it.getHeap_spec (heapTypeOf call)
  obtain ⟨_, result, steady, settled⟩ := seekCommon_settled here seeks (children ▸ same) heapType
  rw [result, ← allowed]
  exact ⟨populate_shows settled steady, populate_heapType.trans (steady.heapType.trans heapType)⟩

variable {allow : Bool}

private theorem advance_shows (shows : Shows families allow it (some k)) :
    ∃ it', it.advanceIterator it.heapType.advance = some it' ∧
      Shows families allow it' ((unionTracks families).step (some k) it.heapType.advance) := by
  obtain ⟨_, result, steady, settled⟩ := advanceIterator_settled shows.settled
  exact ⟨_, result, shows.allowed ▸ populate_shows settled steady⟩

/-- `Next` and `Prev` need an iterator that is valid. -/
def Legal (here : Option κ) : Call κ → Prop
  | .next | .prev => here.isSome = true
  | _ => True

instance : ∀ (here : Option κ) (call : Call κ), Decidable (Legal here call) := fun here call => by
  unfold Legal
  split <;> infer_instance

/-- One call. -/
theorem step_shows (call : Call κ) (shows : Shows families allow it here) (legal : Legal here call) :
    ∃ it', it.step call = some it' ∧ Shows families allow it' ((unionTracks families).step here call) := by
  have same := shows.settled.childFamilies
  by_cases seeks : isSeek call = true
  · exact ⟨_, step_seek seeks, shows.allowed ▸ (seek_shows here same seeks).1⟩
  · obtain ⟨t, rfl⟩ : ∃ t : HeapType, call = t.advance := by
      cases call with
      | next => exact ⟨.min, rfl⟩
      | prev => exact ⟨.max, rfl⟩
      | _ => exact absurd rfl seeks
    obtain ⟨k, rfl⟩ : ∃ k, here = some k := by cases t <;> exact Option.isSome_iff_exists.mp legal
    rw [step_advance t shows.settled.key_eq]
    split
    · next isType => exact isType ▸ advance_shows shows
    · have isSeek : isSeek (seekCall t k) = true := by cases t <;> rfl
      have isType : heapTypeOf (seekCall t k) = t := by cases t <;> rfl
      obtain ⟨sought, heapType⟩ := seek_shows (some k) same isSeek
      rw [isType] at sought heapType
      rw [union_seek_self t (shows.settled.member k rfl), shows.allowed] at sought
      have advanced := advance_shows sought
      rwa [heapType] at advanced

private theorem run_shows (calls : List (Call κ)) (it : CoalescingIterator κ) (here : Option κ)
    (shows : Shows families allow it here) (legal : LegalRun (unionTracks families).step Legal here calls) :
    ∃ it', it.run calls = some it' ∧ Shows families allow it' (calls.foldl (unionTracks families).step here) := by
  induction calls generalizing it here with
  | nil => exact ⟨it, rfl, shows⟩
  | cons call _ ih =>
    obtain ⟨it₁, stepped, shows₁⟩ := step_shows call shows legal.1
    obtain ⟨it', ran, shows'⟩ := ih it₁ _ shows₁ legal.2
    refine ⟨it', ?_, shows'⟩
    rw [run, foldlM_cons, stepped]
    exact ran

private theorem new_shows (families : List (Family κ)) (allow : Bool) :
    Shows families allow (new families allow) none := by
  refine ⟨⟨?_, ⟨BinaryHeap.valid_empty, nodup_nil, fun _ => ?_⟩, fun _ inside => ?_, nofun⟩, rfl, nofun, nofun⟩
  · rw [new, map_map]
    exact map_id' families
  · refine iff_of_false not_mem_nil fun both => ?_
    obtain ⟨_, entry⟩ := Option.isSome_iff_exists.mp both.2
    obtain ⟨_, at_i, here⟩ := entryOf_eq_some_iff.mp entry
    obtain ⟨f, -, rfl⟩ := mem_map.mp (mem_of_getElem? at_i)
    cases here
  · obtain ⟨_, -, rfl⟩ := mem_map.mp inside
    rfl

/-- **The coalescing iterator is a cursor over the union of its column families.** After any legal calls it is where the
cursor is, with the columns of all families that have the key; the family listed last wins. If values are prepared on
demand, `PrepareValue` gives the same columns. -/
theorem coalescing_iterator_is_cursor (families : List (Family κ)) (allow : Bool) (calls : List (Call κ))
    (legal : LegalRun (unionTracks families).step Legal none calls) :
    ∃ it, (new families allow).run calls = some it ∧
      it.valid = (calls.foldl (unionTracks families).step none).isSome ∧
      it.key = calls.foldl (unionTracks families).step none ∧
      ∀ k, it.key = some k → (allow = false → it.prepareValue = it) ∧ it.prepareValue.key = some k ∧
        it.prepareValue.wideColumns = coalesced families k ∧
        it.prepareValue.value = defaultValue (coalesced families k) := by
  obtain ⟨it, ran, shows⟩ := run_shows calls _ none (new_shows families allow) legal
  refine ⟨it, ran, shows.settled.valid_eq, shows.settled.key_eq, fun k isHere => ?_⟩
  rw [shows.settled.key_eq] at isHere
  have settled := shows.settled
  rw [isHere] at settled
  rw [prepareValue, shows.allowed]
  cases allow with
  | false => exact ⟨fun _ => rfl, settled.key_eq, shows.wideColumns k isHere, shows.value k isHere⟩
  | true =>
    obtain ⟨populated, columns, value, -⟩ :=
      populateIterator_spec settled (shows.wideColumns k isHere) (shows.value k isHere)
    exact ⟨nofun, populated.key_eq, columns, value⟩

end Shows

/-- Two families that share a key and a name. -/
def twoFamilies : List (Family Nat) :=
  [⟨[⟨1, [⟨[], [7]⟩]⟩, ⟨2, [⟨[], [7]⟩, ⟨[5], [1]⟩]⟩], by decide, by decide⟩,
    ⟨[⟨2, [⟨[4], [2]⟩, ⟨[5], [3]⟩]⟩, ⟨3, []⟩], by decide, by decide⟩]

theorem coalescing_iterator_of_twoFamilies :
    ∃ it, (new twoFamilies false).run [.seekToFirst, .next, .next, .prev] = some it ∧ it.key = some 2 ∧
      it.wideColumns = [⟨[], [7]⟩, ⟨[4], [2]⟩, ⟨[5], [3]⟩] := by
  obtain ⟨it, ran, -, key, shows⟩ := coalescing_iterator_is_cursor twoFamilies false
    [.seekToFirst, .next, .next, .prev] (by decide +kernel)
  have here : it.key = some 2 := key.trans (by decide +kernel)
  obtain ⟨prepared, -, columns, -⟩ := shows 2 here
  refine ⟨it, ran, here, ?_⟩
  rw [← prepared rfl, columns]
  decide +kernel

end CoalescingIterator

/-! ## Errors -/
namespace Reporting
variable {ε : Type} {r r' : Reporting κ ε} {turn faults : Faults ε} {families : List (Family κ)} {allow : Bool}

/-- The status is the first error that was reported, and the families stay. -/
structure Follows (families : List (Family κ)) (r : Reporting κ ε) : Prop where
  status : r.status = r.reported.head?
  families : r.it.children.map ChildIter.family = families

section Follow
variable (follows : Follows families r)
include follows

theorem Follows.replace {it : CoalescingIterator κ} (same : it.children.map ChildIter.family = families) :
    Follows families { r with it } :=
  ⟨follows.status, same⟩

theorem Follows.fail (item : Nat) (error : ε) : Follows families (r.fail item error) where
  status := by
    rw [Reporting.fail, head?_append, ← follows.status]
    rfl
  families := (CoalescingIterator.modify_families (f := ({ · with here := none })) (fun _ => rfl) _ _).trans
    follows.families

theorem Follows.moveChild (faults : Faults ε) (call : Call κ) (item : Nat) :
    Follows families (r.moveChild faults call item) := by
  unfold Reporting.moveChild
  split
  · exact ⟨follows.status, (CoalescingIterator.stepChild_families _ _).trans follows.families⟩
  · exact follows.fail item _

theorem Follows.populateIterator : Follows families (r.populateIterator faults) := by
  unfold Reporting.populateIterator
  split
  · refine follows.replace ?_
    rw [← follows.families, CoalescingIterator.populateIterator]
    split <;> rfl
  · next item error _ =>
    have failed := follows.fail item error
    exact ⟨failed.status, failed.families⟩

theorem Follows.pushLoop (call : Call κ) (items : List Nat) :
    Follows families (pushLoop faults call items r) := by
  induction items generalizing r with
  | nil =>
    unfold Reporting.pushLoop populate
    split
    · exact follows.populateIterator
    · exact follows
  | cons item _ ih =>
    have moved := follows.moveChild faults call item
    unfold Reporting.pushLoop
    dsimp only
    split
    · exact ih (moved.replace (by exact moved.families))
    split
    · exact ⟨moved.status, moved.families⟩
    · exact ih moved

theorem Follows.seekCommon (heapType : HeapType) (call : Call κ) :
    Follows families (r.seekCommon faults heapType call) := by
  refine (follows.replace ?_).pushLoop _ _
  rw [← follows.families, ← (r.it.getHeap_spec heapType).2.1]
  rfl

theorem Follows.advanceLoop (advanced : advanceLoop faults call top rounds r = some r') : Follows families r' := by
  induction rounds generalizing r with
  | zero => cases advanced
  | succ _ ih =>
    unfold Reporting.advanceLoop at advanced
    split at advanced
    · cases advanced
      exact follows
    · next current _ =>
      split at advanced
      · cases advanced
        exact follows
      · have moved := follows.moveChild faults call current
        dsimp only at advanced
        split at advanced
        · exact ih (moved.replace (by exact moved.families)) advanced
        split at advanced
        · cases advanced
          exact ⟨moved.status, moved.families⟩
        · exact ih (moved.replace (by exact moved.families)) advanced

theorem Follows.advanceIterator (advanced : r.advanceIterator faults call = some r') : Follows families r' := by
  unfold Reporting.advanceIterator at advanced
  dsimp only at advanced
  split at advanced
  · cases advanced
    exact ⟨follows.status, follows.families⟩
  · obtain ⟨next, looped, rfl⟩ := Option.map_eq_some_iff.mp advanced
    have follows : Follows families next := (follows.replace (by exact follows.families)).advanceLoop looped
    split
    · exact follows
    · exact follows.pushLoop _ _

theorem Follows.advance (advanced : r.advance turn faults heapType back call = some r') :
    Follows families r' := by
  unfold Reporting.advance at advanced
  split at advanced
  · cases advanced
  · obtain ⟨_, -, moved⟩ := Option.bind_eq_some_iff.mp advanced
    split at moved
    · exact follows.advanceIterator moved
    · exact (follows.seekCommon _ _).advanceIterator moved

/-- **The status is the first error that was reported since the iterator was created.** -/
theorem Follows.step (stepped : r.step turn faults operation = some r') : Follows families r' := by
  unfold Reporting.step at stepped
  split at stepped
  case h_5 | h_6 => exact follows.advance stepped
  case h_7 =>
    split at stepped
    · cases stepped
    split at stepped <;> cases stepped
    · exact follows
    · exact follows.populateIterator
  all_goals
    cases stepped
    exact follows.seekCommon _ _

theorem Follows.run (ran : r.run history = some r') : Follows families r' := by
  induction history generalizing r with
  | nil => exact Option.some.inj ran ▸ follows
  | cons _ _ ih =>
    rw [Reporting.run, foldlM_cons] at ran
    obtain ⟨_, stepped, rest⟩ := Option.bind_eq_some_iff.mp ran
    exact ih (follows.step stepped) rest

end Follow

private theorem new_follows : Follows families (new families allow : Reporting κ ε) := by
  refine ⟨rfl, ?_⟩
  simp [new, CoalescingIterator.new, Function.comp_def]

section NoErrors
variable (quiet : ∀ item, faults.move item = none ∧ faults.prepare item = none)
include quiet

theorem populate_quiet : r.populate faults = { r with it := r.it.populate } := by
  have prepared : r.it.toPopulate.findSome? (fun item => (faults.prepare item).map (item, ·)) = none := by
    simp [findSome?_eq_none_iff, quiet]
  unfold populate populateIterator CoalescingIterator.populate
  rw [prepared]
  split <;> rfl

theorem moveChild_quiet : r.moveChild faults call item = { r with it := r.it.stepChild call item } := by
  rw [moveChild, (quiet item).1]

/-- A seek without errors leaves the status as it is. -/
theorem pushLoop_status (items : List Nat) (r : Reporting κ ε) : (pushLoop faults call items r).status = r.status := by
  induction items generalizing r with
  | nil => rw [pushLoop, populate_quiet quiet]
  | cons _ _ ih =>
    unfold pushLoop
    rw [moveChild_quiet quiet]
    dsimp only
    split
    · exact ih _
    split
    · rfl
    · exact ih _

theorem pushLoop_eq (items : List Nat) (it : CoalescingIterator κ) (reported : List ε) :
    pushLoop faults call items ⟨it, none, reported⟩ =
      ⟨(items.foldl (fun it item => it.stepAndPush call item) it).populate, none, reported⟩ := by
  induction items generalizing it with
  | nil => rw [pushLoop, populate_quiet quiet]; rfl
  | cons _ _ ih =>
    unfold pushLoop
    rw [moveChild_quiet quiet, foldl_cons, ← ih, CoalescingIterator.stepAndPush]
    dsimp only
    split <;> rfl

/-- **A seek without errors has status OK, and is valid exactly if some family has an entry for it, exactly if no error
was ever reported.** -/
theorem seek_without_errors (ran : (new families allow).run history = some r) (seeks : isSeek call = true)
    (turn : Faults ε) :
    ∃ after, r.step turn faults (.move call) = some after ∧
      ((after.status = none ∧
        (after.valid = true ↔ ∃ family ∈ families, ∃ e ∈ family.entries, reach call e.key = true)) ↔
        r.reported = []) := by
  have follows : Follows families r := new_follows.run ran
  have stepped : r.step turn faults (.move call) = some (r.seekCommon faults (heapTypeOf call) call) := by
    cases call with
    | next | prev => cases seeks
    | _ => rfl
  refine ⟨_, stepped, fun settled => ?_, fun unreported => ?_⟩
  · rw [seekCommon, pushLoop_status quiet, follows.status] at settled
    exact head?_eq_none_iff.mp settled.1
  have same : r.seekCommon faults (heapTypeOf call) call =
      ⟨(r.it.getHeap (heapTypeOf call)).seekCommon call, none, r.reported⟩ := by
    rw [seekCommon, follows.status, unreported, head?_nil, pushLoop_eq quiet, CoalescingIterator.seekCommon,
      (r.it.getHeap_spec _).2.1]
  obtain ⟨⟨settled, -⟩, -⟩ := CoalescingIterator.seek_shows none follows.families seeks
  rw [same, valid, settled.valid_eq, unionTracks, keyed_seek seeks]
  simp [HeapType.mem_orient, mem_unionKeys, and_assoc]

end NoErrors

/-- No iterator reports an error, or all do. -/
def faultsOf (error : Option Unit) : Faults Unit := ⟨fun _ => error, fun _ => none⟩

theorem quiet_none (item : Nat) : (faultsOf none).move item = none ∧ (faultsOf none).prepare item = none := ⟨rfl, rfl⟩

theorem seek_of_twoFamilies_valid : ∃ r, (new CoalescingIterator.twoFamilies false).run
      [(.move .seekToLast, faultsOf none, faultsOf none)] = some r ∧
    ∃ after, r.step (faultsOf none) (faultsOf none) (.move (.seek 3)) = some after ∧
      after.status = none ∧ after.valid = true := by
  have ran : (new CoalescingIterator.twoFamilies false).run [(.move .seekToLast, faultsOf none, faultsOf none)] =
    some _ := rfl
  have seeks : isSeek (.seek 3) = true := rfl
  obtain ⟨after, stepped, exactly⟩ := seek_without_errors quiet_none ran seeks (faultsOf none)
  obtain ⟨status, valid⟩ := exactly.mpr (congrArg Reporting.reported (pushLoop_eq quiet_none _ _ _))
  exact ⟨_, ran, after, stepped, status, valid.mpr (by decide)⟩

/-- The error of the first seek is still there after the second. -/
theorem seek_keeps_old_error : ∃ failed, (new CoalescingIterator.twoFamilies true).run
      [(.move .seekToFirst, faultsOf none, faultsOf (some ()))] = some failed ∧
    ∃ again, failed.step (faultsOf none) (faultsOf none) (.move .seekToFirst) = some again ∧
      again.status = some () ∧ again.valid = false ∧
      ∃ family ∈ CoalescingIterator.twoFamilies, ∃ e ∈ family.entries, reach .seekToFirst e.key = true := by
  have status := @pushLoop_status Nat _ .seekToFirst _ _ quiet_none
  refine ⟨_, rfl, _, rfl, status _ _, ?_, by decide⟩
  rw [valid, seekCommon, status]
  exact Bool.and_false _

end Reporting

end Rocksdb.MultiCf
