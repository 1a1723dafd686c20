import Rocksdb.BinaryHeapProofs
import Rocksdb.MultiCfIterator

/-! `Coalesce` merges the columns of several families through a second heap. It gives the
columns of all families in the order of their names, and of those with the same name the
one of the last family. -/
namespace Rocksdb.MultiCf
open Heaps Lib.Cursor Lib.LittleEndian Lib.SortedLists List

/-! ## Merging -/

theorem columnLess_eq_false_iff : columnLess x y = false ↔ x.1.name < y.1.name ∨ x.1.name = y.1.name ∧ x.2 ≤ y.2 := by
  rw [columnLess]
  rcases lt_trichotomy x.1.name y.1.name with less | same | more
  · simp [less, less.ne, less.le]
  · simp [same]
  · simp [more, more.ne', more.not_gt]

theorem columnLess_weak : StrictWeak columnLess := by
  constructor
  · intro x y less
    have notFalse : columnLess x y ≠ false := by simp [less]
    rw [Ne, columnLess_eq_false_iff, not_or, not_and, Nat.not_le, not_lt] at notFalse
    rw [columnLess_eq_false_iff]
    rcases notFalse.1.lt_or_eq with below | same
    · exact .inl below
    · exact .inr ⟨same, (notFalse.2 same.symm).le⟩
  · intro _ _ _ first second
    rw [columnLess_eq_false_iff] at first second ⊢
    rcases first with below | ⟨same, le⟩ <;> rcases second with below' | ⟨same', le'⟩
    · exact .inl (below.trans below')
    · exact .inl (below.trans_eq same')
    · exact .inl (same.trans_lt below')
    · exact .inr ⟨same.trans same', le.trans le'⟩

/-- No other column with the name comes later. -/
def Wins (columns : List (WideColumn × Nat)) (x : WideColumn × Nat) : Prop :=
  x ∈ columns ∧ ∀ y ∈ columns, y.1.name = x.1.name → y.2 ≤ x.2

/-- A name occurs once with an order. -/
def Distinct (columns : List (WideColumn × Nat)) : Prop :=
  ∀ x ∈ columns, ∀ y ∈ columns, x.1.name = y.1.name → x.2 = y.2 → x = y

theorem Wins.perm (perm : l.Perm l') : Wins l x ↔ Wins l' x := by
  simp only [Wins, perm.mem_iff]

/-- What the loop of `Coalesce` appends. -/
structure Coalesces (columns : List (WideColumn × Nat)) (first : Bytes) (out : List WideColumn) : Prop where
  members : ∀ c, c ∈ out ↔ ∃ order, Wins columns (c, order)
  sorted : out.Pairwise fun a b => a.name < b.name
  lower : ∀ c ∈ out, first ≤ c.name

private theorem coalesceLoop_spec (heap : BinaryHeap (WideColumn × Nat)) (current : WideColumn × Nat)
    (wideColumns : List WideColumn) (valid : heap.Valid columnLess)
      (first : ∀ x ∈ heap.data, columnLess current x = false)
    (distinct : Distinct (current :: heap.data)) :
    ∃ out, coalesceLoop heap current wideColumns = wideColumns ++ out ∧
      Coalesces (current :: heap.data) current.1.name out := by
  rw [coalesceLoop]
  split
  · next empty =>
    rw [head?_eq_none_iff.mp empty]
    refine ⟨[current.1], rfl, fun c => ?_, pairwise_singleton _ _, fun c member => ?_⟩
    · simp only [mem_singleton, Wins, forall_eq]
      constructor
      · rintro rfl
        exact ⟨current.2, rfl, fun _ => le_rfl⟩
      · rintro ⟨order, same, -⟩
        exact congrArg Prod.fst same
    · rw [mem_singleton.mp member]
  · next top found =>
    obtain ⟨_, data⟩ := head?_eq_some_iff.mp found
    obtain ⟨popped, perm⟩ := BinaryHeap.pop_spec columnLess_weak valid.loose data
    have inside : top ∈ heap.data := by simp [data]
    have whole : (top :: (heap.pop columnLess).data).Perm heap.data := data ▸ perm.cons top
    have topFirst (x : WideColumn × Nat) (member : x ∈ (heap.pop columnLess).data) : columnLess top x = false :=
      valid.top_largest columnLess_weak found x (whole.mem_iff.mp (mem_cons_of_mem _ member))
    have distinct' : Distinct (top :: (heap.pop columnLess).data) := fun x inX y inY =>
      distinct x (mem_cons_of_mem _ (whole.mem_iff.mp inX)) y (mem_cons_of_mem _ (whole.mem_iff.mp inY))
    have upTo := columnLess_eq_false_iff.mp (first top inside)
    have decreases := BinaryHeap.size_pop_lt columnLess found
    rcases upTo with below | ⟨same, le⟩
    · rw [if_pos below]
      obtain ⟨out, result, out_spec⟩ :=
        coalesceLoop_spec (heap.pop columnLess) top (wideColumns ++ [current.1]) popped topFirst distinct'
      have after (x : WideColumn × Nat) (member : x ∈ heap.data) : current.1.name < x.1.name := by
        rcases columnLess_eq_false_iff.mp (valid.top_largest columnLess_weak found x member) with less | ⟨same, -⟩
        · exact below.trans less
        · exact below.trans_eq same
      refine ⟨current.1 :: out, by rw [result, append_assoc, singleton_append], fun c => ?_,
        pairwise_cons.mpr ⟨fun c member => below.trans_le (out_spec.lower c member), out_spec.sorted⟩,
        fun c member => ?_⟩
      · rw [mem_cons, out_spec.members]
        simp only [Wins.perm whole]
        constructor
        · rintro (rfl | ⟨order, member, best⟩)
          · exact ⟨current.2, mem_cons_self, forall_mem_cons.mpr
              ⟨fun _ => le_rfl, fun y inRest sameName => absurd sameName (after y inRest).ne'⟩⟩
          · exact ⟨order, mem_cons_of_mem _ member, forall_mem_cons.mpr
              ⟨fun sameName => absurd sameName (after _ member).ne, best⟩⟩
        · rintro ⟨order, member, best⟩
          rcases mem_cons.mp member with same | inRest
          · exact .inl (congrArg Prod.fst same)
          · exact .inr ⟨order, inRest, fun y inY => best y (mem_cons_of_mem _ inY)⟩
      · rcases mem_cons.mp member with rfl | inOut
        · exact le_rfl
        · exact below.le.trans (out_spec.lower c inOut)
    · rw [if_neg (same ▸ lt_irrefl _)]
      obtain ⟨out, result, out_spec⟩ :=
        coalesceLoop_spec (heap.pop columnLess) top wideColumns popped topFirst distinct'
      refine ⟨out, result, fun c => ?_, out_spec.sorted, fun c member => same ▸ out_spec.lower c member⟩
      rw [out_spec.members]
      simp only [Wins.perm whole]
      constructor
      · rintro ⟨order, member, best⟩
        exact ⟨order, mem_cons_of_mem _ member, forall_mem_cons.mpr
          ⟨fun sameName => le.trans (best top inside (same.symm.trans sameName)), best⟩⟩
      · rintro ⟨order, member, best⟩
        have inRest : (c, order) ∈ heap.data := by
          rcases mem_cons.mp member with isCurrent | inRest
          · have sameTop : current = top := distinct current mem_cons_self top (mem_cons_of_mem _ inside) same
              (le.antisymm (isCurrent ▸ best top (mem_cons_of_mem _ inside) (isCurrent ▸ same.symm)))
            rw [isCurrent, sameTop]
            exact inside
          · exact inRest
        exact ⟨order, inRest, fun y inY => best y (mem_cons_of_mem _ inY)⟩
  termination_by heap.size

theorem coalesceColumns_spec (distinct : Distinct columns) :
    (∀ c, c ∈ coalesceColumns columns [] ↔ ∃ order, Wins columns (c, order)) ∧
      (coalesceColumns columns []).Pairwise fun a b => a.name < b.name := by
  obtain ⟨valid, perm⟩ := BinaryHeap.pushAll_spec columnLess_weak BinaryHeap.valid_empty columns
  rw [coalesceColumns]
  generalize columns.foldl (fun heap column => BinaryHeap.push columnLess heap column) BinaryHeap.empty = heap
    at valid perm ⊢
  rw [BinaryHeap.empty, append_nil] at perm
  split
  · next empty =>
    rw [head?_eq_none_iff.mp empty] at perm
    refine ⟨fun c => iff_of_false not_mem_nil fun wins => ?_, List.Pairwise.nil⟩
    obtain ⟨_, member, -⟩ := wins
    rw [perm.symm.eq_nil] at member
    cases member
  · next current found =>
    obtain ⟨_, data⟩ := head?_eq_some_iff.mp found
    obtain ⟨popped, permRest⟩ := BinaryHeap.pop_spec columnLess_weak valid.loose data
    have whole : (current :: (heap.pop columnLess).data).Perm columns := (data ▸ permRest.cons current).trans perm
    obtain ⟨_, result, out_spec⟩ := coalesceLoop_spec (heap.pop columnLess) current [] popped
      (fun x member => valid.top_largest columnLess_weak found x
        (perm.mem_iff.mpr (whole.mem_iff.mp (mem_cons_of_mem _ member))))
      (fun x inX y inY => distinct x (whole.mem_iff.mp inX) y (whole.mem_iff.mp inY))
    rw [result, nil_append]
    refine ⟨fun _ => ?_, out_spec.sorted⟩
    rw [out_spec.members]
    simp only [Wins.perm whole]

/-! ## The last family wins -/

theorem findSome?_reverse_eq_some_iff {α β : Type} {l : List α} {g : α → Option β} {b : β} :
    l.reverse.findSome? g = some b ↔
      ∃ (i : Nat) (x : α), l[i]? = some x ∧ g x = some b ∧ ∀ j y, i < j → l[j]? = some y → g y = none := by
  rw [findSome?_eq_some_iff]
  constructor
  · rintro ⟨late, x, early, split, found, nothing⟩
    have forward : l = early.reverse ++ x :: late.reverse := by
      rw [← reverse_reverse l, split]
      simp
    refine ⟨early.length, x, ?_, found, fun j y after at_j => nothing y ?_⟩
    · rw [forward, List.getElem?_append_right (by simp), length_reverse, Nat.sub_self, List.getElem?_cons_zero]
    · rw [forward, List.getElem?_append_right (by simp; omega), length_reverse] at at_j
      obtain ⟨d, _⟩ := Nat.exists_eq_add_of_lt after
      rw [show j - early.length = d + 1 by omega, List.getElem?_cons_succ] at at_j
      exact mem_reverse.mp (mem_of_getElem? at_j)
  · rintro ⟨i, _, at_i, found, nothing⟩
    obtain ⟨inside, rfl⟩ := List.getElem?_eq_some_iff.mp at_i
    refine ⟨(l.drop (i + 1)).reverse, l[i], (l.take i).reverse, ?_, found, fun y member => ?_⟩
    · conv_lhs => rw [← take_append_drop i l, drop_eq_getElem_cons inside]
      simp
    · obtain ⟨_, at_d⟩ := mem_iff_getElem?.mp (mem_reverse.mp member)
      rw [List.getElem?_drop] at at_d
      exact nothing _ y (by omega) at_d

section Families
variable {κ : Type} [LinearOrder κ] {families : List (Family κ)} {f : Family κ} {k : κ} {name : Bytes}

/-- The columns of a key. -/
def Family.columnsAt (f : Family κ) (k : κ) : List WideColumn :=
  ((f.entries.find? (·.key = k)).map Entry.columns).getD []

/-- The column of a key with a name. -/
def Family.column? (f : Family κ) (k : κ) (name : Bytes) : Option WideColumn := (f.columnsAt k).find? (·.name = name)

/-- The columns of a key in all families, where the family listed last wins. -/
def coalesced (families : List (Family κ)) (k : κ) : List WideColumn :=
  (sortedUnion (families.flatMap fun f => (f.columnsAt k).map WideColumn.name)).filterMap fun name =>
    families.reverse.findSome? (·.column? k name)

private theorem columnsAt_of_entry (member : e ∈ f.entries) (key : e.key = k) : f.columnsAt k = e.columns := by
  have found : f.entries.find? (·.key = k) = some e :=
    find?_eq_first f.sorted member (decide_eq_true key) fun _ _ isMatch less => less.ne (by simpa [key] using isMatch)
  rw [Family.columnsAt, found]
  rfl

theorem mem_columnsAt : c ∈ f.columnsAt k ↔ ∃ e ∈ f.entries, e.key = k ∧ c ∈ e.columns := by
  constructor
  · intro member
    rw [Family.columnsAt] at member
    cases found : f.entries.find? (·.key = k) with
    | none => simp [found] at member
    | some e =>
      rw [found] at member
      exact ⟨e, mem_of_find?_eq_some found, by simpa using find?_some found, member⟩
  · rintro ⟨_, inside, key, _⟩
    rwa [columnsAt_of_entry inside key]

private theorem columnsAt_sorted (f : Family κ) (k : κ) : (f.columnsAt k).Pairwise fun a b => a.name < b.name := by
  rw [Family.columnsAt]
  cases found : f.entries.find? (·.key = k) with
  | none => exact List.Pairwise.nil
  | some e => exact f.columnsSorted e (mem_of_find?_eq_some found)

theorem column?_eq_some_iff : f.column? k name = some c ↔ c ∈ f.columnsAt k ∧ c.name = name := by
  constructor
  · exact fun found => ⟨mem_of_find?_eq_some found, by simpa using find?_some found⟩
  · rintro ⟨member, rfl⟩
    exact find?_eq_first (columnsAt_sorted f k) member (decide_eq_true rfl) fun _ _ isMatch less =>
      less.ne (by simpa using isMatch)

private theorem column?_eq_none_iff : f.column? k name = none ↔ ∀ c ∈ f.columnsAt k, c.name ≠ name := by
  simp [Family.column?]

/-- The columns of the families with their numbers. -/
def numbered (families : List (Family κ)) (k : κ) (x : WideColumn × Nat) : Prop :=
  ∃ f, families[x.2]? = some f ∧ x.1 ∈ f.columnsAt k

theorem distinct_of_numbered (members : ∀ x, x ∈ columns ↔ numbered families k x) : Distinct columns := by
  intro x inX y inY sameName sameOrder
  obtain ⟨_, at_f, xColumn⟩ := (members x).mp inX
  obtain ⟨_, at_g, yColumn⟩ := (members y).mp inY
  cases at_f.symm.trans (sameOrder ▸ at_g)
  have first := column?_eq_some_iff.mpr ⟨xColumn, rfl⟩
  have second := column?_eq_some_iff.mpr ⟨yColumn, sameName.symm⟩
  exact Prod.ext (Option.some.inj (first.symm.trans second)) sameOrder

theorem mem_coalesced (members : ∀ x, x ∈ columns ↔ numbered families k x) :
    c ∈ coalesced families k ↔ ∃ order, Wins columns (c, order) := by
  have last : c ∈ coalesced families k ↔ families.reverse.findSome? (·.column? k c.name) = some c := by
    rw [coalesced, mem_filterMap]
    constructor
    · rintro ⟨name, -, found⟩
      obtain ⟨i, f, -, isColumn, -⟩ := findSome?_reverse_eq_some_iff.mp found
      rwa [(column?_eq_some_iff.mp isColumn).2]
    · intro found
      obtain ⟨_, f, at_i, isColumn, -⟩ := findSome?_reverse_eq_some_iff.mp found
      refine ⟨c.name, mem_sortedUnion.mpr (mem_flatMap.mpr ⟨f, mem_of_getElem? at_i, ?_⟩), found⟩
      exact mem_map_of_mem (column?_eq_some_iff.mp isColumn).1
  rw [last, findSome?_reverse_eq_some_iff]
  refine exists_congr fun _ => ?_
  constructor
  · rintro ⟨f, at_order, isColumn, nothing⟩
    refine ⟨(members _).mpr ⟨f, at_order, (column?_eq_some_iff.mp isColumn).1⟩, fun y inY sameName => ?_⟩
    obtain ⟨g, at_g, yColumn⟩ := (members y).mp inY
    by_contra later
    exact column?_eq_none_iff.mp (nothing y.2 g (Nat.not_le.mp later) at_g) y.1 yColumn sameName
  · rintro ⟨member, best⟩
    obtain ⟨f, at_order, isColumn⟩ := (members _).mp member
    refine ⟨f, at_order, column?_eq_some_iff.mpr ⟨isColumn, rfl⟩, fun j g later at_j => ?_⟩
    refine column?_eq_none_iff.mpr fun c' inG sameName => ?_
    exact absurd (best (c', j) ((members _).mpr ⟨g, at_j, inG⟩) sameName) (Nat.not_le.mpr later)

theorem coalesced_sorted (families : List (Family κ)) (k : κ) :
    (coalesced families k).Pairwise fun a b => a.name < b.name := by
  refine List.Pairwise.filterMap _ (fun _ _ _ _ found _ found' => ?_) (sortedUnion_sorted _)
  obtain ⟨-, _, -, isColumn, -⟩ := findSome?_reverse_eq_some_iff.mp found
  obtain ⟨-, _, -, isColumn', -⟩ := findSome?_reverse_eq_some_iff.mp found'
  rwa [(column?_eq_some_iff.mp isColumn).2, (column?_eq_some_iff.mp isColumn').2]

end Families

end Rocksdb.MultiCf
