import Rocksdb.Lib.SortedLists

/-! Ordered maps as lists sorted by a numeric key. A list is known by what `find`
returns for each number (`sorted_ext`), so every operation is described by the
lookups of its result: insertion, filtering, skipping to a lower bound, and the
join of two maps in key order. -/
namespace Rocksdb.Lib.KeyedList
open List

variable {α β γ : Type} {key : α → Nat} {l l' : List α} {n : Nat} {x : α}

/-- Strictly increasing keys. -/
def Sorted (key : α → Nat) (l : List α) : Prop := l.Pairwise fun a b => key a < key b

/-- The entry with a key. -/
def find (key : α → Nat) (n : Nat) (l : List α) : Option α := l.find? (key · == n)

/-- Insertion, replacing an entry with the same key. -/
def insert (key : α → Nat) (x : α) : List α → List α
  | [] => [x]
  | y :: rest =>
    if key x < key y then x :: y :: rest
    else if key x = key y then x :: rest
    else y :: insert key x rest

/-- `lower_bound`: the entries from a key on. -/
def lowerBound (key : α → Nat) (first : Nat) (l : List α) : List α := l.dropWhile (key · < first)

/-! ## Lookups -/

@[simp] theorem find_nil : find key n [] = none := rfl

theorem find_cons : find key n (x :: l) = if key x = n then some x else find key n l := by
  by_cases same : key x = n <;> simp [find, same]

theorem key_of_find (found : find key n l = some x) : key x = n := by
  simpa using find?_some found

theorem mem_of_find (found : find key n l = some x) : x ∈ l := mem_of_find?_eq_some found

theorem find_eq_none : find key n l = none ↔ ∀ x ∈ l, key x ≠ n := by
  simp [find]

theorem sorted_cons : Sorted key (x :: l) ↔ (∀ y ∈ l, key x < key y) ∧ Sorted key l := pairwise_cons

theorem find_of_mem (sorted : Sorted key l) (member : x ∈ l) : find key (key x) l = some x := by
  induction l with
  | nil => cases member
  | cons _ _ ih =>
    obtain ⟨first, sortedRest⟩ := sorted_cons.mp sorted
    rw [find_cons]
    rcases mem_cons.mp member with rfl | later
    · exact if_pos rfl
    · rw [if_neg (first x later).ne, ih sortedRest later]

theorem find_eq_some (sorted : Sorted key l) : find key n l = some x ↔ x ∈ l ∧ key x = n := by
  refine ⟨fun found => ⟨mem_of_find found, key_of_find found⟩, ?_⟩
  rintro ⟨member, rfl⟩
  exact find_of_mem sorted member

/-- A sorted list is its lookups. -/
theorem sorted_ext (sorted : Sorted key l) (sorted' : Sorted key l')
    (same : ∀ n, find key n l = find key n l') : l = l' := by
  have members (x : α) : x ∈ l ↔ x ∈ l' := by
    constructor
    · intro member
      exact mem_of_find ((same (key x)).symm.trans (find_of_mem sorted member))
    · intro member
      exact mem_of_find ((same (key x)).trans (find_of_mem sorted' member))
  exact SortedLists.sorted_ext sorted sorted' members

/-! ## Insertion -/

theorem insert_of_lt (above : ∀ y ∈ l, key y < key x) : insert key x l = l ++ [x] := by
  induction l with
  | nil => rfl
  | cons _ _ ih =>
    obtain ⟨first, above⟩ := forall_mem_cons.mp above
    rw [insert, if_neg first.not_gt, if_neg first.ne', ih above]
    rfl

/-- Entries inserted in their order stay in it. -/
theorem foldl_insert (sorted : Sorted key (l ++ l')) : l'.foldl (fun l x => insert key x l) l = l ++ l' := by
  induction l' generalizing l with
  | nil => simp
  | cons x _ ih =>
    have above : ∀ y ∈ l, key y < key x := fun y member =>
      (pairwise_append.mp sorted).2.2 y member x mem_cons_self
    rw [foldl_cons, insert_of_lt above, ih (by simpa using sorted)]
    simp

theorem find_insert (sorted : Sorted key l) :
    find key n (insert key x l) = if key x = n then some x else find key n l := by
  induction l with
  | nil => simp [insert, find_cons]
  | cons y _ ih =>
    obtain ⟨first, sortedRest⟩ := sorted_cons.mp sorted
    unfold insert
    by_cases before : key x < key y
    · rw [if_pos before, find_cons]
    · rw [if_neg before]
      by_cases same : key x = key y
      · rw [if_pos same, find_cons, find_cons, ← same]
        split_ifs <;> rfl
      · rw [if_neg same, find_cons, find_cons, ih sortedRest]
        split_ifs <;> first | rfl | omega

theorem mem_insert (member : y ∈ insert key x l) : y = x ∨ y ∈ l := by
  induction l with
  | nil => simpa [insert] using member
  | cons _ _ ih =>
    unfold insert at member
    split_ifs at member
    · simpa using member
    · rcases mem_cons.mp member with rfl | later
      · exact .inl rfl
      · exact .inr (mem_cons_of_mem _ later)
    · rcases mem_cons.mp member with rfl | later
      · exact .inr mem_cons_self
      · exact (ih later).imp id (mem_cons_of_mem _)

theorem above_of_sorted (sorted : Sorted key (x :: l)) (below : n < key x) : ∀ y ∈ x :: l, n < key y :=
  forall_mem_cons.mpr ⟨below, fun y later => below.trans ((sorted_cons.mp sorted).1 y later)⟩

theorem sorted_insert (sorted : Sorted key l) : Sorted key (insert key x l) := by
  induction l with
  | nil => exact pairwise_singleton _ _
  | cons _ _ ih =>
    obtain ⟨first, sortedRest⟩ := sorted_cons.mp sorted
    unfold insert
    split_ifs with before same
    · exact sorted_cons.mpr ⟨above_of_sorted sorted before, sorted⟩
    · exact sorted_cons.mpr ⟨fun z later => same ▸ first z later, sortedRest⟩
    · refine sorted_cons.mpr ⟨fun z member => ?_, ih sortedRest⟩
      rcases mem_insert member with rfl | later
      · omega
      · exact first z later

/-! ## Filters, maps and lower bounds -/

theorem find_filter (sorted : Sorted key l) (p : α → Bool) : find key n (l.filter p) = (find key n l).filter p := by
  have filtered := List.Pairwise.filter p sorted
  ext y
  rw [find_eq_some filtered, Option.filter_eq_some_iff, find_eq_some sorted, mem_filter]
  tauto

theorem find_map (keeps : ∀ x ∈ l, key' (f x) = key x) : find key' n (l.map f) = (find key n l).map f := by
  induction l with
  | nil => rfl
  | cons _ _ ih =>
    obtain ⟨head, keeps⟩ := forall_mem_cons.mp keeps
    rw [map_cons, find_cons, find_cons, head, ih keeps]
    split_ifs <;> rfl

theorem sorted_map (keeps : ∀ x ∈ l, key' (f x) = key x) (sorted : Sorted key l) : Sorted key' (l.map f) := by
  refine pairwise_map.mpr (List.Pairwise.imp_of_mem (fun inA inB _ => ?_) sorted)
  rwa [keeps _ inA, keeps _ inB]

theorem sorted_lowerBound (first : Nat) (sorted : Sorted key l) : Sorted key (lowerBound key first l) :=
  List.Pairwise.sublist (dropWhile_sublist _) sorted

theorem find_lowerBound (first : Nat) (sorted : Sorted key l) :
    find key n (lowerBound key first l) = if first ≤ n then find key n l else none := by
  induction l with
  | nil => simp [lowerBound]
  | cons y rest ih =>
    obtain ⟨later, sortedRest⟩ := sorted_cons.mp sorted
    by_cases below : key y < first
    · rw [lowerBound, dropWhile_cons_of_pos (by simpa using below)]
      rw [show rest.dropWhile (key · < first) = lowerBound key first rest from rfl, ih sortedRest, find_cons]
      split_ifs <;> first | rfl | omega
    · rw [lowerBound, dropWhile_cons_of_neg (by simpa using below)]
      split_ifs with reached
      · rfl
      · refine find_eq_none.mpr fun z member => ?_
        rcases mem_cons.mp member with rfl | member
        · omega
        · have := later z member
          omega

/-- The first entry with a property has the least key. -/
theorem key_le_of_find? (sorted : Sorted key l) (first : l.find? p = some x) (member : y ∈ l)
    (holds : p y) : key x ≤ key y := by
  rcases SortedLists.find?_first sorted first member holds with rfl | less
  · exact le_rfl
  · exact less.le

/-! ## Joins -/

/-- An entry of two maps: in the first only, in the second only, or in both. -/
inductive Joined (α β : Type) where
  | left (a : α)
  | right (b : β)
  | both (a : α) (b : β)

/-- The key of a joined entry. -/
def Joined.number (key : α → Nat) (key' : β → Nat) : Joined α β → Nat
  | left a | both a _ => key a
  | right b => key' b

/-- The entries of two maps in key order, those with one key paired. -/
def join (key : α → Nat) (key' : β → Nat) : List α → List β → List (Joined α β)
  | [], bs => bs.map .right
  | as, [] => as.map .left
  | a :: as, b :: bs =>
    if key a < key' b then .left a :: join key key' as (b :: bs)
    else if key' b < key a then .right b :: join key key' (a :: as) bs
    else .both a b :: join key key' as bs
  termination_by as bs => as.length + bs.length

/-- What two lookups join to. -/
def Joined.ofFind : Option α → Option β → Option (Joined α β)
  | some a, some b => some (.both a b)
  | some a, none => some (.left a)
  | none, some b => some (.right b)
  | none, none => none

variable {key' : β → Nat} {as : List α} {bs : List β}

theorem key_join (left : ∀ a ∈ as, bound < key a) (right : ∀ b ∈ bs, bound < key' b) :
    ∀ x ∈ join key key' as bs, bound < x.number key key' := by
  fun_induction join key key' as bs with
  | case1 => exact forall_mem_map.mpr right
  | case2 => exact forall_mem_map.mpr left
  | case3 _ _ _ _ _ ih =>
    obtain ⟨first, left⟩ := forall_mem_cons.mp left
    exact forall_mem_cons.mpr ⟨first, ih left right⟩
  | case4 _ _ _ _ _ _ ih =>
    obtain ⟨first, right⟩ := forall_mem_cons.mp right
    exact forall_mem_cons.mpr ⟨first, ih left right⟩
  | case5 _ _ _ _ _ _ ih =>
    obtain ⟨first, left⟩ := forall_mem_cons.mp left
    exact forall_mem_cons.mpr ⟨first, ih left (forall_mem_cons.mp right).2⟩

theorem sorted_join (left : Sorted key as) (right : Sorted key' bs) :
    Sorted (Joined.number key key') (join key key' as bs) := by
  fun_induction join key key' as bs with
  | case1 => exact sorted_map (fun _ _ => rfl) right
  | case2 => exact sorted_map (fun _ _ => rfl) left
  | case3 _ _ _ _ before ih =>
    obtain ⟨first, left⟩ := sorted_cons.mp left
    exact sorted_cons.mpr ⟨key_join first (above_of_sorted right before), ih left right⟩
  | case4 _ _ _ _ _ after ih =>
    obtain ⟨first, right⟩ := sorted_cons.mp right
    exact sorted_cons.mpr ⟨key_join (above_of_sorted left after) first, ih left right⟩
  | case5 a _ b _ _ _ ih =>
    obtain ⟨first, left⟩ := sorted_cons.mp left
    obtain ⟨first', right⟩ := sorted_cons.mp right
    have same : key a = key' b := by omega
    exact sorted_cons.mpr ⟨key_join first fun c member => same.trans_lt (first' c member), ih left right⟩

/-- A lookup in a join pairs the lookups in the two maps. -/
theorem find_join (left : Sorted key as) (right : Sorted key' bs) :
    find (Joined.number key key') n (join key key' as bs) = Joined.ofFind (find key n as) (find key' n bs) := by
  have absent {γ : Type} {key : γ → Nat} {c : γ} {cs : List γ} (sorted : Sorted key (c :: cs))
      (below : n < key c) : find key n (c :: cs) = none :=
    find_eq_none.mpr fun d member => (above_of_sorted sorted below d member).ne'
  fun_induction join key key' as bs with
  | case1 bs =>
    rw [find_map fun (b : β) _ => (rfl : Joined.number key key' (.right b) = key' b)]
    change (find key' n bs).map Joined.right = _
    cases find key' n bs <;> rfl
  | case2 as =>
    rw [find_map fun (a : α) _ => (rfl : Joined.number key key' (.left a) = key a)]
    change (find key n as).map Joined.left = _
    cases find key n as <;> rfl
  | case3 a _ _ _ before ih =>
    rw [find_cons, ih (sorted_cons.mp left).2 right, find_cons (x := a)]
    have number : Joined.number key key' (.left a) = key a := rfl
    by_cases hit : key a = n
    · rw [if_pos (number.trans hit), if_pos hit, absent right (hit ▸ before)]
      rfl
    · rw [if_neg (number ▸ hit), if_neg hit]
  | case4 _ _ b _ _ after ih =>
    rw [find_cons, ih left (sorted_cons.mp right).2, find_cons (x := b)]
    have number : Joined.number key key' (.right b) = key' b := rfl
    by_cases hit : key' b = n
    · rw [if_pos (number.trans hit), if_pos hit, absent left (hit ▸ after)]
      rfl
    · rw [if_neg (number ▸ hit), if_neg hit]
  | case5 a _ b _ _ _ ih =>
    have same : key a = key' b := by omega
    rw [find_cons, ih (sorted_cons.mp left).2 (sorted_cons.mp right).2, find_cons,
      find_cons, ← same]
    have number : Joined.number key key' (.both a b) = key a := rfl
    by_cases hit : key a = n
    · rw [if_pos (number.trans hit), if_pos hit, if_pos hit]
      rfl
    · rw [if_neg (number ▸ hit), if_neg hit, if_neg hit]

/-- Paired entries are looked up by one key. -/
theorem find_of_both (left : Sorted key as) (right : Sorted key' bs) (member : .both a b ∈ join key key' as bs) :
    find key (key a) as = some a ∧ find key' (key a) bs = some b := by
  have found := find_of_mem (sorted_join left right) member
  rw [find_join left right] at found
  change Joined.ofFind (find key (key a) as) (find key' (key a) bs) = some (.both a b) at found
  cases inLeft : find key (key a) as with
  | none => cases inRight : find key' (key a) bs <;> simp [inLeft, inRight, Joined.ofFind] at found
  | some =>
    cases inRight : find key' (key a) bs with
    | none => simp [inLeft, inRight, Joined.ofFind] at found
    | some => simpa [inLeft, inRight, Joined.ofFind] using found

end Rocksdb.Lib.KeyedList
