import Mathlib.Data.List.Sort
import Mathlib.Data.List.Dedup
import Mathlib.Data.List.TakeWhile
import Mathlib.Order.MinMax

/-! Searching sorted lists: the first element that satisfies a bound, the largest
element of a finite list of numbers, and sorted lists as finite sets. -/
namespace Rocksdb.Lib.SortedLists
open List

/-- The largest number of a list, zero for the empty list. -/
def largest (l : List Nat) : Nat := l.foldr max 0

variable {l : List Nat}

theorem le_largest (member : n ∈ l) : n ≤ largest l := by
  induction l with
  | nil => cases member
  | cons _ _ ih =>
    simp only [largest, foldr_cons, le_max_iff]
    rcases mem_cons.mp member with rfl | member
    · exact .inl le_rfl
    · exact .inr (ih member)

theorem largest_le (bound : ∀ x ∈ l, x ≤ n) : largest l ≤ n := by
  induction l with
  | nil => exact Nat.zero_le n
  | cons head _ ih =>
    simp only [largest, foldr_cons, max_le_iff]
    exact ⟨bound head (by simp), ih fun x member => bound x (by simp [member])⟩

/-- A member that bounds the list is its largest element. -/
theorem largest_eq (member : n ∈ l) (bound : ∀ x ∈ l, x ≤ n) : largest l = n :=
  le_antisymm (largest_le bound) (le_largest member)

theorem largest_eq_zero (empty : ∀ x, x ∉ l) : largest l = 0 :=
  Nat.le_zero.mp (largest_le fun x member => absurd member (empty x))

/-- The first match in a sorted list comes before every other match. -/
theorem find?_first {l : List α} {before : α → α → Prop} {p : α → Bool} (sorted : l.Pairwise before)
    (found : l.find? p = some x) (member : y ∈ l) (isMatch : p y) : y = x ∨ before x y := by
  obtain ⟨-, _, _, rfl, skipped⟩ := find?_eq_some_iff_append.mp found
  rcases mem_append.mp member with inEarly | here
  · exact absurd isMatch (by simpa using skipped y inEarly)
  · rcases mem_cons.mp here with rfl | inLate
    · exact .inl rfl
    · exact .inr ((pairwise_cons.mp (pairwise_append.mp sorted).2.1).1 y inLate)

/-- In a descending list the first element not above a bound dominates every
element not above it. -/
theorem find_le_dominates (descending : l.Pairwise (· ≥ ·))
    (found : l.find? (· ≤ bound) = some n) : ∀ x ∈ l, x ≤ bound → x ≤ n := by
  intro x member le
  rcases find?_first descending found member (by simpa using le) with rfl | less
  · exact le_rfl
  · exact less

/-- In a sorted list everything with a downward closed property comes first. -/
theorem mem_takeWhile_of_sorted {l : List α} (sorted : l.Pairwise r) (closed : ∀ a b, r a b → p b → p a)
    (member : x ∈ l) (holds : p x) :
    x ∈ l.takeWhile p := by
  induction l with
  | nil => cases member
  | cons head _ ih =>
    obtain ⟨first, restSorted⟩ := pairwise_cons.mp sorted
    have headHolds : p head := by
      rcases mem_cons.mp member with rfl | later
      · exact holds
      · exact closed head x (first x later) holds
    rw [takeWhile_cons_of_pos headHolds]
    rcases mem_cons.mp member with rfl | later
    · exact mem_cons_self
    · exact mem_cons_of_mem _ (ih restSorted later)

/-- Skipping a prefix keeps whatever does not belong to it. -/
theorem mem_dropWhile_of_not {l : List α} (member : x ∈ l) (fails : ¬p x) : x ∈ l.dropWhile p := by
  rw [← takeWhile_append_dropWhile (l := l)] at member
  rcases mem_append.mp member with skipped | kept
  · exact absurd (mem_takeWhile_imp skipped) fails
  · exact kept

/-- What is left after skipping a downward closed prefix of a sorted list does not belong to it. -/
theorem not_of_mem_dropWhile {l : List α} (sorted : l.Pairwise r) (closed : ∀ a b, r a b → p b → p a)
    (member : x ∈ l.dropWhile p) : ¬p x := by
  induction l with
  | nil => cases member
  | cons head _ ih =>
    obtain ⟨first, restSorted⟩ := pairwise_cons.mp sorted
    by_cases skipped : p head
    · rw [dropWhile_cons_of_pos skipped] at member
      exact ih restSorted member
    · rw [dropWhile_cons_of_neg skipped] at member
      rcases mem_cons.mp member with rfl | later
      · exact skipped
      · exact fun holds => skipped (closed head x (first x later) holds)

theorem dropWhile_congr {l : List α} (same : ∀ x ∈ l, p x = q x) : l.dropWhile p = l.dropWhile q := by
  induction l with
  | nil => rfl
  | cons _ _ ih =>
    obtain ⟨here, behind⟩ := forall_mem_cons.mp same
    rw [dropWhile_cons, dropWhile_cons, here, ih behind]

/-! ## Sorted lists as sets -/

section Sets
variable {α ι : Type} [LinearOrder ι]

/-- Lists sorted by a key are known by their members. -/
theorem sorted_ext {f : α → ι} {l l' : List α} (sorted : l.Pairwise fun a b => f a < f b)
    (sorted' : l'.Pairwise fun a b => f a < f b) (members : ∀ x, x ∈ l ↔ x ∈ l') : l = l' := by
  have nodup {l : List α} (sorted : l.Pairwise fun a b => f a < f b) : l.Nodup :=
    List.Pairwise.imp (fun lt same => absurd (congrArg f same) lt.ne) sorted
  have perm := (perm_ext_iff_of_nodup (nodup sorted) (nodup sorted')).mpr members
  exact perm.eq_of_pairwise (fun a b _ _ lt gt => absurd lt gt.asymm) sorted sorted'

/-- The members of a list in order, each once. -/
def sortedUnion (l : List ι) : List ι := l.dedup.insertionSort (· ≤ ·)

theorem mem_sortedUnion {l : List ι} {x : ι} : x ∈ sortedUnion l ↔ x ∈ l := by
  rw [sortedUnion, mem_insertionSort, mem_dedup]

theorem sortedUnion_sorted (l : List ι) : (sortedUnion l).Pairwise (· < ·) := by
  have nodup : (sortedUnion l).Nodup := (perm_insertionSort _ _).nodup_iff.mpr l.nodup_dedup
  exact ((pairwise_insertionSort _ _).and nodup).imp fun both => lt_of_le_of_ne both.1 both.2

end Sets

end Rocksdb.Lib.SortedLists
