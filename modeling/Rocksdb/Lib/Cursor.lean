import Mathlib.Data.List.Find
import Mathlib.Data.List.Induction
import Rocksdb.Lib.SortedLists

/-! Cursors. A cursor stands on an element of a list or on none; it is the
reference for iterators that keep much more state. Runs of an iterator and of
the cursor are compared by a relation that every legal call preserves. -/
namespace Rocksdb.Lib.Cursor
open List

/-- The calls an iterator understands. -/
inductive Call (τ : Type) where
  | seekToFirst
  | seekToLast
  | seek (target : τ)
  | seekForPrev (target : τ)
  | next
  | prev
  deriving DecidableEq

variable {α τ : Type}

/-- What a cursor moves over: forward calls see one list and backward calls the
other. The two are the same list unless some elements show only one way. -/
structure Tracks (α τ : Type) where
  forward : List α
  backward : List α
  before : α → α → Bool
  atOrAfter : τ → α → Bool
  atOrBefore : τ → α → Bool

/-- One call of the cursor. -/
def Tracks.step (tracks : Tracks α τ) (here : Option α) : Call τ → Option α
  | .seekToFirst => tracks.forward.head?
  | .seekToLast => tracks.backward.getLast?
  | .seek target => tracks.forward.find? (tracks.atOrAfter target)
  | .seekForPrev target => tracks.backward.reverse.find? (tracks.atOrBefore target)
  | .next => here.bind fun x => tracks.forward.find? (tracks.before x)
  | .prev => here.bind fun x => tracks.backward.reverse.find? (tracks.before · x)

/-! ## Runs -/

section Runs
variable {S T C : Type}

/-- A sequence of calls each of which is legal where it is made. -/
def LegalRun (step : T → C → T) (legal : T → C → Prop) : T → List C → Prop
  | _, [] => True
  | t, c :: calls => legal t c ∧ LegalRun step legal (step t c) calls

instance LegalRun.decidable (step : T → C → T) (legal : T → C → Prop) [∀ t c, Decidable (legal t c)] :
    ∀ t calls, Decidable (LegalRun step legal t calls)
  | _, [] => inferInstanceAs (Decidable True)
  | t, c :: calls =>
    have := LegalRun.decidable step legal (step t c) calls
    inferInstanceAs (Decidable (_ ∧ _))

/-- What every legal call preserves, every legal run preserves. -/
theorem foldl_related {R : S → T → Prop} (keeps : ∀ s t c, R s t → legal t c → R (stepS s c) (stepT t c))
    (calls : List C) :
    ∀ s t, R s t → LegalRun stepT legal t calls → R (calls.foldl stepS s) (calls.foldl stepT t) := by
  induction calls with
  | nil => exact fun s t related _ => related
  | cons c _ ih =>
    intro s t related legalRun
    exact ih _ _ (keeps s t c related legalRun.1) legalRun.2

end Runs

/-! ## First and last elements -/

section Search
variable {l : List α} {before : α → α → Prop} {p : α → Bool} {x : α}

/-- In a sorted list a search finds the element no other match comes before. -/
theorem find?_eq_first (sorted : l.Pairwise before) (member : x ∈ l) (isMatch : p x)
    (first : ∀ y ∈ l, p y → ¬before y x) : l.find? p = some x := by
  cases found : l.find? p with
  | none => exact absurd isMatch (find?_eq_none.mp found x member)
  | some y =>
    rcases SortedLists.find?_first sorted found member isMatch with rfl | y_before
    · rfl
    · exact absurd y_before (first y (mem_of_find?_eq_some found) (find?_some found))

theorem head?_eq_find? (l : List α) : l.head? = l.find? (fun _ => true) := by
  cases l <;> rfl

/-- A search for elements from an index on. -/
theorem find?_eq_getElem? {c : Nat} (split : ∀ i x, l[i]? = some x → (p x = true ↔ c ≤ i)) : l.find? p = l[c]? := by
  induction l generalizing c with
  | nil => rfl
  | cons y _ ih =>
    have first := split 0 y rfl
    cases c with
    | zero => rw [find?_cons_of_pos (first.mpr (Nat.le_refl 0)), List.getElem?_cons_zero]
    | succ =>
      have below : ¬ p y = true := fun holds => absurd (first.mp holds) (by omega)
      rw [find?_cons_of_neg below, List.getElem?_cons_succ]
      exact ih fun i x found => (split (i + 1) x found).trans Nat.add_le_add_iff_right

/-- A search from the end for elements before an index. -/
theorem find?_reverse_eq_getElem? (inside : c ≤ l.length) (split : ∀ i x, l[i]? = some x → (p x = true ↔ i < c)) :
    l.reverse.find? p = match c with
      | 0 => none
      | c + 1 => l[c]? := by
  induction l using reverseRecOn with
  | nil =>
    cases c with
    | zero => rfl
    | succ => rfl
  | append_singleton rest y ih =>
    have last := split rest.length y List.getElem?_concat_length
    rw [reverse_append, reverse_singleton, singleton_append]
    rw [length_append, length_singleton] at inside
    by_cases whole : rest.length < c
    · have same : c = rest.length + 1 := by omega
      subst same
      rw [find?_cons_of_pos (last.mpr whole)]
      exact List.getElem?_concat_length.symm
    · have below : ¬ p y = true := fun holds => whole (last.mp holds)
      rw [find?_cons_of_neg below, ih (by omega) fun i x found => split i x (by
        rw [List.getElem?_append_left (List.getElem?_eq_some_iff.mp found).1]
        exact found)]
      cases c with
      | zero => rfl
      | succ => exact (List.getElem?_append_left (by omega)).symm

end Search

end Rocksdb.Lib.Cursor
