import Mathlib.Logic.Basic

/-! Linear systems over the field of two elements. Unknowns are numbered, each has one
bit for every column of the system, and an equation gives the parity of some of the
unknowns in every column. -/
namespace Rocksdb.Lib.Gf2

/-- The parity of the first values of a function. -/
def parity : Nat → (Nat → Bool) → Bool
  | 0, _ => false
  | n + 1, f => parity n f ^^ f n

section Parity
theorem parity_congr (same : ∀ k, k < n → f k = g k) : parity n f = parity n g := by
  induction n with
  | zero => rfl
  | succ n ih => rw [parity, parity, ih fun k below => same k (Nat.lt_succ_of_lt below), same n (Nat.lt_succ_self n)]

theorem parity_false (n : Nat) : parity n (fun _ => false) = false := by
  induction n with
  | zero => rfl
  | succ _ ih => rw [parity, ih]; rfl

theorem parity_xor (n : Nat) (f g : Nat → Bool) : parity n (fun k => f k ^^ g k) = (parity n f ^^ parity n g) := by
  induction n with
  | zero => rfl
  | succ n ih =>
    simp only [parity, ih]
    cases parity n f <;> cases parity n g <;> cases f n <;> cases g n <;> rfl

theorem parity_add (m n : Nat) (f : Nat → Bool) : parity (m + n) f = (parity m f ^^ parity n fun k => f (m + k)) := by
  induction n with
  | zero => simp [parity]
  | succ _ ih => rw [← Nat.add_assoc, parity, ih, parity, Bool.xor_assoc]

/-- The first value apart from the others. -/
theorem parity_succ (n : Nat) (f : Nat → Bool) : parity (n + 1) f = (f 0 ^^ parity n fun k => f (k + 1)) := by
  rw [Nat.add_comm, parity_add]
  simp only [parity, Bool.false_xor, Nat.add_comm]

/-- The parity of one value, at the front. -/
theorem parity_single (positive : 0 < n) (b : Bool) : parity n (fun k => decide (k = 0) && b) = b := by
  cases n with
  | zero => cases positive
  | succ =>
    rw [parity_succ]
    simp [parity_false]

/-- Values behind the last one that is set do not count. -/
theorem parity_extend (le : m ≤ n) (clear : ∀ k, m ≤ k → k < n → f k = false) : parity n f = parity m f := by
  obtain ⟨d, rfl⟩ := Nat.exists_eq_add_of_le le
  rw [parity_add, parity_congr (g := fun _ => false) fun k _ => clear _ (Nat.le_add_right m k) (by omega),
    parity_false, Bool.xor_false]

end Parity

/-- An equation for the parities of some unknowns in every column. -/
structure Equation (ρ : Type) where
  coeff : Nat → Bool
  result : ρ → Bool

namespace Equation
variable {ρ : Type} {n : Nat} {x : Nat → ρ → Bool} {a b : Equation ρ}

/-- The unknowns satisfy the equation. -/
def Holds (n : Nat) (x : Nat → ρ → Bool) (e : Equation ρ) : Prop :=
  ∀ j, parity n (fun p => e.coeff p && x p j) = e.result j

def add (a b : Equation ρ) : Equation ρ := ⟨fun p => a.coeff p ^^ b.coeff p, fun j => a.result j ^^ b.result j⟩

/-- A row operation. -/
theorem holds_add_iff (other : b.Holds n x) : (a.add b).Holds n x ↔ a.Holds n x := by
  refine forall_congr' fun j => ?_
  have split : parity n (fun p => (a.add b).coeff p && x p j) =
      (parity n (fun p => a.coeff p && x p j) ^^ parity n fun p => b.coeff p && x p j) := by
    rw [← parity_xor]
    refine parity_congr fun p _ => ?_
    simp only [add]
    cases a.coeff p <;> cases b.coeff p <;> cases x p j <;> rfl
  rw [split, other j]
  exact Bool.xor_left_inj

/-- An equation without unknowns holds when its results are zero. -/
theorem holds_of_clear (clear : ∀ p, a.coeff p = false) : a.Holds n x ↔ ∀ j, a.result j = false := by
  refine forall_congr' fun _ => ?_
  simp only [clear, Bool.false_and, parity_false]
  exact eq_comm

end Equation

end Rocksdb.Lib.Gf2
