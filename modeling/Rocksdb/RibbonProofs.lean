import Rocksdb.Lib.Gf2
import Rocksdb.Ribbon
import Mathlib.Tactic.Ring

/-! Ribbon construction is exact. The rows of the banding storage, each at its slot, are
equations with the same solutions as the equations that were added; they are in echelon
form, so that back substitution solves them whatever it takes for the slots without a
row. -/
namespace Rocksdb.Ribbon
open Lib Lib.Gf2 Function List
open BitVec (eq_of_getLsbD_eq lt_of_getLsbD getLsbD_or getLsbD_shiftLeft getLsbD_and getLsbD_xor)

variable {w r : Nat} {α : Type} {bs : BandingStorage w r} {row : Row w r} {start : Nat}

/-! ## Bits -/

theorem bitParity_eq (x : BitVec w) : bitParity x = parity w fun k => x.getLsbD k := by
  have fold (n : Nat) : (range n).foldl (fun parity k => parity ^^ x.getLsbD k) false =
      parity n fun k => x.getLsbD k := by
    induction n with
    | zero => rfl
    | succ _ ih => rw [range_succ, foldl_append, ih]; rfl
  exact fold w

/-- The lowest bit that is set. -/
theorem countTrailingZeroBits_spec {x : BitVec w} (nonzero : x ≠ 0) :
    x.getLsbD (countTrailingZeroBits x) = true ∧ ∀ k, k < countTrailingZeroBits x → x.getLsbD k = false := by
  have found : ∃ k ∈ range w, x.getLsbD k = true := by
    by_contra none
    refine nonzero (eq_of_getLsbD_eq fun k below => ?_)
    have clear : ¬x.getLsbD k = true := fun set => none ⟨k, mem_range.mpr below, set⟩
    simpa using clear
  have inside := findIdx_lt_length.mpr found
  constructor
  · simpa [countTrailingZeroBits] using findIdx_getElem (w := inside)
  · intro _ below
    have clear := not_of_lt_findIdx below
    simpa using clear

/-- The low bits of a shifted row. -/
theorem ushiftRight_getLsbD_zero (x : BitVec r) (j : Nat) : (x >>> j).getLsbD 0 = x.getLsbD j := by simp

/-! ## Equations -/

/-- A row at a slot as an equation. -/
def Row.equation (row : Row w r) (i : Nat) : Equation (Fin r) :=
  ⟨fun p => decide (i ≤ p) && row.cr.getLsbD (p - i), fun j => row.rr.getLsbD j⟩

/-- Shifting the coefficients to their lowest bit does not change the equation. -/
theorem equation_shift (row : Row w r) (i : Nat) (clear : ∀ k, k < tz → row.cr.getLsbD k = false) :
    (Row.mk (row.cr >>> tz) row.rr).equation (i + tz) = row.equation i := by
  unfold Row.equation
  congr 1
  funext p
  by_cases before : i + tz ≤ p
  · have sub : tz + (p - (i + tz)) = p - i := by omega
    simp [before, sub, show i ≤ p by omega]
  · by_cases at' : i ≤ p
    · simp [before, clear (p - i) (by omega)]
    · simp [before, at']

private theorem equation_add (a b : Row w r) (i : Nat) :
    (Row.mk (a.cr ^^^ b.cr) (a.rr ^^^ b.rr)).equation i = (a.equation i).add (b.equation i) := by
  unfold Row.equation Equation.add
  congr 1
  · funext p
    by_cases at' : i ≤ p <;> simp [at']
  · funext j
    simp

/-! ## Banding -/

namespace BandingStorage

/-- Rows start with a coefficient and end inside of the slots. -/
structure Banded (bs : BandingStorage w r) : Prop where
  first : ∀ i, (bs.rows i).cr ≠ 0 → (bs.rows i).cr.getLsbD 0 = true
  inside : ∀ i k, (bs.rows i).cr.getLsbD k = true → i + k < bs.numSlots

/-- The unknowns satisfy the equations of all rows. -/
def Solves (bs : BandingStorage w r) (x : Nat → Fin r → Bool) : Prop :=
  ∀ i, (bs.rows i).cr ≠ 0 → ((bs.rows i).equation i).Holds bs.numSlots x

private theorem storeRow_banded (banded : Banded bs)
    (first : row.cr.getLsbD 0 = true) (inside : ∀ k, row.cr.getLsbD k = true → i + k < bs.numSlots) :
    Banded (bs.storeRow i row) where
  first p := by
    by_cases same : p = i
    · simp [storeRow, same, first]
    · simpa [storeRow, update_of_ne same] using banded.first p
  inside p k set := by
    by_cases same : p = i
    · subst same
      exact inside k (by simpa [storeRow] using set)
    · exact banded.inside p k (by simpa [storeRow, update_of_ne same] using set)

/-- A row at a free slot adds its equation. -/
theorem storeRow_solves (free : (bs.rows i).cr = 0) (nonzero : row.cr ≠ 0) (x : Nat → Fin r → Bool) :
    Solves (bs.storeRow i row) x ↔ Solves bs x ∧ (row.equation i).Holds bs.numSlots x := by
  have same : ((bs.storeRow i row).rows i) = row := update_self ..
  have other {p : Nat} (apart : p ≠ i) : (bs.storeRow i row).rows p = bs.rows p := update_of_ne apart _ _
  constructor
  · intro solves
    refine ⟨fun p set => ?_, ?_⟩
    · have apart : p ≠ i := fun same => set (same ▸ free)
      have holds := solves p
      rw [other apart] at holds
      exact holds set
    · have holds := solves i
      rw [same] at holds
      exact holds nonzero
  · rintro ⟨solves, holds⟩ p set
    by_cases here : p = i
    · subst here
      rw [same]
      exact holds
    · rw [other here] at set ⊢
      exact solves p set

end BandingStorage

open BandingStorage

/-- What adding an equation does: it is added to those of the storage, or contradicts them. -/
structure Adds (st : Banding w r) (e : Equation (Fin r)) (ok : Bool) (st' : Banding w r) : Prop where
  numStarts : st'.bs.numStarts = st.bs.numStarts
  banded : st'.bs.Banded
  solves : ok = true → ∀ x, st'.bs.Solves x ↔ st.bs.Solves x ∧ e.Holds st.bs.numSlots x
  fails : ok = false → ∀ x, st.bs.Solves x → ¬e.Holds st.bs.numSlots x

theorem ne_zero_of_getLsbD {x : BitVec w} {k : Nat} (set : x.getLsbD k = true) : x ≠ 0 := by
  rintro rfl
  simp at set

theorem loadRow_false (bs : BandingStorage w r) (i : Nat) : bs.loadRow i false = bs.rows i := by simp [loadRow]

/-- The loop of `BandingAdd` ends, after eliminating the coefficients of the rows it meets. -/
theorem bandingAddLoop_adds (banded : st.bs.Banded) (rounds i : Nat) (row : Row w r)
    (first : row.cr.getLsbD 0 = true) (inside : ∀ k, row.cr.getLsbD k = true → i + k < st.bs.numSlots)
    (enough : st.bs.numSlots ≤ i + rounds) :
    ∃ ok st', bandingAddLoop st rounds i row = some (ok, st') ∧ Adds st (row.equation i) ok st' := by
  induction rounds generalizing i row with
  | zero =>
    have below := inside 0 first
    omega
  | succ _ ih =>
    rw [bandingAddLoop, loadRow_false]
    dsimp only
    split
    · next free =>
      refine ⟨true, _, rfl, rfl, storeRow_banded banded first inside, fun _ x => ?_, nofun⟩
      exact storeRow_solves free (ne_zero_of_getLsbD first) x
    · next taken =>
      have added := equation_add row (st.bs.rows i) i
      set sum : Row w r := ⟨row.cr ^^^ (st.bs.rows i).cr, row.rr ^^^ (st.bs.rows i).rr⟩
      have reduced (x : Nat → Fin r → Bool) (solves : st.bs.Solves x) :
          (sum.equation i).Holds st.bs.numSlots x ↔ (row.equation i).Holds st.bs.numSlots x := by
        rw [added]
        exact Equation.holds_add_iff (solves i taken)
      split
      · next cancelled =>
        have clear (x : Nat → Fin r → Bool) :
            (sum.equation i).Holds st.bs.numSlots x ↔ sum.rr = 0 := by
          rw [Equation.holds_of_clear fun _ => by simp [Row.equation, sum, cancelled]]
          constructor
          · exact fun zero => eq_of_getLsbD_eq fun j below => (zero ⟨j, below⟩).trans BitVec.getLsbD_zero.symm
          · intro zero _
            simp [Row.equation, zero]
        refine ⟨_, st, rfl, rfl, banded, fun ok x => ?_, fun failed x solves holds => ?_⟩
        · refine (and_iff_left_of_imp fun solves => ?_).symm
          exact (reduced x solves).mp ((clear x).mpr (of_decide_eq_true ok))
        · exact of_decide_eq_false failed ((clear x).mp ((reduced x solves).mpr holds))
      · next left =>
        obtain ⟨set, low⟩ := countTrailingZeroBits_spec left
        generalize countTrailingZeroBits sum.cr = tz at set low ⊢
        have positive : 0 < tz := by
          by_contra zero
          obtain rfl : tz = 0 := by omega
          simp [first, banded.first i taken] at set
        have shifted := equation_shift sum i low
        have insideShifted (k : Nat) (bit : (sum.cr >>> tz).getLsbD k = true) :
            i + tz + k < st.bs.numSlots := by
          rw [Nat.add_assoc]
          cases own : row.cr.getLsbD (tz + k) with
          | true => exact inside _ own
          | false => exact banded.inside i _ (by simpa [sum, own] using bit)
        obtain ⟨ok, st', result, adds⟩ := ih (i + tz) ⟨sum.cr >>> tz, sum.rr⟩ set insideShifted (by omega)
        refine ⟨ok, st', result, { adds with solves := fun isOk x => ?_, fails := fun failed x solves holds => ?_ }⟩
        · rw [adds.solves isOk x, shifted]
          exact and_congr_right fun solves => reduced x solves
        · refine adds.fails failed x solves ?_
          rw [shifted]
          exact (reduced x solves).mpr holds

private theorem bandingAdd_adds (banded : st.bs.Banded) (below : start < st.bs.numStarts) (rr : BitVec r)
    (nonzero : cr ≠ 0)
    (one : firstCoeffAlwaysOne = true → cr.getLsbD 0 = true) :
    ∃ ok st', bandingAdd firstCoeffAlwaysOne st start rr cr = some (ok, st') ∧
      Adds st ((Row.mk cr rr).equation start) ok st' := by
  have normalized : ∃ tz, (if firstCoeffAlwaysOne then 0 else countTrailingZeroBits cr) = tz ∧
      cr.getLsbD tz = true ∧ ∀ k, k < tz → cr.getLsbD k = false := by
    refine ⟨_, rfl, ?_⟩
    split
    · next always => exact ⟨one always, fun k _ => by omega⟩
    · exact countTrailingZeroBits_spec nonzero
  obtain ⟨tz, shift, set, low⟩ := normalized
  rw [bandingAdd, shift, ← equation_shift ⟨cr, rr⟩ start low]
  refine bandingAddLoop_adds banded _ _ _ set (fun k bit => ?_) (by omega)
  have bit : cr.getLsbD (tz + k) = true := by simpa using bit
  have width := lt_of_getLsbD bit
  unfold BandingStorage.numSlots
  omega

section Range
variable (bh : BandingHasher α w r)

/-- The equation of an input. -/
def BandingHasher.equation (numStarts : Nat) (input : α) : Equation (Fin r) :=
  (Row.mk (bh.getCoeffRow (bh.getHash input))
    (bh.getResultRowFromInput input ||| bh.getResultRowFromHash (bh.getHash input))).equation
      (bh.getStart (bh.getHash input) numStarts)

/-- The equations of all inputs. -/
def BandingHasher.Solution (numStarts n : Nat) (inputs : List α) (x : Nat → Fin r → Bool) : Prop :=
  ∀ input ∈ inputs, (bh.equation numStarts input).Holds n x

theorem BandingHasher.solution_cons {numStarts n : Nat} {cur : α} {rest : List α} {x : Nat → Fin r → Bool} :
    bh.Solution numStarts n (cur :: rest) x ↔
      (bh.equation numStarts cur).Holds n x ∧ bh.Solution numStarts n rest x := forall_mem_cons

/-- What adding a range of inputs does. -/
structure AddsAll (st : Banding w r) (inputs : List α) (ok : Bool) (st' : Banding w r) : Prop where
  numStarts : st'.bs.numStarts = st.bs.numStarts
  banded : st'.bs.Banded
  solves : ok = true → ∀ x, st'.bs.Solves x ↔ st.bs.Solves x ∧ bh.Solution st.bs.numStarts st.bs.numSlots inputs x
  fails : ok = false → ∀ x, st.bs.Solves x → ¬bh.Solution st.bs.numStarts st.bs.numSlots inputs x

private theorem simpleLoop_addsAll (inputs : List α) (st : Banding w r) (banded : st.bs.Banded)
    (positive : 0 < st.bs.numStarts) :
    ∃ ok st', simpleLoop bh inputs st = some (ok, st') ∧ AddsAll bh st inputs ok st' := by
  induction inputs generalizing st with
  | nil => exact ⟨true, st, rfl, rfl, banded, fun _ x => by simp [BandingHasher.Solution], nofun⟩
  | cons cur _ ih =>
    obtain ⟨ok, st', result, adds⟩ := bandingAdd_adds banded (bh.getStart_lt (bh.getHash cur) _ positive)
      (bh.getResultRowFromInput cur ||| bh.getResultRowFromHash (bh.getHash cur)) (bh.getCoeffRow_ne (bh.getHash cur))
      (bh.getCoeffRow_one (bh.getHash cur))
    have slots : st'.bs.numSlots = st.bs.numSlots := by rw [BandingStorage.numSlots, adds.numStarts]; rfl
    rw [simpleLoop, result]
    cases ok with
    | true =>
      obtain ⟨ok, st'', result', all⟩ := ih st' adds.banded (adds.numStarts ▸ positive)
      refine ⟨ok, st'', result', all.numStarts.trans adds.numStarts, all.banded,
        fun isOk x => ?_, fun failed x solves solution => ?_⟩
      · rw [all.solves isOk x, adds.solves rfl x, adds.numStarts, slots, and_assoc]
        exact and_congr_right fun _ => bh.solution_cons.symm
      · obtain ⟨here, behind⟩ := bh.solution_cons.mp solution
        refine all.fails failed x ((adds.solves rfl x).mpr ⟨solves, here⟩) ?_
        rw [adds.numStarts, slots]
        exact behind
    | false =>
      exact ⟨false, st', rfl, adds.numStarts, adds.banded, nofun, fun _ x solves solution =>
        adds.fails rfl x solves (bh.solution_cons.mp solution).1⟩

private theorem bandingAddLoop_numStarts (rounds i : Nat) (row : Row w r)
    (result : bandingAddLoop st rounds i row = some (ok, st')) : st'.bs.numStarts = st.bs.numStarts := by
  induction rounds generalizing i row with
  | zero => cases result
  | succ _ ih =>
    rw [bandingAddLoop] at result
    dsimp only at result
    split at result
    · cases result
      rfl
    split at result
    · cases result
      rfl
    · exact ih _ _ result

/-- The pipeline adds the inputs in the same order. -/
theorem pipelinedLoop_eq (cur : α) (rest : List α) (st : Banding w r) :
    pipelinedLoop bh rest (bh.getHash cur) (bh.getStart (bh.getHash cur) st.bs.numStarts)
      (bh.getResultRowFromInput cur) st =
      simpleLoop bh (cur :: rest) st := by
  induction rest generalizing cur st with
  | nil =>
    rw [pipelinedLoop, simpleLoop]
    split
    · next added => rw [simpleLoop, added]
    · rfl
  | cons next rest ih =>
    rw [pipelinedLoop, simpleLoop]
    split
    · next st' added =>
      have same : st'.bs.numStarts = st.bs.numStarts := bandingAddLoop_numStarts _ _ _ added
      rw [← same, ih]
    · rfl

end Range

/-! ## Back substitution -/

section BackSubst
variable {bs : BandingStorage w r}

theorem bit_getLsbD (k : Nat) (bit : Bool) :
    (if bit then 1#w else 0#w).getLsbD k = (decide (k < w) && (decide (k = 0) && bit)) := by
  cases bit with
  | false => simp
  | true =>
    by_cases zero : k = 0 <;> simp [zero]

/-- The new column has the bit in front of the old one. -/
theorem backSubstColumn_getLsbD (row : Row w r) (column : BitVec w) (j k : Nat) :
    (backSubstColumn row column j).2.getLsbD k =
      (decide (k < w) && if k = 0 then (backSubstColumn row column j).1 else column.getLsbD (k - 1)) := by
  simp only [backSubstColumn, getLsbD_or, getLsbD_shiftLeft, bit_getLsbD]
  by_cases zero : k = 0
  · simp [zero]
  · simp [zero, show ¬k < 1 by omega]

/-- The bit is chosen so that the column satisfies the equation of the row. -/
theorem backSubstColumn_parity (first : row.cr.getLsbD 0 = true) (column : BitVec w) (j : Nat) :
    bitParity ((backSubstColumn row column j).2 &&& row.cr) = row.rr.getLsbD j := by
  have positive : 0 < w := lt_of_getLsbD first
  have apart (k : Nat) (below : k < w) : ((backSubstColumn row column j).2 &&& row.cr).getLsbD k =
      ((column <<< 1 &&& row.cr).getLsbD k ^^ (decide (k = 0) && (backSubstColumn row column j).1)) := by
    rw [getLsbD_and, backSubstColumn_getLsbD, getLsbD_and, getLsbD_shiftLeft]
    by_cases zero : k = 0
    · simp [zero, positive, first]
    · simp [zero, below, show ¬k < 1 by omega]
  rw [bitParity_eq, parity_congr apart, parity_xor, parity_single positive, ← bitParity_eq, backSubstColumn,
    ushiftRight_getLsbD_zero, ← Bool.xor_assoc, Bool.xor_self, Bool.false_xor]

/-- A column of the solution after some rows of back substitution, from the last slot on. -/
def columnOf (bs : BandingStorage w r) (j : Nat) : Nat → BitVec w
  | 0 => 0
  | n + 1 => (backSubstColumn (bs.loadRow (bs.numSlots - (n + 1)) true) (columnOf bs j n) j).2

/-- The column from a slot on. -/
def columnAt (bs : BandingStorage w r) (j i : Nat) : BitVec w := columnOf bs j (bs.numSlots - i)

/-- A bit of the solution. -/
def solutionBit (bs : BandingStorage w r) (i j : Nat) : Bool := (columnAt bs j i).getLsbD 0

theorem columnAt_end (j : Nat) (past : bs.numSlots ≤ i) : columnAt bs j i = 0 := by
  rw [columnAt, Nat.sub_eq_zero_of_le past, columnOf]

theorem columnAt_step (j : Nat) (inside : i < bs.numSlots) :
    columnAt bs j i = (backSubstColumn (bs.loadRow i true) (columnAt bs j (i + 1)) j).2 := by
  obtain ⟨n, rest⟩ : ∃ n, bs.numSlots - i = n + 1 := ⟨bs.numSlots - i - 1, by omega⟩
  have slot : bs.numSlots - (n + 1) = i := by omega
  have next : bs.numSlots - (i + 1) = n := by omega
  rw [columnAt, rest, columnOf, slot, columnAt, next]

theorem columnAt_getLsbD (j i k : Nat) (below : k < w) : (columnAt bs j i).getLsbD k = solutionBit bs (i + k) j := by
  induction k generalizing i with
  | zero => rfl
  | succ _ ih =>
    by_cases inside : i < bs.numSlots
    · rw [columnAt_step j inside, backSubstColumn_getLsbD]
      simp only [below, decide_true, Bool.true_and, Nat.add_one_ne_zero, if_false, Nat.add_sub_cancel]
      rw [ih (i + 1) (by omega), Nat.add_assoc, Nat.add_comm 1]
    · rw [columnAt_end j (by omega), solutionBit, columnAt_end j (by omega)]
      simp

/-- The parity of some coefficients over a column. -/
theorem bitParity_and (x y : BitVec w) : bitParity (x &&& y) = parity w fun k => x.getLsbD k && y.getLsbD k := by
  rw [bitParity_eq]
  exact parity_congr fun _ _ => getLsbD_and

/-- An equation at a slot is about the column from that slot on. -/
theorem equation_holds_iff (inside : ∀ k, row.cr.getLsbD k = true → i + k < bs.numSlots) :
    (row.equation i).Holds bs.numSlots (fun p (j : Fin r) => solutionBit bs p j) ↔
      ∀ j : Fin r, bitParity (columnAt bs j i &&& row.cr) = row.rr.getLsbD j := by
  refine forall_congr' fun j => ?_
  set term := fun p => (row.equation i).coeff p && solutionBit bs p j
  have window : parity bs.numSlots term =
      bitParity (columnAt bs j i &&& row.cr) := by
    have column : bitParity (columnAt bs j i &&& row.cr) =
        parity w fun k => row.cr.getLsbD k && solutionBit bs (i + k) j := by
      rw [bitParity_and]
      exact parity_congr fun k below => by rw [columnAt_getLsbD j i k below, Bool.and_comm]
    have front : parity i term = false := by
      rw [← parity_false i]
      exact parity_congr fun p below => by simp [term, Row.equation, show ¬i ≤ p by omega]
    have behind (k : Nat) : ((row.equation i).coeff (i + k) && solutionBit bs (i + k) j) =
        (row.cr.getLsbD k && solutionBit bs (i + k) j) := by simp [Row.equation]
    -- Both sides are the parity over all coefficients that may be set.
    have slots : parity (i + (bs.numSlots + w)) term =
        parity bs.numSlots term := by
      refine parity_extend (by omega) fun p past _ => ?_
      by_cases at' : i ≤ p
      · have clear : row.cr.getLsbD (p - i) = false := by
          by_contra set
          have below := inside (p - i) (by simpa using set)
          omega
        simp [term, Row.equation, clear]
      · simp [term, Row.equation, at']
    rw [← slots, parity_add, front, Bool.false_xor, column, parity_congr fun k _ => behind k]
    refine parity_extend (by omega) fun _ past _ => ?_
    rw [BitVec.getLsbD_of_ge _ _ past, Bool.false_and]
  rw [window]
  rfl

/-- Back substitution solves the rows. -/
theorem solves_solutionBit (banded : bs.Banded) : bs.Solves fun p (j : Fin r) => solutionBit bs p j := by
  intro i taken
  rw [equation_holds_iff (banded.inside i)]
  intro j
  have first := banded.first i taken
  have inside : i < bs.numSlots := banded.inside i 0 first
  have loaded : bs.loadRow i true = bs.rows i := if_neg (by simpa using taken)
  rw [columnAt_step j inside, loaded]
  exact backSubstColumn_parity first _ _

/-! ### The simple storage -/

/-- One row of `SimpleBackSubst` works on each column by itself. -/
theorem simpleBackSubstRow_spec (row : Row w r) (state : Nat → BitVec w) :
    (∀ j, j < r → (simpleBackSubstRow row state).1.getLsbD j = (backSubstColumn row (state j) j).1) ∧
      ∀ j, j < r → (simpleBackSubstRow row state).2 j = (backSubstColumn row (state j) j).2 := by
  have fold (n : Nat) (le : n ≤ r) :
      let acc := (range n).foldl (fun (acc : BitVec r × (Nat → BitVec w)) j =>
        let next := backSubstColumn row (acc.2 j) j
        (acc.1 ||| ((if next.1 then 1#r else 0#r) <<< j), update acc.2 j next.2)) (0, state)
      (∀ j, acc.1.getLsbD j = (decide (j < n) && (backSubstColumn row (state j) j).1)) ∧
        ∀ j, acc.2 j = if j < n then (backSubstColumn row (state j) j).2 else state j := by
    induction n with
    | zero => simp
    | succ n ih =>
      obtain ⟨bits, columns⟩ := ih (by omega)
      simp only [range_succ, foldl_append, foldl_cons, foldl_nil]
      generalize (range n).foldl _ _ = acc at bits columns ⊢
      have here : acc.2 n = state n := by rw [columns, if_neg (Nat.lt_irrefl n)]
      refine ⟨fun j => ?_, fun j => ?_⟩
      · rw [getLsbD_or, bits, getLsbD_shiftLeft, bit_getLsbD, here]
        by_cases same : j = n
        · subst same
          simp [show j < r by omega, show 0 < r by omega]
        · by_cases below : j < n
          · simp [below, show j < n + 1 by omega]
          · simp [below, show ¬j < n + 1 by omega, show ¬j - n = 0 by omega]
      · by_cases same : j = n
        · subst same
          rw [update_self, here, if_pos (Nat.lt_succ_self j)]
        · rw [update_of_ne same, columns]
          exact if_congr (by omega) rfl rfl
  obtain ⟨bits, columns⟩ := fold r (Nat.le_refl r)
  exact ⟨fun j below => (bits j).trans (by simp [below]), fun j below => (columns j).trans (if_pos below)⟩

private theorem simpleBackSubstLoop_spec (positive : 0 < w) (n : Nat) (le : n ≤ bs.numSlots) (state : Nat → BitVec w)
    (rows : Nat → BitVec r)
    (columns : ∀ j, j < r → state j = columnAt bs j n)
    (solved : ∀ p, n ≤ p → p < bs.numSlots → ∀ j, j < r → (rows p).getLsbD j = solutionBit bs p j) :
    ∀ p, p < bs.numSlots → ∀ j, j < r → (simpleBackSubstLoop bs n state rows p).getLsbD j = solutionBit bs p j := by
  induction n generalizing state rows with
  | zero => exact fun p inside => solved p (Nat.zero_le p) inside
  | succ i ih =>
    obtain ⟨bits, next⟩ := simpleBackSubstRow_spec (bs.loadRow i true) state
    refine ih (by omega) _ _ (fun j below => ?_) fun p _ inside j below => ?_
    · rw [next j below, columns j below]
      exact (columnAt_step j le).symm
    · by_cases same : p = i
      · subst same
        rw [update_self, bits j below, columns j below, solutionBit, columnAt_step j inside, backSubstColumn_getLsbD]
        simp [positive]
      · rw [update_of_ne same]
        exact solved p (by omega) inside j below

/-- `SimpleBackSubst` stores the solution, whatever was stored before. -/
theorem simpleBackSubst_rows (positive : 0 < w) (sss : SimpleSolution r) (inside : p < bs.numSlots)
    (below : j < r) : ((simpleBackSubst sss bs).rows p).getLsbD j = solutionBit bs p j := by
  refine simpleBackSubstLoop_spec positive bs.numSlots (Nat.le_refl _) _ _ (fun j _ => ?_) (fun p _ inside => ?_)
    p inside j below
  · exact (columnAt_end j (Nat.le_refl _)).symm
  · omega

/-! ### The interleaved storage -/

private theorem foldl_update (f : BitVec w → Nat → BitVec w) (n : Nat) (state : Nat → BitVec w) (j : Nat) :
    (range n).foldl (fun state j => update state j (f (state j) j)) state j =
      if j < n then f (state j) j else state j := by
  induction n generalizing j with
  | zero => rfl
  | succ n ih =>
    rw [range_succ, foldl_append, foldl_cons, foldl_nil]
    by_cases same : j = n
    · subst same
      rw [update_self, ih, if_neg (Nat.lt_irrefl j), if_pos (Nat.lt_succ_self j)]
    · rw [update_of_ne same, ih]
      exact if_congr (by omega) rfl rfl

private theorem backSubstBlock_spec (numColumns startSlot k : Nat) (le : startSlot + k ≤ bs.numSlots)
    (state : Nat → BitVec w)
    (columns : ∀ j, j < numColumns → state j = columnAt bs j (startSlot + k)) (j : Nat) (below : j < numColumns) :
    backSubstBlock bs numColumns startSlot k state j = columnAt bs j startSlot := by
  induction k generalizing state with
  | zero => exact columns j below
  | succ k ih =>
    refine ih (by omega) _ fun j below => ?_
    rw [foldl_update (fun column j => (backSubstColumn (bs.loadRow (startSlot + k) true) column j).2), if_pos below,
      columns j below]
    exact (columnAt_step j (by omega)).symm

private theorem write_map_outside (state : Nat → BitVec w)
    (outside : p < start ∨ start + n ≤ p) : Memory.write segments start ((range n).map state) p = segments p := by
  unfold Memory.write
  split
  · have past : n ≤ p - start := by omega
    simp [past]
  · rfl

/-- A loop over blocks with the same number of columns stores the columns from the start of each block on. -/
theorem backSubstBlocks_spec (bs : BandingStorage w r) (numColumns firstBlock base n : Nat) (st : Interleaving w)
    (le : (firstBlock + n) * w ≤ bs.numSlots)
    (columns : ∀ j, j < numColumns → st.state j = columnAt bs j ((firstBlock + n) * w))
    (segmentNum : st.segmentNum = base + n * numColumns) :
    let st' := backSubstBlocks bs numColumns firstBlock n st
    (∀ j, j < numColumns → st'.state j = columnAt bs j (firstBlock * w)) ∧ st'.segmentNum = base ∧
      (∀ m j, m < n → j < numColumns → st'.segments (base + m * numColumns + j) = columnAt bs j ((firstBlock + m) * w)) ∧
      ∀ p, base + n * numColumns ≤ p → st'.segments p = st.segments p := by
  induction n generalizing st with
  | zero => exact ⟨columns, segmentNum.trans (by simp), fun m j below => by omega, fun p _ => rfl⟩
  | succ n ih =>
    have whole : (firstBlock + (n + 1)) * w = (firstBlock + n) * w + w := by ring
    rw [whole] at le columns
    have block := backSubstBlock_spec numColumns ((firstBlock + n) * w) w le st.state columns
    have position : st.segmentNum - numColumns = base + n * numColumns := by
      rw [segmentNum, Nat.add_one_mul]
      omega
    rw [backSubstBlocks]
    obtain ⟨states, back, stored, kept⟩ := ih
      ⟨backSubstBlock bs numColumns ((firstBlock + n) * w) w st.state, st.segmentNum - numColumns,
        Memory.write st.segments (st.segmentNum - numColumns)
          ((range numColumns).map (backSubstBlock bs numColumns ((firstBlock + n) * w) w st.state))⟩
      (by omega) block position
    refine ⟨states, back, fun m j _ below => ?_, fun p past => ?_⟩
    · by_cases last : m = n
      · subst last
        rw [kept _ (by omega)]
        rw [position, ← block j below]
        simp [Memory.write, below]
      · exact stored m j (by omega) below
    · rw [Nat.add_one_mul] at past
      rw [kept p (by omega)]
      exact write_map_outside _ (.inr (by omega))

/-- The number of columns of a block. -/
def InterleavedSolution.columns (iss : InterleavedSolution w) (block : Nat) : Nat :=
  iss.upperNumColumns - if block < iss.upperStartBlock then 1 else 0

/-- The first segment of a block. -/
def InterleavedSolution.firstSegment (iss : InterleavedSolution w) (block : Nat) : Nat :=
  block * iss.upperNumColumns - min block iss.upperStartBlock

theorem firstSegment_lower {iss : InterleavedSolution w} (lower : block ≤ iss.upperStartBlock) :
    iss.firstSegment block = block * (iss.upperNumColumns - 1) := by
  rw [InterleavedSolution.firstSegment, Nat.min_eq_left lower, Nat.mul_sub_one]

private theorem firstSegment_upper {iss : InterleavedSolution w} (some : 0 < iss.upperNumColumns) (m : Nat) :
    iss.firstSegment (iss.upperStartBlock + m) =
      iss.upperStartBlock * (iss.upperNumColumns - 1) + m * iss.upperNumColumns := by
  have le : iss.upperStartBlock ≤ iss.upperStartBlock * iss.upperNumColumns := Nat.le_mul_of_pos_right _ some
  rw [InterleavedSolution.firstSegment, Nat.min_eq_right (Nat.le_add_right _ _), Nat.mul_sub_one, Nat.add_mul]
  omega

/-- `InterleavedBackSubst` stores the columns from the start of each block on, as many as the block has. -/
theorem interleavedBackSubst_segments (iss : InterleavedSolution w) (positive : 0 < w)
    (slots : bs.numSlots = numBlocks * w) (split : iss.upperStartBlock ≤ numBlocks)
    (inside : block < numBlocks) (below : j < iss.columns block) :
    (interleavedBackSubst iss bs).segments (iss.firstSegment block + j) = columnAt bs j (block * w) := by
  have some : 0 < iss.upperNumColumns := by
    unfold InterleavedSolution.columns at below
    omega
  have blocks : ({ iss with numStarts := bs.numStarts } : InterleavedSolution w).numBlocks = numBlocks := by
    change bs.numSlots / w = numBlocks
    rw [slots, Nat.mul_div_cancel _ positive]
  obtain ⟨upperStates, upperBack, upperStored, -⟩ := backSubstBlocks_spec bs iss.upperNumColumns iss.upperStartBlock
    (iss.upperStartBlock * (iss.upperNumColumns - 1)) (numBlocks - iss.upperStartBlock)
    ⟨fun _ => 0,
      iss.upperStartBlock * (iss.upperNumColumns - 1) + (numBlocks - iss.upperStartBlock) * iss.upperNumColumns,
      iss.segments⟩
    (by rw [Nat.add_sub_cancel' split, slots])
    (fun j _ => (columnAt_end j (by rw [Nat.add_sub_cancel' split, slots])).symm) rfl
  rw [interleavedBackSubst, if_neg some.ne', blocks, InterleavedSolution.numSegments, blocks]
  dsimp only
  generalize backSubstBlocks bs iss.upperNumColumns iss.upperStartBlock (numBlocks - iss.upperStartBlock) _ = upper
    at upperStates upperBack upperStored ⊢
  obtain ⟨-, -, lowerStored, lowerKept⟩ := backSubstBlocks_spec bs (iss.upperNumColumns - 1) 0 0 iss.upperStartBlock
    upper (by rw [Nat.zero_add, slots]; exact Nat.mul_le_mul_right w split)
    (fun j below => by rw [Nat.zero_add]; exact upperStates j (by omega)) (by rw [upperBack, Nat.zero_add])
  by_cases lower : block < iss.upperStartBlock
  · have stored := lowerStored block j lower (by simpa [InterleavedSolution.columns, lower] using below)
    rw [Nat.zero_add, Nat.zero_add] at stored
    rw [firstSegment_lower lower.le, stored]
  · obtain ⟨m, rfl⟩ := Nat.exists_eq_add_of_le (Nat.le_of_not_lt lower)
    have stored := upperStored m j (by omega) (by simpa [InterleavedSolution.columns] using below)
    rw [firstSegment_upper some, lowerKept _ (by omega), stored]

end BackSubst

/-! ## Queries -/

section Queries
private theorem mask_getLsbD (cr : BitVec w) (i : Nat) (below : j < r) :
    (0#r - ((cr >>> i).setWidth r &&& 1#r)).getLsbD j = cr.getLsbD i := by
  have low : (cr >>> i).setWidth r &&& 1#r = if cr.getLsbD i then 1#r else 0#r := by
    refine eq_of_getLsbD_eq fun k inside => ?_
    rw [getLsbD_and, BitVec.getLsbD_one, bit_getLsbD]
    by_cases zero : k = 0
    · subst zero
      simp [inside]
    · simp [zero]
  rw [low]
  cases cr.getLsbD i with
  | false => simp
  | true =>
    rw [if_pos rfl, BitVec.zero_sub, BitVec.neg_one_eq_allOnes, BitVec.getLsbD_allOnes]
    simpa using below

private theorem simpleQueryHelper_getLsbD (start : Nat) (cr : BitVec w) (sss : SimpleSolution r) (below : j < r) :
    (simpleQueryHelper start cr sss).getLsbD j =
      parity w fun k => (sss.rows (start + k)).getLsbD j && cr.getLsbD k := by
  have fold (n : Nat) : ((range n).foldl (fun result i =>
      result ^^^ (sss.rows (start + i) &&& (0#r - ((cr >>> i).setWidth r &&& 1#r)))) 0).getLsbD j =
        parity n fun k => (sss.rows (start + k)).getLsbD j && cr.getLsbD k := by
    induction n with
    | zero => simp [parity]
    | succ n ih =>
      rw [range_succ, foldl_append, foldl_cons, foldl_nil, getLsbD_xor, ih, getLsbD_and,
        mask_getLsbD cr n below, parity]
  exact fold w

/-- A query of the simple storage is the parity over the columns from its start on. -/
theorem simpleQuery_eq (positive : 0 < w) (sss : SimpleSolution r) (cr : BitVec w)
    (inside : start + w ≤ bs.numSlots) (below : j < r) :
    (simpleQueryHelper start cr (simpleBackSubst sss bs)).getLsbD j = bitParity (columnAt bs j start &&& cr) := by
  rw [simpleQueryHelper_getLsbD _ _ _ below, bitParity_and]
  refine parity_congr fun k inRow => ?_
  rw [simpleBackSubst_rows positive sss (by omega) below, columnAt_getLsbD j start k inRow]

/-- The column from a slot on, in parts of the columns of two blocks. -/
theorem bitParity_across (j block : Nat) (inside : bit < w) (cr : BitVec w) :
    bitParity ((columnAt bs j (block * w) &&& cr <<< bit) ^^^ (columnAt bs j ((block + 1) * w) &&& cr >>> (w - bit))) =
      bitParity (columnAt bs j (block * w + bit) &&& cr) := by
  have left : (parity w fun m => (columnAt bs j (block * w) &&& cr <<< bit).getLsbD m) =
      parity (w - bit) fun k => solutionBit bs (block * w + bit + k) j && cr.getLsbD k := by
    have front : parity bit (fun m => (columnAt bs j (block * w) &&& cr <<< bit).getLsbD m) = false := by
      rw [← parity_false bit]
      exact parity_congr fun m before => by simp [before]
    have sum : bit + (w - bit) = w := by omega
    refine (congrArg (parity · _) sum.symm).trans ?_
    rw [parity_add, front, Bool.false_xor]
    refine parity_congr fun k inRow => ?_
    rw [getLsbD_and, columnAt_getLsbD _ _ _ (by omega), getLsbD_shiftLeft, Nat.add_assoc]
    simp [show bit + k < w by omega]
  have right : (parity w fun m => (columnAt bs j ((block + 1) * w) &&& cr >>> (w - bit)).getLsbD m) =
      parity bit fun m => solutionBit bs (block * w + bit + (w - bit + m)) j && cr.getLsbD (w - bit + m) := by
    rw [parity_extend inside.le fun m _ _ => by
      rw [getLsbD_and, BitVec.getLsbD_ushiftRight, BitVec.getLsbD_of_ge cr _ (by omega), Bool.and_false]]
    refine parity_congr fun m _ => ?_
    have slot : (block + 1) * w + m = block * w + bit + (w - bit + m) := by
      rw [Nat.add_one_mul]
      omega
    rw [getLsbD_and, BitVec.getLsbD_ushiftRight, columnAt_getLsbD _ _ _ (by omega), slot]
  have sum : w - bit + bit = w := by omega
  have whole := parity_add (w - bit) bit fun k => solutionBit bs (block * w + bit + k) j && cr.getLsbD k
  rw [bitParity_eq, parity_congr fun _ _ => getLsbD_xor, parity_xor, left, right, ← whole, bitParity_and]
  refine (congrArg (parity · _) sum).trans (parity_congr fun _ inRow => ?_)
  rw [columnAt_getLsbD _ _ _ inRow]

/-- The bits of a fold that adds one bit for each column. -/
theorem foldl_xor_getLsbD (bit : Nat → Bool) (n : Nat) (le : n ≤ r) (sr : BitVec r) (j : Nat) :
    ((range n).foldl (fun sr i => sr ^^^ ((if bit i then 1#r else 0#r) <<< i)) sr).getLsbD j =
      (sr.getLsbD j ^^ (decide (j < n) && bit j)) := by
  induction n with
  | zero => simp
  | succ n ih =>
    rw [range_succ, foldl_append, foldl_cons, foldl_nil, getLsbD_xor, ih (by omega),
      getLsbD_shiftLeft, bit_getLsbD]
    by_cases same : j = n
    · subst same
      simp [show j < r by omega, show 0 < r by omega]
    · by_cases below : j < n
      · simp [below, show j < n + 1 by omega]
      · simp [below, show ¬j < n + 1 by omega, show ¬j - n = 0 by omega]

section Interleaved
variable (iss : InterleavedSolution w)

/-- The segments behind those of a block are those of the next one, for as many columns. -/
theorem firstSegment_next : iss.firstSegment block + iss.columns block = iss.firstSegment (block + 1) := by
  unfold InterleavedSolution.columns
  by_cases lower : block < iss.upperStartBlock
  · rw [if_pos lower, firstSegment_lower lower.le, firstSegment_lower lower, Nat.add_one_mul]
  · rw [if_neg lower, Nat.sub_zero]
    unfold InterleavedSolution.firstSegment
    rw [Nat.min_eq_right (by omega), Nat.min_eq_right (by omega), Nat.add_one_mul]
    rcases Nat.eq_zero_or_pos iss.upperNumColumns with none | some
    · simp [none]
    · have le : block ≤ block * iss.upperNumColumns := Nat.le_mul_of_pos_right _ some
      omega

/-- A split of the columns over blocks: blocks before a certain one have a column less. -/
structure InterleavedSolution.Fits (iss : InterleavedSolution w) (r numBlocks : Nat) : Prop where
  columns : iss.upperNumColumns ≤ r
  blocks : iss.upperStartBlock ≤ numBlocks
  none : iss.upperNumColumns = 0 → iss.upperStartBlock = 0

variable {iss}

private theorem columns_mono (block : Nat) : iss.columns block ≤ iss.columns (block + 1) := by
  unfold InterleavedSolution.columns
  split <;> split <;> omega

/-- The parity that a query computes for a column, in one or in two segments. -/
theorem query_parity (positive : 0 < w) (slots : bs.numSlots = numBlocks * w) (fits : iss.Fits r numBlocks)
    (inside : start + w ≤ bs.numSlots) (below : i < iss.columns (start / w)) (cr : BitVec w) :
    (start % w = 0 → bitParity ((interleavedBackSubst iss bs).segments (iss.firstSegment (start / w) + i) &&& cr) =
        bitParity (columnAt bs i start &&& cr)) ∧
      (start % w ≠ 0 → bitParity
        (((interleavedBackSubst iss bs).segments (iss.firstSegment (start / w) + i) &&& cr <<< (start % w)) ^^^
          ((interleavedBackSubst iss bs).segments (iss.firstSegment (start / w) + iss.columns (start / w) + i) &&&
            cr >>> (w - start % w))) = bitParity (columnAt bs i start &&& cr)) := by
  have place := Nat.div_add_mod' start w
  have inBlocks : start / w < numBlocks := by
    exact Nat.div_lt_of_lt_mul (by rw [Nat.mul_comm]; omega)
  have here := interleavedBackSubst_segments iss positive slots fits.blocks inBlocks below
  constructor
  · intro aligned
    rw [here]
    rw [aligned, Nat.add_zero] at place
    rw [place]
  · intro _
    have next : start / w + 1 < numBlocks := by
      by_contra last
      have le : numBlocks * w ≤ (start / w + 1) * w := Nat.mul_le_mul_right w (by omega)
      rw [Nat.add_one_mul] at le
      omega
    have there := interleavedBackSubst_segments iss positive slots fits.blocks next
      (below.trans_le (columns_mono (start / w)))
    rw [firstSegment_next, here, there, bitParity_across i (start / w) (Nat.mod_lt start positive), place]

end Interleaved

section Hashers
variable (hasher : BandingHasher α w r) (iss : InterleavedSolution w) (key : α)

private theorem bitParity_xor (x y : BitVec w) : bitParity (x ^^^ y) = (bitParity x ^^ bitParity y) := by
  rw [bitParity_eq, bitParity_eq, bitParity_eq, ← parity_xor]
  exact parity_congr fun _ _ => getLsbD_xor

theorem columns_le (fits : iss.Fits r numBlocks) (block : Nat) : iss.columns block ≤ r :=
  (Nat.sub_le _ _).trans fits.columns

variable {start : Nat} (isStart : hasher.getStart (hasher.getHash key) bs.numStarts = start)
include isStart

/-- Where a query looks. -/
theorem interleavedPrepareQuery_eq : interleavedPrepareQuery hasher key (interleavedBackSubst iss bs) =
    ⟨hasher.getHash key, iss.firstSegment (start / w), iss.columns (start / w), start % w⟩ := by
  rw [interleavedBackSubst, ← isStart]
  split <;> rfl

variable (positive : 0 < w) (slots : bs.numSlots = numBlocks * w) (fits : iss.Fits r numBlocks)
  (inside : start + w ≤ bs.numSlots)
include positive slots fits inside

/-- `InterleavedPhsfQuery` gives the parities of the columns of the block of the start. -/
theorem interleavedPhsfQuery_getLsbD (j : Nat) :
    (interleavedPhsfQuery hasher (interleavedPrepareQuery hasher key (interleavedBackSubst iss bs))
      (interleavedBackSubst iss bs)).getLsbD j =
      (decide (j < iss.columns (start / w)) &&
        bitParity (columnAt bs j start &&& hasher.getCoeffRow (hasher.getHash key))) := by
  rw [interleavedPrepareQuery_eq hasher iss key isStart]
  have le := columns_le iss fits (start / w)
  rw [interleavedPhsfQuery]
  dsimp only
  by_cases below : j < iss.columns (start / w)
  · obtain ⟨aligned, across⟩ := query_parity positive slots fits inside below (hasher.getCoeffRow (hasher.getHash key))
    by_cases zero : start % w = 0
    · rw [if_neg (by omega), foldl_xor_getLsbD _ _ le, ← aligned zero, zero, BitVec.shiftLeft_zero]
      simp
    · rw [if_pos (by omega), foldl_xor_getLsbD _ _ le, foldl_xor_getLsbD _ _ le, ← across zero, bitParity_xor]
      simp [below]
  · split
    · rw [foldl_xor_getLsbD _ _ le, foldl_xor_getLsbD _ _ le]
      simp [below]
    · rw [foldl_xor_getLsbD _ _ le]
      simp [below]

/-- `InterleavedFilterQuery` compares those parities with the expected bits. -/
theorem interleavedFilterQuery_eq (expected : ∀ j, j < r → bitParity (columnAt bs j start &&&
      hasher.getCoeffRow (hasher.getHash key)) = (hasher.getResultRowFromHash (hasher.getHash key)).getLsbD j) :
    interleavedFilterQuery hasher (interleavedPrepareQuery hasher key (interleavedBackSubst iss bs))
      (interleavedBackSubst iss bs) = true := by
  rw [interleavedPrepareQuery_eq hasher iss key isStart]
  have le := columns_le iss fits (start / w)
  rw [interleavedFilterQuery]
  dsimp only
  split
  · next zero =>
    refine all_eq_true.mpr fun i member => decide_eq_true ?_
    have below := mem_range.mp member
    have aligned := (query_parity positive slots fits inside below (hasher.getCoeffRow (hasher.getHash key))).1 zero
    rw [aligned, ushiftRight_getLsbD_zero, expected i (by omega)]
  · next nonzero =>
    refine all_eq_true.mpr fun i member => decide_eq_true ?_
    have below := mem_range.mp member
    have across := (query_parity positive slots fits inside below (hasher.getCoeffRow (hasher.getHash key))).2 nonzero
    rw [across, ushiftRight_getLsbD_zero, expected i (by omega)]

end Hashers

end Queries

/-! ## Construction -/

section Construction
variable (bh : BandingHasher α w r)

private theorem empty_solves (numStarts : Nat) (unconstrained : Nat → BitVec r) (usePrefetch : Bool)
    (x : Nat → Fin r → Bool) :
    (BandingStorage.empty (w := w) numStarts unconstrained usePrefetch).Solves x :=
  fun _ nonzero => absurd rfl nonzero

theorem addInputs_eq (bs : BandingStorage w r) (inputs : List α) :
    addInputs bh bs inputs = simpleLoop bh inputs ⟨bs, []⟩ := by
  cases inputs with
  | nil => rfl
  | cons first rest =>
    rw [addInputs]
    split
    · rfl
    · exact pipelinedLoop_eq bh first rest ⟨bs, []⟩

theorem empty_banded : (BandingStorage.empty (w := w) starts free prefetch).Banded :=
  ⟨fun _ nonzero => absurd rfl nonzero, fun _ _ set => by simp [BandingStorage.empty] at set⟩

/-- `BandingAddRange` adds all equations or finds that they contradict each other. -/
theorem addInputs_addsAll (bs : BandingStorage w r) (banded : bs.Banded) (positive : 0 < bs.numStarts)
    (inputs : List α) :
    ∃ ok st, addInputs bh bs inputs = some (ok, st) ∧ AddsAll bh ⟨bs, []⟩ inputs ok st := by
  rw [addInputs_eq]
  exact simpleLoop_addsAll bh inputs ⟨bs, []⟩ banded positive

/-- The result row of an input. -/
def BandingHasher.resultRow (input : α) : BitVec r :=
  bh.getResultRowFromInput input ||| bh.getResultRowFromHash (bh.getHash input)

/-- What the solution storages give for an input: the bits of its result row, as far as they are stored, and no filter
query rejects it. -/
structure Answers (bs : BandingStorage w r) (input : α) : Prop where
  simple : ∀ sss, simplePhsfQuery bh input (simpleBackSubst sss bs) = bh.resultRow input
  simpleFilter : bh.getResultRowFromInput input = 0 →
    ∀ sss, simpleFilterQuery bh input (simpleBackSubst sss bs) = true
  interleaved : ∀ iss numBlocks, bs.numSlots = numBlocks * w → iss.Fits r numBlocks → ∀ j,
    (interleavedPhsfQuery bh (interleavedPrepareQuery bh input (interleavedBackSubst iss bs))
      (interleavedBackSubst iss bs)).getLsbD j =
        (decide (j < iss.columns (bh.getStart (bh.getHash input) bs.numStarts / w)) && (bh.resultRow input).getLsbD j)
  interleavedFilter : bh.getResultRowFromInput input = 0 →
    ∀ iss numBlocks, bs.numSlots = numBlocks * w → iss.Fits r numBlocks →
      interleavedFilterQuery bh (interleavedPrepareQuery bh input (interleavedBackSubst iss bs))
        (interleavedBackSubst iss bs) = true

/-- Back substitution answers every equation that it solves. -/
theorem answers_of_holds (positive : 0 < bs.numStarts)
    (holds : (bh.equation bs.numStarts input).Holds bs.numSlots fun p (j : Fin r) => solutionBit bs p j) :
    Answers bh bs input := by
  have width : 0 < w := by
    by_contra none
    obtain rfl : w = 0 := by omega
    exact bh.getCoeffRow_ne (bh.getHash input) (BitVec.eq_nil _)
  have below := bh.getStart_lt (bh.getHash input) bs.numStarts positive
  set start := bh.getStart (bh.getHash input) bs.numStarts
  have inside : start + w ≤ bs.numSlots := by
    unfold BandingStorage.numSlots
    omega
  have columns : ∀ j, j < r → bitParity (columnAt bs j start &&& bh.getCoeffRow (bh.getHash input)) =
      (bh.resultRow input).getLsbD j := by
    have all := (equation_holds_iff fun _ set => ?_).mp holds
    · exact fun j below => all ⟨j, below⟩
    · have inRow := lt_of_getLsbD set
      omega
  have simple (sss : SimpleSolution r) : simpleQueryHelper start
      (bh.getCoeffRow (bh.getHash input)) (simpleBackSubst sss bs) = bh.resultRow input :=
    eq_of_getLsbD_eq fun j below => by rw [simpleQuery_eq width sss _ inside below, columns j below]
  have hashed (filter : bh.getResultRowFromInput input = 0) :
      bh.getResultRowFromHash (bh.getHash input) = bh.resultRow input := by
    rw [BandingHasher.resultRow, filter]
    simp
  refine ⟨simple, fun filter sss => decide_eq_true ((hashed filter).trans (simple sss).symm),
    fun iss numBlocks slots fits j => ?_, fun filter iss _ slots fits => ?_⟩
  · rw [interleavedPhsfQuery_getLsbD bh iss input (rfl : _ = start) width slots fits inside j]
    change _ = (decide (j < iss.columns (start / w)) && _)
    by_cases stored : j < iss.columns (start / w)
    · rw [columns j (stored.trans_le (columns_le iss fits _))]
    · simp [stored]
  · refine interleavedFilterQuery_eq bh iss input rfl width slots fits inside fun j below => ?_
    rw [columns j below, hashed filter]

/-- **Ribbon construction is exact.** Adding a range of equations to an empty storage succeeds exactly when they have a
solution, and then back substitution answers every one of them. -/
theorem ribbon_construction_is_exact (numStarts : Nat) (unconstrained : Nat → BitVec r)
    (usePrefetch useBacktrack : Bool) (inputs : List α) :
    ∃ ok bs, bandingAddRange bh useBacktrack (.empty (numStarts + 1) unconstrained usePrefetch) inputs = some (ok, bs) ∧
      (ok = true ↔ ∃ x, bh.Solution (numStarts + 1) (numStarts + w) inputs x) ∧
      (ok = true → ∀ input ∈ inputs, Answers bh bs input) := by
  have slots : (BandingStorage.empty (w := w) (numStarts + 1) unconstrained usePrefetch).numSlots = numStarts + w := by
    change numStarts + 1 + w - 1 = numStarts + w
    omega
  obtain ⟨ok, st, result, all⟩ := addInputs_addsAll bh (.empty (numStarts + 1) unconstrained usePrefetch) empty_banded
    (Nat.succ_pos _) inputs
  have empty := empty_solves (w := w) (numStarts + 1) unconstrained usePrefetch
  have sameSlots : st.bs.numSlots = numStarts + w := by
    rw [← slots, BandingStorage.numSlots, all.numStarts]
    rfl
  have solution (isOk : ok = true) : bh.Solution (numStarts + 1) (numStarts + w) inputs
      fun p (j : Fin r) => solutionBit st.bs p j := by
    have both := (all.solves isOk _).mp (solves_solutionBit all.banded)
    rw [slots] at both
    exact both.2
  refine ⟨ok, _, by rw [bandingAddRange, result]; rfl, ⟨fun isOk => ⟨_, solution isOk⟩, fun ⟨x, solved⟩ => ?_⟩,
    fun isOk input member => ?_⟩
  · by_contra failed
    refine all.fails (Bool.eq_false_of_not_eq_true failed) x (empty x) ?_
    rw [slots]
    exact solved
  · have kept : (if !ok && useBacktrack then rollBack st else st.bs) = st.bs := by simp [isOk]
    rw [kept]
    refine answers_of_holds bh (all.numStarts ▸ Nat.succ_pos _) ?_
    rw [sameSlots, all.numStarts]
    exact solution isOk input member

/-- Equations given outright, as a start, a row that is not zero and a result. -/
def BandingHasher.ofEquations (w r : Nat) : BandingHasher (Nat × {cr : BitVec w // cr ≠ 0} × BitVec r) w r where
  Hash := Nat × {cr : BitVec w // cr ≠ 0}
  getHash input := (input.1, input.2.1)
  getStart h numStarts := h.1 % numStarts
  getCoeffRow h := h.2
  getResultRowFromInput input := input.2.2
  getResultRowFromHash _ := 0
  firstCoeffAlwaysOne := false
  getStart_lt _ _ positive := Nat.mod_lt _ positive
  getCoeffRow_ne h := h.2.2
  getCoeffRow_one _ := nofun

end Construction

/-! ## Rolling back -/

section RollBack
variable (bh : BandingHasher α w r)

/-- Free rows are zero, and clearing the recorded slots gives the storage before the range. -/
structure Undoable (bs : BandingStorage w r) (st : Banding w r) : Prop where
  free : ∀ i, (st.bs.rows i).cr = 0 → st.bs.rows i = ⟨0, 0⟩
  back : rollBack st = bs

theorem shifted_ne_zero {cr : BitVec w} (nonzero : cr ≠ 0) : cr >>> countTrailingZeroBits cr ≠ 0 :=
  @ne_zero_of_getLsbD _ _ 0 (by simpa using (countTrailingZeroBits_spec nonzero).1)

private theorem storeRow_undoable (undoable : Undoable bs st) (free : (st.bs.rows i).cr = 0) (nonzero : row.cr ≠ 0) :
    Undoable bs ⟨st.bs.storeRow i row, st.backtrack ++ [i]⟩ where
  free p zero := by
    by_cases same : p = i
    · exact absurd (by simpa [storeRow, same] using zero) nonzero
    · simp only [storeRow, Function.update_of_ne same] at zero ⊢
      exact undoable.free p zero
  back := by
    -- The row that is cleared first is the one just stored.
    have cleared : (st.bs.storeRow i row).storeRow i ⟨0, 0⟩ = st.bs := by
      simp only [storeRow, Function.update_idem, ← undoable.free i free, Function.update_eq_self]
    rw [← undoable.back, rollBack, rollBack, reverse_append, reverse_singleton, singleton_append,
      foldl_cons, cleared]

private theorem bandingAddLoop_undoable (undoable : Undoable bs st) (rounds i : Nat) (row : Row w r)
    (nonzero : row.cr ≠ 0)
    (result : bandingAddLoop st rounds i row = some (ok, st')) : Undoable bs st' := by
  induction rounds generalizing i row with
  | zero => cases result
  | succ _ ih =>
    rw [bandingAddLoop, loadRow_false] at result
    dsimp only at result
    split at result
    · next free =>
      cases result
      exact storeRow_undoable undoable free nonzero
    split at result
    · cases result
      exact undoable
    · next left => exact ih _ _ (shifted_ne_zero left) result

theorem simpleLoop_undoable (inputs : List α) (undoable : Undoable bs st)
    (result : simpleLoop bh inputs st = some (ok, st')) : Undoable bs st' := by
  induction inputs generalizing st with
  | nil =>
    cases result
    exact undoable
  | cons cur _ ih =>
    have added {ok : Bool} {after : Banding w r} (added : bandingAdd bh.firstCoeffAlwaysOne st
        (bh.getStart (bh.getHash cur) st.bs.numStarts)
        (bh.getResultRowFromInput cur ||| bh.getResultRowFromHash (bh.getHash cur))
        (bh.getCoeffRow (bh.getHash cur)) = some (ok, after)) : Undoable bs after := by
      refine bandingAddLoop_undoable undoable _ _ _ ?_ added
      have nonzero := bh.getCoeffRow_ne (bh.getHash cur)
      split
      · simpa using nonzero
      · exact shifted_ne_zero nonzero
    rw [simpleLoop] at result
    split at result
    · next inserted => exact ih (added inserted) result
    · exact added result

/-- The storages that successful insertions reach. -/
inductive Reached : BandingStorage w r → Prop
  | empty {starts : Nat} : Reached (.empty (starts + 1) free prefetch)
  | added : Reached old → bandingAddRange bh useBacktrack old inputs = some (true, new) → Reached new

theorem Reached.invariant (reached : Reached bh bs) : bs.Banded ∧ 0 < bs.numStarts ∧ Undoable bs ⟨bs, []⟩ := by
  induction reached with
  | empty => exact ⟨empty_banded, Nat.succ_pos _, fun _ _ => rfl, rfl⟩
  | added _ added ih =>
    obtain ⟨banded, positive, undoable⟩ := ih
    obtain ⟨_, _, result, all⟩ := addInputs_addsAll bh _ banded positive _
    rw [bandingAddRange, result] at added
    cases added
    rw [addInputs_eq] at result
    exact ⟨all.banded, all.numStarts ▸ positive, (simpleLoop_undoable bh _ undoable result).free, rfl⟩

/-- **A failed range leaves no trace.** On a storage that successful insertions reach, `BandingAddRange`
with backtracking ends, and a failure gives the storage back as it was. -/
theorem failed_range_rolls_back (reached : Reached bh bs) (inputs : List α) :
    ∃ ok bs', bandingAddRange bh true bs inputs = some (ok, bs') ∧ (ok = false → bs' = bs) := by
  obtain ⟨banded, positive, undoable⟩ := reached.invariant
  obtain ⟨ok, _, result, -⟩ := addInputs_addsAll bh bs banded positive inputs
  refine ⟨ok, _, by rw [bandingAddRange, result]; rfl, ?_⟩
  rintro rfl
  rw [addInputs_eq] at result
  exact (simpleLoop_undoable bh inputs undoable result).back

/-- The third equation is the sum of the first two, with the wrong result. -/
theorem third_equation_rolls_back :
    let range := bandingAddRange (.ofEquations 4 2) true (.empty 5 (fun _ => 0) true)
      [(0, ⟨3, by decide⟩, 1), (1, ⟨3, by decide⟩, 2), (0, ⟨5, by decide⟩, 1)]
    range.map Prod.fst = some false ∧
      ∃ ok bs, range = some (ok, bs) ∧ (ok = false → bs = .empty 5 (fun _ => 0) true) :=
  ⟨by decide +kernel, failed_range_rolls_back _ .empty _⟩

end RollBack

end Rocksdb.Ribbon
