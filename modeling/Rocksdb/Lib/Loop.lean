import Mathlib.Logic.Basic

/-! Loops that need not end. A round of a loop either goes round again with a new
state or leaves the loop with a result, and a run is cut off when its fuel is
used up. What a loop returns does not depend on the fuel. A loop over a list that
stops at the first failure is compared with an abstract one step by step. -/
namespace Rocksdb.Lib.Loop

variable {σ β : Type}

/-- How a round of a loop ends. -/
inductive Round (σ β : Type) where
  | again (s : σ)
  | leave (b : β)

/-- At most `fuel` rounds of a loop. -/
def run (body : σ → Round σ β) : Nat → σ → Option β
  | 0, _ => none
  | fuel + 1, s =>
    match body s with
    | .again s => run body fuel s
    | .leave b => some b

/-- The loop ends with a result. -/
def Returns (body : σ → Round σ β) (s : σ) (b : β) : Prop := ∃ fuel, run body fuel s = some b

variable {body : σ → Round σ β} {s s' : σ} {b b' : β}

theorem Returns.leave (left : body s = .leave b) : Returns body s b := ⟨1, by simp [run, left]⟩

theorem Returns.again (round : body s = .again s') (later : Returns body s' b) : Returns body s b := by
  obtain ⟨fuel, ran⟩ := later
  exact ⟨fuel + 1, by simp [run, round, ran]⟩

/-- A result only depends on the first round. -/
theorem Returns.of_round_eq (same : body s = body s') (returns : Returns body s b) : Returns body s' b := by
  obtain ⟨fuel, ran⟩ := returns
  cases fuel with
  | zero => cases ran
  | succ fuel => exact ⟨fuel + 1, by rwa [run, ← same]⟩

theorem run_succ {fuel : Nat} (ran : run body fuel s = some b) : run body (fuel + 1) s = some b := by
  induction fuel generalizing s with
  | zero => cases ran
  | succ _ ih =>
    rw [run] at ran ⊢
    split at ran
    · exact ih ran
    · exact ran

/-- More fuel changes nothing. -/
theorem run_mono {fuel more : Nat} (ran : run body fuel s = some b) (le : fuel ≤ more) :
    run body more s = some b := by
  induction le with
  | refl => exact ran
  | step _ ih => exact run_succ ih

/-- **A loop returns one result.** -/
theorem Returns.unique (first : Returns body s b) (second : Returns body s b') : b = b' := by
  obtain ⟨fuel, ran⟩ := first
  obtain ⟨fuel', ran'⟩ := second
  have same := run_mono ran (Nat.le_max_left fuel fuel')
  rw [run_mono ran' (Nat.le_max_right fuel fuel')] at same
  exact (Option.some.inj same).symm

/-- A loop returns if every round lowers a measure. -/
theorem returns_of_measure {P : σ → Prop} (measure : σ → Nat)
    (progress : ∀ s s', P s → body s = .again s' → P s' ∧ measure s' < measure s) (start : P s) :
    ∃ b, Returns body s b := by
  induction rounds : measure s using Nat.strongRecOn generalizing s with
  | _ _ ih =>
    cases round : body s with
    | leave b => exact ⟨b, .leave round⟩
    | again s' =>
      obtain ⟨keeps, less⟩ := progress s s' start round
      obtain ⟨b, later⟩ := ih _ (rounds ▸ less) keeps rfl
      exact ⟨b, later.again round⟩

/-- A loop that comes back to where it was does not return. -/
theorem not_returns_of_cycle {P : σ → Prop} (cycle : ∀ s, P s → ∃ s', body s = .again s' ∧ P s') (start : P s)
    (b : β) : ¬ Returns body s b := by
  rintro ⟨fuel, ran⟩
  induction fuel generalizing s with
  | zero => cases ran
  | succ _ ih =>
    obtain ⟨_, round, keeps⟩ := cycle s start
    rw [run, round] at ran
    exact ih keeps ran
/-! ## Loops that stop at a failure -/

section Fallible
variable {ε α τ : Type} {R : σ → τ → Prop}

theorem ok_of_bind {x : Except ε α} {f : α → Except ε β} {b : β} (ran : x >>= f = .ok b) :
    ∃ a, x = .ok a ∧ f a = .ok b := by
  cases x with
  | error => cases ran
  | ok a => exact ⟨a, rfl, ran⟩

variable {l : List α} {s s' : σ} {f : σ → α → Except ε σ} {t : τ}

/-- A loop that succeeds is simulated by a total one. -/
theorem foldlM_simulates {g : τ → α → τ} (step : ∀ s x s' t, R s t → f s x = .ok s' → R s' (g t x))
    (ran : l.foldlM f s = .ok s') (start : R s t) : R s' (l.foldl g t) := by
  induction l generalizing s t with
  | nil =>
    cases ran
    exact start
  | cons x _ ih =>
    obtain ⟨next, stepped, ran⟩ := ok_of_bind ran
    exact ih ran (step s x next t start stepped)

/-- A loop that succeeds is simulated by one that may fail, and then does not. -/
theorem foldlM_refines {g : τ → α → Option τ}
    (step : ∀ s x s' t, R s t → f s x = .ok s' → ∃ t', g t x = some t' ∧ R s' t')
    (ran : l.foldlM f s = .ok s') (start : R s t) :
    ∃ t', l.foldlM g t = some t' ∧ R s' t' := by
  induction l generalizing s t with
  | nil =>
    cases ran
    exact ⟨t, rfl, start⟩
  | cons x _ ih =>
    obtain ⟨next, stepped, ran⟩ := ok_of_bind ran
    obtain ⟨t', stepped', related⟩ := step s x next t start stepped
    obtain ⟨last, ran', related⟩ := ih ran related
    exact ⟨last, by simp [stepped', ran'], related⟩

/-- Two loops that both succeed stay related. -/
theorem foldlM_lockstep {f : σ → α → Option σ} {g : τ → α → Option τ}
    (step : ∀ s x s' t t', R s t → f s x = some s' → g t x = some t' → R s' t') {t' : τ}
    (ran : l.foldlM f s = some s') (ran' : l.foldlM g t = some t')
    (start : R s t) : R s' t' := by
  induction l generalizing s t with
  | nil =>
    cases ran
    cases ran'
    exact start
  | cons x _ ih =>
    obtain ⟨next, stepped, ran⟩ := Option.bind_eq_some_iff.mp ran
    obtain ⟨next', stepped', ran'⟩ := Option.bind_eq_some_iff.mp ran'
    exact ih ran ran' (step s x next t next' start stepped stepped')

/-- What every step of a loop keeps, the loop keeps. -/
theorem foldlM_keeps {f : σ → α → Option σ} {P : σ → Prop} (step : ∀ x ∈ l, ∀ s s', P s → f s x = some s' → P s')
    (ran : l.foldlM f s = some s') (start : P s) : P s' := by
  induction l generalizing s with
  | nil =>
    cases ran
    exact start
  | cons _ _ ih =>
    obtain ⟨next, stepped, ran⟩ := Option.bind_eq_some_iff.mp ran
    obtain ⟨first, step⟩ := List.forall_mem_cons.mp step
    exact ih step ran (first s next start stepped)

/-- A loop that succeeds, with what its items bring in so far. -/
theorem foldlM_collects {f : σ → α → Option σ} {g : α → List β} {P : σ → List β → Prop}
    (step : ∀ s x s' got, P s got → f s x = some s' → P s' (got ++ g x))
    (ran : l.foldlM f s = some s') (start : P s got) : P s' (got ++ l.flatMap g) := by
  induction l generalizing s got with
  | nil =>
    cases ran
    simpa using start
  | cons x _ ih =>
    obtain ⟨next, stepped, ran⟩ := Option.bind_eq_some_iff.mp ran
    simpa using ih ran (step s x next got start stepped)
/-- A loop with an item that no state accepts fails. -/
theorem foldlM_fails {x : α} (member : x ∈ l)
    (refused : ∀ s, ∃ e, f s x = .error e) (s : σ) : ∃ e, l.foldlM f s = .error e := by
  induction l generalizing s with
  | nil => cases member
  | cons y _ ih =>
    rw [List.foldlM_cons]
    cases step : f s y with
    | error e => exact ⟨e, rfl⟩
    | ok next =>
      rcases List.mem_cons.mp member with rfl | later
      · obtain ⟨_, failed⟩ := refused s
        rw [failed] at step
        cases step
      · exact ih later next

end Fallible

end Rocksdb.Lib.Loop
