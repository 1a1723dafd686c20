import Mathlib.Data.Nat.Basic

/-! Parsers that read a part of their input and leave the rest, or fail. What a
parser does on the text of a value is stated for every continuation of the text,
so that the parsers of the parts of a format can be put one behind the other. A
loop of a parser ends because every round reads something. -/
namespace Rocksdb.Lib.Parsing
open List

variable {τ ε α β σ : Type}

abbrev Parser (τ ε α : Type) : Type := StateT (List τ) (Except ε) α

/-- A reader that only says that it failed, with the error to report then. -/
def orFail (error : ε) (get : List τ → Option (α × List τ)) : Parser τ ε α := fun input =>
  match get input with
  | some read => .ok read
  | none => .error error

/-- The parser leaves no more than it was given. -/
def Shrinks (p : Parser τ ε α) : Prop :=
  ∀ input a rest, p input = .ok (a, rest) → rest.length ≤ input.length

/-- The parser leaves less than it was given. -/
def Progresses (p : Parser τ ε α) : Prop :=
  ∀ input a rest, p input = .ok (a, rest) → rest.length < input.length

/-- The parser reads exactly a text, whatever stands behind it. -/
def Parses (p : Parser τ ε α) (text : List τ) (a : α) : Prop := ∀ rest, p (text ++ rest) = .ok (a, rest)

/-- The parser fails on a text, whatever stands behind it. -/
def Rejects (p : Parser τ ε α) (text : List τ) (e : ε) : Prop := ∀ rest, p (text ++ rest) = .error e

section Sequence
variable {p : Parser τ ε α} {f : α → Parser τ ε β} {text text' input rest : List τ} {a : α} {b : β} {e : ε}

theorem bind_of_ok (read : p input = .ok (a, rest)) : (p >>= f) input = f a rest := by
  simp only [Bind.bind, StateT.bind, read, Except.bind]

theorem bind_of_error (read : p input = .error e) : (p >>= f) input = .error e := by
  simp only [Bind.bind, StateT.bind, read, Except.bind]

theorem ok_of_bind_ok (ran : (p >>= f) input = .ok (b, rest)) :
    ∃ a rest', p input = .ok (a, rest') ∧ f a rest' = .ok (b, rest) := by
  cases read : p input with
  | error =>
    rw [bind_of_error read] at ran
    cases ran
  | ok result => exact ⟨result.1, result.2, rfl, by rwa [bind_of_ok read] at ran⟩

theorem Shrinks.pure (a : α) : Shrinks (pure a : Parser τ ε α) := by
  rintro _ _ _ ⟨⟩
  exact le_rfl

theorem Shrinks.throw (e : ε) : Shrinks (throw e : Parser τ ε α) := by
  rintro _ _ _ ⟨⟩

theorem Shrinks.lift (x : Except ε α) : Shrinks (StateT.lift x : Parser τ ε α) := by
  intro _ _ _ ran
  cases x with
  | error => cases ran
  | ok =>
    cases ran
    exact le_rfl

theorem Shrinks.bind (first : Shrinks p) (second : ∀ a, Shrinks (f a)) : Shrinks (p >>= f) := by
  intro input b rest ran
  obtain ⟨a, rest', read, ran⟩ := ok_of_bind_ok ran
  exact Nat.le_trans (second a rest' b rest ran) (first input a rest' read)

theorem Progresses.bind (first : Progresses p) (second : ∀ a, Shrinks (f a)) : Progresses (p >>= f) := by
  intro input b rest ran
  obtain ⟨a, rest', read, ran⟩ := ok_of_bind_ok ran
  exact Nat.lt_of_le_of_lt (second a rest' b rest ran) (first input a rest' read)

theorem Progresses.shrinks (progress : Progresses p) : Shrinks p :=
  fun input a rest ran => Nat.le_of_lt (progress input a rest ran)

theorem Progresses.orFail {get : List τ → Option (α × List τ)}
    (shorter : ∀ {input a rest}, get input = some (a, rest) → rest.length < input.length) :
    Progresses (orFail e get) := by
  intro _ _ _ ran
  unfold Parsing.orFail at ran
  split at ran
  · next got =>
    cases ran
    exact shorter got
  · cases ran

theorem Parses.pure (a : α) : Parses (Pure.pure a : Parser τ ε α) [] a := fun _ => rfl

theorem Parses.lift (a : α) : Parses (StateT.lift (.ok a) : Parser τ ε α) [] a := fun _ => rfl

theorem Parses.bind (first : Parses p text a) (second : Parses (f a) text' b) :
    Parses (p >>= f) (text ++ text') b := by
  intro rest
  rw [append_assoc, bind_of_ok (first _)]
  exact second rest

/-- The last part of a text is read, and the rest is computation. -/
theorem Parses.last (first : Parses p text a) (second : Parses (f a) [] b) : Parses (p >>= f) text b := by
  simpa only [append_nil] using first.bind second

theorem Parses.map (first : Parses p text a) (g : α → β) : Parses (p >>= fun a => Pure.pure (g a)) text (g a) :=
  first.last (Parses.pure (g a))

theorem Parses.orFail {get : List τ → Option (α × List τ)} (read : ∀ rest, get (text ++ rest) = some (a, rest)) :
    Parses (orFail e get) text a := by
  intro _
  simp only [Parsing.orFail, read]

theorem Parses.rejects (first : Parses p text a) (second : Rejects (f a) text' e) :
    Rejects (p >>= f) (text ++ text') e := by
  intro rest
  rw [append_assoc, bind_of_ok (first _)]
  exact second rest

end Sequence

/-! ## Loops -/

theorem Progresses.again {round : σ → Parser τ ε (σ ⊕ β)} (progress : ∀ s, Progresses (round s)) (s : σ)
    (input : List τ) (s' : σ) (rest : List τ) (read : round s input = .ok (.inl s', rest)) :
    rest.length < input.length :=
  progress s input (.inl s') rest read

/-- Rounds until one of them ends the loop; every round reads something. -/
def loop (round : σ → Parser τ ε (σ ⊕ β))
    (progress : ∀ s input s' rest, round s input = .ok (.inl s', rest) → rest.length < input.length)
    (s : σ) (input : List τ) : Except ε (β × List τ) :=
  match _read : round s input with
  | .error e => .error e
  | .ok (.inl s', rest) => loop round progress s' rest
  | .ok (.inr b, rest) => .ok (b, rest)
termination_by input.length
decreasing_by exact progress _ _ _ _ _read

section Loop
variable {round : σ → Parser τ ε (σ ⊕ β)} {b : β} {e : ε} {input rest : List τ}

theorem loop_again (read : round s input = .ok (.inl s', rest)) :
    loop round progress s input = loop round progress s' rest := by
  rw [loop]
  split <;> simp_all

theorem loop_leave (read : round s input = .ok (.inr b, rest)) : loop round progress s input = .ok (b, rest) := by
  rw [loop]
  split <;> simp_all

theorem loop_error (read : round s input = .error e) : loop round progress s input = .error e := by
  rw [loop]
  split <;> simp_all

theorem Shrinks.loop (progresses : ∀ s, Progresses (round s)) : Shrinks (loop round progress s : Parser τ ε β) := by
  intro input _ _ ran
  induction size : input.length using Nat.strongRecOn generalizing s input with
  | ind _ ih =>
    subst size
    cases read : round s input with
    | error =>
      rw [loop_error read] at ran
      cases ran
    | ok result =>
      obtain ⟨next, rest'⟩ := result
      have shorter := progresses s input next rest' read
      cases next with
      | inl =>
        rw [loop_again read] at ran
        exact Nat.le_trans (ih _ shorter _ ran rfl) (Nat.le_of_lt shorter)
      | inr =>
        rw [loop_leave read] at ran
        cases ran
        exact Nat.le_of_lt shorter

/-- Items of a list are read in turn, each by one round. -/
theorem loop_items {ι : Type} {encode : ι → List τ} {apply : σ → ι → Except ε σ} {items : List ι}
    (reads : ∀ x ∈ items, ∀ s s', apply s x = .ok s' → Parses (round s) (encode x) (.inl s'))
    (applied : items.foldlM apply s = .ok s') :
    loop round progress s (items.flatMap encode ++ rest) = loop round progress s' rest := by
  induction items generalizing s with
  | nil =>
    cases applied
    rfl
  | cons x _ ih =>
    obtain ⟨first, reads⟩ := forall_mem_cons.mp reads
    cases step : apply s x with
    | error =>
      rw [foldlM_cons, step] at applied
      cases applied
    | ok next =>
      rw [foldlM_cons, step] at applied
      rw [flatMap_cons, append_assoc, loop_again (first s next step _)]
      exact ih reads applied

/-- The loop fails with the first item that is refused. -/
theorem loop_items_error {ι : Type} {encode : ι → List τ} {apply : σ → ι → Except ε σ} {items : List ι}
    (reads : ∀ x ∈ items, ∀ s s', apply s x = .ok s' → Parses (round s) (encode x) (.inl s'))
    (refuses : ∀ x ∈ items, ∀ s e, apply s x = .error e → Rejects (round s) (encode x) e)
    (failed : items.foldlM apply s = .error e) :
    loop round progress s (items.flatMap encode ++ rest) = .error e := by
  induction items generalizing s with
  | nil => cases failed
  | cons x _ ih =>
    obtain ⟨first, reads⟩ := forall_mem_cons.mp reads
    obtain ⟨firstRefuses, refuses⟩ := forall_mem_cons.mp refuses
    rw [flatMap_cons, append_assoc]
    cases step : apply s x with
    | error =>
      rw [foldlM_cons, step] at failed
      cases failed
      exact loop_error (firstRefuses s _ step _)
    | ok next =>
      rw [foldlM_cons, step] at failed
      rw [loop_again (first s next step _)]
      exact ih reads refuses failed

end Loop

end Rocksdb.Lib.Parsing
