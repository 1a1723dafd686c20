import Rocksdb.DataBlockIterProofs

/-! What a block builder builds: a block that holds the entries that were added. -/
namespace Rocksdb.Blocks
open Lib Lib.LittleEndian BlockBuilder List
open DataBlockHashIndexBuilder (fill)

/-! ## Entries -/

private theorem differenceOffset_spec (a b : Bytes) :
    differenceOffset a b ≤ b.length ∧ a.take (differenceOffset a b) = b.take (differenceOffset a b) := by
  induction a generalizing b with
  | nil => simp [differenceOffset]
  | cons _ _ ih =>
    cases b with
    | nil => simp [differenceOffset]
    | cons _ b =>
      rw [differenceOffset]
      split
      · next same =>
        obtain ⟨le, take⟩ := ih b
        exact ⟨Nat.succ_le_succ le, by rw [take_succ_cons, take_succ_cons, same, take]⟩
      · exact ⟨Nat.zero_le _, rfl⟩

/-- The key of the last entry. -/
def lastKeyOf (entries : List Placed) : Bytes := (entries.getLast?.map Placed.key).getD []

variable {entries : List Placed}

private theorem chained_concat (chained : Chained previous entries)
    (shared : p.shared ≤ ((entries.getLast?.map Placed.key).getD previous).length)
    (same : p.key.take p.shared = ((entries.getLast?.map Placed.key).getD previous).take p.shared) :
    Chained previous (entries ++ [p]) := by
  induction entries generalizing previous with
  | nil => exact ⟨shared, same, trivial⟩
  | cons q rest ih =>
    obtain ⟨le, take, chained⟩ := chained
    have last : ((q :: rest).getLast?.map Placed.key).getD previous = (rest.getLast?.map Placed.key).getD q.key := by
      cases rest with
      | nil => rfl
      | cons => simp [getLast?_cons]
    rw [last] at shared same
    exact ⟨le, take, ih chained shared same⟩

theorem offset_append (inside : i ≤ entries.length) : offset (entries ++ later) i = offset entries i := by
  rw [offset, offset, take_append_of_le_length inside]

private theorem lastKey_length_le (chained : Chained [] entries) :
    (lastKeyOf entries).length ≤ (bytesOf entries).length := by
  cases last : entries.getLast? with
  | none => simp [lastKeyOf, last]
  | some q =>
    have here : entries[entries.length - 1]? = some q := by rw [← getLast?_eq_getElem?, last]
    have inside := (List.getElem?_eq_some_iff.mp here).1
    have bound := key_length_le chained here
    have whole : entries.length - 1 + 1 = entries.length := by omega
    rw [whole, offset_length, length_nil] at bound
    simpa [lastKeyOf, last] using bound

/-- What is written for an entry, as long as its numbers fit. -/
theorem entryBytes_eq (plain : options.useValueDeltaEncoding = false) (sharedFits : shared < 2 ^ 32)
    (fits : (entryBytes options key value none shared).length < 2 ^ 32) :
    entryBytes options key value none shared = (⟨key, value, shared⟩ : Placed).bytes := by
  simp only [entryBytes, plain, Bool.false_eq_true, if_false, and_false, length_append, length_drop] at fits
  simp only [entryBytes, plain, Bool.false_eq_true, if_false, and_false, Placed.bytes, Placed.header]
  rw [Nat.mod_eq_of_lt sharedFits, Nat.mod_eq_of_lt (by omega),
    Nat.mod_eq_of_lt (by omega)]

/-! ## Builders -/

/-- The builder holds entries; the restart points are those of some of them. -/
structure Holds (b : BlockBuilder) (entries : List Placed) (starts : List Nat) : Prop where
  buffer : b.buffer = bytesOf entries
  chained : Chained [] entries
  restarts : b.restarts = starts.map fun i => offset entries i % 2 ^ 32
  first : starts.head? = some 0
  increasing : starts.Pairwise (· < ·)
  bounded : ∀ i ∈ starts, i = 0 ∨ i < entries.length
  restarted : ∀ i ∈ starts, ∀ p, entries[i]? = some p → p.shared = 0
  estimate : b.estimate = b.buffer.length + 4 * b.restarts.length + 4
  counter : entries = [] → b.counter = 0

private theorem holds_new (options : Options) : Holds (new options) [] [0] where
  buffer := rfl
  chained := trivial
  restarts := rfl
  first := rfl
  increasing := pairwise_singleton _ _
  bounded := by simp
  restarted := by simp
  estimate := rfl
  counter := fun _ => rfl

section Add
variable {options : Options} {b : BlockBuilder} {entries : List Placed} {starts : List Nat} {key value lastKey : Bytes}

private theorem restarts_append (bounded : ∀ i ∈ starts, i = 0 ∨ i < entries.length) :
    starts.map (fun i => offset (entries ++ later) i % 2 ^ 32) = starts.map fun i => offset entries i % 2 ^ 32 := by
  refine map_congr_left fun i member => ?_
  rw [offset_append]
  rcases bounded i member with rfl | less
  · exact Nat.zero_le _
  · exact less.le

private theorem restarted_append (first : entries = [] → p.shared = 0)
    (bounded : ∀ i ∈ starts, i = 0 ∨ i < entries.length)
    (restarted : ∀ i ∈ starts, ∀ p, entries[i]? = some p → p.shared = 0) :
    ∀ i ∈ starts, ∀ q, (entries ++ [p])[i]? = some q → q.shared = 0 := by
  intro i member q found
  by_cases inside : i < entries.length
  · rw [getElem?_append_left inside] at found
    exact restarted i member q found
  · have zero : i = 0 := (bounded i member).resolve_right inside
    have empty : entries = [] := length_eq_zero_iff.mp (by omega)
    subst zero
    rw [empty] at found
    cases found
    exact first empty

/-- One more entry. -/
theorem holds_add (plain : options.useValueDeltaEncoding = false) (interval : 1 ≤ options.blockRestartInterval)
    (holds : Holds b entries starts) (last : lastKey = [] ∨ entries ≠ [] ∧ lastKey = lastKeyOf entries)
    (fits : (b.addWithLastKeyImpl options key value lastKey none b.buffer.length).buffer.length < 2 ^ 31) :
    ∃ shared starts', Holds (b.addWithLastKeyImpl options key value lastKey none b.buffer.length)
      (entries ++ [⟨key, value, shared⟩]) starts' := by
  have difference := differenceOffset_spec key lastKey
  have lastLength : lastKey.length ≤ b.buffer.length := by
    rcases last with rfl | ⟨-, rfl⟩
    · exact Nat.zero_le _
    · rw [holds.buffer]
      exact lastKey_length_le holds.chained
  -- Whatever the shared bytes are, the entry is appended to the buffer.
  have appended (shared : Nat) (small : shared ≤ lastKey.length)
      (total : (b.buffer ++ entryBytes options key value none shared).length < 2 ^ 31) :
      b.buffer ++ entryBytes options key value none shared = bytesOf (entries ++ [⟨key, value, shared⟩]) := by
    rw [length_append] at total
    rw [entryBytes_eq plain (by omega) (by omega), holds.buffer]
    simp [bytesOf]
  have chained (shared : Nat) (small : shared ≤ lastKey.length) (same : key.take shared = lastKey.take shared) :
      Chained [] (entries ++ [⟨key, value, shared⟩]) := by
    rcases last with rfl | ⟨-, rfl⟩
    · have zero : shared = 0 := Nat.le_zero.mp small
      subst zero
      exact chained_concat holds.chained (Nat.zero_le _) rfl
    · exact chained_concat holds.chained small same
  have grown (x : Bytes) : b.estimate + ((b.buffer ++ x).length - b.buffer.length) =
      (b.buffer ++ x).length + 4 * b.restarts.length + 4 := by
    rw [holds.estimate, length_append]
    omega
  unfold addWithLastKeyImpl maybeRestart at fits ⊢
  by_cases full : b.counter ≥ options.blockRestartInterval
  · simp only [full, if_true] at fits ⊢
    have nonempty : entries ≠ [] := fun empty => by
      have := holds.counter empty
      omega
    have positive := length_pos_iff.mpr nonempty
    refine ⟨0, starts ++ [entries.length],
      ⟨appended 0 (Nat.zero_le _) fits, chained 0 (Nat.zero_le _) rfl, ?_, ?_, ?_, ?_,
      ?_, ?_, by simp⟩⟩
    · have here : b.buffer.length = offset entries entries.length := by rw [holds.buffer, offset_length]
      rw [map_append, restarts_append holds.bounded, holds.restarts, map_singleton, offset_append le_rfl, here]
    · rw [head?_append, holds.first]
      rfl
    · refine pairwise_append.mpr ⟨holds.increasing, pairwise_singleton _ _, fun i member _ here => ?_⟩
      rw [mem_singleton.mp here]
      rcases holds.bounded i member with rfl | less
      · exact positive
      · exact less
    · rw [length_append, length_singleton]
      exact forall_mem_append.mpr ⟨fun i earlier => (holds.bounded i earlier).imp_right Nat.lt_succ_of_lt,
        forall_mem_singleton.mpr (.inr (Nat.lt_succ_self _))⟩
    · intro i member q found
      rcases mem_append.mp member with earlier | here
      · exact restarted_append (fun _ => rfl) holds.bounded holds.restarted i earlier q found
      · rw [mem_singleton.mp here, getElem?_concat_length] at found
        cases found
        rfl
    · have := grown (entryBytes options key value none 0)
      have restarts : (b.restarts ++ [b.buffer.length % 2 ^ 32]).length = b.restarts.length + 1 := by simp
      dsimp only
      omega
  · simp only [full, if_false] at fits ⊢
    generalize shares : (if options.useDeltaEncoding = true then differenceOffset key lastKey else 0) = shared at fits ⊢
    obtain ⟨small, same⟩ : shared ≤ lastKey.length ∧ key.take shared = lastKey.take shared := by
      rw [← shares]
      split
      · exact difference
      · exact ⟨Nat.zero_le _, rfl⟩
    refine ⟨shared, starts,
      ⟨appended shared small fits, chained shared small same, ?_, holds.first, holds.increasing, ?_,
      ?_, grown _, by simp⟩⟩
    · rw [restarts_append holds.bounded]
      exact holds.restarts
    · intro i member
      rw [length_append, length_singleton]
      exact (holds.bounded i member).imp_right fun less => less.trans (Nat.lt_succ_self _)
    · refine restarted_append (fun empty => ?_) holds.bounded holds.restarted
      have none : lastKey = [] := last.resolve_right fun nonempty => nonempty.1 empty
      rw [none] at small
      exact Nat.le_zero.mp small

end Add

/-! ## Reset -/

/-- A call of `Add`, or of `AddWithLastKey` if there is a last key. -/
structure Addition where
  key : Bytes
  value : Bytes := []
  deltaValue : Option Bytes := none
  lastKey : Option Bytes := none

section Reset
variable (options : Options)

def addition (b : BlockBuilder) (a : Addition) : BlockBuilder :=
  match a.lastKey with
  | none => b.add options a.key a.value a.deltaValue
  | some lastKey => b.addWithLastKey options a.key a.value lastKey a.deltaValue

/-- A builder after additions, and after `Finish` if there is one. -/
def used (additions : List Addition) (isFinished : Bool) : BlockBuilder :=
  let b := additions.foldl (addition options) (new options)
  if isFinished then { b with buffer := b.finish options } else b

/-- What an addition keeps. -/
structure Resettable (b : BlockBuilder) : Prop where
  restarts : b.restarts.head? = some 0
  hash : options.hashIndex = false → b.hash = { valid := false }

variable {options}

theorem Resettable.impl (resettable : Resettable options b) (key value lastKey : Bytes) (deltaValue : Option Bytes)
    (size : Nat) : Resettable options (b.addWithLastKeyImpl options key value lastKey deltaValue size) := by
  have kept : (b.maybeRestart options key lastKey size).1.restarts.head? = some 0 ∧
      (b.maybeRestart options key lastKey size).1.hash = b.hash := by
    unfold maybeRestart
    split
    · exact ⟨by simp [resettable.restarts], rfl⟩
    · exact ⟨resettable.restarts, rfl⟩
  refine ⟨kept.1, fun off => ?_⟩
  simp [addWithLastKeyImpl, kept.2, resettable.hash off]

private theorem resettable_used (options : Options) (additions : List Addition) (isFinished : Bool) :
    Resettable options (used options additions isFinished) := by
  have added : Resettable options (additions.foldl (addition options) (new options)) := by
    refine foldlRecOn additions _ ⟨rfl, fun off => by rw [new, off]⟩ fun b resettable a _ => ?_
    unfold addition
    split
    · have impl := resettable.impl a.key a.value b.lastKey a.deltaValue b.buffer.length
      unfold add
      split
      · exact ⟨impl.restarts, impl.hash⟩
      · exact impl
    · exact resettable.impl ..
  unfold used
  split
  · exact ⟨added.restarts, added.hash⟩
  · exact added

/-- **A reset builder is a new one if and only if its hash index was not disabled.** No bucket is estimated before the
first key. -/
theorem reset_builder_is_new (options : Options) (earlier : List Addition) (isFinished : Bool) :
    let b := used options earlier isFinished
    (b.hash.valid = options.hashIndex → ∀ later : List Addition,
      (later.foldl (addition options) b.reset).finish options = (used options later false).finish options) ∧
    (options.estimatedNumBuckets 0 = 0 → (∀ later : List Addition,
      (later.foldl (addition options) b.reset).finish options = (used options later false).finish options) →
        b.hash.valid = options.hashIndex) := by
  intro b
  have resettable : Resettable options b := resettable_used options earlier isFinished
  refine ⟨fun enabled later => ?_, fun noBuckets same => ?_⟩
  · have same : b.reset = new options := by
      rw [reset, new, take_one, resettable.restarts, enabled]
      cases on : options.hashIndex
      · rw [resettable.hash on]
        rfl
      · rfl
    rw [same]
    rfl
  · by_contra disabled
    cases on : options.hashIndex with
    | false => exact disabled (by rw [resettable.hash on, on])
    | true =>
      -- the empty block of the reset builder is the shorter one
      have off : b.hash.valid = false := by simpa [on] using disabled
      have lengths := congrArg length (same [])
      simp [used, finish, reset, new, on, off, take_one, resettable.restarts, currentSizeEstimate,
        DataBlockHashIndexBuilder.estimateSize, DataBlockHashIndexBuilder.finish, DataBlockHashIndexBuilder.numBuckets,
        DataBlockHashIndexBuilder.estimatedNumBuckets, noBuckets, kMaxBlockSizeSupportedByHashIndex,
      putFixed32] at lengths

def hashOptions : Options := { blockRestartInterval := 1, useDeltaEncoding := false, hashIndex := true }

def keyAdded (n : Nat) : Addition := { key := UInt8.ofNat n :: replicate 8 0 }

theorem reset_builder_is_new_after_two :
    ((used hashOptions [keyAdded 0, keyAdded 1] true).reset |> ([keyAdded 2].foldl (addition hashOptions) ·)).finish
      hashOptions = (used hashOptions [keyAdded 2] false).finish hashOptions :=
  (reset_builder_is_new hashOptions [keyAdded 0, keyAdded 1] true).1 rfl [keyAdded 2]

/-- A block with more restart points than the hash index supports: the next block has no hash index. -/
theorem reset_builder_without_hash_index :
    ([keyAdded 0].foldl (addition hashOptions) (used hashOptions ((range 255).map keyAdded) true).reset).finish
      hashOptions ≠ (used hashOptions [keyAdded 0] false).finish hashOptions := by
  decide +kernel

end Reset

/-! ## Building a block -/

/-- How the entries are added. A caller of `AddWithLastKey` knows the last key, but for the first entry of a block. -/
inductive Caller where
  | add
  | addWithLastKey (first : Bytes)

/-- One entry is added, and the caller knows its key. -/
def Caller.step (options : Options) (caller : Caller) (state : BlockBuilder × Bytes) (entry : Bytes × Bytes) :
    BlockBuilder × Bytes :=
  match caller with
  | .add => (state.1.add options entry.1 entry.2, entry.1)
  | .addWithLastKey _ => (state.1.addWithLastKey options entry.1 entry.2 state.2, entry.1)

def Caller.lastKey : Caller → Bytes
  | .add => []
  | .addWithLastKey first => first

/-- The builder after all entries were added. -/
def build (options : Options) (caller : Caller) (entries : List (Bytes × Bytes)) : BlockBuilder × Bytes :=
  entries.foldl (caller.step options) (BlockBuilder.new options, caller.lastKey)

section Build
variable {options : Options} {caller : Caller}

/-- The last key that the entry is compared with. -/
def Caller.compared (caller : Caller) (state : BlockBuilder × Bytes) : Bytes :=
  match caller with
  | .add => state.1.lastKey
  | .addWithLastKey _ => state.2.take (state.2.length * if state.1.buffer.length > 0 then 1 else 0)

/-- Both ways to add an entry do the same, but for the key that is stored. -/
theorem step_eq (state : BlockBuilder × Bytes) (entry : Bytes × Bytes) : (caller.step options state entry).1 =
      { state.1.addWithLastKeyImpl options entry.1 entry.2 (caller.compared state) none state.1.buffer.length with
        lastKey := (caller.step options state entry).1.lastKey } := by
  cases caller with
  | add =>
    unfold Caller.step add
    dsimp only
    split <;> rfl
  | addWithLastKey => rfl

variable {entries : List Placed} {starts : List Nat}

theorem impl_buffer (options : Options) (b : BlockBuilder) (key value lastKey : Bytes) :
    ∃ bytes, (b.addWithLastKeyImpl options key value lastKey none b.buffer.length).buffer = b.buffer ++ bytes ∧
      (b.addWithLastKeyImpl options key value lastKey none b.buffer.length).lastKey = b.lastKey := by
  unfold addWithLastKeyImpl maybeRestart
  by_cases full : b.counter ≥ options.blockRestartInterval
  · exact ⟨_, by simp only [full, if_true]; exact ⟨rfl, trivial⟩⟩
  · exact ⟨_, by simp only [full, if_false]; exact ⟨rfl, trivial⟩⟩

/-- What the builder and the caller remember of the last entry. -/
structure Remembers (options : Options) (caller : Caller) (state : BlockBuilder × Bytes) (entries : List Placed) :
    Prop where
  known : entries ≠ [] → state.2 = lastKeyOf entries
  stored : state.1.lastKey = [] ∨
    (options.useDeltaEncoding = true ∧ caller = .add) ∧ entries ≠ [] ∧ state.1.lastKey = lastKeyOf entries

private theorem lastKeyOf_concat (entries : List Placed) (p : Placed) : lastKeyOf (entries ++ [p]) = p.key := by
  simp [lastKeyOf]

private theorem buffer_eq_nil_iff (holds : Holds b entries starts) : b.buffer.length = 0 ↔ entries = [] := by
  refine ⟨fun empty => ?_, fun empty => ?_⟩
  · cases entries with
    | nil => rfl
    | cons p =>
      have header := header_length p
      have own := bytes_length p
      rw [holds.buffer, bytesOf, flatMap_cons, length_append] at empty
      omega
  · rw [holds.buffer, empty]
    rfl

private theorem compared_eq (holds : Holds state.1 entries starts) (remembers : Remembers options caller state entries) :
    caller.compared state = [] ∨ entries ≠ [] ∧ caller.compared state = lastKeyOf entries := by
  cases caller with
  | add => exact remembers.stored.imp_right And.right
  | addWithLastKey =>
    unfold Caller.compared
    by_cases empty : entries = []
    · have none := (buffer_eq_nil_iff holds).mpr empty
      left
      rw [if_neg (by omega), Nat.mul_zero, take_zero]
    · have some : state.1.buffer.length > 0 := by
        have := mt (buffer_eq_nil_iff holds).mp empty
        omega
      right
      rw [if_pos some, Nat.mul_one, take_length]
      exact ⟨empty, remembers.known empty⟩

private theorem remembers_step (remembers : Remembers options caller state entries) :
    Remembers options caller (caller.step options state (key, value)) (entries ++ [⟨key, value, shared⟩]) := by
  have last := lastKeyOf_concat entries ⟨key, value, shared⟩
  have nonempty : entries ++ [(⟨key, value, shared⟩ : Placed)] ≠ [] := by simp
  cases caller with
  | add =>
    refine ⟨fun _ => last.symm, ?_⟩
    rw [last]
    obtain ⟨-, -, unchanged⟩ := impl_buffer options state.1 key value state.1.lastKey
    unfold Caller.step add
    dsimp only
    split
    · next delta => exact .inr ⟨⟨delta, rfl⟩, nonempty, rfl⟩
    · next noDelta =>
      left
      rw [unchanged]
      exact remembers.stored.resolve_right fun stored => noDelta stored.1.1
  | addWithLastKey first =>
    refine ⟨fun _ => last.symm, .inl ?_⟩
    obtain ⟨-, -, unchanged⟩ := impl_buffer options state.1 key value ((Caller.addWithLastKey first).compared state)
    exact unchanged.trans (remembers.stored.resolve_right fun stored => nomatch stored.1.2)

/-- **The builder holds the entries that were added**, if the buffer is small enough. -/
theorem build_holds (plain : options.useValueDeltaEncoding = false) (interval : 1 ≤ options.blockRestartInterval)
    (added : List (Bytes × Bytes)) (fits : (build options caller added).1.buffer.length < 2 ^ 31) :
    ∃ entries starts, Holds (build options caller added).1 entries starts ∧ content entries = added ∧
      Remembers options caller (build options caller added) entries := by
  induction added using reverseRecOn with
  | nil => exact ⟨[], [0], holds_new options, rfl, fun nonempty => absurd rfl nonempty, .inl rfl⟩
  | append_singleton earlier entry ih =>
    set built := build options caller earlier
    have last : build options caller (earlier ++ [entry]) = caller.step options built entry := by simp [built, build]
    rw [last, step_eq] at fits
    obtain ⟨_, buffer, -⟩ := impl_buffer options built.1 entry.1 entry.2 (caller.compared built)
    have smaller : built.1.buffer.length < 2 ^ 31 := by
      rw [buffer, length_append] at fits
      omega
    obtain ⟨entries, _, holds, same, remembers⟩ := ih smaller
    obtain ⟨shared, starts', more⟩ := holds_add plain interval holds (compared_eq holds remembers) fits
    refine ⟨entries ++ [⟨entry.1, entry.2, shared⟩], starts', ?_, ?_, ?_⟩
    · rw [last, step_eq]
      exact ⟨more.buffer, more.chained, more.restarts, more.first, more.increasing, more.bounded, more.restarted,
        more.estimate, more.counter⟩
    · rw [← same]
      simp [content]
    · rw [last]
      exact remembers_step remembers

end Build

/-! ## The finished block -/

section Finish
variable {options : Options} {b : BlockBuilder} {entries : List Placed} {starts : List Nat}

theorem length_putFixed32 (v : Nat) : (putFixed32 v).length = 4 := length_encode 4 v

theorem flatMap_putFixed32_length (l : List Nat) : (l.flatMap putFixed32).length = 4 * l.length := by
  induction l with
  | nil => rfl
  | cons _ _ ih =>
    rw [flatMap_cons, length_append, length_putFixed32, ih, length_cons]
    omega

theorem decodeFixed32_at {data : Bytes} (first rest : Bytes) {offset : Nat}
    (shape : data = first ++ (putFixed32 v ++ rest))
    (length : first.length = offset) : decodeFixed32 data offset = v % 2 ^ 32 := by
  rw [decodeFixed32, shape, drop_left' length, take_left' (length_putFixed32 v), putFixed32, decode_encode]
  norm_num

private theorem decodeFixed32_restart {first rest : Bytes} {l : List Nat} (here : l[r]? = some v) :
    decodeFixed32 (first ++ (l.flatMap putFixed32 ++ rest)) (first.length + r * 4) = v % 2 ^ 32 := by
  have inside := (List.getElem?_eq_some_iff.mp here).1
  have split : l = l.take r ++ v :: l.drop (r + 1) := by
    have element := (List.getElem?_eq_some_iff.mp here).2
    rw [← element, List.getElem_cons_drop, take_append_drop]
  refine decodeFixed32_at (first ++ (l.take r).flatMap putFixed32) ((l.drop (r + 1)).flatMap putFixed32 ++ rest) ?_ ?_
  · conv_lhs => rw [split]
    simp
  · rw [length_append, flatMap_putFixed32_length, length_take]
    omega

theorem footer_eq (body : Bytes) (v : Nat) : Block.blockFooter (body ++ putFixed32 v) = v % 2 ^ 32 := by
  refine decodeFixed32_at body [] (by simp) ?_
  rw [length_append, length_putFixed32, Nat.add_sub_cancel]

private theorem low_bits (small : v < 2 ^ 31) : v &&& (1 <<< 31 - 1) = v :=
  (Nat.and_two_pow_sub_one_eq_mod v 31).trans (Nat.mod_eq_of_lt small)

private theorem no_high_bit (small : v < 2 ^ 31) : v &&& 1 <<< 31 = 0 := by
  rw [Nat.one_shiftLeft, Nat.and_two_pow, Nat.testBit_lt_two_pow small]
  rfl

private theorem or_high_bit (small : v < 2 ^ 31) : v ||| 1 <<< 31 = 2 ^ 31 + v := by
  rw [Nat.or_comm, ← Nat.shiftLeft_add_eq_or_of_lt small, Nat.one_shiftLeft]

/-- A block without a hash index. -/
theorem new_plain (fits : body.length + 4 < 2 ^ 31) (room : 4 * num ≤ body.length) :
    let data := body ++ putFixed32 num
    Block.new data =
      { data, size := body.length + 4, restartOffset := body.length - 4 * num, numRestarts := num } := by
  intro data
  have footer : Block.blockFooter data = num := by
    rw [footer_eq, Nat.mod_eq_of_lt (by omega)]
  have size : data.length = body.length + 4 := by rw [length_append, length_putFixed32]
  have restarts : Block.decodeNumRestarts data = num := by
    rw [Block.decodeNumRestarts, footer, low_bits (by omega), ite_self]
  have noHash : Block.hasHashIndex data = false := by
    rw [Block.hasHashIndex, footer, no_high_bit (by omega)]
    simp
  have start : (((data.length : Int) - (1 + (num : Int)) * 4) % 2 ^ 32).toNat =
      body.length - 4 * num := by
    omega
  rw [Block.new, if_neg (by omega), restarts, noHash]
  simp only [Bool.false_eq_true, if_false]
  rw [start, if_neg (by omega), size]

/-- A block with a hash index, which ends with the number of its buckets. -/
theorem new_hash (room : 4 * num ≤ body.length) (few : buckets.length < 2 ^ 16)
    (fits : body.length + buckets.length + 6 ≤ kMaxBlockSizeSupportedByHashIndex) :
    let data := body ++ (buckets ++ LittleEndian.encode 2 buckets.length) ++ putFixed32 (num ||| 1 <<< 31)
    Block.new data = { data, size := data.length, restartOffset := body.length - 4 * num, numRestarts := num } := by
  intro data
  have limit : kMaxBlockSizeSupportedByHashIndex = 65536 := rfl
  have high := or_high_bit (show num < 2 ^ 31 by omega)
  have footer : Block.blockFooter data = num ||| 1 <<< 31 := by
    rw [footer_eq, Nat.mod_eq_of_lt (by omega)]
  have size : data.length = body.length + buckets.length + 6 := by
    simp only [data, length_append, length_encode, length_putFixed32]
    omega
  have shape : data = (body ++ buckets) ++ (LittleEndian.encode 2 buckets.length ++ putFixed32 (num ||| 1 <<< 31)) := by
    simp [data]
  clear_value data
  have small : ¬ data.length > kMaxBlockSizeSupportedByHashIndex := by rw [limit]; omega
  have restarts : Block.decodeNumRestarts data = num := by
    rw [Block.decodeNumRestarts, if_neg small, footer, high]
    refine (Nat.and_two_pow_sub_one_eq_mod _ 31).trans ?_
    omega
  have hash : Block.hasHashIndex data = true := by
    rw [Block.hasHashIndex, if_neg small, footer, high, Nat.one_shiftLeft, Nat.and_two_pow, Nat.testBit_two_pow_add_eq,
      Nat.testBit_lt_two_pow (by omega)]
    rfl
  have map : Block.mapOffset data ((data.length - 4) % 2 ^ 16) = body.length := by
    have place : (data.length - 4) % 2 ^ 16 - 2 = (body ++ buckets).length := by
      rw [length_append]
      omega
    have drop : data.drop (body ++ buckets).length =
        LittleEndian.encode 2 buckets.length ++ putFixed32 (num ||| 1 <<< 31) := by
      rw [shape]
      exact drop_left' rfl
    rw [Block.mapOffset, place, drop, take_left' (length_encode 2 _), decode_encode_of_lt few]
    omega
  have start : (((body.length : Int) - (num : Int) * 4) % 2 ^ 32).toNat = body.length - 4 * num := by
    omega
  rw [Block.new, if_neg (by omega), restarts, hash]
  simp only [if_true]
  rw [if_neg (by omega), map, start, if_neg (by omega)]

private theorem length_fill (buckets : List Nat) (entry : Nat × Nat) :
    (fill buckets entry).length = buckets.length := by
  unfold fill
  dsimp only
  split_ifs <;> simp

theorem numBuckets_eq (options : Options) (hash : DataBlockHashIndexBuilder) :
    hash.estimateSize options = hash.numBuckets options + 2 ∧ hash.numBuckets options < 2 ^ 16 := by
  have small : hash.estimatedNumBuckets options < 2 ^ 16 := Nat.mod_lt _ (by decide)
  have bound := Nat.or_lt_two_pow small (by decide : 1 < 2 ^ 16)
  rw [DataBlockHashIndexBuilder.estimateSize, DataBlockHashIndexBuilder.numBuckets]
  split
  · next zero =>
    rw [zero]
    decide
  · exact ⟨Nat.add_comm _ _, bound⟩

theorem hash_finish_shape (options : Options) (hash : DataBlockHashIndexBuilder) :
    ∃ buckets : Bytes, buckets.length = hash.numBuckets options ∧
      hash.finish options = buckets ++ LittleEndian.encode 2 buckets.length := by
  have length (pairs : List (Nat × Nat)) (buckets : List Nat) :
      (pairs.foldl fill buckets).length = buckets.length := by
    induction pairs generalizing buckets with
    | nil => rfl
    | cons _ _ ih => rw [foldl_cons, ih, length_fill]
  have size : ((hash.hashAndRestartPairs.foldl fill
      (replicate (hash.numBuckets options) kNoEntry)).map UInt8.ofNat).length = hash.numBuckets options := by
    rw [length_map, length, length_replicate]
  refine ⟨_, size, ?_⟩
  rw [size]
  rfl

theorem length_buffer_le_finish (b : BlockBuilder) : b.buffer.length ≤ (b.finish options).length := by
  unfold finish
  dsimp only
  split <;> simp only [length_append] <;> omega

/-- **The size of a block is known before it is finished**: the estimate is exact, unless the block is too large
for its hash index. -/
theorem size_estimate_exact (options : Options) (additions : List Addition) :
    let b := used options additions false
    (b.finish options).length =
      if b.hash.valid ∧ kMaxBlockSizeSupportedByHashIndex < b.currentSizeEstimate options then b.estimate
      else b.currentSizeEstimate options := by
  intro b
  have estimated : b.estimate = b.buffer.length + 4 * b.restarts.length + 4 := by
    -- An addition adds to the estimate what it appends.
    refine foldlRecOn (motive := fun b : BlockBuilder => b.estimate = b.buffer.length + 4 * b.restarts.length + 4)
      additions _ rfl fun b estimated a _ => ?_
    unfold addition add addWithLastKey addWithLastKeyImpl maybeRestart
    split <;> split_ifs <;> simp only [length_append, length_singleton, estimated] <;> omega
  obtain ⟨buckets, size, shape⟩ := hash_finish_shape options b.hash
  have total : b.currentSizeEstimate options = b.estimate + if b.hash.valid then buckets.length + 2 else 0 := by
    rw [currentSizeEstimate, (numBuckets_eq options b.hash).1, size]
  have entries := flatMap_putFixed32_length b.restarts
  rw [finish, shape]
  simp only [Bool.and_eq_true, decide_eq_true_eq, length_append, length_putFixed32]
  split_ifs <;> simp_all <;> omega

variable (holds : Holds b entries starts) (fits : (b.finish options).length < 2 ^ 31)
include holds fits

/-- **A finished block has its restart points where the builder put them.** -/
theorem finish_block :
    let block := Block.new (b.finish options)
    (∃ rest, block.data = b.buffer ++ (b.restarts.flatMap putFixed32 ++ rest)) ∧ 8 ≤ block.size ∧
      block.restartOffset = b.buffer.length ∧ block.numRestarts = b.restarts.length := by
  have positive : 0 < b.restarts.length := by
    rw [holds.restarts, length_map]
    cases starts with
    | nil => cases holds.first
    | cons => exact Nat.succ_pos _
  have body : (b.buffer ++ b.restarts.flatMap putFixed32).length = b.buffer.length + 4 * b.restarts.length := by
    rw [length_append, flatMap_putFixed32_length]
  have longer : (b.buffer ++ b.restarts.flatMap putFixed32).length + 4 ≤ (b.finish options).length := by
    unfold finish
    dsimp only
    split <;> simp only [length_append, length_putFixed32] <;> omega
  have few : b.restarts.length % 2 ^ 32 = b.restarts.length := Nat.mod_eq_of_lt (by omega)
  intro block
  unfold block
  unfold finish
  rw [few]
  by_cases hash : (b.hash.valid && decide (b.currentSizeEstimate options ≤ kMaxBlockSizeSupportedByHashIndex)) = true
  · obtain ⟨valid, small⟩ := Bool.and_eq_true_iff.mp hash
    obtain ⟨buckets, length, shape⟩ := hash_finish_shape options b.hash
    obtain ⟨estimate, _⟩ := numBuckets_eq options b.hash
    have total : b.buffer.length + 4 * b.restarts.length + buckets.length + 6 ≤ kMaxBlockSizeSupportedByHashIndex := by
      have small := of_decide_eq_true small
      rw [currentSizeEstimate, valid, if_pos rfl, holds.estimate, estimate] at small
      omega
    simp only [hash, if_true, packIndexTypeAndNumRestarts]
    rw [shape, new_hash (by omega) (by omega) (by omega)]
    refine ⟨⟨_, by rw [append_assoc, append_assoc]⟩, ?_, by dsimp only; omega, rfl⟩
    simp only [length_append, length_putFixed32, length_encode, flatMap_putFixed32_length]
    omega
  · simp only [hash, if_false, packIndexTypeAndNumRestarts, Bool.false_eq_true]
    rw [new_plain (by omega) (by omega)]
    exact ⟨⟨_, by rw [append_assoc]⟩, by dsimp only; omega, by dsimp only; omega, rfl⟩

/-- **A finished block is laid out as its entries**, one by one from the first, and as its restart points. -/
theorem finish_layout : Layout (Block.new (b.finish options)) entries fun r => starts.getD r 0 := by
  obtain ⟨⟨_, data⟩, -, restartOffset, num⟩ := finish_block holds fits
  have count : b.restarts.length = starts.length := by rw [holds.restarts, length_map]
  have inside {r : Nat} (less : r < starts.length) : starts[r]? = some (starts.getD r 0) ∧ starts.getD r 0 ∈ starts := by
    rw [getD_eq_getElem _ _ less]
    exact ⟨getElem?_eq_getElem less, getElem_mem less⟩
  have short : b.buffer.length < 2 ^ 31 := Nat.lt_of_le_of_lt (length_buffer_le_finish b) fits
  have size : (Block.new (b.finish options)).restartOffset = (bytesOf entries).length := by
    rw [restartOffset, holds.buffer]
  constructor
  case data =>
    rw [restartOffset, data, ← holds.buffer]
    exact take_left' rfl
  case size => exact size
  case small => rwa [restartOffset]
  case chained => exact holds.chained
  case numRestarts =>
    rw [num, count]
    exact length_pos_of_mem (mem_of_head? holds.first)
  case restartPoint =>
    intro r less
    rw [num, count] at less
    have here : b.restarts[r]? = some (offset entries (starts.getD r 0) % 2 ^ 32) := by
      rw [holds.restarts, getElem?_map, (inside less).1]
      rfl
    have bound : offset entries (starts.getD r 0) < 2 ^ 32 := by
      have place : starts.getD r 0 ≤ entries.length := by
        have := holds.bounded _ (inside less).2
        omega
      have before := offset_le place (Nat.le_refl _)
      rw [offset_length, ← holds.buffer] at before
      omega
    rw [Block.getRestartPoint, restartOffset, data, decodeFixed32_restart here, Nat.mod_mod, Nat.mod_eq_of_lt bound]
  case first =>
    have head := holds.first
    rw [head?_eq_getElem?] at head
    rw [getD_eq_getElem?_getD, head]
    rfl
  case increasing =>
    intro r less
    rw [num, count] at less
    rw [getD_eq_getElem _ _ less, getD_eq_getElem _ _ (Nat.lt_of_succ_lt less)]
    exact pairwise_iff_getElem.mp holds.increasing _ _ _ _ (Nat.lt_succ_self r)
  case bounded =>
    intro r less
    rw [num, count] at less
    exact holds.bounded _ (inside less).2
  case restarted =>
    intro _ less
    rw [num, count] at less
    exact holds.restarted _ (inside less).2

private theorem newDataIterator_finish : DataBlockIter.newDataIterator (Block.new (b.finish options)) =
      some (DataBlockIter.initial (Block.new (b.finish options))) := by
  have size := (finish_block holds fits).2.1
  have positive := (finish_layout holds fits).numRestarts
  rw [DataBlockIter.newDataIterator, if_neg (by omega), if_neg (by omega)]

end Finish

/-! ## Reading what was built -/

section Read
variable {κ : Type} [LinearOrder κ]

/-- **A data block reads as it was built.** Entries are added in the order of their keys, with `Add` or with
`AddWithLastKey`, any restart interval, with or without delta encoding and a hash index. The iterator of the finished
block is a cursor over the entries, whatever calls are made. -/
theorem data_block_iter_is_cursor (options : Options) (interval : 1 ≤ options.blockRestartInterval)
    (plain : options.useValueDeltaEncoding = false) (caller : Caller) (rank : Bytes → κ) (added : List (Bytes × Bytes))
    (sorted : added.Pairwise fun a b => rank a.1 < rank b.1)
    (fits : ((build options caller added).1.finish options).length < 2 ^ 31) :
    let block := Block.new ((build options caller added).1.finish options)
    ∃ iter, DataBlockIter.newDataIterator block = some iter ∧
      ∀ calls, Cursor.LegalRun (tracks rank added).step Legal none calls →
        (calls.foldl (DataBlockIter.step block rank) iter).entry block = calls.foldl (tracks rank added).step none := by
  have short := Nat.lt_of_le_of_lt (length_buffer_le_finish (build options caller added).1) fits
  obtain ⟨entries, _, holds, rfl, -⟩ := build_holds plain interval added short
  have keys : entries.Pairwise fun p q => rank p.key < rank q.key := by
    rwa [content, pairwise_map] at sorted
  exact ⟨_, newDataIterator_finish holds fits, fun calls legal => (finish_layout holds fits).iterates keys calls legal⟩

/-- Three entries in two restart intervals and a hash index, and a walk in both directions. -/
theorem data_block_iter_is_cursor_of_three :
    let options : Options := { blockRestartInterval := 2, useDeltaEncoding := true, useValueDeltaEncoding := false
                               hashIndex := true, estimatedNumBuckets := fun n => n,
                               getSliceHash := fun key => key.length }
    let added : List (Bytes × Bytes) := [([1], [10]), ([1, 2], [20]), ([1, 2, 3], [30])]
    let calls : List (Cursor.Call Bytes) := [.seek [1, 1], .next, .prev, .prev]
    let block := Block.new ((build options .add added).1.finish options)
    ∃ iter, DataBlockIter.newDataIterator block = some iter ∧
      (calls.foldl (DataBlockIter.step block List.length) iter).entry block = some ([1], [10]) := by
  intro options added calls _
  obtain ⟨iter, new, cursor⟩ := data_block_iter_is_cursor options (by decide) rfl .add length added
    (by decide) (by decide +kernel)
  exact ⟨iter, new, (cursor calls (by decide)).trans (by decide)⟩

end Read

end Rocksdb.Blocks
