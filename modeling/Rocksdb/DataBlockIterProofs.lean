import Rocksdb.BlockLayout

/-! A data block iterator is a cursor over the entries of its block. Its position is
the index of an entry; the restart index is only a place to start from, and the
cached entries of `Prev` may be stale as long as they are entries of the block. -/
namespace Rocksdb.Blocks
open Lib Lib.LittleEndian DataBlockIter List

variable {block : Block} {entries : List Placed} {starts : Nat → Nat} {i : Nat} {p : Placed} {s s' : DataBlockIter}
  {pos : Option Nat}

/-- A run of entries, as they are cached. -/
def Run (entries : List Placed) (base : Nat) (cached : List CachedPrevEntry) : Prop :=
  ∀ k c, cached[k]? = some c →
    ∃ p, entries[base + k]? = some p ∧ c = ⟨offset entries (base + k), p.key, valueSlice entries (base + k) p⟩

/-- What holds of an iterator wherever it stands. -/
structure Sound (entries : List Placed) (s : DataBlockIter) : Prop where
  uncorrupted : s.corrupted = false
  cached : ∃ base, Run entries base s.prevEntries

/-- The iterator stands at an entry, or at none. -/
def Stands (block : Block) (entries : List Placed) (s : DataBlockIter) : Option Nat → Prop
  | none => Sound entries s ∧ s.valid block = false
  | some i => Sound entries s ∧ (∃ p, At entries i p s) ∧ s.restartIndex < block.numRestarts

/-- An index, unless it is behind the last entry. -/
def land (entries : List Placed) (i : Nat) : Option Nat := if i < entries.length then some i else none

/-- The index before another. -/
def before : Nat → Option Nat
  | 0 => none
  | i + 1 => some i

theorem Stands.sound (stands : Stands block entries s pos) : Sound entries s := by
  cases pos with
  | none => exact stands.1
  | some => exact stands.1

theorem Sound.parsed (sound : Sound entries s) (parsed : Parsed block s s') : Sound entries s' where
  uncorrupted := parsed.corrupted.trans sound.uncorrupted
  cached := by
    rw [parsed.prevEntries]
    exact sound.cached

theorem sound_seekToRestartPoint (sound : Sound entries s) (r : Nat) : Sound entries (s.seekToRestartPoint block r) :=
  ⟨sound.uncorrupted, sound.cached⟩

theorem run_nil (base : Nat) : Run entries base [] := by
  intro _ _ found
  simp at found

variable {base : Nat}

private theorem run_append (run : Run entries base cached) (here : entries[base + cached.length]? = some p) :
    Run entries base (cached ++ [⟨offset entries (base + cached.length), p.key,
      valueSlice entries (base + cached.length) p⟩]) := by
  intro k c found
  rcases Nat.lt_trichotomy k cached.length with less | rfl | more
  · rw [getElem?_append_left less] at found
    exact run k c found
  · rw [getElem?_concat_length] at found
    exact ⟨p, here, (Option.some.inj found).symm⟩
  · rw [getElem?_eq_none (by simp; omega)] at found
    cases found

/-- The cache is being filled, from an entry on. -/
structure Loading (block : Block) (entries : List Placed) (base : Nat) (s : DataBlockIter) : Prop where
  run : Run entries base s.prevEntries
  uncorrupted : s.corrupted = false
  bound : s.restartIndex < block.numRestarts

/-- The entry that was read is cached. -/
theorem Loading.push (loading : Loading block entries base s)
    (at_ : At entries (base + s.prevEntries.length) p s') (same : Parsed block s s') :
    Loading block entries base { s' with prevEntries := s'.prevEntries ++ [⟨s'.current, s'.rawKey, s'.value⟩] } where
  run := by
    rw [same.prevEntries, at_.current, at_.rawKey, at_.value]
    exact run_append loading.run at_.here
  uncorrupted := same.corrupted.trans loading.uncorrupted
  bound := same.restartIndex loading.bound

/-- A cached entry that starts where the iterator stands is the one before it. -/
theorem cached_before (run : Run entries base s.prevEntries) (at_ : At entries i p s)
    (found : s.prevEntries[k + 1]? = some c) (same : c.offset = s.current) :
    ∃ j q, i = j + 1 ∧ entries[j]? = some q ∧
      s.prevEntries[k]? = some ⟨offset entries j, q.key, valueSlice entries j q⟩ := by
  obtain ⟨_, here, shape⟩ := run (k + 1) c found
  have inside := (List.getElem?_eq_some_iff.mp here).1
  have index : base + (k + 1) = i := by
    refine offset_inj inside.le at_.inside.le ?_
    rw [← at_.current, ← same, shape]
  obtain ⟨c', found'⟩ : ∃ c', s.prevEntries[k]? = some c' := by
    have := (List.getElem?_eq_some_iff.mp found).1
    exact ⟨_, List.getElem?_eq_getElem (by omega)⟩
  obtain ⟨q', here', shape'⟩ := run k c' found'
  exact ⟨base + k, q', by omega, here', by rw [found', shape']⟩

namespace Layout
variable (layout : Layout block entries starts)
include layout

/-- One entry further, or behind the last one. -/
theorem stands_next (ready : Ready entries i s) (sound : Sound entries s) (bound : s.restartIndex < block.numRestarts) :
    Stands block entries (nextImpl block s) (land entries i) := by
  unfold nextImpl land
  split
  · next inside =>
    obtain ⟨_, parsed, at_, same⟩ := layout.parse ready (getElem?_eq_getElem inside)
    rw [parsed]
    exact ⟨sound.parsed same, ⟨_, at_⟩, same.restartIndex bound⟩
  · next outside =>
    have last : i = entries.length := Nat.le_antisymm ready.inside (Nat.le_of_not_lt outside)
    subst last
    rw [layout.parse_end ready]
    exact ⟨⟨sound.uncorrupted, sound.cached⟩, decide_eq_false (Nat.lt_irrefl _)⟩

theorem stands_restart (sound : Sound entries s) (bound : r < block.numRestarts) :
    Stands block entries (nextImpl block (s.seekToRestartPoint block r)) (land entries (starts r)) :=
  layout.stands_next (layout.ready_restart s bound) (sound_seekToRestartPoint sound r) bound

private theorem seekToFirst_stands (sound : Sound entries s) :
    Stands block entries (seekToFirstImpl block s) (land entries 0) := by
  have stands := layout.stands_restart sound layout.numRestarts
  rwa [layout.first] at stands

theorem next_stands (stands : Stands block entries s (some i)) :
    Stands block entries (nextImpl block s) (land entries (i + 1)) := by
  obtain ⟨sound, ⟨_, at_⟩, bound⟩ := stands
  exact layout.stands_next at_.ready sound bound

/-! ## Backwards -/

private theorem restartPoint_ge_iff (bound : r < block.numRestarts) (inside : i ≤ entries.length) :
    block.getRestartPoint r ≥ offset entries i ↔ i ≤ starts r := by
  rw [layout.restartPoint r bound, ge_iff_le, ← Nat.not_lt, offset_lt_iff (layout.starts_le bound) inside, Nat.not_lt]

/-- The restart point that is found is before the entry, and there is none before the first. -/
theorem restartBefore_eq (bound : r < block.numRestarts) (inside : i ≤ entries.length) :
    (i = 0 → restartBefore block (offset entries i) r = none) ∧
      (0 < i → ∃ r', restartBefore block (offset entries i) r = some r' ∧ r' < block.numRestarts ∧ starts r' < i) := by
  induction r with
  | zero =>
    have first := layout.restartPoint_ge_iff bound inside
    rw [layout.first] at first
    refine ⟨fun zero => if_pos (first.mpr (by omega)), fun positive => ⟨0, ?_, bound, ?_⟩⟩
    · exact if_neg fun reached => absurd (first.mp reached) (by omega)
    · rw [layout.first]
      exact positive
  | succ r ih =>
    have here := layout.restartPoint_ge_iff bound inside
    unfold restartBefore
    by_cases reached : block.getRestartPoint (r + 1) ≥ offset entries i
    · rw [if_pos reached]
      exact ih (by omega)
    · rw [if_neg reached]
      have later : starts (r + 1) < i := by
        omega
      exact ⟨fun _ => by omega, fun _ => ⟨r + 1, rfl, bound, later⟩⟩

/-- The loop reads and caches the entries up to the one before the original. -/
theorem prevLoop_loads (inside : i + 1 ≤ entries.length) (s : DataBlockIter)
    (ready : Ready entries (base + s.prevEntries.length) s) (less : base + s.prevEntries.length ≤ i)
    (loading : Loading block entries base s) :
    (∃ p, At entries i p (prevLoop block (offset entries (i + 1)) s)) ∧
      Loading block entries base (prevLoop block (offset entries (i + 1)) s) := by
  induction rounds : i - (base + s.prevEntries.length) generalizing s with
  | zero =>
    have here : base + s.prevEntries.length = i := by omega
    subst here
    obtain ⟨p, found⟩ : ∃ p, entries[base + s.prevEntries.length]? = some p := ⟨_, getElem?_eq_getElem inside⟩
    obtain ⟨s', parsed, at_, same⟩ := layout.parse ready found
    rw [prevLoop, parsed]
    dsimp only
    rw [if_neg (by rw [at_.next]; exact Nat.lt_irrefl _)]
    exact ⟨⟨p, at_.here, at_.current, at_.rawKey, at_.value⟩, loading.push at_ same⟩
  | succ _ ih =>
    obtain ⟨p, found⟩ : ∃ p, entries[base + s.prevEntries.length]? = some p :=
      ⟨_, getElem?_eq_getElem (by omega)⟩
    obtain ⟨s', parsed, at_, same⟩ := layout.parse ready found
    have further : s'.nextEntryOffset < offset entries (i + 1) := by
      rw [at_.next]
      exact Blocks.offset_lt (by omega) inside
    have size : (s'.prevEntries ++ [(⟨s'.current, s'.rawKey, s'.value⟩ : CachedPrevEntry)]).length =
        s.prevEntries.length + 1 := by simp [same.prevEntries]
    rw [prevLoop, parsed]
    dsimp only
    rw [if_pos further]
    refine ih _ ?_ ?_ (loading.push at_ same) ?_
    · dsimp only
      rw [size]
      exact ⟨at_.ready.inside, at_.ready.offset, at_.ready.rawKey⟩
    · dsimp only
      omega
    · dsimp only
      omega

theorem prev_stands (stands : Stands block entries s (some i)) :
    Stands block entries (prevImpl block s) (before i) := by
  obtain ⟨sound, ⟨_, at_⟩, bound⟩ := stands
  unfold prevImpl
  dsimp only
  split
  · next hit =>
    obtain ⟨_, same⟩ := hit
    obtain ⟨_, run⟩ := sound.cached
    obtain ⟨_, found, offsetEq⟩ := Option.map_eq_some_iff.mp same
    obtain ⟨k, index⟩ : ∃ k : Nat, s.prevEntriesIdx = k + 1 := ⟨(s.prevEntriesIdx - 1).toNat, by omega⟩
    have first : s.prevEntriesIdx.toNat = k + 1 := by omega
    have second : (s.prevEntriesIdx - 1).toNat = k := by omega
    rw [first] at found
    obtain ⟨_, q, rfl, here, cached⟩ := cached_before run at_ found offsetEq
    rw [second, getD_eq_getElem?_getD, cached]
    exact ⟨⟨sound.uncorrupted, sound.cached⟩, ⟨q, here, rfl, rfl, rfl⟩, bound⟩
  · obtain ⟨atFirst, later⟩ := layout.restartBefore_eq bound at_.inside.le
    rw [← at_.current] at atFirst later
    cases i with
    | zero =>
      rw [atFirst rfl]
      exact ⟨⟨sound.uncorrupted, 0, run_nil 0⟩, decide_eq_false (Nat.lt_irrefl _)⟩
    | succ i =>
      obtain ⟨r, found, restart, less⟩ := later (Nat.succ_pos i)
      rw [found]
      have ready := layout.ready_restart { s with prevEntriesIdx := -1, prevEntries := [] } restart
      have loading : Loading block entries (starts r)
          (seekToRestartPoint block { s with prevEntriesIdx := -1, prevEntries := [] } r) :=
        ⟨run_nil _, sound.uncorrupted, restart⟩
      obtain ⟨⟨p', at_'⟩, loaded⟩ := layout.prevLoop_loads at_.inside.le _ ready (Nat.lt_succ_iff.mp less) loading
      rw [← at_.current] at at_' loaded
      exact ⟨⟨loaded.uncorrupted, _, loaded.run⟩, ⟨p', at_'.here, at_'.current, at_'.rawKey, at_'.value⟩, loaded.bound⟩

/-! ## The last entry -/

private theorem seekToLastLoop_stands (ready : Ready entries i s) (inside : i < entries.length) (sound : Sound entries s)
    (bound : s.restartIndex < block.numRestarts) :
    Stands block entries (seekToLastLoop block s) (some (entries.length - 1)) := by
  induction rounds : entries.length - i generalizing i s with
  | zero => omega
  | succ _ ih =>
    obtain ⟨p, found⟩ : ∃ p, entries[i]? = some p := ⟨_, getElem?_eq_getElem inside⟩
    obtain ⟨s', parsed, at_, same⟩ := layout.parse ready found
    have continues : s'.nextEntryOffset < block.restartOffset ↔ i + 1 < entries.length := by
      rw [at_.next, ← layout.offset_length]
      exact offset_lt_iff inside le_rfl
    rw [seekToLastLoop, parsed]
    dsimp only
    split
    · next further =>
      exact ih at_.ready (continues.mp further) (sound.parsed same) (same.restartIndex bound) (by omega)
    · next done =>
      have last : entries.length - 1 = i := by
        omega
      rw [last]
      exact ⟨sound.parsed same, ⟨p, at_⟩, same.restartIndex bound⟩

theorem seekToLast_stands (sound : Sound entries s) :
    Stands block entries (seekToLastImpl block s) (before entries.length) := by
  have bound : block.numRestarts - 1 < block.numRestarts := by
    have := layout.numRestarts
    omega
  have ready := layout.ready_restart s bound
  unfold seekToLastImpl
  rcases layout.bounded _ bound with zero | less
  · cases empty : entries with
    | nil =>
      rw [zero] at ready
      subst empty
      have parsed := layout.parse_end ready
      rw [seekToLastLoop, parsed]
      exact ⟨⟨sound.uncorrupted, sound.cached⟩, decide_eq_false (Nat.lt_irrefl _)⟩
    | cons =>
      rw [← empty]
      have inside : starts (block.numRestarts - 1) < entries.length := by
        rw [zero, empty]
        exact Nat.succ_pos _
      have stands := layout.seekToLastLoop_stands ready inside (sound_seekToRestartPoint sound _) bound
      rw [empty] at stands ⊢
      exact stands
  · have stands := layout.seekToLastLoop_stands ready less (sound_seekToRestartPoint sound _) bound
    cases size : entries.length with
    | zero => omega
    | succ =>
      rw [size] at stands
      exact stands

end Layout

/-! ## Searching -/

section Search
variable {κ : Type} [LinearOrder κ] (rank : Bytes → κ) {target : Bytes} {c : Nat}

/-- The entries before an index are below the target, and no others. -/
structure Splits (entries : List Placed) (target : Bytes) (c : Nat) : Prop where
  inside : c ≤ entries.length
  below : ∀ i p, entries[i]? = some p → (rank p.key < rank target ↔ i < c)

variable {rank}

/-- An entry equal to the target is the first that is not below it. -/
theorem Splits.eq_of_rank_eq (splits : Splits rank entries target c)
    (sorted : entries.Pairwise fun p q => rank p.key < rank q.key) (here : entries[i]? = some p)
    (same : rank p.key = rank target) : i = c := by
  have notBelow : ¬ i < c := fun less => by
    have := (splits.below i p here).mpr less
    rw [same] at this
    exact lt_irrefl _ this
  rcases Nat.eq_or_lt_of_le (Nat.le_of_not_lt notBelow) with equal | less
  · exact equal.symm
  · have inside := (List.getElem?_eq_some_iff.mp here).1
    obtain ⟨q, found⟩ : ∃ q, entries[c]? = some q := ⟨_, List.getElem?_eq_getElem (by omega)⟩
    have notLess : ¬ rank q.key < rank target := fun smaller =>
      absurd ((splits.below c q found).mp smaller) (Nat.lt_irrefl c)
    have smaller : rank q.key < rank p.key := by
      rw [pairwise_iff_getElem] at sorted
      have := sorted c i (by omega) inside less
      rwa [(List.getElem?_eq_some_iff.mp found).2, (List.getElem?_eq_some_iff.mp here).2] at this
    rw [same] at smaller
    exact absurd smaller notLess

namespace Layout
variable (layout : Layout block entries starts)
  (sorted : entries.Pairwise fun p q => rank p.key < rank q.key) (splits : Splits rank entries target c)

section Scan
include layout

include splits in
/-- The loop stops at the first entry that is not below the target. -/
theorem scanLoop_stands (stop : ∀ j < c, offset entries j ≠ maxOffset)
    (less : i < c) (stands : Stands block entries s (some i)) :
    Stands block entries (scanLoop block rank target maxOffset s) (land entries c) := by
  induction rounds : c - i generalizing i s with
  | zero => omega
  | succ _ ih =>
    have next := layout.next_stands stands
    rw [scanLoop]
    by_cases inside : i + 1 < entries.length
    · rw [land, if_pos inside] at next
      obtain ⟨sound, ⟨p, at_⟩, bound⟩ := next
      rw [dif_pos (layout.valid_at at_)]
      by_cases here : i + 1 = c
      · subst here
        have notBelow : compareCurrentKey rank (nextImpl block s) target ≠ .lt := by
          rw [compareCurrentKey, at_.rawKey]
          intro below
          exact absurd ((splits.below _ p at_.here).mp (compare_lt_iff_lt.mp below)) (Nat.lt_irrefl _)
        have done : Stands block entries (nextImpl block s) (land entries (i + 1)) := by
          rw [land, if_pos inside]
          exact ⟨sound, ⟨p, at_⟩, bound⟩
        rw [if_pos notBelow, ite_self]
        exact done
      · have below : compareCurrentKey rank (nextImpl block s) target = .lt := by
          rw [compareCurrentKey, at_.rawKey]
          exact compare_lt_iff_lt.mpr ((splits.below _ p at_.here).mpr (by omega))
        rw [if_neg (by rw [at_.current]; exact stop _ (by omega)), if_neg (not_not_intro below)]
        exact ih (by omega) ⟨sound, ⟨p, at_⟩, bound⟩ (by omega)
    · have last : c = i + 1 := by
        have := splits.inside
        omega
      subst last
      rw [land, if_neg inside] at next ⊢
      rw [dif_neg (by rw [next.2]; decide)]
      exact next

/-- The key at a restart point is read without the one before it. -/
theorem decode_restart (bound : r < block.numRestarts) (here : entries[starts r]? = some p) :
    ∃ rest, decodeEntry (block.input (block.getRestartPoint r)) = some (⟨0, p.key.length, p.value.length⟩, rest) ∧
      rest.take p.key.length = p.key := by
  obtain ⟨keyFits, valueFits⟩ := layout.lengths here
  have none := layout.restarted r bound p here
  have decoded := decodeEntry_bytes (by omega) keyFits valueFits (bytesOf (entries.drop (starts r + 1)))
  rw [none, Nat.sub_zero, drop_zero] at decoded
  rw [layout.restartPoint r bound, layout.input_eq here]
  exact ⟨_, decoded, take_left' rfl⟩

/-- What the binary search knows of its bounds. -/
structure Bounds (block : Block) (starts : Nat → Nat) (c : Nat) (left right : Int) : Prop where
  order : -1 ≤ left ∧ left ≤ right ∧ right < block.numRestarts
  below : 0 ≤ left → starts left.toNat < c
  above : ∀ r : Nat, right < r → r < block.numRestarts → c ≤ starts r

/-- Where the binary search ends. -/
structure Found (block : Block) (starts : Nat → Nat) (c : Nat) (left : Int) (skip : Bool) : Prop where
  order : -1 ≤ left ∧ left < block.numRestarts
  exactly : skip = true → 0 ≤ left ∧ starts left.toNat = c
  between : skip = false → (0 ≤ left → starts left.toNat < c) ∧
    ∀ r : Nat, left < r → r < block.numRestarts → c ≤ starts r

include sorted splits in
private theorem binarySeekLoop_finds (nonempty : 0 < entries.length) (sound : Sound entries s)
    (bounds : Bounds block starts c left right) :
    ∃ s' left' skip, binarySeekLoop block rank target s left right = (s', some (left', skip)) ∧
      Sound entries s' ∧ Found block starts c left' skip := by
  induction rounds : (right - left).toNat using Nat.strongRecOn generalizing s left right with
  | ind _ ih =>
    obtain ⟨low, order, high⟩ := bounds.order
    rw [binarySeekLoop]
    by_cases more : left < right
    · rw [if_pos more]
      dsimp only
      generalize middle : left + (right - left + 1) / 2 = mid
      obtain ⟨r, rfl⟩ : ∃ r : Nat, mid = r := ⟨mid.toNat, by omega⟩
      have bound : r < block.numRestarts := by omega
      have inside : starts r < entries.length := by
        rcases layout.bounded r bound with zero | less
        · omega
        · exact less
      obtain ⟨p, here⟩ : ∃ p, entries[starts r]? = some p := ⟨_, getElem?_eq_getElem inside⟩
      obtain ⟨_, decoded, key⟩ := layout.decode_restart bound here
      rw [Int.toNat_natCast, decoded]
      dsimp only
      rw [if_neg (by simp), key]
      have sound' : Sound entries { s with rawKey := p.key } := ⟨sound.uncorrupted, sound.cached⟩
      have split := splits.below _ p here
      split
      · next lower =>
        have less : starts r < c := split.mp (compare_lt_iff_lt.mp lower)
        refine ih _ ?_ sound' ⟨⟨by omega, by omega, high⟩, fun _ => ?_, bounds.above⟩ rfl
        · omega
        · rwa [Int.toNat_natCast]
      · next higher =>
        have notLess : c ≤ starts r := by
          have greater : rank target < rank p.key := compare_gt_iff_gt.mp higher
          by_contra less
          exact absurd (split.mpr (Nat.lt_of_not_le less)) (not_lt.mpr greater.le)
        refine ih _ ?_ sound' ⟨⟨low, by omega, by omega⟩, bounds.below, fun r' above bound' => ?_⟩ rfl
        · omega
        · rcases Nat.lt_or_ge r r' with later | earlier
          · exact notLess.trans (layout.starts_mono later.le bound')
          · have same : r' = r := by omega
            rw [same]
            exact notLess
      · next equal =>
        refine ⟨_, _, _, rfl, sound',
          ⟨⟨by omega, by omega⟩, fun _ => ⟨by omega, ?_⟩, fun never => Bool.noConfusion never⟩⟩
        exact splits.eq_of_rank_eq sorted here (compare_eq_iff_eq.mp equal)
    · rw [if_neg more]
      have same : left = right := by omega
      subst same
      exact ⟨s, left, false, rfl, sound,
        ⟨⟨low, high⟩, fun never => Bool.noConfusion never, fun _ => ⟨bounds.below, bounds.above⟩⟩⟩

include sorted splits in
/-- The restart point from which the scan starts: at the entry, or before it and the next one not. -/
theorem binarySeek_finds (nonempty : 0 < entries.length) (sound : Sound entries s) :
    ∃ s' r skip, binarySeek block rank target s = (s', some (r, skip)) ∧ Sound entries s' ∧ r < block.numRestarts ∧
      (skip = true → starts r = c) ∧
      (skip = false → starts r < c ∧ (r + 1 < block.numRestarts → c ≤ starts (r + 1))) := by
  have some : block.restartOffset ≠ 0 := by
    have := layout.offset_lt nonempty
    omega
  have positive := layout.numRestarts
  have bounds : Bounds block starts c (-1) ((block.numRestarts : Int) - 1) :=
    ⟨⟨le_rfl, by omega, by omega⟩, fun _ => by omega, fun _ above bound => by omega⟩
  obtain ⟨s', left, skip, ran, sound', found⟩ := layout.binarySeekLoop_finds sorted splits nonempty sound bounds
  obtain ⟨_, _⟩ := found.order
  rw [binarySeek, if_neg some, ran]
  dsimp only
  by_cases none : left = -1
  · rw [if_pos none]
    refine ⟨s', 0, true, rfl, sound', positive, fun _ => ?_, fun never => Bool.noConfusion never⟩
    cases skip with
    | true =>
      have := (found.exactly rfl).1
      omega
    | false =>
      have := (found.between rfl).2 0 (by omega) positive
      rw [layout.first] at this ⊢
      omega
  · rw [if_neg none]
    refine ⟨s', left.toNat, skip, rfl, sound', by omega, fun at_ => (found.exactly at_).2, fun scan => ?_⟩
    obtain ⟨below, above⟩ := found.between scan
    exact ⟨below (by omega), fun bound => above _ (by omega) bound⟩

include splits in
theorem findKey_stands (sound : Sound entries s) (bound : r < block.numRestarts)
    (exactly : skip = true → starts r = c)
    (between : skip = false → starts r < c ∧ (r + 1 < block.numRestarts → c ≤ starts (r + 1))) :
    Stands block entries (findKeyAfterBinarySeek block rank target r skip s) (land entries c) := by
  have stands := layout.stands_restart sound bound
  unfold findKeyAfterBinarySeek
  cases skip with
  | true =>
    rw [exactly rfl] at stands
    exact stands
  | false =>
    obtain ⟨less, next⟩ := between rfl
    have inside := less.trans_le splits.inside
    rw [land, if_pos inside] at stands
    refine layout.scanLoop_stands splits (fun _ below => ?_) less stands
    split
    · next more =>
      rw [layout.restartPoint _ more]
      exact (Blocks.offset_lt (below.trans_le (next more)) (layout.starts_le more)).ne
    · have := layout.offset_lt (below.trans_le splits.inside)
      have := layout.small
      omega

/-! ## Calls -/

include sorted splits in
private theorem seek_stands (stands : Stands block entries s pos) :
    Stands block entries (seekImpl block rank target s) (land entries c) := by
  rcases Nat.eq_zero_or_pos entries.length with empty | nonempty
  · have zero : block.restartOffset = 0 := by rw [← layout.offset_length, empty, offset_zero]
    have none : land entries c = none := if_neg (by omega)
    rw [seekImpl, binarySeek, if_pos zero, none]
    exact ⟨stands.sound, decide_eq_false (by omega)⟩
  · obtain ⟨_, _, _, ran, sound, bound, exactly, between⟩ :=
      layout.binarySeek_finds sorted splits nonempty stands.sound
    rw [seekImpl, ran]
    exact layout.findKey_stands splits sound bound exactly between

end Scan

private theorem seekForPrevLoop_stop (done : ¬ (s.valid block = true ∧ compareCurrentKey rank s target = .gt)) :
    seekForPrevLoop block rank target fuel s = s := by
  cases fuel with
  | zero => rfl
  | succ => exact if_neg done

/-- The last entry that is not above the target. -/
def floor (rank : Bytes → κ) (entries : List Placed) (target : Bytes) (c : Nat) : Option Nat :=
  match entries[c]? with
  | some p => if rank p.key = rank target then some c else before c
  | none => before c

include layout

include splits in
/-- Going back ends after at most one entry. -/
theorem seekForPrevLoop_stands (positive : 0 < fuel) (stands : Stands block entries s (some c)) :
    Stands block entries (seekForPrevLoop block rank target fuel s) (floor rank entries target c) := by
  obtain ⟨sound, ⟨p, at_⟩, bound⟩ := stands
  obtain ⟨fuel, rfl⟩ : ∃ n, fuel = n + 1 := ⟨fuel - 1, by omega⟩
  have notBelow : ¬ rank p.key < rank target := fun less =>
    absurd ((splits.below c p at_.here).mp less) (Nat.lt_irrefl c)
  rw [floor, at_.here]
  dsimp only
  by_cases same : rank p.key = rank target
  · rw [if_pos same, seekForPrevLoop_stop]
    · exact ⟨sound, ⟨p, at_⟩, bound⟩
    · rintro ⟨-, above⟩
      rw [compareCurrentKey, at_.rawKey, same] at above
      exact absurd (compare_gt_iff_gt.mp above) (lt_irrefl _)
  · have above : compareCurrentKey rank s target = .gt := by
      rw [compareCurrentKey, at_.rawKey]
      exact compare_gt_iff_gt.mpr (lt_of_le_of_ne (not_lt.mp notBelow) (Ne.symm same))
    have back := layout.prev_stands ⟨sound, ⟨p, at_⟩, bound⟩
    rw [if_neg same, seekForPrevLoop, if_pos ⟨layout.valid_at at_, above⟩, seekForPrevLoop_stop]
    · exact back
    · rintro ⟨valid, stillAbove⟩
      cases c with
      | zero =>
        rw [back.2] at valid
        cases valid
      | succ c =>
        obtain ⟨-, ⟨q, at_'⟩, -⟩ := back
        rw [compareCurrentKey, at_'.rawKey] at stillAbove
        exact absurd (compare_gt_iff_gt.mp stillAbove)
          (not_lt.mpr ((splits.below c q at_'.here).mpr (Nat.lt_succ_self c)).le)

include sorted splits in
private theorem seekForPrev_stands (stands : Stands block entries s pos) :
    Stands block entries (seekForPrevImpl block rank target s) (floor rank entries target c) := by
  rcases Nat.eq_zero_or_pos entries.length with empty | nonempty
  · have zero : block.restartOffset = 0 := by rw [← layout.offset_length, empty, offset_zero]
    have first : c = 0 := by
      have := splits.inside
      omega
    have none : floor rank entries target c = none := by
      rw [floor, getElem?_eq_none (by omega), first]
      rfl
    rw [seekForPrevImpl, binarySeek, if_pos zero, none]
    exact ⟨stands.sound, decide_eq_false (by omega)⟩
  · obtain ⟨_, _, _, ran, sound, bound, exactly, between⟩ :=
      layout.binarySeek_finds sorted splits nonempty stands.sound
    have found := layout.findKey_stands splits sound bound exactly between
    rw [seekForPrevImpl, ran]
    dsimp only
    by_cases inside : c < entries.length
    · rw [land, if_pos inside] at found
      obtain ⟨-, ⟨_, at_⟩, -⟩ := id found
      rw [if_neg (not_not_intro (layout.valid_at at_))]
      exact layout.seekForPrevLoop_stands splits ((Nat.zero_le _).trans_lt (layout.offset_lt inside)) found
    · rw [land, if_neg inside] at found
      have last : c = entries.length := Nat.le_antisymm splits.inside (Nat.le_of_not_lt inside)
      rw [if_pos (by rw [found.2]; decide), if_neg (by rw [found.1.uncorrupted]; decide), floor,
        getElem?_eq_none (Nat.le_of_not_lt inside), last]
      exact layout.seekToLast_stands found.1

/-- The value that can be read is that of the entry. -/
theorem entry_value (here : entries[i]? = some p) :
    let value := valueSlice entries i p
    (block.data.drop value.offset).take value.size = p.value := by
  intro value
  have inside := (List.getElem?_eq_some_iff.mp here).1
  have size := offset_succ here
  have parts := bytes_length p
  have stop : offset entries (i + 1) ≤ block.restartOffset := by
    rw [← layout.offset_length]
    exact offset_le inside le_rfl
  have start : offset entries (i + 1) - p.value.length =
      offset entries i + (p.header ++ p.key.drop p.shared).length := by
    rw [length_append, length_drop]
    omega
  have within : (block.data.drop value.offset).take value.size =
      ((bytesOf entries).drop value.offset).take value.size := by
    rw [← layout.data, drop_take, take_take]
    simp only [value, valueSlice]
    congr 1
    omega
  rw [within]
  simp only [value, valueSlice]
  rw [start, ← drop_drop, bytesOf_drop here, Placed.bytes, ← append_assoc, append_assoc,
    drop_left' rfl, take_left' rfl]

end Layout

end Search

/-! ## The cursor -/

section Cursor
variable {κ : Type} [LinearOrder κ] {rank : Bytes → κ}

/-- The keys and values of the entries. -/
def content (entries : List Placed) : List (Bytes × Bytes) := entries.map fun p => (p.key, p.value)

/-- A cursor over keys and values, in the order of the keys. -/
def tracks (rank : Bytes → κ) (entries : List (Bytes × Bytes)) : Cursor.Tracks (Bytes × Bytes) Bytes where
  forward := entries
  backward := entries
  before a b := rank a.1 < rank b.1
  atOrAfter target x := rank target ≤ rank x.1
  atOrBefore target x := rank x.1 ≤ rank target

/-- An iterator that stands nowhere must be positioned first. -/
def Legal (here : Option (Bytes × Bytes)) : Cursor.Call Bytes → Prop
  | .next | .prev => here.isSome = true
  | _ => True

instance (here : Option (Bytes × Bytes)) (c : Cursor.Call Bytes) : Decidable (Legal here c) := by
  cases c <;> unfold Legal <;> infer_instance

/-- The iterator and the cursor are at the same entry. -/
structure Related (block : Block) (entries : List Placed) (s : DataBlockIter) (here : Option (Bytes × Bytes)) :
    Prop where
  stands : ∃ pos : Option Nat, Stands block entries s pos ∧ here = pos.bind ((content entries)[·]?)
  key : s.valid block = true → s.key = s.rawKey

theorem content_getElem? (here : (content entries)[i]? = some x) :
    ∃ p, entries[i]? = some p ∧ x = (p.key, p.value) := by
  rw [content, getElem?_map] at here
  obtain ⟨p, found, same⟩ := Option.map_eq_some_iff.mp here
  exact ⟨p, found, same.symm⟩

private theorem land_content (i : Nat) : (land entries i).bind ((content entries)[·]?) = (content entries)[i]? := by
  unfold land
  split
  · rfl
  · next outside =>
    rw [getElem?_eq_none (by simpa [content] using outside)]
    rfl

theorem before_content (i : Nat) : (before i).bind ((content entries)[·]?) = match i with
    | 0 => none
    | i + 1 => (content entries)[i]? := by
  cases i with
  | zero => rfl
  | succ => rfl

private theorem seek_tracks (splits : Splits rank entries target c) :
    (content entries).find? ((tracks rank (content entries)).atOrAfter target) = (content entries)[c]? := by
  refine Cursor.find?_eq_getElem? fun i _ found => ?_
  obtain ⟨p, here, rfl⟩ := content_getElem? found
  have split := splits.below i p here
  rw [← not_iff_not, Nat.not_le, ← split]
  simp [tracks]

section Sorted
variable (sorted : entries.Pairwise fun p q => rank p.key < rank q.key)
include sorted

theorem rank_lt_iff (first : entries[i]? = some p)
    (second : entries[j]? = some q) : rank p.key < rank q.key ↔ i < j := by
  have ordered {a b : Nat} {x y : Placed} (at_a : entries[a]? = some x) (at_b : entries[b]? = some y) (less : a < b) :
      rank x.key < rank y.key := by
    obtain ⟨in_a, rfl⟩ := List.getElem?_eq_some_iff.mp at_a
    obtain ⟨in_b, rfl⟩ := List.getElem?_eq_some_iff.mp at_b
    exact pairwise_iff_getElem.mp sorted a b in_a in_b less
  refine ⟨fun less => ?_, ordered first second⟩
  rcases Nat.lt_trichotomy i j with earlier | rfl | later
  · exact earlier
  · rw [first] at second
    cases second
    exact absurd less (lt_irrefl _)
  · exact absurd less (ordered second first later).asymm

/-- Every target splits sorted entries. -/
theorem exists_splits (target : Bytes) :
    ∃ c, Splits rank entries target c := by
  induction entries with
  | nil => exact ⟨0, le_rfl, fun i p found => by simp at found⟩
  | cons q _ ih =>
    obtain ⟨above, sorted⟩ := pairwise_cons.mp sorted
    obtain ⟨c, inside, below⟩ := ih sorted
    by_cases less : rank q.key < rank target
    · refine ⟨c + 1, Nat.succ_le_succ inside, fun i p found => ?_⟩
      cases i with
      | zero =>
        cases found
        exact ⟨fun _ => Nat.succ_pos c, fun _ => less⟩
      | succ i => exact (below i p found).trans Nat.succ_lt_succ_iff.symm
    · refine ⟨0, Nat.zero_le _, fun i p found => ⟨fun lower => ?_, fun _ => by omega⟩⟩
      cases i with
      | zero =>
        cases found
        exact absurd lower less
      | succ => exact absurd ((above p (mem_of_getElem? found)).trans lower) less

private theorem seekForPrev_tracks (splits : Splits rank entries target c) :
    (content entries).reverse.find? ((tracks rank (content entries)).atOrBefore target) =
      (Layout.floor rank entries target c).bind ((content entries)[·]?) := by
  have upTo (d : Nat) (inside : d ≤ entries.length)
      (split : ∀ i p, entries[i]? = some p → (rank p.key ≤ rank target ↔ i < d)) :
      (content entries).reverse.find? ((tracks rank (content entries)).atOrBefore target) =
        (before d).bind ((content entries)[·]?) := by
    rw [before_content]
    refine Cursor.find?_reverse_eq_getElem? (by simpa [content] using inside) fun i _ found => ?_
    obtain ⟨p, here, rfl⟩ := content_getElem? found
    simpa [tracks] using split i p here
  unfold Layout.floor
  cases here : entries[c]? with
  | none =>
    refine upTo c splits.inside fun i p found => ?_
    have less : i < c := by
      have := (List.getElem?_eq_some_iff.mp found).1
      have := List.getElem?_eq_none_iff.mp here
      omega
    exact ⟨fun _ => less, fun _ => ((splits.below i p found).mpr less).le⟩
  | some q =>
    have inside := (List.getElem?_eq_some_iff.mp here).1
    by_cases same : rank q.key = rank target
    · simp only [same, if_true]
      refine upTo (c + 1) inside fun i p found => ?_
      rw [← same, ← not_lt, rank_lt_iff sorted here found]
      omega
    · simp only [same, if_false]
      refine upTo c splits.inside fun i p found => ?_
      rw [← splits.below i p found]
      refine ⟨fun le => lt_of_le_of_ne le fun equal => ?_, le_of_lt⟩
      have index := splits.eq_of_rank_eq sorted found equal
      subst index
      rw [here] at found
      cases found
      exact same equal

private theorem next_tracks (here : entries[i]? = some p) :
    (content entries).find? ((tracks rank (content entries)).before (p.key, p.value)) = (content entries)[i + 1]? := by
  refine Cursor.find?_eq_getElem? fun _ _ found => ?_
  obtain ⟨_, there, rfl⟩ := content_getElem? found
  simpa [tracks, Nat.succ_le_iff] using rank_lt_iff sorted here there

private theorem prev_tracks (here : entries[i]? = some p) :
    (content entries).reverse.find? ((tracks rank (content entries)).before · (p.key, p.value)) =
      (before i).bind ((content entries)[·]?) := by
  have inside := (List.getElem?_eq_some_iff.mp here).1
  rw [before_content]
  refine Cursor.find?_reverse_eq_getElem? (by simp [content, inside.le]) fun _ _ found => ?_
  obtain ⟨_, there, rfl⟩ := content_getElem? found
  simpa [tracks] using rank_lt_iff sorted there here

end Sorted

private theorem updateKey_related (stands : Stands block entries s pos)
    (same : here = pos.bind ((content entries)[·]?)) : Related block entries (updateKey block s) here := by
  unfold updateKey
  split
  · refine ⟨⟨pos, ?_, same⟩, fun _ => rfl⟩
    cases pos with
    | none => exact ⟨⟨stands.1.uncorrupted, stands.1.cached⟩, stands.2⟩
    | some =>
      obtain ⟨sound, ⟨p, at_⟩, bound⟩ := stands
      exact ⟨⟨sound.uncorrupted, sound.cached⟩, ⟨p, at_.here, at_.current, at_.rawKey, at_.value⟩, bound⟩
  · next invalid => exact ⟨⟨pos, stands, same⟩, fun valid => absurd valid invalid⟩

theorem Related.at (related : Related block entries s here) (standing : here.isSome = true) :
    ∃ i p, Stands block entries s (some i) ∧ entries[i]? = some p ∧ here = some (p.key, p.value) := by
  obtain ⟨_, stands, rfl⟩ := related.stands
  obtain ⟨_, found⟩ := Option.isSome_iff_exists.mp standing
  obtain ⟨i, rfl, at_⟩ := Option.bind_eq_some_iff.mp found
  obtain ⟨p, here, rfl⟩ := content_getElem? at_
  exact ⟨i, p, stands, here, found⟩

/-- Every legal call moves the iterator and the cursor alike. -/
theorem Layout.call_related (layout : Layout block entries starts)
    (sorted : entries.Pairwise fun p q => rank p.key < rank q.key) (s : DataBlockIter) (here : Option (Bytes × Bytes))
    (c : Cursor.Call Bytes) (related : Related block entries s here) (legal : Legal here c) :
    Related block entries (DataBlockIter.step block rank s c) ((tracks rank (content entries)).step here c) := by
  obtain ⟨_, stands, -⟩ := related.stands
  cases c with
  | seekToFirst =>
    refine updateKey_related (layout.seekToFirst_stands stands.sound) ?_
    rw [land_content]
    exact head?_eq_getElem?
  | seekToLast =>
    refine updateKey_related (layout.seekToLast_stands stands.sound) ?_
    rw [before_content]
    refine getLast?_eq_getElem?.trans ?_
    cases entries with
    | nil => rfl
    | cons => simp [tracks, content]
  | seek target =>
    obtain ⟨c, splits⟩ := exists_splits sorted target
    refine updateKey_related (layout.seek_stands sorted splits stands) ?_
    rw [land_content]
    exact seek_tracks splits
  | seekForPrev target =>
    obtain ⟨_, splits⟩ := exists_splits sorted target
    exact updateKey_related (layout.seekForPrev_stands sorted splits stands) (seekForPrev_tracks sorted splits)
  | next =>
    obtain ⟨i, p, stands, at_, rfl⟩ := related.at legal
    refine updateKey_related (layout.next_stands stands) ?_
    rw [land_content]
    exact next_tracks sorted at_
  | prev =>
    obtain ⟨_, _, stands, at_, rfl⟩ := related.at legal
    exact updateKey_related (layout.prev_stands stands) (prev_tracks sorted at_)

theorem Layout.entry_of_related (layout : Layout block entries starts)
    (related : Related block entries s here) : s.entry block = here := by
  obtain ⟨pos, stands, rfl⟩ := related.stands
  unfold entry
  cases pos with
  | none =>
    rw [if_neg (by rw [stands.2]; decide)]
    rfl
  | some =>
    obtain ⟨-, ⟨_, at_⟩, -⟩ := stands
    have valid := layout.valid_at at_
    rw [if_pos valid, related.key valid, at_.rawKey, at_.value, layout.entry_value at_.here]
    simp [content, at_.here]

/-- **An iterator over a block that holds sorted entries is a cursor over them.** -/
theorem Layout.iterates (layout : Layout block entries starts)
    (sorted : entries.Pairwise fun p q => rank p.key < rank q.key) (calls : List (Cursor.Call Bytes))
    (legal : Cursor.LegalRun (tracks rank (content entries)).step Legal none calls) :
    (calls.foldl (DataBlockIter.step block rank) (DataBlockIter.initial block)).entry block =
      calls.foldl (tracks rank (content entries)).step none := by
  have start : Related block entries (DataBlockIter.initial block) none :=
    ⟨⟨none, ⟨⟨rfl, 0, run_nil 0⟩, decide_eq_false (Nat.lt_irrefl _)⟩, rfl⟩, fun valid => by
      simp [DataBlockIter.initial, DataBlockIter.valid] at valid⟩
  exact layout.entry_of_related (Cursor.foldl_related (layout.call_related sorted) calls _ _ start legal)

end Cursor

end Rocksdb.Blocks
