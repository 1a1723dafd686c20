import Rocksdb.DataBlockIter

/-! The layout of a data block: entries one behind the other, each sharing bytes
with the key before it, and restart points at entries that share none. What an
iterator reads is described by the index of the entry it reads. -/
namespace Rocksdb.Blocks
open Coding Lib Lib.LittleEndian DataBlockIter List

/-- An entry, with the bytes its key shares with the one before. -/
structure Placed where
  key : Bytes
  value : Bytes
  shared : Nat
  deriving DecidableEq

namespace Placed

/-- The three numbers in front of an entry. -/
def header (p : Placed) : Bytes :=
  putVarint32 p.shared ++ (putVarint32 (p.key.length - p.shared) ++ putVarint32 p.value.length)

def bytes (p : Placed) : Bytes := p.header ++ (p.key.drop p.shared ++ p.value)

end Placed

def bytesOf (entries : List Placed) : Bytes := entries.flatMap Placed.bytes

/-- Where an entry starts. -/
def offset (entries : List Placed) (i : Nat) : Nat := (bytesOf (entries.take i)).length

/-- Each key begins with the bytes it shares with the one before. -/
def Chained : Bytes → List Placed → Prop
  | _, [] => True
  | previous, p :: rest => p.shared ≤ previous.length ∧ p.key.take p.shared = previous.take p.shared ∧ Chained p.key rest

/-- A block holds entries, with restart points at some of them. -/
structure Layout (block : Block) (entries : List Placed) (starts : Nat → Nat) : Prop where
  data : block.data.take block.restartOffset = bytesOf entries
  size : block.restartOffset = (bytesOf entries).length
  small : block.restartOffset < 2 ^ 31
  chained : Chained [] entries
  numRestarts : 0 < block.numRestarts
  restartPoint : ∀ r < block.numRestarts, block.getRestartPoint r = offset entries (starts r)
  first : starts 0 = 0
  increasing : ∀ r, r + 1 < block.numRestarts → starts r < starts (r + 1)
  bounded : ∀ r < block.numRestarts, starts r = 0 ∨ starts r < entries.length
  restarted : ∀ r < block.numRestarts, ∀ p, entries[starts r]? = some p → p.shared = 0

/-! ## Offsets -/

section Offsets
theorem offset_zero : offset entries 0 = 0 := rfl

theorem offset_succ (here : entries[i]? = some p) : offset entries (i + 1) = offset entries i + p.bytes.length := by
  have next : entries.take (i + 1) = entries.take i ++ [p] := by
    rw [take_add_one, here]
    rfl
  simp [offset, bytesOf, next]

theorem offset_length : offset entries entries.length = (bytesOf entries).length := by
  rw [offset, take_length]

theorem bytesOf_drop (here : entries[i]? = some p) :
    (bytesOf entries).drop (offset entries i) = p.bytes ++ bytesOf (entries.drop (i + 1)) := by
  have split : entries = entries.take i ++ p :: entries.drop (i + 1) := by
    have element := (List.getElem?_eq_some_iff.mp here).2
    rw [← element, List.getElem_cons_drop, take_append_drop]
  have bytes : bytesOf entries = bytesOf (entries.take i) ++ (p.bytes ++ bytesOf (entries.drop (i + 1))) := by
    conv_lhs => rw [split]
    simp [bytesOf]
  rw [bytes]
  exact drop_left' rfl

private theorem putVarint32_pos (v : Nat) : 0 < (putVarint32 v).length := by
  unfold putVarint32
  split_ifs <;> simp

theorem header_length (p : Placed) : 3 ≤ p.header.length := by
  have first := putVarint32_pos p.shared
  have second := putVarint32_pos (p.key.length - p.shared)
  have third := putVarint32_pos p.value.length
  simp only [Placed.header, length_append]
  omega

theorem bytes_length (p : Placed) : p.bytes.length = p.header.length + (p.key.length - p.shared) + p.value.length := by
  simp [Placed.bytes, Nat.add_assoc]

theorem offset_lt (less : i < j) (bound : j ≤ entries.length) : offset entries i < offset entries j := by
  induction j with
  | zero => cases less
  | succ j ih =>
    obtain ⟨p, here⟩ : ∃ p, entries[j]? = some p := ⟨_, getElem?_eq_getElem (by omega)⟩
    have step := offset_succ here
    have positive := header_length p
    have length := bytes_length p
    rcases Nat.lt_succ_iff_lt_or_eq.mp less with earlier | rfl
    · have := ih earlier (by omega)
      omega
    · omega

theorem offset_le (le : i ≤ j) (bound : j ≤ entries.length) : offset entries i ≤ offset entries j := by
  rcases Nat.eq_or_lt_of_le le with rfl | less
  · exact le_rfl
  · exact (offset_lt less bound).le

theorem offset_lt_iff (boundLeft : i ≤ entries.length) (boundRight : j ≤ entries.length) :
    offset entries i < offset entries j ↔ i < j := by
  refine ⟨fun less => ?_, fun less => offset_lt less boundRight⟩
  by_contra notLess
  have := offset_le (Nat.le_of_not_lt notLess) boundLeft
  omega

theorem offset_inj (boundLeft : i ≤ entries.length) (boundRight : j ≤ entries.length)
    (same : offset entries i = offset entries j) : i = j := by
  rcases Nat.lt_trichotomy i j with less | equal | more
  · have := offset_lt less boundRight
    omega
  · exact equal
  · have := offset_lt more boundLeft
    omega

/-- Keys are no longer than what is written up to their entry's end. -/
theorem key_length_le (chained : Chained previous entries) (here : entries[i]? = some p) :
    p.key.length ≤ previous.length + offset entries (i + 1) := by
  induction entries generalizing previous i with
  | nil => cases here
  | cons q rest ih =>
    obtain ⟨_, -, chained⟩ := chained
    have own := bytes_length q
    have total : offset (q :: rest) (i + 1) = q.bytes.length + offset rest i := by simp [offset, bytesOf]
    cases i with
    | zero =>
      cases here
      omega
    | succ =>
      have later := ih chained here
      omega

private theorem chained_succ (chained : Chained previous entries) (here : entries[i]? = some q)
    (next : entries[i + 1]? = some p) : p.shared ≤ q.key.length ∧ p.key.take p.shared = q.key.take p.shared := by
  induction entries generalizing previous i with
  | nil => cases here
  | cons _ rest ih =>
    obtain ⟨-, -, chained⟩ := chained
    cases i with
    | zero =>
      cases here
      cases rest with
      | nil => cases next
      | cons =>
        cases next
        exact ⟨chained.1, chained.2.1⟩
    | succ i => exact ih chained here next

end Offsets

/-! ## Entries -/

private theorem getVarint32_of_small (small : b.toNat < 128) (rest : Bytes) :
    getVarint32 (b :: rest) = some (b.toNat, rest) := by
  rw [getVarint32_eq, Varint.decode, if_pos small]
  exact congrArg (fun n => some (n, rest)) (Nat.mod_eq_of_lt (by omega))

private theorem or_lt_128 (small : a ||| b ||| c < 128) : a < 128 ∧ b < 128 ∧ c < 128 := by
  have left : a ||| b ≤ a ||| b ||| c := Nat.left_le_or
  have first : a ≤ a ||| b := Nat.left_le_or
  have second : b ≤ a ||| b := Nat.right_le_or
  have third : c ≤ a ||| b ||| c := Nat.right_le_or
  omega

/-- The fast path of `DecodeEntry` reads the same three numbers. -/
theorem decodeEntry_eq (long : 3 ≤ input.length) (first : getVarint32 input = some (shared, input₁))
    (second : getVarint32 input₁ = some (nonShared, input₂))
    (third : getVarint32 input₂ = some (valueLength, input₃)) :
    decodeEntry input = some (⟨shared, nonShared, valueLength⟩, input₃) := by
  rcases input with _ | ⟨b₀, _ | ⟨b₁, _ | ⟨b₂, input⟩⟩⟩
  iterate 3 · simp at long
  rw [decodeEntry]
  split
  · next small =>
    obtain ⟨small₀, small₁, small₂⟩ := or_lt_128 small
    rw [getVarint32_of_small small₀] at first
    cases first
    rw [getVarint32_of_small small₁] at second
    cases second
    rw [getVarint32_of_small small₂] at third
    cases third
    rfl
  · simp only [first, second, third, Option.bind_eq_bind, Option.bind_some, Option.pure_def]

theorem decodeEntry_bytes {p : Placed} (shared : p.shared < 2 ^ 32) (key : p.key.length < 2 ^ 32)
    (value : p.value.length < 2 ^ 32) (rest : Bytes) :
    decodeEntry (p.bytes ++ rest) =
      some (⟨p.shared, p.key.length - p.shared, p.value.length⟩, p.key.drop p.shared ++ (p.value ++ rest)) := by
  have long : 3 ≤ (p.bytes ++ rest).length := by
    have := header_length p
    have := bytes_length p
    rw [length_append]
    omega
  refine decodeEntry_eq long ?_ (getVarint32_putVarint32 (by omega) _) (getVarint32_putVarint32 value _)
  rw [Placed.bytes, Placed.header]
  simp only [append_assoc]
  exact getVarint32_putVarint32 shared _

/-! ## Positions of an iterator -/

section Positions
variable {block : Block} {entries : List Placed} {starts : Nat → Nat} {i : Nat} {p : Placed} {s s' : DataBlockIter}

/-- The slice of the block that holds the value of an entry. -/
def valueSlice (entries : List Placed) (i : Nat) (p : Placed) : Slice :=
  ⟨offset entries (i + 1) - p.value.length, p.value.length⟩

/-- The iterator has read an entry. -/
structure At (entries : List Placed) (i : Nat) (p : Placed) (s : DataBlockIter) : Prop where
  here : entries[i]? = some p
  current : s.current = offset entries i
  rawKey : s.rawKey = p.key
  value : s.value = valueSlice entries i p

/-- The iterator is about to read an entry, or the end of the block. -/
structure Ready (entries : List Placed) (i : Nat) (s : DataBlockIter) : Prop where
  inside : i ≤ entries.length
  offset : s.nextEntryOffset = offset entries i
  rawKey : ∀ p, entries[i]? = some p → p.shared = 0 ∨ ∃ j q, j + 1 = i ∧ entries[j]? = some q ∧ s.rawKey = q.key

/-- What parsing entries leaves as it was. -/
structure Parsed (block : Block) (s s' : DataBlockIter) : Prop where
  corrupted : s'.corrupted = s.corrupted
  prevEntries : s'.prevEntries = s.prevEntries
  restartIndex : s.restartIndex < block.numRestarts → s'.restartIndex < block.numRestarts

theorem At.inside (at_ : At entries i p s) : i < entries.length := (List.getElem?_eq_some_iff.mp at_.here).1

theorem value_le (here : entries[i]? = some p) : p.value.length ≤ offset entries (i + 1) := by
  have := offset_succ here
  have := bytes_length p
  omega

theorem At.next (at_ : At entries i p s) : s.nextEntryOffset = offset entries (i + 1) := by
  have := value_le at_.here
  rw [nextEntryOffset, at_.value, valueSlice]
  dsimp only
  omega

theorem At.ready (at_ : At entries i p s) : Ready entries (i + 1) s where
  inside := at_.inside
  offset := at_.next
  rawKey := fun _ _ => .inr ⟨i, p, rfl, at_.here, at_.rawKey⟩

private theorem advanceRestartIndex_lt (block : Block) (current : Nat) {r : Nat} (bound : r < block.numRestarts) :
    advanceRestartIndex block current r < block.numRestarts := by
  induction size : block.numRestarts - r using Nat.strongRecOn generalizing r with
  | ind _ ih =>
    rw [advanceRestartIndex]
    split
    · next more => exact ih _ (by omega) more.1 rfl
    · exact bound

namespace Layout

variable (layout : Layout block entries starts)
include layout

theorem input_eq (here : entries[i]? = some p) :
    block.input (offset entries i) = p.bytes ++ bytesOf (entries.drop (i + 1)) := by
  rw [Block.input, layout.data, bytesOf_drop here]

theorem offset_length : offset entries entries.length = block.restartOffset := by
  rw [Blocks.offset_length, layout.size]

theorem offset_lt (inside : i < entries.length) : offset entries i < block.restartOffset := by
  rw [← layout.offset_length]
  exact Blocks.offset_lt inside le_rfl

/-- The numbers in front of an entry fit in 32 bits. -/
theorem lengths (here : entries[i]? = some p) : p.key.length < 2 ^ 32 ∧ p.value.length < 2 ^ 32 := by
  have key := key_length_le layout.chained here
  have value := value_le here
  have inside := (List.getElem?_eq_some_iff.mp here).1
  have bound : offset entries (i + 1) ≤ offset entries entries.length := offset_le inside le_rfl
  have small := layout.small
  rw [layout.offset_length] at bound
  simp only [length_nil] at key
  omega

/-- The bytes an entry shares are those of the key that was read before it. -/
theorem shared_eq (ready : Ready entries i s) (here : entries[i]? = some p) :
    p.shared ≤ s.rawKey.length ∧ p.key.take p.shared = s.rawKey.take p.shared := by
  rcases ready.rawKey p here with none | ⟨j, q, rfl, before, same⟩
  · rw [none]
    exact ⟨Nat.zero_le _, rfl⟩
  · rw [same]
    exact chained_succ layout.chained before here

private theorem shared_le (ready : Ready entries i s) (here : entries[i]? = some p) : p.shared ≤ p.key.length := by
  obtain ⟨_, same⟩ := layout.shared_eq ready here
  have := congrArg length same
  rw [length_take, length_take] at this
  omega

/-- **An entry is parsed where it starts.** -/
theorem parse (ready : Ready entries i s) (here : entries[i]? = some p) :
    ∃ s', parseNextKey block s = (true, s') ∧ At entries i p s' ∧ Parsed block s s' := by
  have inside := (List.getElem?_eq_some_iff.mp here).1
  obtain ⟨keyFits, valueFits⟩ := layout.lengths here
  obtain ⟨_, same⟩ := layout.shared_eq ready here
  have sharedLe := layout.shared_le ready here
  have start := layout.offset_lt inside
  have size := offset_succ here
  have parts := bytes_length p
  have whole : block.restartOffset = offset entries i + (p.bytes ++ bytesOf (entries.drop (i + 1))).length := by
    rw [← bytesOf_drop here, length_drop, ← layout.size]
    omega
  have decoded := decodeEntry_bytes (by omega) keyFits valueFits (bytesOf (entries.drop (i + 1)))
  unfold parseNextKey
  rw [ready.offset, if_neg (by omega), layout.input_eq here, decoded]
  dsimp only
  rw [if_neg (by omega)]
  refine ⟨_, rfl, ⟨here, rfl, ?_, ?_⟩, ⟨rfl, rfl, fun bound => ?_⟩⟩
  · have rest : (p.key.drop p.shared).length = p.key.length - p.shared := length_drop
    rw [take_left' rest, ← same, take_append_drop]
  · simp only [valueSlice, Slice.mk.injEq, and_true, length_append, length_drop] at whole ⊢
    omega
  · dsimp only
    split
    · exact advanceRestartIndex_lt block _ bound
    · exact bound

/-- At the end of the block there is nothing to parse. -/
theorem parse_end (ready : Ready entries entries.length s) : parseNextKey block s =
      (false, { s with current := block.restartOffset, restartIndex := block.numRestarts }) := by
  unfold parseNextKey
  rw [ready.offset, layout.offset_length, if_pos le_rfl]

theorem valid_at (at_ : At entries i p s) : s.valid block = true := by
  rw [valid, at_.current]
  exact decide_eq_true (layout.offset_lt at_.inside)

theorem starts_le (bound : r < block.numRestarts) : starts r ≤ entries.length := by
  rcases layout.bounded r bound with zero | less
  · rw [zero]
    exact Nat.zero_le _
  · exact less.le

theorem starts_mono (le : r ≤ r') (bound : r' < block.numRestarts) : starts r ≤ starts r' := by
  induction le with
  | refl => exact le_rfl
  | step le ih =>
    have := layout.increasing _ bound
    exact (ih (by omega)).trans this.le

/-- After seeking to a restart point, its entry is read next. -/
theorem ready_restart (s : DataBlockIter)
    (bound : r < block.numRestarts) : Ready entries (starts r) (s.seekToRestartPoint block r) where
  inside := layout.starts_le bound
  offset := layout.restartPoint r bound
  rawKey := fun p here => .inl (layout.restarted r bound p here)

end Layout

end Positions

/-! ## Opening a block -/

namespace Block
variable {data : Bytes}

/-- `num_buckets_` of the hash index, in front of the footer. -/
def numBuckets (data : Bytes) : Nat := LittleEndian.decode ((data.drop (data.length - 4 - 2)).take 2)

/-- The block is an error, or its parts end where the data ends. -/
def FitsExactly (data : Bytes) : Prop :=
  (new data).size = 0 ∨ (new data).size = data.length ∧ (new data).restartOffset + 4 * (new data).numRestarts +
    (if hasHashIndex data then numBuckets data + 2 else 0) + 4 = data.length

/-- The restart points, counted in 32 bits, fit in front of the footer or of the buckets. -/
def RestartsPass (data : Bytes) : Prop :=
  let restarts := 4 * decodeNumRestarts data % 2 ^ 32
  if hasHashIndex data then 6 ≤ data.length ∧ restarts ≤ (data.length - 6 + 2 ^ 16 - numBuckets data) % 2 ^ 16
  else restarts + 4 ≤ data.length

private theorem mapOffset_eq (hash : hasHashIndex data = true) (room : 6 ≤ data.length) :
    data.length ≤ 2 ^ 16 ∧ mapOffset data ((data.length - 4) % 2 ^ 16) =
      (data.length - 6 + 2 ^ 16 - numBuckets data) % 2 ^ 16 := by
  have small : data.length ≤ 2 ^ 16 := by
    by_contra large
    rw [hasHashIndex, if_pos (by simpa [kMaxBlockSizeSupportedByHashIndex] using large)] at hash
    cases hash
  refine ⟨small, ?_⟩
  unfold mapOffset numBuckets
  rw [Nat.mod_eq_of_lt (show data.length - 4 < 2 ^ 16 by omega)]
  dsimp only
  congr 1
  omega

private theorem numBuckets_lt (data : Bytes) : numBuckets data < 2 ^ 16 :=
  (decode_lt _).trans_le (Nat.pow_le_pow_right (n := 256) (j := 2) (by decide) (length_take_le 2 _))

/-- **Opening a block is safe** exactly when restart points that pass take less than 4 GiB, and
the buckets of the hash index then fit too. -/
theorem opened_block_fits (small : data.length < 2 ^ 32) : FitsExactly data ↔
    (RestartsPass data → decodeNumRestarts data < 2 ^ 30 ∧
      (hasHashIndex data = true → numBuckets data + 6 ≤ data.length)) := by
  unfold FitsExactly RestartsPass new
  have buckets := numBuckets_lt data
  generalize decodeNumRestarts data = restarts
  by_cases short : data.length < 4
  · rw [if_pos short]
    split <;> simp <;> omega
  cases hash : hasHashIndex data with
  | true =>
    by_cases room : 6 ≤ data.length
    · obtain ⟨bound, isOffset⟩ := mapOffset_eq hash room
      simp only [short, if_false, if_true, true_implies, isOffset, show ¬data.length < 4 + 2 by omega]
      split_ifs <;> omega
    · simp [short, show data.length < 4 + 2 by omega, room]
  | false =>
    simp only [short, if_false, Bool.false_eq_true, false_implies, and_true]
    split_ifs <;> omega

/-- A block of 2^30 restart points in eight bytes is opened. -/
theorem wrapped_restarts_opened :
    let data : Bytes := [0, 0, 0, 0, 0, 0, 0, 64]
    data.length < 2 ^ 32 ∧ (new data).size = 8 ∧ ¬FitsExactly data := by
  unfold FitsExactly
  decide

/-- A block with an entry, a restart point and a hash index of one bucket. -/
theorem hashed_block_fits : FitsExactly [0, 1, 1, 7, 8, 0, 0, 0, 0, 0, 1, 0, 1, 0, 0, 128] :=
  (opened_block_fits (by decide)).mpr fun _ => ⟨by decide, fun _ => by decide⟩

end Block

end Rocksdb.Blocks
