import Rocksdb.BlockBuilder
import Rocksdb.Lib.Cursor

/-! Data blocks of tables: how they are read (`table/block_based/block.h`,
`block.cc`). An iterator has no global sequence number, pads no timestamps and
verifies no checksums of entries. Keys are compared by a rank in a linear order. -/
namespace Rocksdb.Blocks
open Coding Lib Lib.LittleEndian

/-- `DecodeFixed32`, at an offset. -/
def decodeFixed32 (data : Bytes) (offset : Nat) : Nat := LittleEndian.decode ((data.drop offset).take 4)

/-! ## Blocks -/

structure Block where
  data : Bytes
  /-- Zero marks an error. -/
  size : Nat
  restartOffset : Nat
  numRestarts : Nat
  deriving DecidableEq

namespace Block

def blockFooter (data : Bytes) : Nat := decodeFixed32 data (data.length - 4)

/-- `NumRestarts`. A large block cannot have a hash index. -/
def decodeNumRestarts (data : Bytes) : Nat :=
  if data.length > kMaxBlockSizeSupportedByHashIndex then blockFooter data
  else blockFooter data &&& (1 <<< 31 - 1)

/-- `IndexType`: whether there is a hash index. -/
def hasHashIndex (data : Bytes) : Bool :=
  if data.length > kMaxBlockSizeSupportedByHashIndex then false else blockFooter data &&& 1 <<< 31 ≠ 0

/-- The `map_offset` of `DataBlockHashIndex::Initialize`. -/
def mapOffset (data : Bytes) (size : Nat) : Nat :=
  let numBuckets := LittleEndian.decode ((data.drop (size - 2)).take 2)
  (size + 2 ^ 16 - 2 - numBuckets) % 2 ^ 16

/-- `Block::Block`. Offsets are of 32 bits. -/
def new (data : Bytes) : Block :=
  if data.length < 4 then { data, size := 0, restartOffset := 0, numRestarts := 0 }
  else
    let numRestarts := decodeNumRestarts data
    if hasHashIndex data then
      if data.length < 4 + 2 then { data, size := 0, restartOffset := 0, numRestarts }
      else
        let mapOffset := mapOffset data ((data.length - 4) % 2 ^ 16)
        let restartOffset := ((mapOffset : Int) - numRestarts * 4) % 2 ^ 32 |>.toNat
        { data, size := if restartOffset > mapOffset then 0 else data.length, restartOffset, numRestarts }
    else
      let restartOffset := ((data.length : Int) - (1 + numRestarts) * 4) % 2 ^ 32 |>.toNat
      { data, size := if restartOffset > data.length - 4 then 0 else data.length, restartOffset, numRestarts }

/-- `GetRestartPoint`. -/
def getRestartPoint (block : Block) (index : Nat) : Nat := decodeFixed32 block.data (block.restartOffset + index * 4)

/-- What can be read from an offset: restarts come right after the data. -/
def input (block : Block) (offset : Nat) : Bytes := (block.data.take block.restartOffset).drop offset

end Block

/-- What `DecodeEntry` reads. -/
structure Entry where
  shared : Nat
  nonShared : Nat
  valueLength : Nat
  deriving DecidableEq

/-- `DecodeEntry`, and what is left of the input. -/
def decodeEntry : Bytes → Option (Entry × Bytes)
  | b₀ :: b₁ :: b₂ :: rest =>
    if b₀.toNat ||| b₁.toNat ||| b₂.toNat < 128 then some (⟨b₀.toNat, b₁.toNat, b₂.toNat⟩, rest)
    else do
      let (shared, input) ← getVarint32 (b₀ :: b₁ :: b₂ :: rest)
      let (nonShared, input) ← getVarint32 input
      let (valueLength, input) ← getVarint32 input
      return (⟨shared, nonShared, valueLength⟩, input)
  | _ => none

/-! ## Iterators -/

/-- A slice of the block. -/
structure Slice where
  offset : Nat
  size : Nat
  deriving DecidableEq

/-- A key is held by its bytes, wherever they are stored. -/
structure CachedPrevEntry where
  offset : Nat
  key : Bytes
  value : Slice
  deriving DecidableEq

structure DataBlockIter where
  restartIndex : Nat
  current : Nat
  rawKey : Bytes := []
  key : Bytes := []
  value : Slice := ⟨0, 0⟩
  /-- `status_` is a corruption. -/
  corrupted : Bool := false
  prevEntries : List CachedPrevEntry := []
  prevEntriesIdx : Int := -1
  deriving DecidableEq

namespace DataBlockIter

/-- `InitializeBase`. -/
def initial (block : Block) : DataBlockIter :=
  { current := block.restartOffset, restartIndex := block.numRestarts }

/-- `Block::NewDataIterator`; no result where the iterator is invalid for good. -/
def newDataIterator (block : Block) : Option DataBlockIter :=
  if block.size < 2 * 4 then none else if block.numRestarts = 0 then none else some (initial block)

variable (block : Block)

section Moves
variable (s : DataBlockIter)

def valid : Bool := s.current < block.restartOffset

def nextEntryOffset : Nat := s.value.offset + s.value.size

def corruptionError : DataBlockIter :=
  { s with
    current := block.restartOffset
    restartIndex := block.numRestarts
    corrupted := true
    rawKey := []
    value := ⟨0, 0⟩ }

def seekToRestartPoint (index : Nat) : DataBlockIter :=
  { s with rawKey := [], restartIndex := index, value := ⟨block.getRestartPoint index, 0⟩ }

/-- The loop of `ParseNextKey` over restart points. -/
def advanceRestartIndex (current restartIndex : Nat) : Nat :=
  if restartIndex + 1 < block.numRestarts ∧ block.getRestartPoint (restartIndex + 1) < current then
    advanceRestartIndex current (restartIndex + 1)
  else restartIndex
termination_by block.numRestarts - restartIndex

/-- `ParseNextKey`, and whether there was one. -/
def parseNextKey : Bool × DataBlockIter :=
  let current := s.nextEntryOffset
  if current ≥ block.restartOffset then
    (false, { s with current := block.restartOffset, restartIndex := block.numRestarts })
  else
    match decodeEntry (block.input current) with
    | none => (false, corruptionError block { s with current })
    | some (entry, rest) =>
      if s.rawKey.length < entry.shared then (false, corruptionError block { s with current })
      else
        (true, { s with
          current
          rawKey := s.rawKey.take entry.shared ++ rest.take entry.nonShared
          value := ⟨block.restartOffset - rest.length + entry.nonShared, entry.valueLength⟩
          restartIndex := if entry.shared = 0 then advanceRestartIndex block current s.restartIndex
            else s.restartIndex })

def nextImpl : DataBlockIter := (parseNextKey block s).2

end Moves

theorem decodeEntry_length (decoded : decodeEntry input = some (entry, rest)) : rest.length < input.length := by
  unfold decodeEntry at decoded
  split at decoded
  · split at decoded
    · cases decoded
      simp only [List.length_cons]
      omega
    · obtain ⟨⟨_, _⟩, first, decoded⟩ := Option.bind_eq_some_iff.mp decoded
      obtain ⟨⟨_, _⟩, second, decoded⟩ := Option.bind_eq_some_iff.mp decoded
      obtain ⟨⟨_, _⟩, third, decoded⟩ := Option.bind_eq_some_iff.mp decoded
      cases decoded
      exact (getVarint32_length third).trans ((getVarint32_length second).trans (getVarint32_length first))
  · cases decoded

/-- Every entry that is parsed ends behind where it starts. -/
theorem parseNextKey_progress (parsed : parseNextKey block s = (true, s')) :
    s.nextEntryOffset < block.restartOffset ∧ s.nextEntryOffset < s'.nextEntryOffset := by
  unfold parseNextKey at parsed
  dsimp only at parsed
  split at parsed
  · cases parsed
  · next inside =>
    refine ⟨Nat.lt_of_not_le inside, ?_⟩
    split at parsed
    · cases parsed
    · next decoded =>
      split at parsed
      · cases parsed
      · cases parsed
        have shorter := decodeEntry_length decoded
        simp only [Block.input, List.length_drop, List.length_take] at shorter
        simp only [nextEntryOffset] at inside shorter ⊢
        omega

/-- `CheckAndDecodeEntry`. The lengths are added in 32 bits. -/
def checkAndDecodeEntry (input : Bytes) : Option (Entry × Bytes) := do
  let (entry, rest) ← decodeEntry input
  if rest.length % 2 ^ 32 < (entry.nonShared + entry.valueLength) % 2 ^ 32 then none else some (entry, rest)

/-- `ParseNextKey` with `CheckAndDecodeEntry`, which refuses more entries than `DecodeEntry` and changes none. -/
def checkAndParseNextKey (s : DataBlockIter) : Bool × DataBlockIter :=
  if s.nextEntryOffset < block.restartOffset ∧ checkAndDecodeEntry (block.input s.nextEntryOffset) = none then
    (false, corruptionError block { s with current := s.nextEntryOffset })
  else parseNextKey block s

/-- The next entry is read as it should be: the key fragment and the value of an entry that is
accepted follow one another before the restarts, and an entry that shares more than there is, does
not fit or does not decode is corrupt. -/
def ReadsInside (s : DataBlockIter) : Prop :=
  let read := checkAndParseNextKey block s
  let corrupt := (false, corruptionError block { s with current := s.nextEntryOffset })
  (decodeEntry (block.input s.nextEntryOffset) = none → read = corrupt) ∧
    ∀ entry rest, decodeEntry (block.input s.nextEntryOffset) = some (entry, rest) →
      if entry.shared ≤ s.rawKey.length ∧ entry.nonShared + entry.valueLength ≤ rest.length then
        ∃ s', read = (true, s') ∧ s'.rawKey = s.rawKey.take entry.shared ++ rest.take entry.nonShared ∧
          s.nextEntryOffset + entry.nonShared < s'.value.offset ∧ s'.value.size = entry.valueLength ∧
          s'.nextEntryOffset ≤ block.restartOffset
      else read = corrupt

/-- The lengths of an entry wrap around to a sum that fits, and nothing else refuses it. -/
def Wraps (s : DataBlockIter) (entry : Entry) (rest : Bytes) : Prop :=
  2 ^ 32 ≤ entry.nonShared + entry.valueLength ∧ (entry.nonShared + entry.valueLength) % 2 ^ 32 ≤ rest.length ∧
    entry.shared ≤ s.rawKey.length

/-- **Checked parsing stays inside the block** exactly when the next entry is not one whose lengths
wrap around to a sum that fits. -/
theorem checked_entry_inside {s : DataBlockIter} (inside : s.nextEntryOffset < block.restartOffset)
    (small : block.restartOffset < 2 ^ 32) :
    ReadsInside block s ↔
      ∀ entry rest, decodeEntry (block.input s.nextEntryOffset) = some (entry, rest) → ¬Wraps s entry rest := by
  unfold ReadsInside
  rcases decoded : decodeEntry (block.input s.nextEntryOffset) with _ | ⟨entry, rest⟩
  · simp [checkAndParseNextKey, checkAndDecodeEntry, inside, decoded]
  have shorter := decodeEntry_length decoded
  simp only [Block.input, List.length_drop, List.length_take] at shorter
  have checked : checkAndDecodeEntry (block.input s.nextEntryOffset) = none ↔
      rest.length < (entry.nonShared + entry.valueLength) % 2 ^ 32 := by
    simp [checkAndDecodeEntry, decoded]
    omega
  have readDef : checkAndParseNextKey block s =
      if rest.length < (entry.nonShared + entry.valueLength) % 2 ^ 32 ∨ s.rawKey.length < entry.shared then
        (false, corruptionError block { s with current := s.nextEntryOffset })
      else (true, { s with
        current := s.nextEntryOffset
        rawKey := s.rawKey.take entry.shared ++ rest.take entry.nonShared
        value := ⟨block.restartOffset - rest.length + entry.nonShared, entry.valueLength⟩
        restartIndex := if entry.shared = 0 then advanceRestartIndex block s.nextEntryOffset s.restartIndex
          else s.restartIndex }) := by
    simp only [checkAndParseNextKey, checked, inside, true_and, parseNextKey, not_le.mpr inside, if_false,
      decoded, ite_or]
  rw [readDef]
  constructor
  · rintro ⟨-, reads⟩ _ _ ⟨⟩ ⟨wide, fits, shares⟩
    have read := reads entry rest rfl
    rw [if_neg (by omega), if_neg (by omega)] at read
    cases read
  · refine fun passes => ⟨nofun, ?_⟩
    rintro _ _ ⟨⟩
    have noWrap := passes entry rest rfl
    unfold Wraps at noWrap
    split
    · rw [if_neg (by omega)]
      refine ⟨_, rfl, rfl, ?_, rfl, ?_⟩
      · dsimp only
        omega
      · simp only [nextEntryOffset]
        omega
    · rw [if_pos (by omega)]

/-- An entry without a shared part, with a key fragment of `2 ^ 32 - 1` bytes and a value of one byte. -/
def overflowing : Block := .new [0, 255, 255, 255, 255, 15, 1, 0, 0, 0, 0, 1, 0, 0, 0]

/-- The lengths add up to zero, and the entry is accepted with a value outside the block. -/
theorem overflowing_accepted :
    overflowing.restartOffset = 7 ∧ Prod.map id value
      (checkAndParseNextKey overflowing (seekToRestartPoint overflowing (initial overflowing) 0)) =
        (true, ⟨2 ^ 32 + 6, 1⟩) := by
  decide +kernel

/-- A key fragment of `2 ^ 32 - 1` bytes and a value of a hundred: the sum wraps around and does not fit. -/
theorem checked_entry_inside_hundred : ReadsInside ⟨[0, 255, 255, 255, 255, 15, 100, 8], 8, 8, 1⟩
    ⟨0, 0, [], [], ⟨0, 0⟩, false, [], -1⟩ := by
  have entries : decodeEntry [0, 255, 255, 255, 255, 15, 100, 8] = some (⟨0, 2 ^ 32 - 1, 100⟩, [8]) := by decide
  refine (checked_entry_inside _ (by decide) (by decide)).mpr fun entry rest decoded => ?_
  cases entries.symm.trans decoded
  exact fun wraps => absurd wraps.2.1 (by decide)

private theorem parsed_of_valid (valid : valid block (nextImpl block s) = true) :
    parseNextKey block s = (true, nextImpl block s) := by
  unfold nextImpl DataBlockIter.valid at *
  rcases parsed : parseNextKey block s with ⟨ok, _⟩
  cases ok with
  | true => rfl
  | false =>
    rw [parsed] at valid
    unfold parseNextKey at parsed
    dsimp only at parsed
    split at parsed
    · cases parsed
      simp at valid
    · split at parsed
      · cases parsed
        simp [corruptionError] at valid
      · split at parsed
        · cases parsed
          simp [corruptionError] at valid
        · cases parsed

/-! ### Backwards -/

/-- The loop of `PrevImpl` back to a restart point before an entry. -/
def restartBefore (original : Nat) : Nat → Option Nat
  | 0 => if block.getRestartPoint 0 ≥ original then none else some 0
  | index + 1 => if block.getRestartPoint (index + 1) ≥ original then restartBefore original index else some (index + 1)

/-- The loop of `PrevImpl` up to the entry, which caches what it reads. -/
def prevLoop (original : Nat) (s : DataBlockIter) : DataBlockIter :=
  match _parsed : parseNextKey block s with
  | (false, s) => s
  | (true, s) =>
    let s' := { s with prevEntries := s.prevEntries ++ [⟨s.current, s.rawKey, s.value⟩] }
    if s.nextEntryOffset < original then prevLoop original s' else s'
termination_by block.restartOffset - s.nextEntryOffset
decreasing_by
  have := parseNextKey_progress block _parsed
  simp only [nextEntryOffset] at this ⊢
  omega

def prevImpl (s : DataBlockIter) : DataBlockIter :=
  let cached := s.prevEntries.getD (s.prevEntriesIdx - 1).toNat ⟨0, [], ⟨0, 0⟩⟩
  if s.prevEntriesIdx > 0 ∧ (s.prevEntries[s.prevEntriesIdx.toNat]?).map CachedPrevEntry.offset = some s.current then
    { s with
      prevEntriesIdx := s.prevEntriesIdx - 1
      current := cached.offset
      rawKey := cached.key
      value := cached.value }
  else
    let s := { s with prevEntriesIdx := -1, prevEntries := [] }
    let original := s.current
    match restartBefore block original s.restartIndex with
    | none => { s with current := block.restartOffset, restartIndex := block.numRestarts }
    | some index =>
      let s := prevLoop block original (seekToRestartPoint block s index)
      { s with prevEntriesIdx := (s.prevEntries.length : Int) - 1 }

/-! ### Seeking -/

def seekToFirstImpl (s : DataBlockIter) : DataBlockIter := (parseNextKey block (seekToRestartPoint block s 0)).2

/-- The loop of `SeekToLastImpl`. -/
def seekToLastLoop (s : DataBlockIter) : DataBlockIter :=
  match _parsed : parseNextKey block s with
  | (false, s) => s
  | (true, s) => if s.nextEntryOffset < block.restartOffset then seekToLastLoop s else s
termination_by block.restartOffset - s.nextEntryOffset
decreasing_by
  have := parseNextKey_progress block _parsed
  omega

def seekToLastImpl (s : DataBlockIter) : DataBlockIter :=
  seekToLastLoop block (seekToRestartPoint block s (block.numRestarts - 1))

section Compare
variable {κ : Type} [LinearOrder κ] (rank : Bytes → κ)

/-- `CompareCurrentKey`. -/
def compareCurrentKey (s : DataBlockIter) (target : Bytes) : Ordering := compare (rank s.rawKey) (rank target)

/-- The loop of `BinarySeek`: the last restart point it finds and whether its key is the target,
unless an entry is bad. -/
def binarySeekLoop (target : Bytes) (s : DataBlockIter) (left right : Int) : DataBlockIter × Option (Int × Bool) :=
  if left < right then
    let mid := left + (right - left + 1) / 2
    match decodeEntry (block.input (block.getRestartPoint mid.toNat)) with
    | none => (corruptionError block s, none)
    | some (entry, rest) =>
      if entry.shared ≠ 0 then (corruptionError block s, none)
      else
        let s := { s with rawKey := rest.take entry.nonShared }
        match compareCurrentKey rank s target with
        | .lt => binarySeekLoop target s mid right
        | .gt => binarySeekLoop target s left (mid - 1)
        | .eq => (s, some (mid, true))
  else (s, some (left, false))
termination_by (right - left).toNat
decreasing_by all_goals omega

/-- `BinarySeek`: the index, and whether the linear scan is skipped. -/
def binarySeek (target : Bytes) (s : DataBlockIter) : DataBlockIter × Option (Nat × Bool) :=
  if block.restartOffset = 0 then (s, none)
  else
    match binarySeekLoop block rank target s (-1) ((block.numRestarts : Int) - 1) with
    | (s, none) => (s, none)
    | (s, some (left, skip)) => if left = -1 then (s, some (0, true)) else (s, some (left.toNat, skip))

/-- The loop of `FindKeyAfterBinarySeek`. -/
def scanLoop (target : Bytes) (maxOffset : Nat) (s : DataBlockIter) : DataBlockIter :=
  if _valid : valid block (nextImpl block s) then
    if (nextImpl block s).current = maxOffset then nextImpl block s
    else if compareCurrentKey rank (nextImpl block s) target ≠ .lt then nextImpl block s
    else scanLoop target maxOffset (nextImpl block s)
  else nextImpl block s
termination_by block.restartOffset - s.nextEntryOffset
decreasing_by
  have := parseNextKey_progress block (parsed_of_valid block _valid)
  omega

def findKeyAfterBinarySeek (target : Bytes) (index : Nat) (skipLinearScan : Bool) (s : DataBlockIter) :
    DataBlockIter :=
  let s := nextImpl block (seekToRestartPoint block s index)
  if skipLinearScan then s
  else
    let maxOffset := if index + 1 < block.numRestarts then block.getRestartPoint (index + 1) else 2 ^ 32 - 1
    scanLoop block rank target maxOffset s

def seekImpl (target : Bytes) (s : DataBlockIter) : DataBlockIter :=
  match binarySeek block rank target s with
  | (s, none) => s
  | (s, some (index, skip)) => findKeyAfterBinarySeek block rank target index skip s

/-- The loop of `SeekForPrevImpl`, for so many rounds. -/
def seekForPrevLoop (target : Bytes) : Nat → DataBlockIter → DataBlockIter
  | 0, s => s
  | fuel + 1, s =>
    if valid block s ∧ compareCurrentKey rank s target = .gt then seekForPrevLoop target fuel (prevImpl block s) else s

def seekForPrevImpl (target : Bytes) (s : DataBlockIter) : DataBlockIter :=
  match binarySeek block rank target s with
  | (s, none) => s
  | (s, some (index, skip)) =>
    let s := findKeyAfterBinarySeek block rank target index skip s
    if ¬ valid block s then if s.corrupted then s else seekToLastImpl block s
    -- There are no more entries than bytes.
    else seekForPrevLoop block rank target block.restartOffset s

/-- `UpdateKey`. -/
def updateKey (s : DataBlockIter) : DataBlockIter := if valid block s then { s with key := s.rawKey } else s

/-- A call of the iterator. -/
def step (s : DataBlockIter) : Cursor.Call Bytes → DataBlockIter
  | .seekToFirst => updateKey block (seekToFirstImpl block s)
  | .seekToLast => updateKey block (seekToLastImpl block s)
  | .seek target => updateKey block (seekImpl block rank target s)
  | .seekForPrev target => updateKey block (seekForPrevImpl block rank target s)
  | .next => updateKey block (nextImpl block s)
  | .prev => updateKey block (prevImpl block s)

end Compare

/-- The key and the value that can be read from the iterator, if it is valid. -/
def entry (s : DataBlockIter) : Option (Bytes × Bytes) :=
  if valid block s then some (s.key, (block.data.drop s.value.offset).take s.value.size) else none

end DataBlockIter

end Rocksdb.Blocks
