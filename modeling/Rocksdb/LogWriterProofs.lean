import Rocksdb.LogLayout
import Mathlib.Tactic.Linarith

/-! What the writer of a log produces: every record becomes a row of placed
records whose types spell it and whose payloads are its bytes or those of the
compressor. -/
namespace Rocksdb.LogWriterProofs
open Lib.LittleEndian Lib.Loop LogFormat LogWriter LogLayout List

variable {ζ : Type}

/-- The placed records of one record, or of the rest of one, between two
offsets. -/
inductive Laid (recycle : Bool) : Bool → Nat → List Placed → Nat → Prop where
  | last {atBegin : Bool} {o e : Nat} {p : Placed} (fits : p.Fits o e)
      (type : p.type = fragmentType recycle atBegin true) : Laid recycle atBegin o [p] e
  | more {atBegin : Bool} {o m e : Nat} {p : Placed} {ps : List Placed} (fits : p.Fits o m)
      (type : p.type = fragmentType recycle atBegin false) (rest : Laid recycle false m ps e) :
      Laid recycle atBegin o (p :: ps) e

def bytesOf (crc32c : Crc32c) (logNumber : Nat) (ps : List Placed) : Bytes :=
  ps.flatMap (Placed.bytes crc32c logNumber)

def payloadOf (ps : List Placed) : Bytes := ps.flatMap Placed.payload

@[simp] theorem bytesOf_nil (crc32c : Crc32c) (logNumber : Nat) : bytesOf crc32c logNumber [] = [] := rfl

@[simp] theorem bytesOf_cons (crc32c : Crc32c) (logNumber : Nat) (p : Placed) (ps : List Placed) :
    bytesOf crc32c logNumber (p :: ps) = p.bytes crc32c logNumber ++ bytesOf crc32c logNumber ps := rfl

@[simp] theorem payloadOf_nil : payloadOf [] = [] := rfl

@[simp] theorem payloadOf_cons (p : Placed) (ps : List Placed) :
    payloadOf (p :: ps) = p.payload ++ payloadOf ps := rfl

/-- What the compressor will still return, piece by piece; no piece is empty. -/
inductive Coming (compress : StreamingCompress ζ) (slice : Bytes) : Option ζ → Int → List Bytes → Prop where
  | done {state : Option ζ} : Coming compress slice state 0 []
  | more {state state' : ζ} {remaining remaining' : Int} {piece : Bytes} {pieces : List Bytes}
      (positive : 0 < remaining) (got : compress.compress state slice = (remaining', piece, state'))
      (fine : 0 ≤ remaining') (nonempty : piece ≠ []) (later : Coming compress slice (some state') remaining' pieces) :
      Coming compress slice (some state) remaining (piece :: pieces)

variable (options : LogWriter.Options ζ)

/-- Some placed records take the writer from one state to another. -/
structure Emitted (w : Writer ζ) (atBegin : Bool) (payload : Bytes)
    (ps : List Placed) (w' : Writer ζ) : Prop where
  dest : w'.dest = w.dest ++ bytesOf options.crc32c options.logNumber ps
  laid : Laid options.recycleLogFiles atBegin w.blockOffset ps w'.blockOffset
  payload : payloadOf ps = payload
  recorded : w'.recordedCfToTsSz = w.recordedCfToTsSz
  compress : w'.compress.isSome = w.compress.isSome
  pads : ∀ p ∈ ps, p.pad < options.headerSize
  tail : w.compress = none → ∀ p ∈ ps.tail, p.pad = 0
  atEdge : w.compress = none → w.blockOffset = kBlockSize → ∀ p ∈ ps, p.pad = 0

/-- The room for a payload at an offset, after the block is switched if it must
be. -/
def available (o : Nat) : Nat :=
  if kBlockSize - o < options.headerSize then kBlockSize - options.headerSize
  else kBlockSize - o - options.headerSize

theorem headerSizeOf_fragmentType (recycle atBegin atEnd : Bool) :
    headerSizeOf (fragmentType recycle atBegin atEnd) = if recycle then kRecyclableHeaderSize else kHeaderSize := by
  cases recycle <;> cases atBegin <;> cases atEnd <;> rfl

theorem headerSize_bounds : kHeaderSize ≤ options.headerSize ∧ options.headerSize ≤ kRecyclableHeaderSize := by
  unfold Options.headerSize kHeaderSize kRecyclableHeaderSize
  split <;> omega

/-- The writer before a physical record is emitted. -/
def switched (w : Writer ζ) : Writer ζ :=
  if kBlockSize - w.blockOffset < options.headerSize then switchBlock w else w

/-- The placed record that is emitted next. -/
def placedAt (w : Writer ζ) (t : RecordType) (payload : Bytes) : Placed :=
  ⟨if kBlockSize - w.blockOffset < options.headerSize then kBlockSize - w.blockOffset else 0, t, payload⟩

private theorem emit_dest (w : Writer ζ) (t : RecordType) (payload : Bytes) :
    (emitPhysicalRecord options (switched options w) t payload).dest =
      w.dest ++ (placedAt options w t payload).bytes options.crc32c options.logNumber := by
  unfold emitPhysicalRecord switched placedAt Placed.bytes switchBlock
  split <;> simp [zeros]

variable {options} {w : Writer ζ}

theorem emit_blockOffset (header : headerSizeOf t = options.headerSize) :
    (emitPhysicalRecord options (switched options w) t payload).blockOffset =
      (switched options w).blockOffset + (options.headerSize + payload.length) := by
  rw [← header]
  rfl

theorem emit_fits (inBlock : w.blockOffset ≤ kBlockSize) (header : headerSizeOf t = options.headerSize)
    (room : payload.length ≤ available options w.blockOffset) :
    (placedAt options w t payload).Fits w.blockOffset
      (emitPhysicalRecord options (switched options w) t payload).blockOffset := by
  have size : (placedAt options w t payload).size = options.headerSize + payload.length := by
    rw [Placed.size, placedAt, header]
  have bounds := headerSize_bounds options
  unfold available at room
  unfold kRecyclableHeaderSize at bounds
  unfold Placed.Fits
  rw [size]
  rw [emit_blockOffset header]
  unfold switched placedAt switchBlock
  have block : 11 ≤ kBlockSize := by decide
  split at room
  · next short =>
    rw [if_pos short, if_pos short]
    exact ⟨by dsimp only; omega, .inr ⟨by dsimp only; omega, by dsimp only; omega⟩⟩
  · next long =>
    rw [if_neg long, if_neg long]
    exact ⟨by omega, .inl ⟨rfl, rfl⟩⟩

theorem emit_offset_of_full (inBlock : w.blockOffset ≤ kBlockSize) (header : headerSizeOf t = options.headerSize)
    (full : payload.length = available options w.blockOffset) :
    (emitPhysicalRecord options (switched options w) t payload).blockOffset = kBlockSize := by
  have bounds := headerSize_bounds options
  unfold available at full
  unfold kRecyclableHeaderSize at bounds
  have block : 11 ≤ kBlockSize := by decide
  rw [emit_blockOffset header]
  unfold switched switchBlock
  split at full
  · next short =>
    rw [if_pos short]
    dsimp only
    omega
  · next long =>
    rw [if_neg long]
    omega

private theorem pad_lt (options : LogWriter.Options ζ) (w : Writer ζ) (t : RecordType) (payload : Bytes) :
    (placedAt options w t payload).pad < options.headerSize := by
  have bounds := headerSize_bounds options
  unfold kHeaderSize at bounds
  unfold placedAt
  dsimp only
  split <;> omega

/-- How many bytes of a piece fit into the block. -/
def fragmentLength (options : LogWriter.Options ζ) (w : Writer ζ) (left : Bytes) : Nat :=
  if left.length < available options w.blockOffset then left.length else available options w.blockOffset

/-- The writer after the next fragment of a piece. -/
def afterFragment (options : LogWriter.Options ζ) (a : Adding ζ) (left : Bytes) (remaining : Int)
    (state : Option ζ) : Writer ζ :=
  { emitPhysicalRecord options (switched options a.writer)
      (fragmentType options.recycleLogFiles a.atBegin
        (decide (left.length = fragmentLength options a.writer left ∧ remaining = 0)))
      (left.take (fragmentLength options a.writer left)) with compress := state }

private theorem addRecordRound_eq (chunk : compressIfNeeded options slice a (switched options a.writer) =
      .chunk { switched options a.writer with compress := state } left remaining) :
    addRecordRound options slice a = if left.drop (fragmentLength options a.writer left) ≠ [] ∨ 0 < remaining then
        .again ⟨afterFragment options a left remaining state, left.drop (fragmentLength options a.writer left),
          false, false, remaining⟩
      else .leave (.ok, afterFragment options a left remaining state) := by
  have room : kBlockSize - (switched options a.writer).blockOffset - options.headerSize =
      available options a.writer.blockOffset := by
    unfold switched available switchBlock
    split <;> rfl
  unfold switched at chunk room
  unfold addRecordRound
  simp only [chunk, room]
  rfl

/-- One fragment is emitted, and then what is left. -/
theorem emitted_fragment (inBlock : a.writer.blockOffset ≤ kBlockSize) (nonneg : 0 ≤ remaining)
    (chunk : compressIfNeeded options slice a (switched options a.writer) =
      .chunk { switched options a.writer with compress := state } left remaining)
    (same : state.isSome = a.writer.compress.isSome) (plain : state = none → remaining = 0)
    (finished : remaining = 0 → rest = [])
    (later : left.drop (fragmentLength options a.writer left) ≠ [] ∨ 0 < remaining →
      ∃ w' ps, Returns (addRecordRound options slice)
          ⟨afterFragment options a left remaining state, left.drop (fragmentLength options a.writer left),
            false, false, remaining⟩ (.ok, w') ∧
        Emitted options (afterFragment options a left remaining state) false
          (left.drop (fragmentLength options a.writer left) ++ rest) ps w') :
    ∃ w' ps, Returns (addRecordRound options slice) a (.ok, w') ∧
      Emitted options a.writer a.atBegin (left ++ rest) ps w' := by
  have round := addRecordRound_eq chunk
  set n := fragmentLength options a.writer left with isLength
  set t := fragmentType options.recycleLogFiles a.atBegin (decide (left.length = n ∧ remaining = 0)) with isType
  have header : headerSizeOf t = options.headerSize := headerSizeOf_fragmentType ..
  have taken : (left.take n).length = n := by
    rw [length_take, isLength, fragmentLength]
    split <;> omega
  have room : (left.take n).length ≤ available options a.writer.blockOffset := by
    rw [taken, isLength, fragmentLength]
    split <;> omega
  have fits := emit_fits inBlock header room
  have dest := emit_dest options a.writer t (left.take n)
  have recorded : (afterFragment options a left remaining state).recordedCfToTsSz = a.writer.recordedCfToTsSz := by
    unfold afterFragment emitPhysicalRecord switched switchBlock
    split <;> rfl
  by_cases continues : left.drop n ≠ [] ∨ 0 < remaining
  · obtain ⟨w', ps, returns, emitted⟩ := later continues
    rw [if_pos continues] at round
    have atEnd : decide (left.length = n ∧ remaining = 0) = false := by
      refine decide_eq_false fun ⟨whole, zero⟩ => ?_
      rcases continues with more | positive
      · exact more (drop_eq_nil_of_le whole.le)
      · omega
    -- a plain record goes on only when its block is full
    have atEdge (isPlain : a.writer.compress = none) :
        (afterFragment options a left remaining state).blockOffset = kBlockSize := by
      have stateNone : state = none := by simpa [isPlain] using same
      refine emit_offset_of_full inBlock header ?_
      rw [taken]
      have more : left.drop n ≠ [] := continues.resolve_right (by rw [plain stateNone]; decide)
      refine if_neg fun short => more (drop_eq_nil_of_le ?_)
      rw [isLength, fragmentLength, if_pos short]
    have later_zero (isPlain : a.writer.compress = none) : ∀ p ∈ ps, p.pad = 0 :=
      emitted.atEdge (show state = none by simpa [isPlain] using same) (atEdge isPlain)
    refine ⟨w', placedAt options a.writer t (left.take n) :: ps, .again round returns, ?_⟩
    exact {
      dest := by
        rw [emitted.dest, bytesOf_cons, ← append_assoc]
        exact congrArg (· ++ _) dest
      laid := .more fits (by rw [placedAt, isType, atEnd]) emitted.laid
      payload := by
        rw [payloadOf_cons, emitted.payload, ← append_assoc]
        exact congrArg (· ++ rest) (take_append_drop n left)
      recorded := by rw [emitted.recorded, recorded]
      compress := by rw [emitted.compress, ← same]; rfl
      pads := forall_mem_cons.mpr ⟨pad_lt .., emitted.pads⟩
      tail := later_zero
      atEdge := fun isPlain edge => forall_mem_cons.mpr ⟨by simp [placedAt, edge], later_zero isPlain⟩ }
  · rw [if_neg continues] at round
    push Not at continues
    have zero : remaining = 0 := le_antisymm continues.2 nonneg
    have whole : left.length = n := by
      refine le_antisymm (drop_eq_nil_iff.mp continues.1) ?_
      rw [← taken]
      exact length_take_le' n left
    have atEnd : decide (left.length = n ∧ remaining = 0) = true := decide_eq_true ⟨whole, zero⟩
    refine ⟨afterFragment options a left remaining state, [placedAt options a.writer t (left.take n)],
      .leave round, ?_⟩
    exact {
      dest := by
        rw [bytesOf_cons, bytesOf_nil, append_nil]
        exact dest
      laid := .last fits (by rw [placedAt, isType, atEnd])
      payload := by
        rw [finished zero, append_nil, payloadOf_cons, payloadOf_nil, append_nil]
        exact take_of_length_le whole.le
      recorded := recorded
      compress := same
      pads := forall_mem_singleton.mpr (pad_lt ..)
      tail := fun _ _ => nofun
      atEdge := fun _ edge => forall_mem_singleton.mpr (by simp [placedAt, edge]) }

theorem switched_compress (w : Writer ζ) : (switched options w).compress = w.compress := by
  unfold switched switchBlock
  split <;> rfl

theorem switched_with (w : Writer ζ) :
    ({ switched options w with compress := w.compress } : Writer ζ) = switched options w := by
  unfold switched switchBlock
  split <;> rfl

private theorem compressIfNeeded_kept (started : a.compressStart = false)
    (nonempty : a.left ≠ []) : compressIfNeeded options slice a w = .chunk w a.left a.compressRemaining := by
  unfold compressIfNeeded
  split
  · rfl
  · exact if_neg (by simp [started, nonempty])

private theorem compressIfNeeded_next (isState : w.compress = some state) (needed : a.compressStart = true ∨ a.left = [])
    (got : options.streamingCompress.compress state slice = (remaining, piece, state')) (fine : 0 ≤ remaining)
    (more : piece ≠ [] ∨ a.compressStart = true) :
    compressIfNeeded options slice a w = .chunk { w with compress := some state' } piece remaining := by
  rw [compressIfNeeded, isState]
  simp only [got]
  rw [if_pos (by simpa using needed), if_neg (not_lt.mpr fine), if_neg]
  rintro both
  rw [Bool.and_eq_true, List.isEmpty_iff] at both
  rcases more with nonempty | starts
  · exact nonempty both.1
  · rw [starts] at both
    cases both.2

theorem Coming.nonneg (coming : Coming compress slice state remaining pieces) : 0 ≤ remaining := by
  cases coming with
  | done => exact le_rfl
  | more positive => exact positive.le

theorem Coming.finished (coming : Coming compress slice state remaining pieces) (zero : remaining = 0) :
    pieces = [] := by
  cases coming with
  | done => rfl
  | more => omega

theorem Coming.plain
    (coming : Coming compress slice state remaining pieces) (isPlain : state = none) : remaining = 0 := by
  cases coming with
  | done => rfl
  | more => cases isPlain

/-- The loop goes on with what is left of a piece, or with the next one. -/
theorem next_chunk (coming : Coming options.streamingCompress slice w.compress remaining pieces)
    (continues : left ≠ [] ∨ 0 < remaining) :
    ∃ state cur remaining' pieces',
      compressIfNeeded options slice ⟨w, left, false, false, remaining⟩ (switched options w) =
        .chunk { switched options w with compress := state } cur remaining' ∧
      cur ≠ [] ∧ cur ++ pieces'.flatten = left ++ pieces.flatten ∧
      Coming options.streamingCompress slice state remaining' pieces' ∧ state.isSome = w.compress.isSome := by
  by_cases empty : left = []
  · have positive := continues.resolve_left (fun nonempty => nonempty empty)
    cases isState : w.compress with
    | none =>
      rw [isState] at coming
      exact absurd (coming.plain rfl) positive.ne'
    | some =>
      rw [isState] at coming
      cases coming with
      | done => cases positive
      | more _ got fine nonempty later =>
        exact ⟨some _, _, _, _, compressIfNeeded_next ((switched_compress w).trans isState) (.inr empty) got fine
          (.inl nonempty), nonempty, by rw [empty]; rfl, later, rfl⟩
  · refine ⟨w.compress, left, remaining, pieces, ?_, empty, rfl, coming, rfl⟩
    rw [switched_with]
    exact compressIfNeeded_kept rfl empty

/-- What remains to be written, counted so that every round makes it smaller: a
round without room moves the writer to a new block. -/
def toWrite (options : LogWriter.Options ζ) (o : Nat) (payload : Bytes) : Nat :=
  2 * payload.length + if available options o = 0 then 1 else 0

private theorem toWrite_lt (inBlock : a.writer.blockOffset ≤ kBlockSize) (nonempty : cur ≠ []) (remaining : Int)
    (state : Option ζ) :
    toWrite options (afterFragment options a cur remaining state).blockOffset
        (cur.drop (fragmentLength options a.writer cur) ++ rest) <
      toWrite options a.writer.blockOffset (cur ++ rest) := by
  have positive := length_pos_iff.mpr nonempty
  unfold toWrite
  rw [length_append, length_append, length_drop]
  by_cases noRoom : available options a.writer.blockOffset = 0
  · have none : fragmentLength options a.writer cur = 0 := by
      rw [fragmentLength, noRoom]
      simp
    have edge : (afterFragment options a cur remaining state).blockOffset = kBlockSize :=
      emit_offset_of_full inBlock (headerSizeOf_fragmentType ..) (by simp [none, noRoom])
    have room : available options kBlockSize ≠ 0 := by
      have bounds := headerSize_bounds options
      unfold available
      unfold kHeaderSize kRecyclableHeaderSize at bounds
      rw [if_pos (by omega)]
      unfold kBlockSize
      omega
    rw [edge, if_neg room, if_pos noRoom, none]
    omega
  · have some : 0 < fragmentLength options a.writer cur := by
      rw [fragmentLength]
      split <;> omega
    split <;> omega

theorem afterFragment_inBlock (inBlock : a.writer.blockOffset ≤ kBlockSize) (cur : Bytes)
    (remaining : Int) (state : Option ζ) : (afterFragment options a cur remaining state).blockOffset ≤ kBlockSize := by
  refine (emit_fits inBlock
    (headerSizeOf_fragmentType ..) ?_).1
  rw [length_take, fragmentLength]
  split <;> omega

/-- The rest of a record is written. -/
theorem emitted_rest (coming : Coming options.streamingCompress slice w.compress remaining pieces)
    (inBlock : w.blockOffset ≤ kBlockSize) (continues : left ≠ [] ∨ 0 < remaining) :
    ∃ w' ps, Returns (addRecordRound options slice) ⟨w, left, false, false, remaining⟩ (.ok, w') ∧
      Emitted options w false (left ++ pieces.flatten) ps w' := by
  induction size : toWrite options w.blockOffset (left ++ pieces.flatten) using Nat.strong_induction_on
    generalizing w left remaining pieces with
  | h size' ih =>
    obtain ⟨state, cur, remaining', _, chunk, nonempty, same, coming', isSome⟩ := next_chunk coming continues
    rw [← same] at size ⊢
    refine emitted_fragment inBlock coming'.nonneg chunk isSome coming'.plain
      (fun zero => by rw [coming'.finished zero, flatten_nil]) fun continues' => ?_
    refine ih _ ?_ coming' (afterFragment_inBlock inBlock cur remaining' state) continues' rfl
    rw [← size]
    exact toWrite_lt inBlock nonempty remaining' state

private theorem emitted_start (inBlock : a.writer.blockOffset ≤ kBlockSize)
    (chunk : compressIfNeeded options slice a (switched options a.writer) =
      .chunk { switched options a.writer with compress := state } piece remaining)
    (same : state.isSome = a.writer.compress.isSome)
    (coming : Coming options.streamingCompress slice state remaining pieces) :
    ∃ w' ps, Returns (addRecordRound options slice) a (.ok, w') ∧
      Emitted options a.writer a.atBegin (piece ++ pieces.flatten) ps w' :=
  emitted_fragment inBlock coming.nonneg chunk same coming.plain
    (fun zero => by rw [coming.finished zero, flatten_nil])
    fun continues => emitted_rest coming (afterFragment_inBlock inBlock piece remaining state) continues

/-- **A record without compression.** The writer returns, and the payloads are the
record. -/
theorem addsRecord_plain (isPlain : w.compress = none) (inBlock : w.blockOffset ≤ kBlockSize) (slice : Bytes) :
    ∃ w' ps, AddsRecord options w slice .ok w' ∧ Emitted options w true slice ps w' := by
  have start : addRecordStart options w slice = ⟨w, slice, true, false, 0⟩ := by
    rw [addRecordStart, isPlain]
  have chunk : compressIfNeeded options slice ⟨w, slice, true, false, 0⟩ (switched options w) =
      .chunk { switched options w with compress := w.compress } slice 0 := by
    rw [switched_with]
    rw [compressIfNeeded, switched_compress, isPlain]
  have emitted := emitted_start inBlock chunk rfl .done
  rw [flatten_nil, append_nil] at emitted
  unfold AddsRecord
  rwa [start]

end Rocksdb.LogWriterProofs
