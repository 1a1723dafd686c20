import Rocksdb.WriteBatch
import Mathlib.Data.List.Chain

/-! Replay of a batch. The four representations of a batch, its bytes, its count,
its flags and its checksums, are functions of the list of operations that it
holds. Every call keeps them together, and reading the bytes gives the list back. -/
namespace Rocksdb.WriteBatchInternal
open Lib.LittleEndian Lib.Parsing Coding
open List hiding count

/-! ## What a batch holds -/

/-- A record that the operations write. -/
inductive Item where
  | entry (kind : Kind) (columnFamily : UInt32) (key value : Bytes)
  | logData (blob : Bytes)
  deriving DecidableEq

namespace Item

def bytes : Item → Bytes
  | entry kind columnFamily key value =>
    (if columnFamily = 0 then [kind.type] else kind.columnFamilyType :: putVarint32 columnFamily.toNat) ++
      (putLengthPrefixedSlice key ++ if kind.hasValue then putLengthPrefixedSlice value else [])
  | logData blob => Tag.logData.toByte :: putLengthPrefixedSlice blob

/-- The lengths can be written, and a value that was packed can be unpacked. -/
def Sized : Item → Prop
  | entry kind _ key value =>
    key.length < 2 ^ 32 ∧ value.length < 2 ^ 32 ∧ (kind.hasValue = false → value = []) ∧
      (kind = .valuePreferredSeqno → 8 ≤ value.length)
  | logData blob => blob.length < 2 ^ 32

def flag : Item → Option ContentFlag
  | entry kind _ _ _ => some kind.flag
  | logData _ => none

def checksum (hash : Hash) : Item → Option UInt64
  | entry kind columnFamily key value => some (protectC hash (protectKVO hash 0 key value kind.type) columnFamily)
  | logData _ => none

/-- The value of an entry, and the write time that is packed with it. -/
def unpacked (unpack : Bool) (kind : Kind) (value : Bytes) : Bytes × UInt64 :=
  if kind = .valuePreferredSeqno ∧ unpack then
    (value.take (value.length - 8), UInt64.ofNat (decode (value.drop (value.length - 8))))
  else (value, 0)

/-- The record that is read. -/
def record (unpack : Bool) : Item → Record
  | entry kind columnFamily key value =>
    ⟨.entry kind (columnFamily ≠ 0), columnFamily, key, (unpacked unpack kind value).1, [], [],
      (unpacked unpack kind value).2⟩
  | logData blob => ⟨.logData, 0, [], [], blob, [], 0⟩

end Item

open Item (unpacked bytes)

def counted (items : List Item) : Nat := (items.filterMap Item.flag).length

def flagsOf (items : List Item) : Finset ContentFlag := (items.filterMap Item.flag).toFinset

/-! ## Reading an item -/

section Read

private theorem ofByte_toByte (tag : Tag) : Tag.ofByte tag.toByte = some tag := by
  cases tag with
  | entry kind isColumnFamily => cases kind <;> cases isColumnFamily <;> decide
  | _ => decide

variable {value : Bytes}

theorem parses_getSlice (small : value.length < 2 ^ 32) :
    Parses (getSlice message) (putLengthPrefixedSlice value) value :=
  Parses.orFail (getLengthPrefixedSlice_put small)

private theorem parses_readRecord (body : Parses (readBody unpack tag) text record) : Parses (readRecord unpack)
    (tag.toByte :: text) record := by
  intro rest
  simp only [cons_append, readRecord, ofByte_toByte]
  exact body rest

private theorem parses_readColumnFamily (kind : Kind) (columnFamily : UInt32) :
    Parses (readColumnFamily kind (columnFamily ≠ 0))
      (if columnFamily = 0 then [] else putVarint32 columnFamily.toNat) columnFamily.toNat := by
  by_cases default : columnFamily = 0
  · subst default
    exact Parses.pure 0
  · simp only [readColumnFamily, default, ne_eq, not_false_eq_true, decide_true, if_true, if_false]
    exact Parses.orFail (getVarint32_putVarint32 columnFamily.toNat_lt)

private theorem parses_readValue (small : value.length < 2 ^ 32) (none : kind.hasValue = false → value = []) :
    Parses (readValue kind) (if kind.hasValue then putLengthPrefixedSlice value else []) value := by
  unfold readValue
  split
  · exact parses_getSlice small
  · next no =>
    rw [none (Bool.eq_false_iff.mpr no)]
    exact Parses.pure []

private theorem unpackValue_eq (packed : kind = .valuePreferredSeqno → 8 ≤ value.length) :
    unpackValue unpack kind value = .ok (unpacked unpack kind value) := by
  unfold unpackValue unpacked
  split
  · next timed =>
    rw [parsePackedValueWithWriteTime, if_neg (Nat.not_lt.mpr (packed timed.1))]
  · rfl

theorem item_bytes_entry (kind : Kind) (columnFamily : UInt32) (key value : Bytes) :
    (Item.entry kind columnFamily key value).bytes = (Tag.entry kind (columnFamily ≠ 0)).toByte ::
      ((if columnFamily = 0 then [] else putVarint32 columnFamily.toNat) ++
        (putLengthPrefixedSlice key ++ if kind.hasValue then putLengthPrefixedSlice value else [])) := by
  by_cases default : columnFamily = 0 <;> simp [bytes, Tag.toByte, default]

/-- An item is read as it was written, whatever follows it. -/
theorem parses_item (unpack : Bool) {item : Item} (sized : item.Sized) :
    Parses (readRecord unpack) item.bytes (item.record unpack) := by
  cases item with
  | logData => exact parses_readRecord ((parses_getSlice sized).map _)
  | entry kind columnFamily =>
    obtain ⟨keySmall, valueSmall, none, packed⟩ := sized
    rw [item_bytes_entry]
    refine parses_readRecord ?_
    refine (parses_readColumnFamily kind columnFamily).bind
      ((parses_getSlice keySmall).bind ((parses_readValue valueSmall none).last ?_))
    rw [unpackValue_eq packed, UInt32.ofNat_toNat]
    exact (Parses.lift _).last (Parses.pure _)

end Read

/-! ## Iterating over items -/

/-- A handler that takes down every call. -/
def recorder : Handler (List Event) where
  continues _ := true
  call events event := (.ok, events ++ [event])
  writeAfterCommit := .kUnknown
  writeBeforePrepare := .kUnknown

/-- The call of a handler for an item. Only a marker needs to know more of the batch. -/
def Item.event (item : Item) : Event := (item.record true).event false

section Iterate
variable {s : Iterating (List Event)} {items : List Item} {item : Item}

theorem counted_cons (item : Item) (items : List Item) :
    counted (item :: items) = (if item.flag.isSome then 1 else 0) + counted items := by
  cases item with
  | entry => simp [counted, Item.flag, Nat.add_comm]
  | logData => simp [counted, Item.flag, filterMap_cons]

/-- One round with the recorder. -/
theorem handle_recorder (item : Item) (rest : Bytes) (small : s.found < 2 ^ 32) :
    let next := handle recorder
      { s with input := rest, record := item.record true, lastWasTryAgain := false, status := .ok }
    next.input = rest ∧ next.status = .ok ∧ next.state = s.state ++ [item.event] ∧
      next.found = (s.found + if item.flag.isSome then 1 else 0) % 2 ^ 32 := by
  cases item with
  | logData =>
    refine ⟨rfl, rfl, rfl, ?_⟩
    exact (Nat.mod_eq_of_lt small).symm
  | entry kind =>
    cases kind <;> simp [handle, recorder, Item.record, Item.event, Record.event, Item.flag]

/-- The loop calls the handler for every item, in order. -/
theorem iterateLoop_items (sized : ∀ item ∈ items, item.Sized) (input : s.input = items.flatMap bytes)
    (good : s.status = .ok) (small : s.found < 2 ^ 32) :
    ∃ last, iterateLoop recorder s = (.ok true, last) ∧ last.status = .ok ∧
      last.state = s.state ++ items.map Item.event ∧ last.found = (s.found + counted items) % 2 ^ 32 := by
  induction items generalizing s with
  | nil =>
    refine ⟨s, ?_, good, by simp, (Nat.mod_eq_of_lt small).symm⟩
    rw [iterateLoop, if_neg (by simp [input, good])]
  | cons item items ih =>
    have read := parses_item true (sized item mem_cons_self) (items.flatMap bytes)
    obtain ⟨rest, status, state, found⟩ := handle_recorder item (items.flatMap bytes) small
    obtain ⟨last, loop, lastStatus, lastState, lastFound⟩ :=
      ih (fun i member => sized i (mem_cons_of_mem _ member)) rest status (found ▸ Nat.mod_lt _ (by decide))
    refine ⟨last, ?_, lastStatus, ?_, ?_⟩
    · rw [← flatMap_cons, ← input] at read
      have more : s.input ≠ [] := by
        intro empty
        rw [empty] at read
        cases read
      rw [iterateLoop, if_pos (.inl ⟨good, more⟩), if_pos (show recorder.continues _ = true from rfl),
        if_neg (by simp [good])]
      split
      · next failed =>
        rw [read] at failed
        cases failed
      · next got =>
        rw [read] at got
        cases got
        exact loop
    · simp [lastState, state]
    · rw [lastFound, found, counted_cons, Nat.mod_add_mod, Nat.add_assoc]

end Iterate

/-! ## Verifying the checksums of items -/

section Verify
variable {hash : Hash} {entries : List UInt64} {index : Nat} {items : List Item}

/-- Stripping what was protected gives zero. -/
theorem strip_protect (hash : Hash) (key value : Bytes) (opType : UInt8) (columnFamily : UInt32) :
    protectKVO hash (protectC hash (protectC hash (protectKVO hash 0 key value opType) columnFamily) columnFamily)
      key value opType = 0 := by
  have cancel (x y : UInt64) : x ^^^ y ^^^ y = x := by rw [UInt64.xor_assoc, UInt64.xor_self, UInt64.xor_zero]
  unfold protectC
  rw [cancel]
  unfold protectKVO
  generalize hash key kSeedK = k, hash value kSeedV = v, hash [opType] kSeedO = o
  calc 0 ^^^ k ^^^ v ^^^ o ^^^ k ^^^ v ^^^ o = (k ^^^ v ^^^ o) ^^^ (k ^^^ v ^^^ o) := by
        simp only [UInt64.zero_xor, UInt64.xor_assoc]
    _ = 0 := UInt64.xor_self

theorem counted_eq_checksums (hash : Hash) (items : List Item) :
    counted items = (items.filterMap (Item.checksum hash)).length := by
  induction items with
  | nil => rfl
  | cons item _ ih =>
    rw [counted_cons, ih]
    cases item with
    | entry => exact Nat.add_comm _ _
    | logData => exact Nat.zero_add _

/-- The loop compares the checksum of every entry. -/
theorem verifyLoop_items (sized : ∀ item ∈ items, item.Sized)
    (left : entries.drop index = items.filterMap (Item.checksum hash)) :
    verifyLoop hash entries index (items.flatMap bytes) = .ok (index + counted items) := by
  induction items generalizing index with
  | nil =>
    rw [verifyLoop, if_neg (by simp)]
    rfl
  | cons item items ih =>
    have read := parses_item false (sized item mem_cons_self) (items.flatMap bytes)
    rw [← flatMap_cons] at read
    have more : (item :: items).flatMap bytes ≠ [] := by
      intro empty
      rw [empty] at read
      cases read
    have tail := fun i (member : i ∈ items) => sized i (mem_cons_of_mem _ member)
    by_cases inside : index < entries.length
    · rw [verifyLoop, if_pos ⟨more, inside⟩]
      split
      · next failed =>
        rw [read] at failed
        cases failed
      · next got =>
        rw [read] at got
        cases got
        cases item with
        | logData =>
          refine (ih tail left).trans ?_
          rfl
        | entry kind columnFamily key value =>
          rw [drop_eq_getElem_cons inside] at left
          obtain ⟨first, later⟩ := cons.inj left
          have zero : protectKVO hash (protectC hash (entries.getD index 0) columnFamily) key value kind.type = 0 := by
            rw [getD_eq_getElem _ _ inside, first]
            exact strip_protect hash key value kind.type columnFamily
          refine (if_pos ?_).trans ((ih tail later).trans ?_)
          · simpa [Item.record, unpacked] using zero
          · rw [counted_cons, ← Nat.add_assoc]
            rfl
    · -- What is left is log data.
      rw [drop_eq_nil_of_le (Nat.not_lt.mp inside)] at left
      have none : counted (item :: items) = 0 := by
        rw [counted_eq_checksums hash, ← left]
        rfl
      rw [verifyLoop, if_neg (fun both => inside both.2), none]
      rfl

end Verify

/-! ## Batches and their items -/

/-- The header of a batch: no sequence number, and a count. -/
def header (count : Nat) : Bytes := List.replicate 8 0 ++ encode 4 count

@[simp] theorem length_header (count : Nat) : (header count).length = kHeader := by simp [header, kHeader]

/-- The four representations of a batch are those of a list of items. -/
structure Holds (hash : Hash) (b : WriteBatch) (items : List Item) : Prop where
  rep : b.rep = header (counted items) ++ items.flatMap Item.bytes
  contentFlags : b.contentFlags = flagsOf items
  protInfo : ∀ entries, b.protInfo = some entries → entries = items.filterMap (Item.checksum hash)
  sized : ∀ item ∈ items, item.Sized
  few : counted items < 2 ^ 32

/-- The save point of a batch that holds some items. -/
def savePointOf (items : List Item) : SavePoint :=
  ⟨kHeader + (items.flatMap Item.bytes).length, counted items, flagsOf items⟩

section Batch
variable {hash : Hash} {b : WriteBatch} {items later : List Item} {item : Item}

private theorem holds_new (hash : Hash) (maxBytes : Nat) (isProtected : Bool) :
    Holds hash (WriteBatch.new maxBytes isProtected) [] where
  rep := rfl
  contentFlags := rfl
  protInfo := by
    intro _ protects
    cases isProtected <;> cases protects
    rfl
  sized := by simp
  few := by decide

section Held
variable (holds : Holds hash b items)
include holds

theorem Holds.length : b.rep.length = kHeader + (items.flatMap bytes).length := by
  rw [holds.rep, length_append, length_header]

theorem Holds.count : b.count = counted items := by
  have place : (b.rep.drop 8).take 4 = encode 4 (counted items) := by
    rw [holds.rep, header, append_assoc, drop_left' (by simp), take_left' (length_encode 4 _)]
  rw [WriteBatch.count, place, decode_encode_of_lt holds.few]

theorem Holds.drop_header : b.rep.drop kHeader = items.flatMap bytes := by
  rw [holds.rep]
  exact drop_left' (length_header _)

theorem Holds.savePoint : b.savePoint = savePointOf items := by
  rw [WriteBatch.savePoint, holds.length, holds.count, holds.contentFlags]
  rfl

end Held

theorem counted_append (items later : List Item) : counted (items ++ later) = counted items + counted later := by
  simp [counted]

theorem setCount_rep (rep : b.rep = front ++ encode 4 count ++ body) (eight : front.length = 8) (n : Nat) :
    (b.setCount n).rep = front ++ encode 4 n ++ body := by
  have first : b.rep.take 8 = front := by
    rw [rep, append_assoc]
    exact take_left' eight
  have rest : b.rep.drop kHeader = body := by
    rw [rep]
    exact drop_left' (by simp [eight, kHeader])
  rw [WriteBatch.setCount, first, rest]

/-- Going back to a save point gives up the items that came later, in all four representations. -/
theorem Holds.rollBackTo (holds : Holds hash b (items ++ later)) :
    Holds hash (b.rollBackTo (savePointOf items)) items where
  rep := by
    have short : b.rep.take (savePointOf items).size = header (counted (items ++ later)) ++ items.flatMap bytes := by
      rw [holds.rep, flatMap_append, ← append_assoc]
      exact take_left' (by simp [savePointOf])
    exact setCount_rep short (by simp) _
  contentFlags := rfl
  protInfo := by
    intro _ protects
    obtain ⟨before, protected_, rfl⟩ := Option.map_eq_some_iff.mp protects
    rw [holds.protInfo before protected_, filterMap_append]
    exact take_left' (counted_eq_checksums hash items).symm
  sized := fun item member => holds.sized item (mem_append_left _ member)
  few := by
    have few := holds.few
    rw [counted_append] at few
    exact Nat.lt_of_le_of_lt (Nat.le_add_right _ _) few

theorem item_bytes_ne_nil (item : Item) : item.bytes ≠ [] := by
  cases item with
  | entry =>
    rw [item_bytes_entry]
    simp
  | logData => simp [bytes]

theorem Holds.rollback (holds : Holds hash b (items ++ later)) (savePoints : b.savePoints = savePointOf items :: rest) :
    Holds hash (rollbackToSavePoint b).2 items ∧ (rollbackToSavePoint b).2.savePoints = rest := by
  have kept : Holds hash { b with savePoints := rest } (items ++ later) :=
    ⟨holds.rep, holds.contentFlags, holds.protInfo, holds.sized, holds.few⟩
  rw [rollbackToSavePoint, savePoints]
  dsimp only
  split
  · next same =>
    -- Nothing was added since: every item has bytes.
    have none : later = [] := by
      rw [holds.length, flatMap_append, length_append] at same
      have empty : later.flatMap bytes = [] := eq_nil_of_length_eq_zero (by simp only [savePointOf] at same; omega)
      cases later with
      | nil => rfl
      | cons item => exact absurd (append_eq_nil_iff.mp empty).1 (item_bytes_ne_nil item)
    rw [none, append_nil] at kept
    exact ⟨kept, rfl⟩
  · rw [if_neg (by simp [savePointOf, kHeader])]
    exact ⟨kept.rollBackTo, rfl⟩

/-- A batch with one item more. -/
def appended (hash : Hash) (b : WriteBatch) : Item → WriteBatch
  | .entry kind columnFamily key value =>
    { b with
      rep := (b.setCount (b.count + 1)).rep ++ (Item.entry kind columnFamily key value).bytes
      contentFlags := insert kind.flag b.contentFlags
      protInfo := b.protInfo.map (· ++ [protectC hash (protectKVO hash 0 key value kind.type) columnFamily]) }
  | .logData blob => { b with rep := b.rep ++ (Item.logData blob).bytes }

theorem addEntry_eq (hash : Hash) (kind : Kind) (b : WriteBatch) (columnFamily : UInt32) (key value : Bytes) :
    addEntry hash kind b columnFamily key value =
      commit b.savePoint (appended hash b (.entry kind columnFamily key value)) := by
  simp [addEntry, appended, bytes, WriteBatch.setCount]

private theorem putLogData_eq (hash : Hash) (b : WriteBatch) (blob : Bytes) :
    putLogData b blob = commit b.savePoint (appended hash b (.logData blob)) := by
  simp [putLogData, appended, bytes]

private theorem flagsOf_concat (items : List Item) (kind : Kind) (columnFamily : UInt32) (key value : Bytes) :
    flagsOf (items ++ [.entry kind columnFamily key value]) = insert kind.flag (flagsOf items) := by
  ext flag
  simp [flagsOf, Item.flag, filterMap_append]

theorem Holds.appended (holds : Holds hash b items) (sized : item.Sized) (room : counted items + 1 < 2 ^ 32) :
    Holds hash (appended hash b item) (items ++ [item]) := by
  have bytes : (items ++ [item]).flatMap bytes = items.flatMap bytes ++ item.bytes := by simp
  have all : ∀ i ∈ items ++ [item], i.Sized := by
    intro i member
    rcases mem_append.mp member with old | new
    · exact holds.sized i old
    · rw [mem_singleton.mp new]
      exact sized
  cases item with
  | entry kind columnFamily key value =>
    have count : counted (items ++ [.entry kind columnFamily key value]) = counted items + 1 := by
      rw [counted_append]
      rfl
    refine ⟨?_, ?_, ?_, all, count ▸ room⟩
    · rw [bytes, ← append_assoc, count, header, ← setCount_rep holds.rep (by simp), ← holds.count]
      rfl
    · rw [flagsOf_concat, ← holds.contentFlags]
      rfl
    · intro entries protects
      obtain ⟨before, earlier, rfl⟩ := Option.map_eq_some_iff.mp protects
      rw [holds.protInfo before earlier, filterMap_append]
      rfl
  | logData blob =>
    have count : counted (items ++ [.logData blob]) = counted items := by
      rw [counted_append]
      rfl
    refine ⟨?_, ?_, ?_, all, count ▸ holds.few⟩
    · rw [bytes, ← append_assoc, count, ← holds.rep]
      rfl
    · rw [flagsOf, filterMap_append]
      exact holds.contentFlags.trans (congrArg toFinset (append_nil _).symm)
    · intro entries protects
      rw [filterMap_append]
      exact (holds.protInfo entries protects).trans (append_nil _).symm

private theorem appended_savePoints (hash : Hash) (b : WriteBatch) (item : Item) :
    (WriteBatchInternal.appended hash b item).savePoints = b.savePoints := by
  cases item <;> rfl

private theorem holds_clear (hash : Hash) (b : WriteBatch) : Holds hash (clear b) [] where
  rep := rfl
  contentFlags := rfl
  protInfo := by
    intro _ protects
    obtain ⟨_, -, rfl⟩ := Option.map_eq_some_iff.mp protects
    rfl
  sized := by simp
  few := by decide

theorem Holds.iterate (holds : Holds hash b items) :
    WriteBatchInternal.iterate recorder [] b = (.ok, items.map Item.event) := by
  have size := holds.length
  have input : (b.rep.drop kHeader).take (b.rep.length - kHeader) = items.flatMap bytes := by
    rw [holds.drop_header, take_of_length_le (by omega)]
  unfold WriteBatchInternal.iterate iterateRange
  rw [if_neg (by omega), if_neg (by omega), input]
  obtain ⟨last, loop, status, state, found⟩ := iterateLoop_items holds.sized
    (s := ⟨items.flatMap bytes, ⟨.noop, 0, [], [], [], [], 0⟩, .ok, false, true, 0, []⟩) rfl rfl
    (Nat.two_pow_pos 32)
  have agree : last.found = b.count := by
    rw [found, holds.count, Nat.zero_add, Nat.mod_eq_of_lt holds.few]
  simp [loop, status, agree, state]

theorem Holds.verifyChecksum (holds : Holds hash b items) : WriteBatchInternal.verifyChecksum hash b = .ok := by
  unfold WriteBatchInternal.verifyChecksum
  split
  · rfl
  · next entries protects =>
    have all : entries.drop 0 = items.filterMap (Item.checksum hash) := holds.protInfo entries protects
    rw [holds.drop_header, verifyLoop_items holds.sized all, Nat.zero_add, holds.count]
    simp

end Batch

/-! ## Operations and the log of those that survive -/

/-- What a caller adds to a batch. -/
inductive Operation where
  | put (columnFamily : UInt32) (key value : Bytes)
  | timedPut (columnFamily : UInt32) (key value : Bytes) (writeUnixTime : UInt64)
  | putEntity (columnFamily : UInt32) (key : Bytes) (columns : WideColumns)
  | delete (columnFamily : UInt32) (key : Bytes)
  | singleDelete (columnFamily : UInt32) (key : Bytes)
  | deleteRange (columnFamily : UInt32) (beginKey endKey : Bytes)
  | merge (columnFamily : UInt32) (key value : Bytes)
  | logData (blob : Bytes)

namespace Operation

def perform (hash : Hash) (b : WriteBatch) : Operation → Status × WriteBatch
  | put columnFamily key value => WriteBatchInternal.put hash b columnFamily key value
  | timedPut columnFamily key value time => WriteBatchInternal.timedPut hash b columnFamily key value time
  | putEntity columnFamily key columns => WriteBatchInternal.putEntity hash b columnFamily key columns
  | delete columnFamily key => WriteBatchInternal.delete hash b columnFamily key
  | singleDelete columnFamily key => WriteBatchInternal.singleDelete hash b columnFamily key
  | deleteRange columnFamily beginKey endKey => WriteBatchInternal.deleteRange hash b columnFamily beginKey endKey
  | merge columnFamily key value => WriteBatchInternal.merge hash b columnFamily key value
  | logData blob => putLogData b blob

/-- How the operation is replayed. A timed put without a time is a put; an entity is
replayed in its serialized form. -/
def event : Operation → Event
  | put columnFamily key value => .putCF columnFamily key value
  | timedPut columnFamily key value time =>
    if time = 2 ^ 64 - 1 then .putCF columnFamily key value else .timedPutCF columnFamily key value time
  | putEntity columnFamily key columns =>
    .putEntityCF columnFamily key ((serialize (sortColumns columns)).toOption.getD [])
  | delete columnFamily key => .deleteCF columnFamily key
  | singleDelete columnFamily key => .singleDeleteCF columnFamily key
  | deleteRange columnFamily beginKey endKey => .deleteRangeCF columnFamily beginKey endKey
  | merge columnFamily key value => .mergeCF columnFamily key value
  | logData blob => .logData blob

/-- The kind of operation that is present then; log data has none. -/
def flag : Operation → Option ContentFlag
  | put _ _ _ => some .HAS_PUT
  | timedPut _ _ _ time => some (if time = 2 ^ 64 - 1 then .HAS_PUT else .HAS_TIMED_PUT)
  | putEntity _ _ _ => some .HAS_PUT_ENTITY
  | delete _ _ => some .HAS_DELETE
  | singleDelete _ _ => some .HAS_SINGLE_DELETE
  | deleteRange _ _ _ => some .HAS_DELETE_RANGE
  | merge _ _ _ => some .HAS_MERGE
  | logData _ => none

/-- Keys and values are shorter than 2^32 bytes, and there is room for the time of a
timed put. -/
def Fits : Operation → Prop
  | put _ key value | merge _ key value => key.length < 2 ^ 32 ∧ value.length < 2 ^ 32
  | timedPut _ key value _ => key.length < 2 ^ 32 ∧ value.length + 8 < 2 ^ 32
  | putEntity _ key _ | delete _ key | singleDelete _ key => key.length < 2 ^ 32
  | deleteRange _ beginKey endKey => beginKey.length < 2 ^ 32 ∧ endKey.length < 2 ^ 32
  | logData blob => blob.length < 2 ^ 32

instance (op : Operation) : Decidable op.Fits := by
  cases op <;> unfold Fits <;> infer_instance

/-- The item that is stored. -/
def item : Operation → Item
  | put columnFamily key value => .entry .value columnFamily key value
  | timedPut columnFamily key value time =>
    if time = 2 ^ 64 - 1 then .entry .value columnFamily key value
    else .entry .valuePreferredSeqno columnFamily key (packValueAndWriteTime value time)
  | putEntity columnFamily key columns =>
    .entry .wideColumnEntity columnFamily key ((serialize (sortColumns columns)).toOption.getD [])
  | delete columnFamily key => .entry .deletion columnFamily key []
  | singleDelete columnFamily key => .entry .singleDeletion columnFamily key []
  | deleteRange columnFamily beginKey endKey => .entry .rangeDeletion columnFamily beginKey endKey
  | merge columnFamily key value => .entry .merge columnFamily key value
  | logData blob => .logData blob

end Operation

/-- The calls that change a batch. -/
inductive Call where
  | operation (op : Operation)
  | setSavePoint
  | rollbackToSavePoint
  | popSavePoint
  | clear

/-- What the call adds is short enough. -/
def Call.Fits : Call → Prop
  | operation op => op.Fits
  | _ => True

instance (call : Call) : Decidable call.Fits := by
  cases call <;> unfold Call.Fits <;> infer_instance

def Call.perform (hash : Hash) (b : WriteBatch) : Call → Status × WriteBatch
  | operation op => op.perform hash b
  | setSavePoint => (.ok, WriteBatchInternal.setSavePoint b)
  | rollbackToSavePoint => WriteBatchInternal.rollbackToSavePoint b
  | popSavePoint => WriteBatchInternal.popSavePoint b
  | clear => (.ok, WriteBatchInternal.clear b)

/-- What a batch is for: the operations that survive, and those that survived when a
save point was set. -/
structure Log where
  operations : List Operation
  saved : List (List Operation)

/-- A call with the status it returned. An operation that was refused leaves nothing. -/
def Log.step (log : Log) (status : Status) : Call → Log
  | .operation op => if status = .ok then { log with operations := log.operations ++ [op] } else log
  | .setSavePoint => { log with saved := log.operations :: log.saved }
  | .rollbackToSavePoint =>
    match log.saved with
    | [] => log
    | earlier :: saved => ⟨earlier, saved⟩
  | .popSavePoint => { log with saved := log.saved.tail }
  | .clear => ⟨[], []⟩

/-- A call on a batch, and its log. -/
def step (hash : Hash) (state : WriteBatch × Log) (call : Call) : WriteBatch × Log :=
  let (status, b) := call.perform hash state.1
  (b, state.2.step status call)

/-- A new batch after some calls, and its log. -/
def run (hash : Hash) (maxBytes : Nat) (isProtected : Bool) (calls : List Call) : WriteBatch × Log :=
  calls.foldl (step hash) (WriteBatch.new maxBytes isProtected, ⟨[], []⟩)

section Log
variable {hash : Hash} {b : WriteBatch} {log : Log} {op : Operation}

theorem Operation.item_flag (op : Operation) : op.item.flag = op.flag := by
  cases op with
  | timedPut _ _ _ time =>
    by_cases untimed : time = 2 ^ 64 - 1 <;> simp only [item, flag, untimed, if_true, if_false] <;> rfl
  | _ => rfl

theorem Operation.item_event (op : Operation) : op.item.event = op.event := by
  cases op with
  | timedPut _ _ value time =>
    by_cases untimed : time = 2 ^ 64 - 1
    · simp only [item, event, untimed, if_true]
      rfl
    · have size : (packValueAndWriteTime value time).length - 8 = value.length := by
        simp [packValueAndWriteTime]
      have unpacked : unpacked true .valuePreferredSeqno (packValueAndWriteTime value time) = (value, time) := by
        rw [unpacked, if_pos ⟨rfl, rfl⟩, size, packValueAndWriteTime, take_left' rfl, drop_left' rfl,
          decode_encode_of_lt time.toNat_lt, UInt64.ofNat_toNat]
      simp only [item, event, untimed, if_false, Item.event, Item.record, Record.event, unpacked]
  | _ => rfl

variable {status : Status}

private theorem serializeColumns_error (failed : serializeColumns prevName columns = .error status) : status ≠ .ok := by
  induction columns generalizing prevName with
  | nil => cases failed
  | cons column columns ih =>
    unfold serializeColumns at failed
    split_ifs at failed
    · cases failed
      simp
    · cases failed
      simp
    · cases failed
      simp
    · cases rest : serializeColumns (some column.1) columns with
      | error =>
        rw [rest] at failed
        cases failed
        exact ih rest
      | ok =>
        rw [rest] at failed
        cases failed

private theorem serialize_error (failed : serialize columns = .error status) : status ≠ .ok := by
  unfold serialize at failed
  split at failed
  · cases failed
    simp
  · cases index : serializeColumns none columns with
    | error =>
      rw [index] at failed
      cases failed
      exact serializeColumns_error index
    | ok =>
      rw [index] at failed
      cases failed

/-- What becomes of a batch and its items when an item is offered. -/
def Offers (hash : Hash) (b : WriteBatch) (items : List Item) (item : Item) (result : Status × WriteBatch) : Prop :=
  result.2.savePoints = b.savePoints ∧
    if result.1 = .ok then Holds hash result.2 (items ++ [item]) else Holds hash result.2 items

/-- The header has the count, and the protection info has an entry for each operation that is counted. -/
structure Sound (b : WriteBatch) : Prop where
  rep : ∃ front body, front.length = 8 ∧ b.rep = front ++ encode 4 b.count ++ body
  protInfo : ∀ entries, b.protInfo = some entries → entries.length = b.count

theorem Holds.sound (holds : Holds hash b items) : Sound b where
  rep := ⟨replicate 8 0, _, by simp, by rw [holds.count]; exact holds.rep⟩
  protInfo entries protects := by rw [holds.protInfo entries protects, holds.count, counted_eq_checksums hash]

/-- What an operation comes to: nothing, or its item is added. -/
def Performs (hash : Hash) (b : WriteBatch) (op : Operation) (result : Status × WriteBatch) : Prop :=
  result.1 ≠ .ok ∧ result.2 = b ∨ result = (.ok, appended hash b op.item) ∧ (op.Fits → op.item.Sized)

theorem Performs.keeps (performs : Performs hash b op result) (failed : result.1 ≠ .ok) : result.2 = b := by
  rcases performs with ⟨-, same⟩ | ⟨rfl, -⟩
  · exact same
  · exact absurd rfl failed

section Longer
variable (hash : Hash)

theorem length_setCount (b : WriteBatch) (n : Nat) : b.rep.length ≤ (b.setCount n).rep.length := by
  simp [WriteBatch.setCount, kHeader]
  omega

theorem length_appended (b : WriteBatch) (item : Item) : b.rep.length < (appended hash b item).rep.length := by
  cases item with
  | entry =>
    have := length_setCount b (b.count + 1)
    simp only [appended, bytes, length_append]
    split <;> simp <;> omega
  | logData => simp [appended, bytes]

private theorem length_putEntity (b : WriteBatch) (columnFamily : UInt32) (key : Bytes) (columns : WideColumns) :
    b.rep.length ≤ (putEntity hash b columnFamily key columns).2.rep.length := by
  unfold putEntity
  split
  · exact le_rfl
  split
  · exact le_rfl
  split
  · exact le_rfl
  rw [addEntry_eq, commit]
  have longer := length_appended hash b (.entry .wideColumnEntity columnFamily key ‹_›)
  split
  · refine le_trans ?_ (length_setCount _ _)
    rw [length_take]
    exact le_min le_rfl longer.le
  · exact longer.le

private theorem length_putEntityLoop (key : Bytes) (b : WriteBatch) (groups : List (UInt32 × WideColumns)) :
    b.rep.length ≤ (putEntityLoop hash key b groups).2.rep.length := by
  induction groups generalizing b with
  | nil => exact le_rfl
  | cons group _ ih =>
    have first := length_putEntity hash b group.1 key group.2
    rw [putEntityLoop]
    split
    · next added =>
      rw [added] at first
      exact first.trans (ih _)
    · exact first

end Longer

section Performs
variable (sound : Sound b)
include sound

private theorem rollBackTo_eq {x : WriteBatch} (rep : x.rep = front ++ encode 4 n ++ body ++ more)
    (eight : front.length = 8)
    (before : b.rep = front ++ encode 4 b.count ++ body) (protInfo : x.protInfo = b.protInfo.map (· ++ added))
    (maxBytes : x.maxBytes = b.maxBytes) (savePoints : x.savePoints = b.savePoints) : x.rollBackTo b.savePoint = b := by
  have short : x.rep.take b.rep.length = front ++ encode 4 n ++ body := by
    rw [rep, before]
    exact take_left' (by simp)
  have restored := setCount_rep (b := { x with rep := x.rep.take b.rep.length }) short eight b.count
  have entries : x.protInfo.map (·.take b.count) = b.protInfo := by
    rw [protInfo]
    cases info : b.protInfo with
    | none => rfl
    | some entries => exact congrArg some (take_left' (sound.protInfo entries info))
  rw [← before] at restored
  rw [WriteBatch.rollBackTo, WriteBatch.savePoint, restored, entries]
  change WriteBatch.mk b.rep b.contentFlags x.maxBytes b.protInfo x.savePoints = b
  rw [maxBytes, savePoints]

private theorem rollBackTo_appended (item : Item) : (appended hash b item).rollBackTo b.savePoint = b := by
  obtain ⟨_, _, eight, rep⟩ := sound.rep
  cases item with
  | entry =>
    exact rollBackTo_eq sound (by rw [appended, setCount_rep rep eight]) eight rep rfl rfl rfl
  | logData =>
    exact rollBackTo_eq sound (by rw [appended, rep]) eight rep (show b.protInfo = b.protInfo.map (· ++ []) by simp)
      rfl rfl

private theorem commit_performs (sized : op.Fits → op.item.Sized) :
    Performs hash b op (commit b.savePoint (appended hash b op.item)) := by
  rw [commit]
  split
  · exact .inl ⟨by simp, rollBackTo_appended sound op.item⟩
  · exact .inr ⟨rfl, sized⟩

/-- **An operation is added as a whole or not at all.** -/
theorem perform_performs (op : Operation) : Performs hash b op (op.perform hash b) := by
  have add {op : Operation} {kind : Kind} {columnFamily : UInt32} {key value : Bytes}
      (item : op.item = .entry kind columnFamily key value)
      (sized : op.Fits → (Item.entry kind columnFamily key value).Sized) :
      Performs hash b op (addEntry hash kind b columnFamily key value) := by
    rw [addEntry_eq, ← item]
    exact commit_performs sound (item ▸ sized)
  have within {op : Operation} {key value : Bytes} {f : WriteBatch → Status × WriteBatch}
      (performs : Performs hash b op (f b)) : Performs hash b op (withinLimits key value b f) := by
    unfold withinLimits
    split_ifs
    · exact .inl ⟨by simp, rfl⟩
    · exact .inl ⟨by simp, rfl⟩
    · exact performs
  cases op with
  | put columnFamily key value | merge columnFamily key value =>
    exact within (add rfl fun fits => ⟨fits.1, fits.2, nofun, nofun⟩)
  | timedPut _ _ value time =>
    refine within ?_
    split
    · next untimed =>
      refine within (add (if_pos untimed) fun fits => ⟨fits.1, ?_, nofun, nofun⟩)
      exact Nat.lt_of_le_of_lt (Nat.le_add_right _ _) fits.2
    · next timed =>
      have packed : (packValueAndWriteTime value time).length = value.length + 8 := by simp [packValueAndWriteTime]
      exact add (if_neg timed) fun fits => ⟨fits.1, packed ▸ fits.2, nofun, fun _ => packed ▸ Nat.le_add_left _ _⟩
  | putEntity _ _ columns =>
    rw [Operation.perform, putEntity]
    split
    · exact .inl ⟨by simp, rfl⟩
    cases serialized : serialize (sortColumns columns) with
    | error => exact .inl ⟨serialize_error serialized, rfl⟩
    | ok entity =>
      dsimp only
      split
      · exact .inl ⟨by simp, rfl⟩
      · exact add (by rw [Operation.item, serialized]; rfl)
          fun fits => ⟨fits, by show entity.length < _; omega, nofun, nofun⟩
  | delete columnFamily key | singleDelete columnFamily key =>
    exact add rfl fun fits => ⟨fits, by simp, fun _ => rfl, nofun⟩
  | deleteRange => exact add rfl fun fits => ⟨fits.1, fits.2, nofun, nofun⟩
  | logData blob =>
    rw [Operation.perform, putLogData_eq hash]
    exact @commit_performs hash b (.logData blob) sound id

end Performs

private theorem perform_offers (holds : Holds hash b items) (room : counted items + 1 < 2 ^ 32)
    (fits : op.Fits) : Offers hash b items op.item (op.perform hash b) := by
  rcases perform_performs holds.sound op with ⟨failed, same⟩ | ⟨ok, sized⟩
  · refine ⟨by rw [same], ?_⟩
    rw [if_neg failed, same]
    exact holds
  · rw [ok]
    exact ⟨appended_savePoints hash b op.item, holds.appended (sized fits) room⟩

/-- The batch holds the operations of the log, and so did every save point. -/
structure Tracks (hash : Hash) (b : WriteBatch) (log : Log) : Prop where
  holds : Holds hash b (log.operations.map Operation.item)
  savePoints : b.savePoints = log.saved.map fun operations => savePointOf (operations.map Operation.item)
  nested : (log.operations :: log.saved).Pairwise fun later earlier => earlier <+: later

private theorem counted_le_length (items : List Item) : counted items ≤ items.length := length_filterMap_le _ _

theorem Tracks.rollback (tracks : Tracks hash b log) :
    Tracks hash (rollbackToSavePoint b).2 (log.step (rollbackToSavePoint b).1 .rollbackToSavePoint) := by
  obtain ⟨_, saved⟩ := log
  obtain ⟨holds, savePoints, nested⟩ := tracks
  cases saved with
  | nil =>
    rw [rollbackToSavePoint, savePoints]
    exact ⟨holds, savePoints, nested⟩
  | cons earlier =>
    obtain ⟨_, rfl⟩ := (pairwise_cons.mp nested).1 earlier mem_cons_self
    rw [map_append] at holds
    obtain ⟨back, rest⟩ := holds.rollback savePoints
    exact ⟨back, rest, nested.of_cons⟩

/-- Every call keeps the batch and the log together. -/
theorem Tracks.step (tracks : Tracks hash b log) (call : Call) (fits : call.Fits)
    (room : log.operations.length + 1 < 2 ^ 32) :
    Tracks hash (step hash (b, log) call).1 (step hash (b, log) call).2 := by
  have fewer := (counted_le_length (log.operations.map Operation.item)).trans_eq (length_map _)
  cases call with
  | operation =>
    have offers := perform_offers tracks.holds (Nat.lt_of_le_of_lt (Nat.succ_le_succ fewer) room) fits
    unfold WriteBatchInternal.step Call.perform Log.step
    obtain ⟨savePoints, holds⟩ := offers
    dsimp only
    split at holds
    · next accepted =>
      rw [if_pos accepted]
      refine ⟨by rwa [map_append], savePoints.trans tracks.savePoints, ?_⟩
      obtain ⟨first, rest⟩ := pairwise_cons.mp tracks.nested
      exact pairwise_cons.mpr ⟨fun earlier member => (first earlier member).trans (prefix_append _ _), rest⟩
    · next refused =>
      rw [if_neg refused]
      exact ⟨holds, savePoints.trans tracks.savePoints, tracks.nested⟩
  | setSavePoint =>
    obtain ⟨holds, savePoints, nested⟩ := tracks
    refine ⟨⟨holds.rep, holds.contentFlags, holds.protInfo, holds.sized, holds.few⟩, ?_, ?_⟩
    · exact congrArg₂ cons holds.savePoint savePoints
    · exact pairwise_cons.mpr ⟨forall_mem_cons.mpr ⟨prefix_rfl, (pairwise_cons.mp nested).1⟩, nested⟩
  | rollbackToSavePoint => exact tracks.rollback
  | popSavePoint =>
    obtain ⟨_, saved⟩ := log
    obtain ⟨holds, savePoints, nested⟩ := tracks
    unfold WriteBatchInternal.step Call.perform popSavePoint
    rw [savePoints]
    cases saved with
    | nil => exact ⟨holds, savePoints, nested⟩
    | cons =>
      refine ⟨⟨holds.rep, holds.contentFlags, holds.protInfo, holds.sized, holds.few⟩, rfl, ?_⟩
      exact nested.sublist ((sublist_cons_self _ _).cons_cons _)
  | clear => exact ⟨holds_clear hash b, rfl, pairwise_singleton _ _⟩

private theorem operations_step (tracks : Tracks hash b log) (status : Status) (call : Call) :
    (log.step status call).operations.length ≤ log.operations.length + 1 := by
  cases call with
  | operation =>
    by_cases accepted : status = .ok <;> simp [Log.step, accepted]
  | rollbackToSavePoint =>
    obtain ⟨_, saved⟩ := log
    cases saved with
    | nil => exact Nat.le_succ _
    | cons earlier =>
      exact ((pairwise_cons.mp tracks.nested).1 earlier mem_cons_self).length_le.trans (Nat.le_succ _)
  | setSavePoint | popSavePoint => exact Nat.le_succ _
  | clear => exact Nat.zero_le _

/-- A batch and its log stay together, whatever the calls. -/
theorem Tracks.run (tracks : Tracks hash b log) (calls : List Call)
    (fits : ∀ call ∈ calls, call.Fits) (few : log.operations.length + calls.length < 2 ^ 32) :
    Tracks hash (calls.foldl (WriteBatchInternal.step hash) (b, log)).1
      (calls.foldl (WriteBatchInternal.step hash) (b, log)).2 := by
  induction calls generalizing b log with
  | nil => exact tracks
  | cons call _ ih =>
    rw [length_cons] at few
    have next := tracks.step call (fits call mem_cons_self) (by omega)
    have longer := operations_step tracks (call.perform hash b).1 call
    exact ih next (fun later member => fits later (mem_cons_of_mem _ member))
      (Nat.lt_of_le_of_lt (Nat.add_le_add_right longer _) (by omega))

/-- **Replay is faithful.** Whatever operations are added, refused, rolled back and kept, the batch is replayed as
the operations that survive, in order. Its count and its flags are theirs, and its checksums match. A timed put
must leave room for its time in 2^32 bytes, and the count of operations must fit in 32 bits. -/
theorem write_batch_replays (hash : Hash) (maxBytes : Nat) (isProtected : Bool) (calls : List Call)
    (fits : ∀ call ∈ calls, call.Fits) (few : calls.length < 2 ^ 32) :
    let b := (run hash maxBytes isProtected calls).1
    let log := (run hash maxBytes isProtected calls).2
    iterate recorder [] b = (.ok, log.operations.map Operation.event) ∧
      b.count = (log.operations.filterMap Operation.flag).length ∧
      (∀ flag, flag ∈ b.contentFlags ↔ ∃ op ∈ log.operations, op.flag = some flag) ∧
      verifyChecksum hash b = .ok := by
  have start : Tracks hash (WriteBatch.new maxBytes isProtected) ⟨[], []⟩ :=
    ⟨holds_new hash maxBytes isProtected, rfl, pairwise_singleton _ _⟩
  have tracks := start.run calls fits (by simpa using few)
  change Tracks hash (run hash maxBytes isProtected calls).1 (run hash maxBytes isProtected calls).2 at tracks
  generalize run hash maxBytes isProtected calls = state at tracks ⊢
  obtain ⟨_, log⟩ := state
  obtain ⟨holds, -, -⟩ := tracks
  have flags : (log.operations.map Operation.item).filterMap Item.flag = log.operations.filterMap Operation.flag := by
    rw [filterMap_map]
    exact congrArg (filterMap · _) (funext Operation.item_flag)
  refine ⟨?_, ?_, ?_, ?_⟩
  · rw [holds.iterate, map_map]
    exact congrArg (fun f => (Status.ok, log.operations.map f)) (funext Operation.item_event)
  · rw [holds.count, counted, flags]
  · intro _
    rw [holds.contentFlags, flagsOf, flags]
    simp
  · exact holds.verifyChecksum

/-- A replay of two survivors among refused, rolled back and popped operations, with a limit of 31 bytes. -/
theorem write_batch_replays_two :
    let calls : List Call :=
      [.operation (.put 0 [1] [2]), .setSavePoint, .operation (.logData [9]), .setSavePoint, .operation (.delete 5 [3]),
        .rollbackToSavePoint, .rollbackToSavePoint, .setSavePoint, .operation (.timedPut 7 [4] [5] 6), .popSavePoint,
        .operation (.put 0 [1] [2])]
    iterate recorder [] (run (fun _ _ => 0) 31 true calls).1 = (.ok, [.putCF 0 [1] [2], .timedPutCF 7 [4] [5] 6]) ∧
      (run (fun _ _ => 0) 31 true calls).1.count = 2 := by
  intro calls
  have replay := write_batch_replays (fun _ _ => 0) 31 true calls (by decide) (by decide)
  exact ⟨replay.1.trans (by decide +kernel), replay.2.1.trans (by decide +kernel)⟩

/-- The length of a value with its time wraps: the value is read as empty. -/
theorem readRecord_overflow (size : value.length = 2 ^ 32 - 8) (time : UInt64) :
    readRecord true (Item.entry .valuePreferredSeqno 0 [] (packValueAndWriteTime value time)).bytes =
      .error (.assertionFailed "value.size() >= sizeof(uint64_t)") := by
  set packed := packValueAndWriteTime value time
  have wraps : putLengthPrefixedSlice packed = putLengthPrefixedSlice [] ++ packed := by
    have length : packed.length = 2 ^ 32 := by simp [packed, packValueAndWriteTime, size]
    rw [putLengthPrefixedSlice, length]
    rfl
  have slice : Parses (getSlice Kind.valuePreferredSeqno.message) (putLengthPrefixedSlice []) [] :=
    parses_getSlice (by simp)
  have fails : Rejects (readEntry true .valuePreferredSeqno false)
      ([] ++ (putLengthPrefixedSlice [] ++ (putLengthPrefixedSlice [] ++ [])))
      (.assertionFailed "value.size() >= sizeof(uint64_t)") := by
    exact (Parses.pure 0).rejects (slice.rejects (slice.rejects fun _ => rfl))
  rw [item_bytes_entry, if_pos rfl, if_pos (show Kind.valuePreferredSeqno.hasValue = true from rfl), wraps]
  exact fails packed

private theorem timedPut_overflow (size : value.length = 2 ^ 32 - 8) :
    let op := Operation.timedPut 0 [] value 0
    let state := run (fun _ _ => 0) 0 false [.operation op]
    state.2.operations = [op] ∧
      iterate recorder [] state.1 = (.assertionFailed "value.size() >= sizeof(uint64_t)", []) := by
  intro op state
  set item : Item := .entry .valuePreferredSeqno 0 [] (packValueAndWriteTime value 0)
  set b := appended (fun _ _ => 0) (WriteBatch.new 0 false) item
  have performed : op.perform (fun _ _ => 0) (WriteBatch.new 0 false) = (.ok, b) := by
    rw [Operation.perform, timedPut, withinLimits, if_neg (by simp), if_neg (by omega), if_neg (by decide +kernel),
      addEntry_eq, commit,
      if_neg fun over_ => over_.1 rfl]
  have stepped : state = (b, ⟨[op], []⟩) := by simp [state, run, step, Call.perform, performed, Log.step]
  rw [stepped]
  refine ⟨rfl, ?_⟩
  have rep : b.rep = header 1 ++ item.bytes := rfl
  have loop (s : Iterating (List Event)) (status : s.status = .ok) (input : s.input = item.bytes) :
      iterateLoop recorder s = (.error (.assertionFailed "value.size() >= sizeof(uint64_t)"), s) := by
    rw [iterateLoop, if_pos (.inl ⟨status, input ▸ item_bytes_ne_nil _⟩),
      if_pos (show recorder.continues _ = true from rfl), if_neg (by simp [status])]
    split
    · next failed =>
      rw [input, readRecord_overflow size] at failed
      cases failed
      rfl
    · next read =>
      rw [input, readRecord_overflow size] at read
      cases read
  unfold iterate iterateRange
  rw [rep, drop_left' (length_header 1), length_append, length_header, if_neg (by omega), if_neg (by omega),
    take_of_length_le (by omega)]
  dsimp only
  rw [loop _ rfl rfl]

/-- A value of 2^32 - 8 bytes is accepted, and cannot be replayed. -/
theorem timed_put_of_long_value :
    let op := Operation.timedPut 0 [] (List.replicate (2 ^ 32 - 8) 0) 0
    let state := run (fun _ _ => 0) 0 false [.operation op]
    state.2.operations = [op] ∧
      iterate recorder [] state.1 = (.assertionFailed "value.size() >= sizeof(uint64_t)", []) :=
  timedPut_overflow length_replicate

end Log

end Rocksdb.WriteBatchInternal
