import Rocksdb.FilePicker
import Rocksdb.MergeHelper
import Rocksdb.RangeTombstoneFragmenter

/-! A point lookup: `MemTable::Get` (`db/memtable.cc`) over the memtables and
then `Version::Get` (`db/version_set.cc`) over the table files, through
`TableCache::Get` (`db/table_cache.cc`) and `GetContext`
(`table/get_context.cc`). The two parts hand over the operands of a merge in
progress and the newest tombstone seen over the key. Left out are blob values,
user timestamps, read callbacks, the row cache, read errors and merge operators
that ask to merge early (`ShouldMerge`). -/
namespace Rocksdb.PointLookup
open MergeHelper FilePicker RangeTombstoneFragmenter

variable {κ V : Type} [LinearOrder κ] [DecidableEq V]

/-- What stays fixed during one lookup. `target` is none when the caller only
asks for sequence numbers, `doMerge` is false when it asks for the operands
themselves, and `snapshot` is the one of the `ReadOptions`. -/
structure Lookup (κ V : Type) where
  format : ValueFormat κ V
  mergeOperator : Option (MergeOperator κ V)
  target : Option Target
  doMerge : Bool
  key : κ
  sequence : Nat
  snapshot : Option Nat

/-- `LookupKey::internal_key`. -/
def Lookup.ikey (l : Lookup κ V) : InternalKey κ := ⟨l.key, l.sequence, kValueTypeForSeek⟩

/-- The types a point entry can have, blob indexes apart. -/
def isPointType (t : ValueType) : Bool :=
  t = .kTypeValue || t = .kTypeValuePreferredSeqno || t = .kTypeWideColumnEntity ||
    t = .kTypeMerge || t = .kTypeDeletion || t = .kTypeSingleDeletion ||
    t = .kTypeDeletionWithTimestamp

/-- The point entries of a memtable or of a table file, in key order. -/
structure Entries (κ V : Type) [LinearOrder κ] where
  list : List (InternalKey κ × V)
  sorted : list.Pairwise (fun a b => a.1 < b.1)
  types : ∀ e ∈ list, isPointType e.1.type

def Entries.empty : Entries κ V := ⟨[], .nil, nofun⟩

/-- `MemTable`. -/
structure MemTable (κ V : Type) [LinearOrder κ] where
  entries : Entries κ V
  tombstones : List (RangeTombstone κ)
  bloomFilter : Option (κ → Bool)
  noFalseNegatives : ∀ mayContain, bloomFilter = some mayContain → ∀ e ∈ entries.list, mayContain e.1.userKey

/-- A table file: its recorded boundaries and its content. Tombstones are
stored whole, also where they reach past the boundaries. -/
structure Table (κ V : Type) [LinearOrder κ] where
  range : FdWithKeyRange κ
  entries : Entries κ V
  tombstones : List (RangeTombstone κ)
  filter : κ → Bool
  proper : range.smallestKey ≤ range.largestKey
  inRange : ∀ e ∈ entries.list, range.smallestKey ≤ e.1 ∧ e.1 ≤ range.largestKey
  noFalseNegatives : ∀ e ∈ entries.list, filter e.1.userKey

/-- The entries from the lookup key on. -/
def Entries.seek (entries : Entries κ V) (ikey : InternalKey κ) : List (InternalKey κ × V) :=
  entries.list.dropWhile (·.1 < ikey)

/-- `MaxCoveringTombstoneSeqnum` of all tombstones a reader at `upperBound`
sees. -/
def coveringSeqnum (tombstones : List (RangeTombstone κ)) (upperBound : Nat) (key : κ) : Nat :=
  (FragmentedRangeTombstoneIterator.new (fragmentedRangeTombstoneList false [] tombstones)
    upperBound 0).maxCoveringTombstoneSeqnum key

/-- The type an entry counts as: a newer tombstone over it deletes it. -/
def coveredType (maxCoveringTombstoneSeq : Nat) (ikey : InternalKey κ) : ValueType :=
  if isPointType ikey.type ∧ ikey.sequence < maxCoveringTombstoneSeq then .kTypeRangeDeletion
  else ikey.type

/-- The loops of `MemTableRep::Get` and `BlockBasedTable::Get`: the saver is
called on one entry after the other until it returns false. -/
def saveAll {S : Type} (save : InternalKey κ → V → S → Bool × S) : List (InternalKey κ × V) → S → S
  | [], s => s
  | (ikey, value) :: rest, s =>
    if (save ikey value s).1 then saveAll save rest (save ikey value s).2
    else (save ikey value s).2

/-! ## Memtables -/

/-- The changing members of a `Saver`. Operands come newest first. -/
structure Saver (V : Type) where
  status : Status
  foundFinalValue : Bool
  mergeInProgress : Bool
  seq : Nat
  operands : List V
  result : Option (Found V)

variable (l : Lookup κ V)

namespace Saver

/-- `TimedFullMerge` of the operands found so far. -/
def fullMerge (base : BaseValue V) (s : Saver V) : Saver V :=
  match l.target, l.mergeOperator with
  | some target, some op =>
    match timedFullMergeTo l.format op l.key base s.operands.reverse target with
    | .ok found => { s with status := .ok, result := some found }
    | .error status => { s with status := status }
  | _, _ => { s with status := .ok }

/-- A plain value. -/
def savePlain (value : V) (s : Saver V) : Saver V :=
  let s := { s with status := .ok, foundFinalValue := true }
  if l.doMerge = false then { s with operands := s.operands ++ [value] }
  else if s.mergeInProgress then s.fullMerge l (.plainBaseValue value)
  else { s with result := (l.target.map (·.setPlainValue l.format value)).or s.result }

/-- A wide-column entity. -/
def saveEntity (entity : V) (s : Saver V) : Saver V :=
  let s := { s with status := .ok, foundFinalValue := true }
  if l.doMerge = false then
    match l.format.deserializeColumns entity with
    | .ok columns => { s with operands := s.operands ++ [defaultColumn l.format columns] }
    | .error status => { s with status := status }
  else if s.mergeInProgress then s.fullMerge l (.wideBaseValue entity)
  else
    match l.target with
    | none => s
    | some target =>
      match target.setEntity l.format entity with
      | .ok found => { s with result := some found }
      | .error status => { s with status := status }

/-- A deletion of any kind. -/
def saveDeletion (s : Saver V) : Saver V :=
  let s := { s with foundFinalValue := true }
  if s.mergeInProgress then s.fullMerge l .noBaseValue else { s with status := .notFound }

/-- A merge operand; the search goes on unless there is no merge operator. -/
def saveOperand (value : V) (s : Saver V) : Bool × Saver V :=
  match l.mergeOperator with
  | none =>
    (false, { s with
      status := .invalidArgument "merge_operator is not properly initialized."
      foundFinalValue := true })
  | some _ => (true, { s with mergeInProgress := true, operands := s.operands ++ [value] })

/-- The sequence number of the newest entry or tombstone of the key. -/
def noteSeq (maxCoveringTombstoneSeq sequence : Nat) (s : Saver V) : Saver V :=
  if s.seq = kMaxSequenceNumber then { s with seq := max sequence maxCoveringTombstoneSeq } else s

/-- The `switch` of `SaveValue`: whether to go on, and what is known then. -/
def saveType (value : V) (s : Saver V) : ValueType → Bool × Saver V
  | .kTypeValue => (false, s.savePlain l value)
  | .kTypeValuePreferredSeqno =>
    (false, s.savePlain l (l.format.parsePackedValueWithSeqno value).1)
  | .kTypeWideColumnEntity => (false, s.saveEntity l value)
  | .kTypeDeletion | .kTypeDeletionWithTimestamp | .kTypeSingleDeletion | .kTypeRangeDeletion =>
    (false, s.saveDeletion l)
  | .kTypeMerge => s.saveOperand l value
  | _ =>
    (false, { s with status := .corruption "Corrupted value not expected.", foundFinalValue := true })

/-- `SaveValue` of the memtable. -/
def saveValue (maxCoveringTombstoneSeq : Nat) (ikey : InternalKey κ) (value : V)
    (s : Saver V) : Bool × Saver V :=
  if ikey.userKey ≠ l.key then (false, s)
  else
    (s.noteSeq maxCoveringTombstoneSeq ikey.sequence).saveType l value (coveredType maxCoveringTombstoneSeq ikey)

end Saver

/-- The out parameters one part of the lookup hands to the next. -/
structure Progress (V : Type) where
  status : Status
  operands : List V
  maxCoveringTombstoneSeq : Nat
  result : Option (Found V)

/-- `MemTable::Get`: whether a final value was found, the sequence number of
the newest entry, and what is known then. -/
def memTableGet (mem : MemTable κ V) (p : Progress V) : Bool × Nat × Progress V :=
  if mem.entries.list.isEmpty && mem.tombstones.isEmpty then (false, kMaxSequenceNumber, p)
  else
    let maxCovering :=
      if mem.tombstones.isEmpty then p.maxCoveringTombstoneSeq
      else max p.maxCoveringTombstoneSeq (coveringSeqnum mem.tombstones l.sequence l.key)
    let saver : Saver V := ⟨p.status, false, p.status = .mergeInProgress, kMaxSequenceNumber, p.operands, p.result⟩
    let mayContain := (mem.bloomFilter.map (· l.key)).getD true
    let saver :=
      if mayContain then saveAll (Saver.saveValue l maxCovering) (mem.entries.seek l.ikey) saver
      else saver
    let status :=
      if !saver.foundFinalValue && saver.mergeInProgress && saver.status = .ok then .mergeInProgress
      else saver.status
    (saver.foundFinalValue, saver.seq, ⟨status, saver.operands, maxCovering, saver.result⟩)

/-- The memtables, newest first: `GetImpl` and `GetFromList`. -/
def getFromList : List (MemTable κ V) → Progress V → Bool × Progress V
  | [], p => (false, p)
  | mem :: list, p =>
    let got := memTableGet l mem p
    if got.1 then (true, got.2.2)
    else if got.2.2.status.isError then (false, got.2.2)
    else getFromList list got.2.2

/-! ## Table files -/

/-- `GetContext::GetState`. -/
inductive GetState where
  | kNotFound
  | kFound
  | kDeleted
  | kCorrupt
  | kMerge
  | kMergeOperatorFailed
  deriving DecidableEq

/-- The changing members of a `GetContext`. `seq` is none when the caller does
not ask for it. -/
structure GetContext (V : Type) where
  state : GetState
  seq : Option Nat
  operands : List V
  result : Option (Found V)

namespace GetContext

/-- `MergeWithNoBaseValue` and its two siblings, with `PostprocessMerge`. -/
def mergeWith (base : BaseValue V) (ctx : GetContext V) : GetContext V :=
  match l.target, l.mergeOperator with
  | some target, some op =>
    match timedFullMergeTo l.format op l.key base ctx.operands.reverse target with
    | .ok found => { ctx with result := some found }
    | .error status =>
      { ctx with state := if status.1 = .mergeOperatorFailed then .kMergeOperatorFailed else .kCorrupt }
  | _, _ => ctx

/-- A plain value. -/
def savePlain (value : V) (ctx : GetContext V) : GetContext V :=
  match ctx.state with
  | .kNotFound =>
    let ctx := { ctx with state := .kFound }
    if l.doMerge then
      { ctx with result := (l.target.map (·.setPlainValue l.format value)).or ctx.result }
    else { ctx with operands := ctx.operands ++ [value] }
  | .kMerge =>
    let ctx := { ctx with state := .kFound }
    if l.doMerge then ctx.mergeWith l (.plainBaseValue value)
    else { ctx with operands := ctx.operands ++ [value] }
  | _ => ctx

/-- The default column of an entity joins the operands. -/
def pushDefaultColumn (entity : V) (ctx : GetContext V) : GetContext V :=
  match l.format.deserializeColumns entity with
  | .ok columns => { ctx with operands := ctx.operands ++ [defaultColumn l.format columns] }
  | .error _ => { ctx with state := .kCorrupt }

/-- A wide-column entity. -/
def saveEntity (entity : V) (ctx : GetContext V) : GetContext V :=
  match ctx.state with
  | .kNotFound =>
    let ctx := { ctx with state := .kFound }
    if l.doMerge then
      match l.target with
      | none => ctx
      | some target =>
        match target.setEntity l.format entity with
        | .ok found => { ctx with result := some found }
        | .error _ => { ctx with state := .kCorrupt }
    else ctx.pushDefaultColumn l entity
  | .kMerge =>
    let ctx := { ctx with state := .kFound }
    if l.doMerge then ctx.mergeWith l (.wideBaseValue entity) else ctx.pushDefaultColumn l entity
  | _ => ctx

/-- A deletion of any kind. -/
def saveDeletion (ctx : GetContext V) : GetContext V :=
  match ctx.state with
  | .kNotFound => { ctx with state := .kDeleted }
  | .kMerge =>
    let ctx := { ctx with state := .kFound }
    if l.doMerge then ctx.mergeWith l .noBaseValue else ctx
  | _ => ctx

/-- The sequence number of the newest entry or tombstone of the key. -/
def noteSeq (maxCoveringTombstoneSeq sequence : Nat) (ctx : GetContext V) : GetContext V :=
  { ctx with
    seq := ctx.seq.map fun seq =>
      max (if seq = kMaxSequenceNumber then sequence else seq) maxCoveringTombstoneSeq }

/-- The `switch` of `SaveValue`. -/
def saveType (value : V) (ctx : GetContext V) : ValueType → Bool × GetContext V
  | .kTypeValue => (false, ctx.savePlain l value)
  | .kTypeValuePreferredSeqno =>
    (false, ctx.savePlain l (l.format.parsePackedValueWithSeqno value).1)
  | .kTypeWideColumnEntity => (false, ctx.saveEntity l value)
  | .kTypeDeletion | .kTypeDeletionWithTimestamp | .kTypeSingleDeletion | .kTypeRangeDeletion =>
    (false, ctx.saveDeletion l)
  | .kTypeMerge => (true, { ctx with state := .kMerge, operands := ctx.operands ++ [value] })
  | _ => (false, ctx)

/-- `GetContext::SaveValue`. -/
def saveValue (maxCoveringTombstoneSeq : Nat) (ikey : InternalKey κ) (value : V)
    (ctx : GetContext V) : Bool × GetContext V :=
  if ikey.userKey ≠ l.key then (false, ctx)
  else
    (ctx.noteSeq maxCoveringTombstoneSeq ikey.sequence).saveType l value (coveredType maxCoveringTombstoneSeq ikey)

end GetContext

/-- `TableCache::Get`: first the tombstones of the file, then its entries. -/
def tableCacheGet (table : Table κ V) (maxCovering : Nat) (ctx : GetContext V) :
    Nat × GetContext V :=
  let maxCovering :=
    if table.tombstones.isEmpty then maxCovering
    else max maxCovering (coveringSeqnum table.tombstones (l.snapshot.getD kMaxSequenceNumber) l.key)
  (maxCovering,
    if table.filter l.key then saveAll (GetContext.saveValue l maxCovering) (table.entries.seek l.ikey) ctx
    else ctx)

variable (levels : List (List (Table κ V)))

/-- The boundaries the file picker works with. -/
def ranges : List (List (FdWithKeyRange κ)) :=
  levels.map (·.map (·.range))

/-- The status with which `Version::Get` returns from within its loop. -/
def GetState.returns : GetState → Option Status
  | .kNotFound | .kMerge => none
  | .kFound => some .ok
  | .kDeleted => some .notFound
  | .kCorrupt => some (.corruption "corrupted key for ")
  | .kMergeOperatorFailed => some .mergeOperatorFailed

/-- The file a position of the picker stands for. -/
def tableAt (found : Nat × Nat) : Option (Table κ V) :=
  levels[found.1]?.bind (·[found.2]?)

/-- The loop of `Version::Get`. Once a tombstone over the key has been seen the
remaining files are not read. The status is the one to return with, if any. -/
def versionLoop :
    Nat → FilePicker.State → Status × Nat × GetContext V → Option Status × Status × Nat × GetContext V
  | 0, _, st => (none, st)
  | fuel + 1, picker, st =>
    match getNextFile (ranges levels) l.ikey (budget (ranges levels) + 1) picker with
    | (none, _) => (none, st)
    | (some found, picker) =>
      if 0 < st.2.1 then (none, st)
      else
        match tableAt levels found with
        | none => (none, st)
        | some table =>
          let got := tableCacheGet l table st.2.1 st.2.2
          match got.2.state.returns with
          | some status => (some status, .ok, got)
          | none => versionLoop fuel picker (.ok, got)

/-- What `Version::Get` does after its loop. -/
def finishVersionGet (status : Status) (ctx : GetContext V) : Status × Option (Found V) :=
  if ctx.state = .kMerge then
    if l.doMerge = false then (.ok, ctx.result)
    else
      match l.mergeOperator, l.target with
      | none, _ => (.invalidArgument "merge_operator is not properly initialized.", ctx.result)
      | some _, none => (status, ctx.result)
      | some op, some target =>
        -- the beginning of the history of the key
        match timedFullMergeTo l.format op l.key .noBaseValue ctx.operands.reverse target with
        | .ok found => (.ok, some found)
        | .error status => (status, ctx.result)
  else (.notFound, ctx.result)

/-- `Version::Get`. -/
def versionGet (seq : Option Nat) (p : Progress V) : Option Nat × Progress V :=
  let ctx : GetContext V := ⟨if p.status = .ok then .kNotFound else .kMerge, seq, p.operands, p.result⟩
  let (returned, status, maxCovering, ctx) := versionLoop l levels (budget (ranges levels) + 1)
    (newPicker (ranges levels) l.ikey) (p.status, p.maxCoveringTombstoneSeq, ctx)
  match returned with
  | some status => (ctx.seq, ⟨status, ctx.operands, maxCovering, ctx.result⟩)
  | none =>
    let finished := finishVersionGet l status ctx
    (ctx.seq, ⟨finished.1, ctx.operands, maxCovering, finished.2⟩)

/-! ## The whole lookup -/

/-- Memtables newest first and the levels of a version. Below level 0 the
files of a level are disjoint as internal key ranges; the boundaries of a level
0 file hold all its tombstones. -/
structure Store (κ V : Type) [LinearOrder κ] where
  memtables : List (MemTable κ V)
  levels : List (List (Table κ V))
  sorted : ∀ files ∈ levels.tail, files.Pairwise (fun a b => a.range.largestKey < b.range.smallestKey)
  whole : ∀ files ∈ levels.head?, ∀ f ∈ files, ∀ t ∈ f.tombstones,
    f.range.smallestKey.userKey ≤ t.startKey ∧ t.endKey ≤ f.range.largestKey.userKey

/-- `GetImpl`: the memtables, then the files. -/
def getImpl (store : Store κ V) : Status × Option (Found V) :=
  let got := getFromList l store.memtables ⟨.ok, [], 0, none⟩
  if got.1 || got.2.status.isError then (got.2.status, got.2.result)
  else
    let p := (versionGet l store.levels none got.2).2
    (p.status, p.result)

end Rocksdb.PointLookup
