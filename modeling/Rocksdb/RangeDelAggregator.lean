import Rocksdb.RangeTombstoneFragmenter

/-! Range tombstones during a compaction (`db/range_del_aggregator.{h,cc}`):
tombstones truncated to the boundaries of the file they come from, and the list of
fragments to write out. User timestamps are left out. -/
namespace Rocksdb.RangeDelAggregator
open RangeTombstoneFragmenter

variable {κ : Type} [LinearOrder κ]

/-- The tombstone an iterator over fragments stands on: a fragment and one of
its sequence numbers. -/
structure Tombstone (κ : Type) where
  startKey : κ
  endKey : κ
  seq : Nat
  deriving DecidableEq

namespace Tombstone

/-- `parsed_start_key`. -/
def parsedStartKey (t : Tombstone κ) : InternalKey κ := ⟨t.startKey, t.seq, .kTypeRangeDeletion⟩

/-- `parsed_end_key`. -/
def parsedEndKey (t : Tombstone κ) : InternalKey κ :=
  ⟨t.endKey, kMaxSequenceNumber, .kTypeRangeDeletion⟩

end Tombstone

/-- What an iterator visits with `Next`: every sequence number of every
fragment. -/
def allTombstones (fragments : List (RangeTombstoneStack κ)) : List (Tombstone κ) :=
  fragments.flatMap fun st => st.seqs.map (⟨st.startKey, st.endKey, ·⟩)

/-! ## Truncation -/

/-- The bounds of a `TruncatedRangeDelIterator`. -/
structure Truncation (κ : Type) where
  smallest : Option (InternalKey κ)
  largest : Option (InternalKey κ)

/-- The constructor of `TruncatedRangeDelIterator`, from the boundaries of a
file. -/
def Truncation.ofBoundaries (smallest largest : Option (InternalKey κ)) : Truncation κ where
  smallest := smallest.map ({ · with type := .kTypeMaxValid })
  largest := largest.map fun largest =>
    if largest.type = .kTypeRangeDeletion ∧ largest.sequence = kMaxSequenceNumber then
      -- the boundary was extended by a tombstone
      largest
    else if largest.sequence = 0 then largest
    else ⟨largest.userKey, largest.sequence - 1, .kTypeMaxValid⟩

namespace Truncation
variable (bounds : Truncation κ) (t : Tombstone κ)

/-- `start_key`. -/
def startKey : InternalKey κ :=
  match bounds.smallest with
  | none => t.parsedStartKey
  | some smallest => if smallest ≤ t.parsedStartKey then t.parsedStartKey else smallest

/-- `end_key`. -/
def endKey : InternalKey κ :=
  match bounds.largest with
  | none => t.parsedEndKey
  | some largest => if t.parsedEndKey ≤ largest then t.parsedEndKey else largest

/-- `Valid` of an iterator that stands on the tombstone. -/
def valid : Bool :=
  bounds.smallest.all (· < t.parsedEndKey) && bounds.largest.all (t.parsedStartKey < ·)

end Truncation

/-- A truncated tombstone: what `start_key`, `end_key` and `seq` return, and
where its fragment ends. -/
structure TruncatedTombstone (κ : Type) where
  startKey : InternalKey κ
  endKey : InternalKey κ
  seq : Nat
  fragmentEnd : κ
  deriving DecidableEq

/-- `TruncatedRangeDelIterator`, as the tombstones it goes through from
`SeekToFirst` on. -/
structure TruncatedRangeDelIterator (κ : Type) where
  bounds : Truncation κ
  tombstones : List (TruncatedTombstone κ)

namespace TruncatedRangeDelIterator

def new (bounds : Truncation κ) (tombstones : List (Tombstone κ)) : TruncatedRangeDelIterator κ :=
  let reached := match bounds.smallest with
    | none => tombstones
    | some smallest => tombstones.dropWhile (·.endKey ≤ smallest.userKey)
  ⟨bounds, (reached.takeWhile bounds.valid).map fun t =>
    ⟨bounds.startKey t, bounds.endKey t, t.seq, t.endKey⟩⟩

/-- `Seek`: what is left from the first fragment that ends after a user key. -/
def seek (it : TruncatedRangeDelIterator κ) (target : κ) : List (TruncatedTombstone κ) :=
  if it.bounds.largest.any (· ≤ ⟨target, kMaxSequenceNumber, .kTypeRangeDeletion⟩) then []
  else it.tombstones.dropWhile (·.fragmentEnd ≤ target)

end TruncatedRangeDelIterator

/-! ## The aggregator -/

/-- The fragments of one input file and its boundaries. -/
structure InputFile (κ : Type) where
  fragments : List (RangeTombstoneStack κ)
  bounds : Truncation κ

/-- `CompactionRangeDelAggregator`: the snapshots and the input files. -/
structure CompactionRangeDelAggregator (κ : Type) where
  snapshots : List Nat
  parents : List (InputFile κ)

namespace CompactionRangeDelAggregator

/-- `TruncatedRangeDelMergingIter`: the tombstones that end after the lower
bound and start at or before the upper bound, by start key. -/
def mergedTombstones (agg : CompactionRangeDelAggregator κ) (lowerBound upperBound : Option (InternalKey κ)) :
    List (TruncatedTombstone κ) :=
  let children := agg.parents.map fun file =>
    let child := TruncatedRangeDelIterator.new file.bounds (allTombstones file.fragments)
    match lowerBound with
    | none => child.tombstones
    | some lower => (child.seek lower.userKey).dropWhile (·.endKey ≤ lower)
  (children.flatten.insertionSort (fun a b => a.startKey ≤ b.startKey)).takeWhile fun t =>
    upperBound.all (t.startKey ≤ ·)

/-- `key` and `value` of the merging iterator, as the fragmenter takes them. -/
def TruncatedTombstone.range? (t : TruncatedTombstone κ) : Option (RangeTombstone κ) :=
  if ordered : t.startKey.userKey ≤ t.endKey.userKey then
    some ⟨t.startKey.userKey, t.endKey.userKey, t.seq, ordered⟩
  else none

/-- `NewIterator`: the fragments between two bounds, one sequence number for
each stripe. -/
def newIterator (agg : CompactionRangeDelAggregator κ) (lowerBound upperBound : Option (InternalKey κ)) :
    List (Tombstone κ) :=
  allTombstones (fragmentedRangeTombstoneList true agg.snapshots
    ((agg.mergedTombstones lowerBound upperBound).filterMap TruncatedTombstone.range?))

end CompactionRangeDelAggregator

end Rocksdb.RangeDelAggregator
