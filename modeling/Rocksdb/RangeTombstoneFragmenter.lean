import Mathlib.Data.List.Sort
import Rocksdb.DbFormat

/-! `FragmentedRangeTombstoneList` and the covering lookup of its iterator
(`db/range_tombstone_fragmenter.{h,cc}`), without user timestamps. The sweep
keeps the open end keys in a sorted set and flushes fragments whenever the
start key moves. -/
namespace Rocksdb.RangeTombstoneFragmenter

variable {κ : Type} [LinearOrder κ]

/-- `RangeTombstoneStack`: one fragment and the slice of `tombstone_seqs_`
between its two indices. -/
structure RangeTombstoneStack (κ : Type) where
  startKey : κ
  endKey : κ
  seqs : List Nat
  deriving DecidableEq, Repr

/-- The working variables of `FragmentTombstones`. -/
structure Sweep (κ : Type) where
  curStartKey : κ
  /-- `cur_end_keys`, a set ordered by internal key. -/
  curEndKeys : List (InternalKey κ)
  tombstones : List (RangeTombstoneStack κ)

/-- `cur_end_keys.emplace`. -/
def emplace (key : InternalKey κ) (keys : List (InternalKey κ)) : List (InternalKey κ) :=
  if key ∈ keys then keys else keys.orderedInsert (· ≤ ·) key

/-- Compaction drops every sequence number that no snapshot preserves. The
sequence numbers come newest first; `nextSnapshot` is the snapshot below the
last one kept. -/
def preservedSeqs (snapshots : List Nat) : Nat → List Nat → List Nat
  | _, [] => []
  | nextSnapshot, seq :: rest =>
    if seq ≤ nextSnapshot then
      -- `std::lower_bound` and its predecessor: the last snapshot below `seq`
      match (snapshots.takeWhile (· < seq)).getLast? with
      | none => [seq]
      | some snapshot => seq :: preservedSeqs snapshots snapshot rest
    else preservedSeqs snapshots nextSnapshot rest

variable (forCompaction : Bool) (snapshots : List Nat)

/-- The sequence numbers written for one fragment: sorted newest first and,
for compaction, thinned to one for each snapshot stripe. -/
def seqnumsToFlush (keys : List (InternalKey κ)) : List Nat :=
  let sorted := (keys.map (·.sequence)).insertionSort (· ≥ ·)
  if forCompaction then preservedSeqs snapshots kMaxSequenceNumber sorted else sorted

/-- The loop of `flush_current_tombstones` from the iterator `it`, given as
the end keys left to visit. It returns the fragments, and the end keys still
open when `next_start_key` was reached. -/
def flushLoop (nextStartKey : κ) :
    κ → List (InternalKey κ) → List (RangeTombstoneStack κ) × Option (List (InternalKey κ))
  | _, [] => ([], none)
  | curStartKey, it :: rest =>
    if curStartKey = it.userKey then
      -- empty tombstone
      flushLoop nextStartKey curStartKey rest
    else
      let seqs := seqnumsToFlush forCompaction snapshots (it :: rest)
      if nextStartKey ≤ it.userKey then
        ([⟨curStartKey, nextStartKey, seqs⟩], some (it :: rest))
      else
        let (flushed, opened) := flushLoop nextStartKey it.userKey rest
        (⟨curStartKey, it.userKey, seqs⟩ :: flushed, opened)

/-- `flush_current_tombstones`: write the fragments that end before the next
start key and keep only the end keys that reach it. -/
def flushCurrentTombstones (sweep : Sweep κ)
    (nextStartKey : κ) : Sweep κ :=
  let (flushed, opened) := flushLoop forCompaction snapshots nextStartKey sweep.curStartKey sweep.curEndKeys
  { curStartKey := nextStartKey
    curEndKeys := opened.getD []
    tombstones := sweep.tombstones ++ flushed }

/-- One iteration of `FragmentTombstones`. -/
def fragmentStep (sweep : Sweep κ)
    (tombstone : RangeTombstone κ) : Sweep κ :=
  let sweep :=
    if sweep.curEndKeys ≠ [] ∧ sweep.curStartKey ≠ tombstone.startKey then
      flushCurrentTombstones forCompaction snapshots sweep tombstone.startKey
    else sweep
  { sweep with
    curStartKey := tombstone.startKey
    curEndKeys := emplace ⟨tombstone.endKey, tombstone.seq, .kTypeRangeDeletion⟩ sweep.curEndKeys }

/-- `FragmentTombstones` over tombstones sorted by start key. The first
tombstone meets an empty `cur_end_keys` and only opens its range. -/
def fragmentTombstones :
    List (RangeTombstone κ) → List (RangeTombstoneStack κ)
  | [] => []
  | first :: rest =>
    let opened : Sweep κ := ⟨first.startKey, [⟨first.endKey, first.seq, .kTypeRangeDeletion⟩], []⟩
    let sweep := rest.foldl (fragmentStep forCompaction snapshots) opened
    match sweep.curEndKeys.getLast? with
    | none => sweep.tombstones
    | some last =>
      (flushCurrentTombstones forCompaction snapshots sweep last.userKey).tombstones

/-- The constructor of `FragmentedRangeTombstoneList`: tombstones that do not
already come in internal key order are sorted first. -/
def fragmentedRangeTombstoneList
    (unfragmented : List (RangeTombstone κ)) : List (RangeTombstoneStack κ) :=
  if unfragmented.IsChain (fun a b => a.serializeKey ≤ b.serializeKey) then
    fragmentTombstones forCompaction snapshots unfragmented
  else
    fragmentTombstones forCompaction snapshots
      (unfragmented.insertionSort (fun a b => a.serializeKey ≤ b.serializeKey))

/-- `FragmentedRangeTombstoneIterator`: a position in the fragments and one in
the sequence numbers of that fragment. `pos = tombstones.length` is `end()`. -/
structure FragmentedRangeTombstoneIterator (κ : Type) where
  tombstones : List (RangeTombstoneStack κ)
  upperBound : Nat
  lowerBound : Nat
  pos : Nat
  seqPos : Nat

namespace FragmentedRangeTombstoneIterator
variable (it : FragmentedRangeTombstoneIterator κ)

/-- A new iterator is invalid. -/
def new (tombstones : List (RangeTombstoneStack κ)) (upperBound lowerBound : Nat) :
    FragmentedRangeTombstoneIterator κ :=
  ⟨tombstones, upperBound, lowerBound, tombstones.length, 0⟩

/-- `*pos_`, when the iterator is valid. -/
def stack? : Option (RangeTombstoneStack κ) :=
  it.tombstones[it.pos]?

/-- `*seq_pos_`, when `ValidPos()`. -/
def seq? : Option Nat :=
  it.stack?.bind (·.seqs[it.seqPos]?)

/-- `SetMaxVisibleSeqAndTimestamp`: the first sequence number of the stack not
above the upper bound. -/
def setMaxVisibleSeq : FragmentedRangeTombstoneIterator κ :=
  { it with seqPos := (it.stack?.map (·.seqs.findIdx (· ≤ it.upperBound))).getD 0 }

/-- `SeekToCoveringTombstone`: the first fragment that ends after the target. -/
def seekToCoveringTombstone (target : κ) :
    FragmentedRangeTombstoneIterator κ :=
  setMaxVisibleSeq { it with pos := it.tombstones.findIdx (target < ·.endKey) }

/-- `MaxCoveringTombstoneSeqnum`. -/
def maxCoveringTombstoneSeqnum (target : κ) : Nat :=
  let it := it.seekToCoveringTombstone target
  match it.stack?, it.seq? with
  | some stack, some seq => if stack.startKey ≤ target then seq else 0
  | _, _ => 0

end FragmentedRangeTombstoneIterator

end Rocksdb.RangeTombstoneFragmenter
