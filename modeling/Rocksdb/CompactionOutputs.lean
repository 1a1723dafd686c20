import Rocksdb.RangeDelAggregator

/-! The files a subcompaction writes (`db/compaction/compaction_outputs.cc`):
its sorted stream of point keys and tombstone start keys is cut into groups,
one for each file, and `AddRangeDels` adds the range tombstones to a file and
extends its boundaries. Statistics and size estimates are left out. -/
namespace Rocksdb.CompactionOutputs
open RangeDelAggregator

variable {κ : Type} [LinearOrder κ]

/-- What `AddRangeDels` reads of its subcompaction. `deeperLevels` are the user
key boundaries of the files in each level below the output level, and `leveled`
says that the compaction is one of levels, not into level 0. -/
structure Subcompaction (κ : Type) where
  agg : CompactionRangeDelAggregator κ
  bottommostLevel : Bool
  leveled : Bool
  deeperLevels : List (List (κ × κ))
  compStart : Option κ
  compEnd : Option κ

/-- `earliest_snapshot`. -/
def Subcompaction.earliestSnapshot (sub : Subcompaction κ) : Nat :=
  sub.agg.snapshots.headD kMaxSequenceNumber

/-- `FileMetaData`: the recorded boundaries, empty for an empty file. -/
structure FileMetaData (κ : Type) where
  smallest : Option (InternalKey κ)
  largest : Option (InternalKey κ)
  deriving DecidableEq

/-- `UpdateBoundariesForRange`. -/
def FileMetaData.updateBoundariesForRange (file : FileMetaData κ) (start finish : InternalKey κ) :
    FileMetaData κ where
  smallest := if file.smallest.all (start < ·) then some start else file.smallest
  largest := if file.largest.all (· < finish) then some finish else file.largest

/-! ## Deeper levels -/

/-- One level of a search from a key on: whether its first file that does not end
before the key starts early enough, and the files from there on. -/
def scanFrom (key : κ) (reaches : κ → Bool) : List (κ × κ) → Bool × List (κ × κ)
  | [] => (false, [])
  | f :: files => if f.2 < key then scanFrom key reaches files else (reaches f.1, f :: files)

/-- All levels; the search ends at the first overlap. -/
def scanEach (scan : List (κ × κ) → Bool × List (κ × κ)) : List (List (κ × κ)) → Bool × List (List (κ × κ))
  | [] => (true, [])
  | files :: levels =>
    match scan files with
    | (true, files) => (false, files :: levels)
    | (false, files) =>
      let (notExists, levels) := scanEach scan levels
      (notExists, files :: levels)

variable (sub : Subcompaction κ)

/-- `KeyRangeNotExistsBeyondOutputLevel`. `levelPtrs` are the files of each
level not yet passed. -/
def keyRangeNotExistsBeyondOutputLevel (beginKey endKey : κ)
    (levelPtrs : List (List (κ × κ))) : Bool × List (List (κ × κ)) :=
  if sub.bottommostLevel then (true, levelPtrs)
  else if sub.leveled then scanEach (scanFrom beginKey fun first => !decide (endKey ≤ first)) levelPtrs
  else (false, levelPtrs)

/-- `KeyNotExistsBeyondOutputLevel`. -/
def keyNotExistsBeyondOutputLevel (userKey : κ) (levelPtrs : List (List (κ × κ))) :
    Bool × List (List (κ × κ)) :=
  if sub.bottommostLevel then (true, levelPtrs)
  else if sub.leveled then scanEach (scanFrom userKey (· ≤ userKey)) levelPtrs
  else (false, levelPtrs)

/-! ## AddRangeDels -/

/-- The changing variables of `AddRangeDels`: `added` is what the builder got. -/
structure Adding (κ : Type) where
  reachedLowerBound : Bool
  file : FileMetaData κ
  added : List (Tombstone κ)
  levelPtrs : List (List (κ × κ))

/-- `tombstone_start` with its user key raised to that of the lower bound. -/
def raisedStart (lowerBound : Option (InternalKey κ)) (t : Tombstone κ) : InternalKey κ :=
  match lowerBound with
  | none => t.parsedStartKey
  | some lower =>
    if t.startKey < lower.userKey then { t.parsedStartKey with userKey := lower.userKey }
    else t.parsedStartKey

/-- `tombstone_start` clamped to the lower bound. -/
def clampedStart (lowerBound : Option (InternalKey κ)) (t : Tombstone κ) : InternalKey κ :=
  match lowerBound with
  | none => raisedStart lowerBound t
  | some lower => if raisedStart lowerBound t < lower then lower else raisedStart lowerBound t

/-- `tombstone_end` clamped to the upper bound. -/
def clampedEnd (upperBound : Option (InternalKey κ)) (t : Tombstone κ) : InternalKey κ :=
  match upperBound with
  | none => t.parsedEndKey
  | some upper => if upper < t.parsedEndKey then upper else t.parsedEndKey

/-- The loop of `AddRangeDels` over the fragments between the bounds. -/
def addLoop (lowerBound upperBound : Option (InternalKey κ)) :
    List (Tombstone κ) → Adding κ → Adding κ
  | [], st => st
  | t :: rest, st =>
    if !st.reachedLowerBound && lowerBound.any (t.parsedEndKey ≤ ·) then
      addLoop lowerBound upperBound rest st
    else
      let st := { st with reachedLowerBound := true }
      let considerDrop : Bool := t.seq ≤ sub.earliestSnapshot
      if considerDrop && sub.bottommostLevel then addLoop lowerBound upperBound rest st
      else if upperBound.any (· < raisedStart lowerBound t) then st
      else
        let start := clampedStart lowerBound t
        let finish := clampedEnd upperBound t
        let (dropped, levelPtrs) :=
          if considerDrop then
            keyRangeNotExistsBeyondOutputLevel sub start.userKey finish.userKey st.levelPtrs
          else (false, st.levelPtrs)
        if dropped then addLoop lowerBound upperBound rest { st with levelPtrs := levelPtrs }
        else
          addLoop lowerBound upperBound rest
            { st with
              levelPtrs := levelPtrs
              added := st.added ++ [t]
              file := st.file.updateBoundariesForRange start finish }

/-- Every user key from its first internal key on. -/
def beforeKey (userKey : κ) : InternalKey κ := ⟨userKey, kMaxSequenceNumber, .kTypeRangeDeletion⟩

/-- `lower_bound`. -/
def lowerBound (isFirst : Bool) (rangeTombstoneLowerBound : Option (InternalKey κ))
    (file : FileMetaData κ) : Option (InternalKey κ) :=
  if isFirst then sub.compStart.map beforeKey else rangeTombstoneLowerBound.or file.smallest

/-- `upper_bound`. -/
def upperBound (nextTableMinKey : Option (InternalKey κ))
    (file : FileMetaData κ) : Option (InternalKey κ) :=
  match nextTableMinKey with
  | none => sub.compEnd.map beforeKey
  | some next =>
    if file.largest.any (·.userKey = next.userKey) then file.largest
    else some (beforeKey next.userKey)

/-- A written file. -/
structure OutputFile (κ : Type) where
  file : FileMetaData κ
  tombstones : List (Tombstone κ)
  deriving DecidableEq

/-- `AddRangeDels`. -/
def addRangeDels (isFirst : Bool)
    (rangeTombstoneLowerBound nextTableMinKey : Option (InternalKey κ)) (file : FileMetaData κ)
    (levelPtrs : List (List (κ × κ))) : OutputFile κ × List (List (κ × κ)) :=
  let lower := lowerBound sub isFirst rangeTombstoneLowerBound file
  let upper := upperBound sub nextTableMinKey file
  if ∃ l ∈ lower, ∃ u ∈ upper, u < l then (⟨file, []⟩, levelPtrs)
  else
    let st := addLoop sub lower upper (sub.agg.newIterator lower upper) ⟨false, file, [], levelPtrs⟩
    (⟨st.file, st.added⟩, st.levelPtrs)

/-! ## The files of a subcompaction -/

/-- A key of the output stream. A tombstone start key only opens a file. -/
structure StreamKey (κ : Type) where
  key : InternalKey κ
  isRangeDel : Bool
  deriving DecidableEq

/-- The boundaries of a file before its tombstones: those of its point keys. -/
def pointBoundaries (group : List (StreamKey κ)) : FileMetaData κ :=
  let points := group.filter (!·.isRangeDel)
  ⟨points.head?.map (·.key), points.getLast?.map (·.key)⟩

/-- `range_tombstone_lower_bound_`: the tombstone start key the file was opened
at, if it was one. -/
def rangeTombstoneLowerBound (group : List (StreamKey κ)) : Option (InternalKey κ) :=
  (group.head?.filter (·.isRangeDel)).map (·.key)

/-- The files written for consecutive groups of the stream. The next file
begins with the first key of the next group. -/
def outputFiles : Bool → List (List (κ × κ)) → List (List (StreamKey κ)) → List (OutputFile κ)
  | _, _, [] => []
  | isFirst, levelPtrs, group :: groups =>
    let nextTableMinKey := (groups.head?.bind List.head?).map (·.key)
    let (file, levelPtrs) := addRangeDels sub isFirst (rangeTombstoneLowerBound group) nextTableMinKey
      (pointBoundaries group) levelPtrs
    file :: outputFiles false levelPtrs groups

/-- A whole subcompaction. -/
def subcompactionOutputs (groups : List (List (StreamKey κ))) : List (OutputFile κ) :=
  outputFiles sub true sub.deeperLevels groups

end Rocksdb.CompactionOutputs
