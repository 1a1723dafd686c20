import Rocksdb.FilePicker
import Rocksdb.Lib.Cursor

/-! `LevelIterator` (`db/version_set.cc`): one iterator over the files of a
sorted level, which opens a file when it gets there. Under a merging iterator
that tracks range tombstones it also returns the boundary of a file whose keys
are exhausted, as a sentinel. The options have neither an upper bound nor a
prefix, and reads do not fail. The iterator of a single file is a position in
its keys. -/
namespace Rocksdb.LevelIterator
open FilePicker Lib.Cursor

variable {κ V : Type} [LinearOrder κ]

/-- A file of the level. It may hold no point keys at all. -/
structure LevelFile (κ V : Type) [LinearOrder κ] where
  range : FdWithKeyRange κ
  entries : List (InternalKey κ × V)
  sorted : entries.Pairwise (fun a b => a.1 < b.1)
  proper : range.smallestKey ≤ range.largestKey
  inRange : ∀ e ∈ entries, range.smallestKey ≤ e.1 ∧ e.1 ≤ range.largestKey

/-- `LevelFilesBrief`. An empty level is not supported. -/
structure Level (κ V : Type) [LinearOrder κ] where
  files : List (LevelFile κ V)
  nonempty : files ≠ []
  disjoint : files.Pairwise (fun a b => a.range.largestKey < b.range.smallestKey)

namespace LevelFile
variable (f : LevelFile κ V)

def seekToFirst : Option Nat := if f.entries.length = 0 then none else some 0

def seekToLast : Option Nat := if f.entries.length = 0 then none else some (f.entries.length - 1)

def seek (target : InternalKey κ) : Option Nat :=
  let index := f.entries.findIdx (target ≤ ·.1)
  if index < f.entries.length then some index else none

def seekForPrev (target : InternalKey κ) : Option Nat :=
  let index := f.entries.findIdx (target < ·.1)
  if index = 0 then none else some (index - 1)

def next (index : Nat) : Option Nat := if index + 1 < f.entries.length then some (index + 1) else none

def prev (index : Nat) : Option Nat := if index = 0 then none else some (index - 1)

end LevelFile

/-- The members of a `LevelIterator`. `fileIter` is none for a null pointer and
holds none for an iterator that is not valid; `rangeTombstoneIter` is the file
whose tombstones the merging iterator sees. -/
structure State (κ : Type) where
  fileIndex : Nat
  fileIter : Option (Option Nat)
  toReturnSentinel : Bool
  sentinel : Option (InternalKey κ)
  rangeTombstoneIter : Option Nat
  deriving DecidableEq

section Methods
variable (files : List (LevelFile κ V)) (tracked : Bool)

/-- A new `LevelIterator`. -/
def newLevelIterator : State κ := ⟨files.length, none, false, none, none⟩

def fileSmallestKey (fileIndex : Nat) : Option (InternalKey κ) :=
  files[fileIndex]?.map (·.range.smallestKey)

def fileLargestKey (fileIndex : Nat) : Option (InternalKey κ) :=
  files[fileIndex]?.map (·.range.largestKey)

/-- `FindFile`: the first file that does not end before the target. -/
def findFile (target : InternalKey κ) : Nat := files.findIdx (target ≤ ·.range.largestKey)

/-- A null iterator and no tombstones. -/
def dropFileIterator (st : State κ) : State κ :=
  { st with fileIter := none, rangeTombstoneIter := none }

/-- `InitFileIterator`. -/
def initFileIterator (newFileIndex : Nat) (st : State κ) : State κ :=
  if files.length ≤ newFileIndex then dropFileIterator { st with fileIndex := newFileIndex }
  else if st.fileIter ≠ none ∧ newFileIndex = st.fileIndex then st
  else
    { st with
      fileIndex := newFileIndex, fileIter := some none, rangeTombstoneIter := some newFileIndex }

/-- A call to the iterator of the current file. -/
def moveFileIter (move : LevelFile κ V → Option Nat) (st : State κ) : State κ :=
  { st with fileIter := st.fileIter.map fun _ => files[st.fileIndex]?.bind move }

/-- `TrySetDeleteRangeSentinel`, called only when tombstones are tracked. -/
def trySetDeleteRangeSentinel (boundaryKey : Option (InternalKey κ)) (st : State κ) : State κ :=
  if tracked ∧ st.fileIter = some none then
    { st with toReturnSentinel := true, sentinel := boundaryKey }
  else st

/-- `ClearSentinel`. -/
def clearSentinel (st : State κ) : State κ := { st with toReturnSentinel := false }

/-- The file iterator is null or at its end, and no sentinel stands for it. -/
def State.exhausted (st : State κ) : Bool :=
  !st.toReturnSentinel && (st.fileIter = none || st.fileIter = some none)

/-- `SkipEmptyFileForward`. Every iteration opens the next file, so as many
iterations as there are files are enough. -/
def skipEmptyFileForward : Nat → State κ → State κ
  | 0, st => st
  | fuel + 1, st =>
    if st.exhausted then
      if files.length ≤ st.fileIndex + 1 then dropFileIterator st
      else
        let st := moveFileIter files LevelFile.seekToFirst (initFileIterator files (st.fileIndex + 1) st)
        skipEmptyFileForward fuel (trySetDeleteRangeSentinel tracked (fileLargestKey files st.fileIndex) st)
    else st

/-- `SkipEmptyFileBackward`. -/
def skipEmptyFileBackward : Nat → State κ → State κ
  | 0, st => st
  | fuel + 1, st =>
    if st.exhausted then
      if st.fileIndex = 0 then dropFileIterator st
      else
        let st := moveFileIter files LevelFile.seekToLast (initFileIterator files (st.fileIndex - 1) st)
        skipEmptyFileBackward fuel (trySetDeleteRangeSentinel tracked (fileSmallestKey files st.fileIndex) st)
    else st

/-- `Seek`: the current file is kept when the target lies within it. -/
def seek (target : InternalKey κ) (st : State κ) : State κ :=
  let st := clearSentinel st
  let sameFile := st.fileIter ≠ none ∧
    ∃ f ∈ files[st.fileIndex]?, f.range.smallestKey ≤ target ∧ target ≤ f.range.largestKey
  let st := if sameFile then st else initFileIterator files (findFile files target) st
  let st := moveFileIter files (·.seek target) st
  let st := trySetDeleteRangeSentinel tracked (fileLargestKey files st.fileIndex) st
  skipEmptyFileForward files tracked files.length st

/-- `SeekForPrev`. -/
def seekForPrev (target : InternalKey κ) (st : State κ) : State κ :=
  let st := clearSentinel st
  let newFileIndex := findFile files target
  if newFileIndex = 0 ∧ ∃ f ∈ files[0]?, target < f.range.smallestKey then dropFileIterator st
  else
    let newFileIndex := if files.length ≤ newFileIndex then files.length - 1 else newFileIndex
    let st := moveFileIter files (·.seekForPrev target) (initFileIterator files newFileIndex st)
    -- a target before the file must not lead to the file's own boundary
    let st :=
      if ∃ f ∈ files[st.fileIndex]?, f.range.smallestKey ≤ target then
        trySetDeleteRangeSentinel tracked (fileSmallestKey files st.fileIndex) st
      else st
    skipEmptyFileBackward files tracked files.length st

/-- `SeekToFirst`. -/
def seekToFirst (st : State κ) : State κ :=
  let st := moveFileIter files LevelFile.seekToFirst (initFileIterator files 0 (clearSentinel st))
  skipEmptyFileForward files tracked files.length
    (trySetDeleteRangeSentinel tracked (fileLargestKey files st.fileIndex) st)

/-- `SeekToLast`. -/
def seekToLast (st : State κ) : State κ :=
  let st := moveFileIter files LevelFile.seekToLast (initFileIterator files (files.length - 1) (clearSentinel st))
  skipEmptyFileBackward files tracked files.length
    (trySetDeleteRangeSentinel tracked (fileSmallestKey files st.fileIndex) st)

/-- The file iterator moves from its current key. -/
def moveFromCurrent (move : LevelFile κ V → Nat → Option Nat) (st : State κ) : State κ :=
  moveFileIter files (fun f => st.fileIter.join.bind (move f)) st

/-- `Next`. -/
def next (st : State κ) : State κ :=
  skipEmptyFileForward files tracked files.length (if st.toReturnSentinel then clearSentinel st else
      trySetDeleteRangeSentinel tracked (fileLargestKey files st.fileIndex) (moveFromCurrent files LevelFile.next st))

/-- `Prev`. -/
def prev (st : State κ) : State κ :=
  skipEmptyFileBackward files tracked files.length (if st.toReturnSentinel then clearSentinel st else
      trySetDeleteRangeSentinel tracked (fileSmallestKey files st.fileIndex)
        (moveFromCurrent files (fun _ => LevelFile.prev) st))

/-- One call of the iterator. -/
def call (st : State κ) : Call (InternalKey κ) → State κ
  | .seekToFirst => seekToFirst files tracked st
  | .seekToLast => seekToLast files tracked st
  | .seek target => seek files tracked target st
  | .seekForPrev target => seekForPrev files tracked target st
  | .next => next files tracked st
  | .prev => prev files tracked st

/-- `Valid`, `key` and `value`: a sentinel is a key without a value. -/
def current (st : State κ) : Option (InternalKey κ × Option V) :=
  if st.toReturnSentinel then st.sentinel.map fun key => (key, none)
  else
    st.fileIter.join.bind fun index =>
      (files[st.fileIndex]?.bind (·.entries[index]?)).map fun e => (e.1, some e.2)

end Methods

end Rocksdb.LevelIterator
