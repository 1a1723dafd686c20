import Mathlib.Data.Finset.Basic
import Rocksdb.DbFormat
import Rocksdb.Lib.KeyedList

/-! `VersionBuilder` (`db/version_builder.cc`): the version that a list of edits makes
of a base version. The builder keeps, per level, the files added and the numbers
of the files deleted, the level every touched file is on, and the blob files that
were touched together with what changed since the base. `saveTo` merges all of it
with the base and checks the result.

Files that were found missing are only tracked by a builder of another mode and are
left out here, as is the cache reservation for file metadata. -/
namespace Rocksdb.VersionBuilder

open Lib
open Function (update)

/-! ## Versions -/

def kInvalidBlobFileNumber : Nat := 0

def kUnknownEpochNumber : Nat := 0

/-- `FileMetaData`: what the builder reads of a table file, and the rest, which it
only copies. -/
structure FileMetaData (κ μ : Type) where
  number : Nat
  smallest : InternalKey κ
  largest : InternalKey κ
  smallestSeqno : Nat
  largestSeqno : Nat
  epochNumber : Nat
  oldestBlobFileNumber : Nat
  rest : μ
  deriving DecidableEq

/-- `SharedBlobFileMetaData`, with the fields of a `BlobFileAddition`. -/
structure SharedBlobFileMetaData where
  blobFileNumber : Nat
  totalBlobCount : UInt64
  totalBlobBytes : UInt64
  checksumMethod : List UInt8
  checksumValue : List UInt8
  deriving DecidableEq

/-- `BlobFileMetaData`. -/
structure BlobFileMetaData where
  sharedMeta : SharedBlobFileMetaData
  linkedSsts : Finset Nat
  garbageBlobCount : UInt64
  garbageBlobBytes : UInt64
  deriving DecidableEq

/-- `GetBlobFileNumber`. -/
def BlobFileMetaData.blobFileNumber (blob : BlobFileMetaData) : Nat := blob.sharedMeta.blobFileNumber

/-- `EpochNumberRequirement`. -/
inductive EpochNumberRequirement where
  | kMightMissing
  | kMustPresent
  deriving DecidableEq, Repr

/-- `VersionStorageInfo`: the files of every level, the blob files, and the compact
cursors. -/
structure VersionStorageInfo (κ μ : Type) where
  numLevels : Nat
  files : Nat → List (FileMetaData κ μ)
  blobFiles : List BlobFileMetaData
  epochNumberRequirement : EpochNumberRequirement
  forceConsistencyChecks : Bool
  compactCursors : Nat → Option (InternalKey κ)

variable {κ μ : Type}

namespace VersionStorageInfo
variable (v : VersionStorageInfo κ μ)

/-- A version without files, to save into. -/
def new (numLevels : Nat) (requirement : EpochNumberRequirement) (force : Bool) : VersionStorageInfo κ μ where
  numLevels := numLevels
  files := fun _ => []
  blobFiles := []
  epochNumberRequirement := requirement
  forceConsistencyChecks := force
  compactCursors := fun _ => none

/-- The level of `GetFileLocation`. -/
def getFileLocation (number : Nat) : Option Nat :=
  (List.range v.numLevels).find? fun level => (v.files level).any (·.number == number)

/-- `GetFileMetaDataByNumber`. -/
def getFileMetaDataByNumber (number : Nat) : Option (FileMetaData κ μ) :=
  (v.getFileLocation number).bind fun level => (v.files level).find? (·.number == number)

/-- `GetBlobFileMetaData`. -/
def getBlobFileMetaData (number : Nat) : Option BlobFileMetaData :=
  KeyedList.find BlobFileMetaData.blobFileNumber number v.blobFiles

/-- `HasMissingEpochNumber`. -/
def hasMissingEpochNumber : Bool :=
  (List.range v.numLevels).any fun level =>
    (v.files level).any (·.epochNumber == kUnknownEpochNumber)

end VersionStorageInfo

/-- `BlobFileGarbage`. -/
structure BlobFileGarbage where
  blobFileNumber : Nat
  garbageBlobCount : UInt64
  garbageBlobBytes : UInt64

/-- What the builder applies of a `VersionEdit`. -/
structure VersionEdit (κ μ : Type) where
  blobFileAdditions : List SharedBlobFileMetaData := []
  blobFileGarbages : List BlobFileGarbage := []
  deletedFiles : List (Nat × Nat) := []
  newFiles : List (Nat × FileMetaData κ μ) := []
  compactCursors : List (Int × InternalKey κ) := []

/-- The corruptions reported, with what their messages name. -/
inductive Corruption where
  | l0NotSortedBySeqno (lhs rhs : Nat)
  | l0SameEpochOverlap (lhs rhs epoch : Nat)
  | l0NotSortedByEpoch (lhs rhs : Nat)
  | levelNotSorted (level lhs rhs : Nat)
  | levelOverlap (level lhs rhs : Nat)
  | blobFileAllGarbage (number : Nat)
  | blobFileLinks (number : Nat)
  | blobFileAlreadyAdded (number : Nat)
  | blobFileNotFound (number : Nat)
  | garbageOverflow (number : Nat)
  | cannotDelete (number level : Nat) (current : Option Nat)
  | cannotAdd (number level current : Nat)
  | invalidCursorLevel (level : Int)
  deriving DecidableEq, Repr

/-! ## File orders -/

/-- `NewestFirstBySeqNo`. -/
def newestFirstBySeqNo (lhs rhs : FileMetaData κ μ) : Bool :=
  if lhs.largestSeqno ≠ rhs.largestSeqno then rhs.largestSeqno < lhs.largestSeqno
  else if lhs.smallestSeqno ≠ rhs.smallestSeqno then rhs.smallestSeqno < lhs.smallestSeqno
  else rhs.number < lhs.number

/-- `NewestFirstByEpochNumber`. -/
def newestFirstByEpochNumber (lhs rhs : FileMetaData κ μ) : Bool :=
  if lhs.epochNumber ≠ rhs.epochNumber then rhs.epochNumber < lhs.epochNumber
  else newestFirstBySeqNo lhs rhs

section Order
variable [LinearOrder κ]

/-- `BySmallestKey`. -/
def bySmallestKey (lhs rhs : FileMetaData κ μ) : Bool :=
  if lhs.smallest ≠ rhs.smallest then lhs.smallest < rhs.smallest else lhs.number < rhs.number

/-- The order of the files of a level. -/
def levelCmp (requirement : EpochNumberRequirement) (level : Nat) : FileMetaData κ μ → FileMetaData κ μ → Bool :=
  if level = 0 then
    match requirement with
    | .kMightMissing => newestFirstBySeqNo
    | .kMustPresent => newestFirstByEpochNumber
  else bySmallestKey

/-! ## Consistency checks -/

/-- The `l0_checker` of `CheckConsistencyDetails`. -/
def l0Checker (requirement : EpochNumberRequirement) (lhs rhs : FileMetaData κ μ) : Except Corruption Unit :=
  match requirement with
  | .kMightMissing =>
    if newestFirstBySeqNo lhs rhs then .ok () else .error (.l0NotSortedBySeqno lhs.number rhs.number)
  | .kMustPresent =>
    if lhs.epochNumber = rhs.epochNumber ∧ lhs.smallest ≤ rhs.largest ∧ rhs.smallest ≤ lhs.largest then
      .error (.l0SameEpochOverlap lhs.number rhs.number lhs.epochNumber)
    else if newestFirstByEpochNumber lhs rhs then .ok ()
    else .error (.l0NotSortedByEpoch lhs.number rhs.number)

/-- The `checker` of the levels from 1 on. -/
def levelChecker (level : Nat) (lhs rhs : FileMetaData κ μ) : Except Corruption Unit :=
  if !bySmallestKey lhs rhs then .error (.levelNotSorted level lhs.number rhs.number)
  else if rhs.smallest ≤ lhs.largest then .error (.levelOverlap level lhs.number rhs.number)
  else .ok ()

/-- The neighbours of a level, checked in order. -/
def checkNeighbours (checker : FileMetaData κ μ → FileMetaData κ μ → Except Corruption Unit) :
    List (FileMetaData κ μ) → Except Corruption Unit
  | lhs :: rhs :: rest => checker lhs rhs >>= fun _ => checkNeighbours checker (rhs :: rest)
  | _ => .ok ()

/-- `UpdateExpectedLinkedSsts`. -/
def updateExpectedLinkedSsts (expected : Nat → Finset Nat) (file : FileMetaData κ μ) : Nat → Finset Nat :=
  if file.oldestBlobFileNumber = kInvalidBlobFileNumber then expected
  else update expected file.oldestBlobFileNumber (insert file.number (expected file.oldestBlobFileNumber))

/-- `CheckConsistencyDetailsForLevel`. -/
def checkConsistencyDetailsForLevel (v : VersionStorageInfo κ μ) (expected : Nat → Finset Nat)
    (level : Nat) : Except Corruption (Nat → Finset Nat) := do
  let checker := if level = 0 then l0Checker v.epochNumberRequirement else levelChecker level
  checkNeighbours checker (v.files level)
  return (v.files level).foldl updateExpectedLinkedSsts expected

/-- The check of one blob file. -/
def checkBlobFile (expected : Nat → Finset Nat) (blob : BlobFileMetaData) : Except Corruption Unit :=
  if blob.sharedMeta.totalBlobCount ≤ blob.garbageBlobCount then
    .error (.blobFileAllGarbage blob.blobFileNumber)
  else if blob.linkedSsts ≠ expected blob.blobFileNumber then
    .error (.blobFileLinks blob.blobFileNumber)
  else .ok ()

/-- `CheckConsistencyDetails`. -/
def checkConsistencyDetails (v : VersionStorageInfo κ μ) : Except Corruption Unit := do
  let expected ← (List.range v.numLevels).foldlM (checkConsistencyDetailsForLevel v) fun _ => ∅
  v.blobFiles.forM (checkBlobFile expected)

/-- `CheckConsistency`. -/
def checkConsistency (v : VersionStorageInfo κ μ) : Except Corruption Unit :=
  if v.forceConsistencyChecks then checkConsistencyDetails v else .ok ()

end Order

/-! ## Blob files with their changes -/

/-- `BlobFileMetaDataDelta`. -/
structure BlobFileMetaDataDelta where
  additionalGarbageCount : UInt64 := 0
  additionalGarbageBytes : UInt64 := 0
  newlyLinkedSsts : Finset Nat := ∅
  newlyUnlinkedSsts : Finset Nat := ∅

namespace BlobFileMetaDataDelta

def isEmpty (delta : BlobFileMetaDataDelta) : Bool :=
  delta.additionalGarbageCount = 0 ∧ delta.additionalGarbageBytes = 0 ∧
    delta.newlyLinkedSsts = ∅ ∧ delta.newlyUnlinkedSsts = ∅

def addGarbage (delta : BlobFileMetaDataDelta) (count bytes : UInt64) : BlobFileMetaDataDelta :=
  { delta with
    additionalGarbageCount := delta.additionalGarbageCount + count
    additionalGarbageBytes := delta.additionalGarbageBytes + bytes }

def linkSst (delta : BlobFileMetaDataDelta) (sst : Nat) : BlobFileMetaDataDelta :=
  if sst ∈ delta.newlyUnlinkedSsts then
    { delta with newlyUnlinkedSsts := delta.newlyUnlinkedSsts.erase sst }
  else { delta with newlyLinkedSsts := insert sst delta.newlyLinkedSsts }

def unlinkSst (delta : BlobFileMetaDataDelta) (sst : Nat) : BlobFileMetaDataDelta :=
  if sst ∈ delta.newlyLinkedSsts then
    { delta with newlyLinkedSsts := delta.newlyLinkedSsts.erase sst }
  else { delta with newlyUnlinkedSsts := insert sst delta.newlyUnlinkedSsts }

end BlobFileMetaDataDelta

/-- `MutableBlobFileMetaData`: a blob file after the edits, with what changed. -/
structure MutableBlobFileMetaData where
  sharedMeta : SharedBlobFileMetaData
  delta : BlobFileMetaDataDelta
  linkedSsts : Finset Nat
  garbageBlobCount : UInt64
  garbageBlobBytes : UInt64

namespace MutableBlobFileMetaData

/-- A brand new blob file. -/
def ofShared (sharedMeta : SharedBlobFileMetaData) : MutableBlobFileMetaData where
  sharedMeta := sharedMeta
  delta := {}
  linkedSsts := ∅
  garbageBlobCount := 0
  garbageBlobBytes := 0

/-- A blob file of the base version. -/
def ofMeta (blob : BlobFileMetaData) : MutableBlobFileMetaData where
  sharedMeta := blob.sharedMeta
  delta := {}
  linkedSsts := blob.linkedSsts
  garbageBlobCount := blob.garbageBlobCount
  garbageBlobBytes := blob.garbageBlobBytes

variable (m : MutableBlobFileMetaData)

def blobFileNumber : Nat := m.sharedMeta.blobFileNumber

def hasDelta : Bool := !m.delta.isEmpty

def addGarbage (count bytes : UInt64) : Option MutableBlobFileMetaData :=
  if m.sharedMeta.totalBlobCount < m.garbageBlobCount + count ∨
      m.sharedMeta.totalBlobBytes < m.garbageBlobBytes + bytes then none
  else some { m with
    delta := m.delta.addGarbage count bytes
    garbageBlobCount := m.garbageBlobCount + count
    garbageBlobBytes := m.garbageBlobBytes + bytes }

def linkSst (sst : Nat) (m : MutableBlobFileMetaData) : MutableBlobFileMetaData :=
  { m with delta := m.delta.linkSst sst, linkedSsts := insert sst m.linkedSsts }

def unlinkSst (sst : Nat) (m : MutableBlobFileMetaData) : MutableBlobFileMetaData :=
  { m with delta := m.delta.unlinkSst sst, linkedSsts := m.linkedSsts.erase sst }

/-- `CreateBlobFileMetaData`. -/
def create : BlobFileMetaData where
  sharedMeta := m.sharedMeta
  linkedSsts := m.linkedSsts
  garbageBlobCount := m.garbageBlobCount
  garbageBlobBytes := m.garbageBlobBytes

end MutableBlobFileMetaData

/-! ## The builder -/

/-- `LevelState`. -/
structure LevelState (κ μ : Type) where
  deletedFiles : Finset Nat := ∅
  addedFiles : List (FileMetaData κ μ) := []

/-- `VersionBuilder::Rep`. A touched file that is on no level has the level `none`
in `tableFileLevels`. -/
structure Rep (κ μ : Type) where
  base : VersionStorageInfo κ μ
  levels : Nat → LevelState κ μ
  invalidLevelSizes : Nat → Nat
  tableFileLevels : Nat → Option (Option Nat)
  updatedCompactCursors : Nat → Option (InternalKey κ)
  mutableBlobFileMetas : List MutableBlobFileMetaData

namespace Rep

/-- The constructor. -/
def new (base : VersionStorageInfo κ μ) : Rep κ μ where
  base := base
  levels := fun _ => {}
  invalidLevelSizes := fun _ => 0
  tableFileLevels := fun _ => none
  updatedCompactCursors := fun _ => none
  mutableBlobFileMetas := []

section Changes
variable (rep : Rep κ μ)

/-- `num_levels_`. -/
def numLevels : Nat := rep.base.numLevels

/-- The entry of `mutable_blob_file_metas_`. -/
def findMutable (number : Nat) : Option MutableBlobFileMetaData :=
  KeyedList.find MutableBlobFileMetaData.blobFileNumber number rep.mutableBlobFileMetas

/-- Writing an entry of `mutable_blob_file_metas_`. -/
def putMutable (m : MutableBlobFileMetaData) : Rep κ μ :=
  { rep with mutableBlobFileMetas :=
      KeyedList.insert MutableBlobFileMetaData.blobFileNumber m rep.mutableBlobFileMetas }

/-- `IsBlobFileInVersion`. -/
def isBlobFileInVersion (number : Nat) : Bool :=
  (rep.findMutable number).isSome || (rep.base.getBlobFileMetaData number).isSome

/-- `GetOrCreateMutableBlobFileMetaData`. -/
def getOrCreateMutableBlobFileMetaData (number : Nat) : Option MutableBlobFileMetaData :=
  (rep.findMutable number).or ((rep.base.getBlobFileMetaData number).map MutableBlobFileMetaData.ofMeta)

/-- A change of a blob file that is in the version. -/
def modifyBlobFile (number : Nat)
    (change : MutableBlobFileMetaData → MutableBlobFileMetaData) : Rep κ μ :=
  if number = kInvalidBlobFileNumber then rep
  else match rep.getOrCreateMutableBlobFileMetaData number with
    | some m => rep.putMutable (change m)
    | none => rep

/-- `ApplyBlobFileAddition`. -/
def applyBlobFileAddition (addition : SharedBlobFileMetaData) : Except Corruption (Rep κ μ) :=
  if rep.isBlobFileInVersion addition.blobFileNumber then
    .error (.blobFileAlreadyAdded addition.blobFileNumber)
  else .ok (rep.putMutable (.ofShared addition))

/-- `ApplyBlobFileGarbage`. -/
def applyBlobFileGarbage (garbage : BlobFileGarbage) : Except Corruption (Rep κ μ) :=
  match rep.getOrCreateMutableBlobFileMetaData garbage.blobFileNumber with
  | none => .error (.blobFileNotFound garbage.blobFileNumber)
  | some m =>
    match m.addGarbage garbage.garbageBlobCount garbage.garbageBlobBytes with
    | none => .error (.garbageOverflow garbage.blobFileNumber)
    | some m => .ok (rep.putMutable m)

/-- `GetCurrentLevelForTableFile`. -/
def getCurrentLevelForTableFile (number : Nat) : Option Nat :=
  match rep.tableFileLevels number with
  | some level => level
  | none => rep.base.getFileLocation number

/-- `GetOldestBlobFileNumberForTableFile`. -/
def getOldestBlobFileNumberForTableFile (level number : Nat) : Nat :=
  match (rep.levels level).addedFiles.find? (·.number == number) with
  | some file => file.oldestBlobFileNumber
  | none =>
    match rep.base.getFileMetaDataByNumber number with
    | some file => file.oldestBlobFileNumber
    | none => kInvalidBlobFileNumber

/-- `ApplyFileDeletion`. -/
def applyFileDeletion (deleted : Nat × Nat) : Except Corruption (Rep κ μ) :=
  let level := deleted.1
  let number := deleted.2
  if some level ≠ rep.getCurrentLevelForTableFile number then
    .error (.cannotDelete number level (rep.getCurrentLevelForTableFile number))
  else if rep.numLevels ≤ level then
    .ok { rep with
      invalidLevelSizes := update rep.invalidLevelSizes level (rep.invalidLevelSizes level - 1)
      tableFileLevels := update rep.tableFileLevels number (some none) }
  else
    let rep := rep.modifyBlobFile (rep.getOldestBlobFileNumberForTableFile level number) (.unlinkSst number)
    let state := rep.levels level
    .ok { rep with
      levels := update rep.levels level
        { deletedFiles := insert number state.deletedFiles
          addedFiles := state.addedFiles.filter (·.number != number) }
      tableFileLevels := update rep.tableFileLevels number (some none) }

/-- `ApplyFileAddition`. -/
def applyFileAddition (new : Nat × FileMetaData κ μ) : Except Corruption (Rep κ μ) :=
  let level := new.1
  let file := new.2
  match rep.getCurrentLevelForTableFile file.number with
  | some current => .error (.cannotAdd file.number level current)
  | none =>
    if rep.numLevels ≤ level then
      .ok { rep with
        invalidLevelSizes := update rep.invalidLevelSizes level (rep.invalidLevelSizes level + 1)
        tableFileLevels := update rep.tableFileLevels file.number (some (some level)) }
    else
      let state := rep.levels level
      let rep := { rep with
        levels := update rep.levels level
          { deletedFiles := state.deletedFiles.erase file.number
            addedFiles := state.addedFiles ++ [file] } }
      let rep := rep.modifyBlobFile file.oldestBlobFileNumber (.linkSst file.number)
      .ok { rep with
        tableFileLevels := update rep.tableFileLevels file.number (some (some level)) }

/-- `ApplyCompactCursors`. Cursors of levels the version does not have are left out. -/
def applyCompactCursors (cursor : Int × InternalKey κ) : Except Corruption (Rep κ μ) :=
  if cursor.1 < 0 then .error (.invalidCursorLevel cursor.1)
  else if cursor.1 < rep.numLevels then
    .ok { rep with updatedCompactCursors := update rep.updatedCompactCursors cursor.1.toNat (some cursor.2) }
  else .ok rep

end Changes

section Order
variable [LinearOrder κ] (rep : Rep κ μ)

/-- `Apply`. -/
def apply (edit : VersionEdit κ μ) : Except Corruption (Rep κ μ) := do
  checkConsistency rep.base
  let rep ← edit.blobFileAdditions.foldlM applyBlobFileAddition rep
  let rep ← edit.blobFileGarbages.foldlM applyBlobFileGarbage rep
  let rep ← edit.deletedFiles.foldlM applyFileDeletion rep
  let rep ← edit.newFiles.foldlM applyFileAddition rep
  edit.compactCursors.foldlM applyCompactCursors rep

/-- `CheckConsistencyForNumLevels`: no file is left on a level the version does not
have. -/
def CheckConsistencyForNumLevels : Prop := ∀ level, rep.invalidLevelSizes level = 0

/-! ## Saving -/

/-- A blob file as it is saved, from the base version and the changed one. -/
def savedBlobFile : KeyedList.Joined BlobFileMetaData MutableBlobFileMetaData → BlobFileMetaData
  | .left base => base
  | .right m => m.create
  | .both base m => if m.hasDelta then m.create else base

/-- The table files linked to a blob file, read from the changed one if there is one. -/
def currentLinkedSsts : KeyedList.Joined BlobFileMetaData MutableBlobFileMetaData → Finset Nat
  | .left base => base.linkedSsts
  | .right m | .both _ m => m.linkedSsts

/-- The number of a blob file of the merge. -/
def mergedNumber : KeyedList.Joined BlobFileMetaData MutableBlobFileMetaData → Nat :=
  KeyedList.Joined.number BlobFileMetaData.blobFileNumber MutableBlobFileMetaData.blobFileNumber

/-- `MergeBlobFileMetas`: the blob files in the order in which they are processed. -/
def mergeBlobFileMetas (firstBlobFile : Nat) :
    List (KeyedList.Joined BlobFileMetaData MutableBlobFileMetaData) :=
  KeyedList.join BlobFileMetaData.blobFileNumber MutableBlobFileMetaData.blobFileNumber
    (KeyedList.lowerBound BlobFileMetaData.blobFileNumber firstBlobFile rep.base.blobFiles)
    (KeyedList.lowerBound MutableBlobFileMetaData.blobFileNumber firstBlobFile rep.mutableBlobFileMetas)

/-- `GetMinOldestBlobFileNumber`. -/
def getMinOldestBlobFileNumber : Nat :=
  match (rep.mergeBlobFileMetas kInvalidBlobFileNumber).find? (currentLinkedSsts · ≠ ∅) with
  | some merged => mergedNumber merged
  | none => kInvalidBlobFileNumber

/-- The condition of `AddBlobFileIfNeeded`. -/
def isBlobFileNeeded (blob : BlobFileMetaData) : Bool :=
  !(blob.linkedSsts = ∅ ∧ blob.sharedMeta.totalBlobCount ≤ blob.garbageBlobCount)

variable (v : VersionStorageInfo κ μ)

/-- `SaveBlobFilesTo`. -/
def saveBlobFilesTo : VersionStorageInfo κ μ :=
  let oldest := rep.getMinOldestBlobFileNumber
  if oldest = kInvalidBlobFileNumber then v
  else { v with blobFiles := v.blobFiles ++
          ((rep.mergeBlobFileMetas oldest).map savedBlobFile).filter isBlobFileNeeded }

/-- Where the merge took a file from. -/
inductive Origin where
  | base
  | added
  deriving DecidableEq

/-- `MergeUnorderdAddedFilesWithBase`. -/
def mergeUnorderedAddedFilesWithBase (cmp : FileMetaData κ μ → FileMetaData κ μ → Bool)
    (baseFiles addedFiles : List (FileMetaData κ μ)) : List (Origin × FileMetaData κ μ) :=
  let sorted := addedFiles.mergeSort fun a b => !cmp b a
  List.merge (baseFiles.map (Origin.base, ·)) (sorted.map (Origin.added, ·)) fun base added => !cmp added.2 base.2

/-- `MaybeAddFile`: a deleted file is dropped, and so is a base file that an added
one supersedes. -/
def maybeAddFile (state : LevelState κ μ) (merged : Origin × FileMetaData κ μ) : Option (FileMetaData κ μ) :=
  if merged.2.number ∈ state.deletedFiles then none
  else if state.addedFiles.any (·.number == merged.2.number) && merged.1 == .base then none
  else some merged.2

/-- `SaveSSTFilesTo` for one level. -/
def savedFiles (cmp : FileMetaData κ μ → FileMetaData κ μ → Bool) (level : Nat) :
    List (FileMetaData κ μ) :=
  (mergeUnorderedAddedFilesWithBase cmp (rep.base.files level) (rep.levels level).addedFiles).filterMap
    (maybeAddFile (rep.levels level))

/-- `PromoteEpochNumberRequirementIfNeeded`, the condition. -/
def promotes : Bool :=
  !v.hasMissingEpochNumber && (List.range rep.numLevels).all fun level =>
    (rep.levels level).addedFiles.all (·.epochNumber != kUnknownEpochNumber)

/-- The requirement the files are saved under. -/
def savedRequirement : EpochNumberRequirement :=
  if rep.numLevels ≠ 0 ∧ v.epochNumberRequirement = .kMightMissing ∧ rep.promotes v then .kMustPresent
  else v.epochNumberRequirement

/-- `SaveSSTFilesTo`. -/
def saveSSTFilesTo : VersionStorageInfo κ μ :=
  { v with
    epochNumberRequirement := rep.savedRequirement v
    files := fun level =>
      if level < rep.numLevels then
        v.files level ++ rep.savedFiles (levelCmp (rep.savedRequirement v) level) level
      else v.files level }

/-- `SaveCompactCursorsTo`. -/
def saveCompactCursorsTo : VersionStorageInfo κ μ :=
  { v with compactCursors := fun level =>
      (rep.updatedCompactCursors level).or (v.compactCursors level) }

/-- `SaveTo`. -/
def saveTo : Except Corruption (VersionStorageInfo κ μ) := do
  checkConsistency v
  let saved := rep.saveCompactCursorsTo (rep.saveBlobFilesTo (rep.saveSSTFilesTo v))
  checkConsistency saved
  return saved

end Order

end Rep

end Rocksdb.VersionBuilder
