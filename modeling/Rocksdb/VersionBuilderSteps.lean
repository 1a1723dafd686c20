import Rocksdb.VersionBuilderFiles

/-! Edits applied at once and one by one. `State` is what a version means: its live
files and its blob files by number, with the edits acting on them directly. A builder
that applies edits follows the state (`Tracks`), and what it saves is the state
without the blob files that are no longer needed (`SavedFrom`). A builder that
applies all edits and builders that apply one edit each then differ in the blob files
that were dropped on the way and in nothing else. -/
namespace Rocksdb.VersionBuilder

open Lib Lib.Loop Lib.KeyedList List
open Option (bind_eq_some_iff map_eq_some_iff)
open Function (update update_self update_of_ne)
open MutableBlobFileMetaData (ofMeta ofShared)
open Rep (savedBlobFile mergedNumber isBlobFileNeeded savedFiles)

variable {κ μ : Type} {edit : VersionEdit κ μ} {addition : SharedBlobFileMetaData} {deleted : Nat × Nat}
  {garbage : BlobFileGarbage}

/-! ## States -/

/-- The blob files by number. -/
abbrev Blobs : Type := Nat → Option BlobFileMetaData

/-- The live files and the blob files. -/
structure State (κ μ : Type) where
  files : Files κ μ
  blobs : Blobs

/-- The state of a version. -/
def VersionStorageInfo.state (v : VersionStorageInfo κ μ) : State κ μ :=
  ⟨v.liveFiles, v.getBlobFileMetaData⟩

namespace BlobFileMetaData

/-- A brand new blob file. -/
def ofShared (sharedMeta : SharedBlobFileMetaData) : BlobFileMetaData := ⟨sharedMeta, ∅, 0, 0⟩

def linkSst (sst : Nat) (blob : BlobFileMetaData) : BlobFileMetaData :=
  { blob with linkedSsts := insert sst blob.linkedSsts }

def unlinkSst (sst : Nat) (blob : BlobFileMetaData) : BlobFileMetaData :=
  { blob with linkedSsts := blob.linkedSsts.erase sst }

def addGarbage (blob : BlobFileMetaData) (count bytes : UInt64) : Option BlobFileMetaData :=
  if blob.sharedMeta.totalBlobCount < blob.garbageBlobCount + count ∨
      blob.sharedMeta.totalBlobBytes < blob.garbageBlobBytes + bytes then none
  else some { blob with
    garbageBlobCount := blob.garbageBlobCount + count
    garbageBlobBytes := blob.garbageBlobBytes + bytes }

end BlobFileMetaData

/-- A change of one blob file, if it is there. -/
def Blobs.modify (blobs : Blobs) (number : Nat) (change : BlobFileMetaData → BlobFileMetaData) : Blobs :=
  if number = kInvalidBlobFileNumber then blobs
  else update blobs number ((blobs number).map change)

namespace State

def addBlobFile (s : State κ μ) (addition : SharedBlobFileMetaData) : Option (State κ μ) :=
  match s.blobs addition.blobFileNumber with
  | some _ => none
  | none => some
      { s with
        blobs := update s.blobs addition.blobFileNumber (some (.ofShared addition)) }

def addGarbage (s : State κ μ) (garbage : BlobFileGarbage) : Option (State κ μ) := do
  let blob ← s.blobs garbage.blobFileNumber
  let blob ← blob.addGarbage garbage.garbageBlobCount garbage.garbageBlobBytes
  return { s with blobs := update s.blobs garbage.blobFileNumber (some blob) }

def delete (numLevels : Nat) (s : State κ μ) (deleted : Nat × Nat) : Option (State κ μ) :=
  match s.files deleted.2 with
  | some (level, f) =>
    if level = deleted.1 then
      some
        { files := s.files.delete deleted
          blobs :=
            if level < numLevels then s.blobs.modify f.oldestBlobFileNumber (.unlinkSst deleted.2)
            else s.blobs }
    else none
  | none => none

def add (numLevels : Nat) (s : State κ μ) (new : Nat × FileMetaData κ μ) : Option (State κ μ) :=
  match s.files new.2.number with
  | some _ => none
  | none => some
      { files := s.files.add new
        blobs :=
          if new.1 < numLevels then
            s.blobs.modify new.2.oldestBlobFileNumber (.linkSst new.2.number)
          else s.blobs }

/-- An edit, with its parts in the order in which they are applied. -/
def apply (numLevels : Nat) (s : State κ μ) (edit : VersionEdit κ μ) : Option (State κ μ) := do
  let s ← edit.blobFileAdditions.foldlM addBlobFile s
  let s ← edit.blobFileGarbages.foldlM addGarbage s
  let s ← edit.deletedFiles.foldlM (delete numLevels) s
  edit.newFiles.foldlM (add numLevels) s

/-! What a step does if it succeeds. -/

section Steps
variable {s s' : State κ μ} {numLevels : Nat}

theorem addBlobFile_some (ran : s.addBlobFile addition = some s') : s.blobs addition.blobFileNumber = none ∧
      s' = { s with blobs := update s.blobs addition.blobFileNumber (some (.ofShared addition)) } := by
  unfold addBlobFile at ran
  split at ran
  · cases ran
  · rename_i absent
    exact ⟨absent, (Option.some.inj ran).symm⟩

theorem addGarbage_some (ran : s.addGarbage garbage = some s') :
    ∃ blob blob', s.blobs garbage.blobFileNumber = some blob ∧
      blob.addGarbage garbage.garbageBlobCount garbage.garbageBlobBytes = some blob' ∧
      s' = { s with blobs := update s.blobs garbage.blobFileNumber (some blob') } := by
  obtain ⟨blob, isBlob, ran⟩ := bind_eq_some_iff.mp ran
  obtain ⟨blob', changed, ran⟩ := bind_eq_some_iff.mp ran
  exact ⟨blob, blob', isBlob, changed, (Option.some.inj ran).symm⟩

theorem delete_some (ran : s.delete numLevels deleted = some s') : ∃ f, s.files deleted.2 = some (deleted.1, f) ∧ s' =
      { files := s.files.delete deleted
        blobs := if deleted.1 < numLevels then s.blobs.modify f.oldestBlobFileNumber (.unlinkSst deleted.2)
          else s.blobs } := by
  unfold delete at ran
  split at ran
  · rename_i level f live
    split at ran
    · rename_i same
      subst same
      exact ⟨f, live, (Option.some.inj ran).symm⟩
    · cases ran
  · cases ran

theorem add_some (ran : s.add numLevels new = some s') : s' =
    { files := s.files.add new
      blobs := if new.1 < numLevels then s.blobs.modify new.2.oldestBlobFileNumber (.linkSst new.2.number)
        else s.blobs } := by
  unfold add at ran
  split at ran
  · cases ran
  · exact (Option.some.inj ran).symm

end Steps

end State

theorem Blobs.modify_apply (blobs : Blobs) (number : Nat) (change : BlobFileMetaData → BlobFileMetaData) (n : Nat) :
    blobs.modify number change n =
      if number ≠ kInvalidBlobFileNumber ∧ n = number then (blobs n).map change else blobs n := by
  unfold Blobs.modify
  by_cases invalid : number = kInvalidBlobFileNumber
  · simp [invalid]
  · by_cases same : n = number
    · subst same
      simp [invalid]
    · simp [invalid, same]

/-! ## What changed since the base -/

/-- The recorded changes lead from the blob file of the base to the current one. -/
structure Changes (base : BlobFileMetaData) (m : MutableBlobFileMetaData) : Prop where
  sharedMeta : m.sharedMeta = base.sharedMeta
  count : m.garbageBlobCount = base.garbageBlobCount + m.delta.additionalGarbageCount
  bytes : m.garbageBlobBytes = base.garbageBlobBytes + m.delta.additionalGarbageBytes
  linked : ∀ sst, sst ∈ m.linkedSsts ↔
    (sst ∈ base.linkedSsts ∨ sst ∈ m.delta.newlyLinkedSsts) ∧ sst ∉ m.delta.newlyUnlinkedSsts
  newlyLinked : ∀ sst ∈ m.delta.newlyLinkedSsts, sst ∉ base.linkedSsts
  newlyUnlinked : ∀ sst ∈ m.delta.newlyUnlinkedSsts, sst ∈ base.linkedSsts

namespace Changes
variable {base : BlobFileMetaData} {m : MutableBlobFileMetaData} {sst : Nat}

private theorem none (base : BlobFileMetaData) : Changes base (.ofMeta base) where
  sharedMeta := rfl
  count := (UInt64.add_zero _).symm
  bytes := (UInt64.add_zero _).symm
  linked := by simp [ofMeta]
  newlyLinked := by simp [ofMeta]
  newlyUnlinked := by simp [ofMeta]

/-- Without recorded changes the blob file is the one of the base. -/
theorem create_eq (changes : Changes base m) (same : m.hasDelta = false) : m.create = base := by
  have empty : m.delta.additionalGarbageCount = 0 ∧ m.delta.additionalGarbageBytes = 0 ∧
      m.delta.newlyLinkedSsts = ∅ ∧ m.delta.newlyUnlinkedSsts = ∅ := by
    simpa [MutableBlobFileMetaData.hasDelta, BlobFileMetaDataDelta.isEmpty] using same
  obtain ⟨count, bytes, linked, unlinked⟩ := empty
  have links : m.linkedSsts = base.linkedSsts := by
    ext sst
    simp [changes.linked, linked, unlinked]
  cases base
  simp [MutableBlobFileMetaData.create, changes.sharedMeta, changes.count, changes.bytes, count, bytes, links]

private theorem addGarbage {count bytes : UInt64} (changes : Changes base m)
    (added : m.addGarbage count bytes = some m') : Changes base m' := by
  unfold MutableBlobFileMetaData.addGarbage at added
  split_ifs at added
  cases added
  refine ⟨changes.sharedMeta, ?_, ?_, changes.linked, changes.newlyLinked, changes.newlyUnlinked⟩
  · simp only [BlobFileMetaDataDelta.addGarbage, changes.count, UInt64.add_assoc]
  · simp only [BlobFileMetaDataDelta.addGarbage, changes.bytes, UInt64.add_assoc]

private theorem linkSst (changes : Changes base m) (absent : sst ∉ m.linkedSsts) : Changes base (m.linkSst sst) := by
  have either := (changes.linked sst).not.mp absent
  by_cases reconciles : sst ∈ m.delta.newlyUnlinkedSsts
  · have inBase := changes.newlyUnlinked sst reconciles
    have delta : (m.linkSst sst).delta =
        { m.delta with newlyUnlinkedSsts := m.delta.newlyUnlinkedSsts.erase sst } := if_pos reconciles
    refine ⟨changes.sharedMeta, delta ▸ changes.count, delta ▸ changes.bytes, fun x => ?_,
      delta ▸ changes.newlyLinked, fun x member => ?_⟩
    · rw [delta]
      by_cases same : x = sst <;> simp [MutableBlobFileMetaData.linkSst, same, inBase, changes.linked]
    · rw [delta] at member
      exact changes.newlyUnlinked x (Finset.mem_of_mem_erase member)
  · have fresh : sst ∉ base.linkedSsts := fun inBase => either ⟨.inl inBase, reconciles⟩
    have delta : (m.linkSst sst).delta =
        { m.delta with newlyLinkedSsts := insert sst m.delta.newlyLinkedSsts } := if_neg reconciles
    refine ⟨changes.sharedMeta, delta ▸ changes.count, delta ▸ changes.bytes, fun x => ?_,
      fun x member => ?_, delta ▸ changes.newlyUnlinked⟩
    · rw [delta]
      by_cases same : x = sst <;> simp [MutableBlobFileMetaData.linkSst, same, reconciles, changes.linked]
    · rw [delta] at member
      rcases Finset.mem_insert.mp member with rfl | member
      · exact fresh
      · exact changes.newlyLinked x member

private theorem unlinkSst (changes : Changes base m) (linked : sst ∈ m.linkedSsts) : Changes base (m.unlinkSst sst) := by
  obtain ⟨either, _⟩ := (changes.linked sst).mp linked
  by_cases reconciles : sst ∈ m.delta.newlyLinkedSsts
  · have fresh := changes.newlyLinked sst reconciles
    have delta : (m.unlinkSst sst).delta =
        { m.delta with newlyLinkedSsts := m.delta.newlyLinkedSsts.erase sst } := if_pos reconciles
    refine ⟨changes.sharedMeta, delta ▸ changes.count, delta ▸ changes.bytes, fun x => ?_,
      fun x member => ?_, delta ▸ changes.newlyUnlinked⟩
    · rw [delta]
      by_cases same : x = sst <;> simp [MutableBlobFileMetaData.unlinkSst, same, fresh, changes.linked]
    · rw [delta] at member
      exact changes.newlyLinked x (Finset.mem_of_mem_erase member)
  · have inBase : sst ∈ base.linkedSsts := either.resolve_right reconciles
    have delta : (m.unlinkSst sst).delta =
        { m.delta with newlyUnlinkedSsts := insert sst m.delta.newlyUnlinkedSsts } :=
      if_neg reconciles
    refine ⟨changes.sharedMeta, delta ▸ changes.count, delta ▸ changes.bytes, fun x => ?_,
      delta ▸ changes.newlyLinked, fun x member => ?_⟩
    · rw [delta]
      by_cases same : x = sst <;> simp [MutableBlobFileMetaData.unlinkSst, same, changes.linked]
    · rw [delta] at member
      rcases Finset.mem_insert.mp member with rfl | member
      · exact inBase
      · exact changes.newlyUnlinked x member

end Changes

/-! ## Builders follow states -/

/-- The current metadata of a blob file. -/
def Rep.blob (rep : Rep κ μ) (number : Nat) : Option BlobFileMetaData :=
  (rep.getOrCreateMutableBlobFileMetaData number).map MutableBlobFileMetaData.create

/-- A live table file refers to the blob file. -/
def LinkedTo (numLevels : Nat) (files : Files κ μ) (blob sst : Nat) : Prop :=
  blob ≠ kInvalidBlobFileNumber ∧ ∃ level f, files sst = some (level, f) ∧ level < numLevels ∧
    f.oldestBlobFileNumber = blob

/-- A builder over a base version stands for a state. -/
structure Tracks (base : VersionStorageInfo κ μ) (rep : Rep κ μ) (s : State κ μ) : Prop where
  files : TracksFiles base rep s.files
  sorted : KeyedList.Sorted MutableBlobFileMetaData.blobFileNumber rep.mutableBlobFileMetas
  blobs : ∀ n, rep.blob n = s.blobs n
  changes : ∀ n b m, base.getBlobFileMetaData n = some b → rep.findMutable n = some m → Changes b m
  links : ∀ n b, (base.getBlobFileMetaData n).isSome → s.blobs n = some b → ∀ sst,
    sst ∈ b.linkedSsts ↔ LinkedTo base.numLevels s.files n sst
  invalid : ∀ b, s.blobs kInvalidBlobFileNumber = some b → b.linkedSsts = ∅

section LinkedTo
variable {numLevels level blob sst : Nat} {files : Files κ μ} {f : FileMetaData κ μ}

private theorem linkedTo_delete : LinkedTo numLevels (files.delete deleted) blob x ↔
      LinkedTo numLevels files blob x ∧ x ≠ deleted.2 := by
  unfold LinkedTo Files.delete
  by_cases same : x = deleted.2
  · simp [same]
  · simp [same]

private theorem linkedTo_add (absent : files new.2.number = none) :
    LinkedTo numLevels (files.add new) blob x ↔ LinkedTo numLevels files blob x ∨
      (blob ≠ kInvalidBlobFileNumber ∧ x = new.2.number ∧ new.1 < numLevels ∧ new.2.oldestBlobFileNumber = blob) := by
  obtain ⟨_, f⟩ := new
  unfold LinkedTo Files.add
  by_cases same : x = f.number
  · subst same
    simp [absent, and_assoc]
  · simp [same]

private theorem linkedTo_live (live : files sst = some (level, f)) : LinkedTo numLevels files blob sst ↔
      blob ≠ kInvalidBlobFileNumber ∧ level < numLevels ∧ f.oldestBlobFileNumber = blob := by
  unfold LinkedTo
  simp [live]

end LinkedTo

section Steps
variable {base : VersionStorageInfo κ μ} {rep rep' : Rep κ μ} {s : State κ μ}

variable {m : MutableBlobFileMetaData}

variable {n : Nat}

/-- The entry of a blob file is the one its number looks up. -/
theorem Rep.number_of_getOrCreate
    (got : rep.getOrCreateMutableBlobFileMetaData n = some m) : m.blobFileNumber = n := by
  rcases Option.or_eq_some_iff.mp got with found | ⟨-, found⟩
  · exact key_of_find found
  · obtain ⟨_, inBase, rfl⟩ := map_eq_some_iff.mp found
    have number := key_of_find inBase
    exact number

variable (tracks : Tracks base rep s)
include tracks

theorem Tracks.changes_of_getOrCreate (inBase : base.getBlobFileMetaData n = some b)
    (got : rep.getOrCreateMutableBlobFileMetaData n = some m) : Changes b m := by
  rcases Option.or_eq_some_iff.mp got with found | ⟨-, found⟩
  · exact tracks.changes n b m inBase found
  · rw [tracks.files.sameBase, inBase] at found
    cases found
    exact .none b

variable {files : Files κ μ}

/-- A step that writes one entry of the blob files. -/
theorem Tracks.put (tracksFiles : TracksFiles base rep' files) (inserted : rep'.mutableBlobFileMetas =
      KeyedList.insert MutableBlobFileMetaData.blobFileNumber m rep.mutableBlobFileMetas)
    (number : m.blobFileNumber = n)
    (changes : ∀ b, base.getBlobFileMetaData n = some b → Changes b m)
    (links : ∀ k b, (base.getBlobFileMetaData k).isSome →
      update s.blobs n (some m.create) k = some b → ∀ sst,
        sst ∈ b.linkedSsts ↔ LinkedTo base.numLevels files k sst)
    (invalid : n = kInvalidBlobFileNumber → m.linkedSsts = ∅) :
    Tracks base rep' ⟨files, update s.blobs n (some m.create)⟩ := by
  have found (k : Nat) : rep'.findMutable k = if m.blobFileNumber = k then some m else rep.findMutable k := by
    unfold Rep.findMutable
    rw [inserted, find_insert tracks.sorted]
  refine ⟨tracksFiles, inserted ▸ sorted_insert tracks.sorted, fun k => ?_,
    fun k b m' inBase got => ?_, links, fun b isBlob => ?_⟩
  · unfold Rep.blob Rep.getOrCreateMutableBlobFileMetaData
    rw [found k, number, tracksFiles.sameBase]
    by_cases same : n = k
    · simp [same]
    · have current := tracks.blobs k
      rw [Rep.blob, Rep.getOrCreateMutableBlobFileMetaData, tracks.files.sameBase] at current
      simpa [same, Ne.symm same] using current
  · rw [found k, number] at got
    split_ifs at got with same
    · subst same
      cases got
      exact changes b inBase
    · exact tracks.changes k b m' inBase got
  · by_cases same : kInvalidBlobFileNumber = n
    · subst same
      simp only [update_self, Option.some.injEq] at isBlob
      exact isBlob ▸ invalid rfl
    · exact tracks.invalid b (by simpa [same] using isBlob)

/-- A step that leaves the blob files alone. -/
theorem Tracks.keep (tracksFiles : TracksFiles base rep' files)
    (same : rep'.mutableBlobFileMetas = rep.mutableBlobFileMetas)
    (links : ∀ k b, (base.getBlobFileMetaData k).isSome → s.blobs k = some b → ∀ sst,
      sst ∈ b.linkedSsts ↔ LinkedTo base.numLevels files k sst) :
    Tracks base rep' ⟨files, s.blobs⟩ := by
  refine ⟨tracksFiles, same ▸ tracks.sorted, fun k => ?_, fun k b m inBase found => ?_, links, tracks.invalid⟩
  · rw [← tracks.blobs k, Rep.blob, Rep.getOrCreateMutableBlobFileMetaData, Rep.findMutable, same,
      tracksFiles.sameBase, ← tracks.files.sameBase]
    rfl
  · rw [Rep.findMutable, same] at found
    exact tracks.changes k b m inBase found

/-- The change of one blob file by a step on a table file. -/
theorem Tracks.modify {change : MutableBlobFileMetaData → MutableBlobFileMetaData}
    {change' : BlobFileMetaData → BlobFileMetaData}
    (tracksFiles : TracksFiles base rep' files)
    (modified : rep'.mutableBlobFileMetas = (rep.modifyBlobFile n change).mutableBlobFileMetas)
    (number : ∀ m, (change m).blobFileNumber = m.blobFileNumber)
    (creates : ∀ m, (change m).create = change' m.create)
    (changes : ∀ b m, n ≠ kInvalidBlobFileNumber → base.getBlobFileMetaData n = some b →
      s.blobs n = some m.create → Changes b m → Changes b (change m))
    (links : ∀ k b, (base.getBlobFileMetaData k).isSome → s.blobs.modify n change' k = some b →
      ∀ sst, sst ∈ b.linkedSsts ↔ LinkedTo base.numLevels files k sst) :
    Tracks base rep' ⟨files, s.blobs.modify n change'⟩ := by
  unfold Rep.modifyBlobFile at modified
  unfold Blobs.modify at links ⊢
  split_ifs at modified links ⊢ with invalid
  · exact tracks.keep tracksFiles modified links
  · have current := tracks.blobs n
    unfold Rep.blob at current
    cases got : rep.getOrCreateMutableBlobFileMetaData n with
    | none =>
      rw [got] at modified current
      rw [← current] at links ⊢
      have same : update s.blobs n none = s.blobs := by
        rw [Function.update_eq_self_iff, ← current]
        rfl
      rw [Option.map_none, Option.map_none, same] at links ⊢
      exact tracks.keep tracksFiles modified links
    | some m =>
      rw [got] at modified current
      rw [← current] at links ⊢
      simp only [Option.map_some, ← creates] at links ⊢
      refine tracks.put tracksFiles modified ((number m).trans (Rep.number_of_getOrCreate got))
        (fun b inBase => ?_) links fun zero => absurd zero invalid
      exact changes b m invalid inBase current.symm (tracks.changes_of_getOrCreate inBase got)

omit tracks in
theorem Rep.modifyBlobFile_congr (sameBase : rep'.base = rep.base)
    (sameBlobs : rep'.mutableBlobFileMetas = rep.mutableBlobFileMetas) :
    (rep'.modifyBlobFile n change).mutableBlobFileMetas = (rep.modifyBlobFile n change).mutableBlobFileMetas := by
  have got : rep'.getOrCreateMutableBlobFileMetaData n = rep.getOrCreateMutableBlobFileMetaData n := by
    simp [getOrCreateMutableBlobFileMetaData, findMutable, sameBase, sameBlobs]
  unfold modifyBlobFile
  rw [got]
  split_ifs
  · exact sameBlobs
  · cases rep.getOrCreateMutableBlobFileMetaData n with
    | none => exact sameBlobs
    | some => simp [putMutable, sameBlobs]

theorem Tracks.addBlobFile (applied : rep.applyBlobFileAddition addition = .ok rep') :
    ∃ s', s.addBlobFile addition = some s' ∧ Tracks base rep' s' := by
  have tracksFiles := tracks.files.applyBlobFileAddition applied
  unfold Rep.applyBlobFileAddition at applied
  split_ifs at applied with known
  cases applied
  obtain ⟨notMutable, notBase⟩ : rep.findMutable addition.blobFileNumber = none ∧
      base.getBlobFileMetaData addition.blobFileNumber = none := by
    simpa [Rep.isBlobFileInVersion, tracks.files.sameBase] using known
  have absent : s.blobs addition.blobFileNumber = none := by
    rw [← tracks.blobs]
    simp [Rep.blob, Rep.getOrCreateMutableBlobFileMetaData, notMutable, notBase, tracks.files.sameBase]
  refine ⟨_, by rw [State.addBlobFile, absent], ?_⟩
  refine tracks.put tracksFiles rfl rfl (fun b inBase => ?_) (fun k b inBase isBlob => ?_) fun _ => rfl
  · rw [notBase] at inBase
    cases inBase
  · have other : k ≠ addition.blobFileNumber := by
      rintro rfl
      simp [notBase] at inBase
    exact tracks.links k b inBase (by simpa [other] using isBlob)

omit tracks in
theorem MutableBlobFileMetaData.create_addGarbage (m : MutableBlobFileMetaData) (count bytes : UInt64) :
    m.create.addGarbage count bytes = (m.addGarbage count bytes).map create := by
  unfold addGarbage BlobFileMetaData.addGarbage
  by_cases overflow : m.sharedMeta.totalBlobCount < m.garbageBlobCount + count ∨
      m.sharedMeta.totalBlobBytes < m.garbageBlobBytes + bytes
  · rw [if_pos overflow]
    exact if_pos overflow
  · rw [if_neg overflow]
    exact if_neg overflow

theorem Tracks.addGarbage (applied : rep.applyBlobFileGarbage garbage = .ok rep') :
    ∃ s', s.addGarbage garbage = some s' ∧ Tracks base rep' s' := by
  have tracksFiles := tracks.files.applyBlobFileGarbage applied
  unfold Rep.applyBlobFileGarbage at applied
  cases got : rep.getOrCreateMutableBlobFileMetaData garbage.blobFileNumber with
  | none =>
    rw [got] at applied
    cases applied
  | some m =>
    rw [got] at applied
    dsimp only at applied
    cases added : m.addGarbage garbage.garbageBlobCount garbage.garbageBlobBytes with
    | none =>
      rw [added] at applied
      cases applied
    | some m' =>
      rw [added] at applied
      cases applied
      have current : s.blobs garbage.blobFileNumber = some m.create := by
        rw [← tracks.blobs, Rep.blob, got]
        rfl
      obtain ⟨number, linked⟩ : m'.blobFileNumber = m.blobFileNumber ∧ m'.linkedSsts = m.linkedSsts := by
        unfold MutableBlobFileMetaData.addGarbage at added
        split_ifs at added
        cases added
        exact ⟨rfl, rfl⟩
      refine ⟨{ s with blobs := update s.blobs garbage.blobFileNumber (some m'.create) },
        by simp [State.addGarbage, current, MutableBlobFileMetaData.create_addGarbage, added], ?_⟩
      refine tracks.put tracksFiles rfl (number.trans (Rep.number_of_getOrCreate got))
        (fun b inBase => (tracks.changes_of_getOrCreate inBase got).addGarbage added)
        (fun k b inBase isBlob => ?_) fun zero => ?_
      · by_cases same : k = garbage.blobFileNumber
        · subst same
          have isBlob : m'.create = b := by simpa using isBlob
          subst isBlob
          have links := tracks.links _ m.create inBase current
          simpa [MutableBlobFileMetaData.create, linked] using links
        · exact tracks.links k b inBase (by simpa [same] using isBlob)
      · rw [linked]
        exact tracks.invalid m.create (zero ▸ current)

omit tracks in
/-- The blob file a live table file refers to. -/
theorem TracksFiles.oldestBlobFileNumber (tracks : TracksFiles base rep files) (live : files number = some (level, f))
    (lt : level < base.numLevels) :
    rep.getOldestBlobFileNumberForTableFile level number = f.oldestBlobFileNumber := by
  have entry := tracks.entries number
  unfold Rep.getOldestBlobFileNumberForTableFile
  cases found : (rep.levels level).addedFiles.find? (·.number == number) with
  | some g =>
    have added := entry.added (level, g) ⟨mem_of_find?_eq_some found, by
      simpa using find?_some found⟩
    rw [live] at added
    cases added.2.2
    rfl
  | none =>
    have untouched : (rep.entry number).level = none := by
      by_contra touched
      obtain ⟨member, name⟩ := entry.kept (level, f) live lt touched
      exact absurd (by simpa using name) (find?_eq_none.mp found f member)
    have inBase := (entry.untouched untouched).symm.trans live
    rw [tracks.sameBase, VersionStorageInfo.file_liveFiles, inBase]
    rfl

theorem Tracks.delete (applied : rep.applyFileDeletion deleted = .ok rep') :
    ∃ s', s.delete base.numLevels deleted = some s' ∧ Tracks base rep' s' := by
  obtain ⟨on, tracksFiles⟩ := tracks.files.applyFileDeletion applied
  obtain ⟨⟨level, f⟩, live, isLevel⟩ := map_eq_some_iff.mp on
  obtain ⟨_, number⟩ := deleted
  subst isLevel
  have levels : rep.numLevels = base.numLevels := tracks.files.sameBase ▸ rfl
  have stepped : s.delete base.numLevels (level, number) = some
      { files := s.files.delete (level, number)
        blobs := if level < base.numLevels then
          s.blobs.modify f.oldestBlobFileNumber (.unlinkSst number) else s.blobs } := by
    simp [State.delete, live]
  refine ⟨_, stepped, ?_⟩
  unfold Rep.applyFileDeletion at applied
  dsimp only at applied
  split_ifs at applied with elsewhere beyond
  · cases applied
    have beyond : ¬level < base.numLevels := not_lt.mpr (levels ▸ beyond)
    rw [if_neg beyond]
    refine tracks.keep tracksFiles rfl fun k b inBase isBlob sst => ?_
    rw [tracks.links k b inBase isBlob, linkedTo_delete, iff_self_and]
    rintro linked rfl
    exact beyond ((linkedTo_live live).mp linked).2.1
  · have lt : level < base.numLevels := levels ▸ not_le.mp beyond
    rw [tracks.files.oldestBlobFileNumber live lt] at applied
    cases applied
    rw [if_pos lt]
    refine tracks.modify tracksFiles rfl (fun _ => rfl) (fun _ => rfl)
      (fun b m valid inBase isBlob changes => changes.unlinkSst ?_) fun k b inBase isBlob _ => ?_
    · exact (tracks.links _ m.create (by simp [inBase]) isBlob number).mpr
        ((linkedTo_live live).mpr ⟨valid, lt, rfl⟩)
    · rw [linkedTo_delete]
      rw [Blobs.modify_apply] at isBlob
      split_ifs at isBlob with changed
      · obtain ⟨valid, rfl⟩ := changed
        obtain ⟨b, current, rfl⟩ := map_eq_some_iff.mp isBlob
        rw [← tracks.links _ b inBase current]
        simp [BlobFileMetaData.unlinkSst, and_comm]
      · rw [tracks.links k b inBase isBlob, iff_self_and]
        rintro linked rfl
        obtain ⟨valid, -, rfl⟩ := (linkedTo_live live).mp linked
        exact changed ⟨valid, rfl⟩

theorem Tracks.add (applied : rep.applyFileAddition new = .ok rep') :
    ∃ s', s.add base.numLevels new = some s' ∧ Tracks base rep' s' := by
  obtain ⟨absent, tracksFiles⟩ := tracks.files.applyFileAddition applied
  obtain ⟨level, f⟩ := new
  have levels : rep.numLevels = base.numLevels := tracks.files.sameBase ▸ rfl
  have stepped : s.add base.numLevels (level, f) = some
      { files := s.files.add (level, f)
        blobs := if level < base.numLevels then
          s.blobs.modify f.oldestBlobFileNumber (.linkSst f.number) else s.blobs } := by
    rw [State.add, absent]
  refine ⟨_, stepped, ?_⟩
  have nowhere : rep.getCurrentLevelForTableFile f.number = none := by
    rw [tracks.files.current, Files.level, absent]
    rfl
  unfold Rep.applyFileAddition at applied
  dsimp only at applied
  rw [nowhere] at applied
  split_ifs at applied with beyond
  · cases applied
    have beyond : ¬level < base.numLevels := not_lt.mpr (levels ▸ beyond)
    rw [if_neg beyond]
    refine tracks.keep tracksFiles rfl fun k b inBase isBlob sst => ?_
    rw [tracks.links k b inBase isBlob, linkedTo_add absent, iff_self_or]
    rintro ⟨-, -, lt, -⟩
    exact absurd lt beyond
  · have lt : level < base.numLevels := levels ▸ not_le.mp beyond
    cases applied
    rw [if_pos lt]
    refine tracks.modify tracksFiles (Rep.modifyBlobFile_congr rfl rfl) (fun _ => rfl) (fun _ => rfl)
      (fun b m valid inBase isBlob changes => changes.linkSst ?_) fun k b inBase isBlob _ => ?_
    · rw [show m.linkedSsts = m.create.linkedSsts from rfl, tracks.links _ m.create (by simp [inBase]) isBlob]
      rintro ⟨-, _, _, live, -⟩
      rw [absent] at live
      cases live
    · rw [linkedTo_add absent]
      rw [Blobs.modify_apply] at isBlob
      split_ifs at isBlob with changed
      · obtain ⟨valid, rfl⟩ := changed
        obtain ⟨b, current, rfl⟩ := map_eq_some_iff.mp isBlob
        rw [← tracks.links _ b inBase current]
        simp [BlobFileMetaData.linkSst, valid, lt, or_comm]
      · rw [tracks.links k b inBase isBlob, iff_self_or]
        rintro ⟨valid, -, -, rfl⟩
        exact absurd ⟨valid, rfl⟩ changed

theorem Tracks.applyCompactCursors (applied : rep.applyCompactCursors cursor = .ok rep') : Tracks base rep' s := by
  have tracksFiles := tracks.files.applyCompactCursors applied
  unfold Rep.applyCompactCursors at applied
  split_ifs at applied
  · cases applied
    exact tracks.keep tracksFiles rfl tracks.links
  · cases applied
    exact tracks

section Order
variable [LinearOrder κ]

/-- **A builder follows the state through an edit.** -/
theorem Tracks.apply (applied : rep.apply edit = .ok rep') :
    ∃ s', s.apply base.numLevels edit = some s' ∧ Tracks base rep' s' := by
  obtain ⟨_, -, applied⟩ := ok_of_bind applied
  obtain ⟨_, additions, applied⟩ := ok_of_bind applied
  obtain ⟨_, garbages, applied⟩ := ok_of_bind applied
  obtain ⟨_, deletions, applied⟩ := ok_of_bind applied
  obtain ⟨_, files, cursors⟩ := ok_of_bind applied
  obtain ⟨_, ran₁, tracks₁⟩ := foldlM_refines
    (fun _ _ _ _ tracks => tracks.addBlobFile) additions tracks
  obtain ⟨_, ran₂, tracks₂⟩ := foldlM_refines
    (fun _ _ _ _ tracks => tracks.addGarbage) garbages tracks₁
  obtain ⟨_, ran₃, tracks₃⟩ := foldlM_refines
    (fun _ _ _ _ tracks => tracks.delete) deletions tracks₂
  obtain ⟨s₄, ran₄, tracks₄⟩ := foldlM_refines
    (fun _ _ _ _ tracks => tracks.add) files tracks₃
  refine ⟨s₄, by simp [State.apply, ran₁, ran₂, ran₃, ran₄], ?_⟩
  have tracks₅ := foldlM_simulates
    (fun _ _ _ _ tracks => tracks.applyCompactCursors) cursors tracks₄
  simpa using tracks₅

omit tracks in
/-- The builder of a consistent version stands for its state. -/
theorem Tracks.new (wellFormed : base.WellFormed) (consistent : Consistent base) :
    Tracks base (Rep.new base) base.state := by
  have links {n : Nat} {b : BlobFileMetaData} (isBlob : base.getBlobFileMetaData n = some b)
      (sst : Nat) : sst ∈ b.linkedSsts ↔ LinkedTo base.numLevels base.liveFiles n sst := by
    have number : b.blobFileNumber = n := key_of_find isBlob
    rw [consistent.links b (mem_of_find isBlob) sst, number]
    unfold Links LinkedTo
    simp only [wellFormed.liveFiles_iff, mem_range]
    constructor
    · rintro ⟨valid, level, lt, f, member, name, refers⟩
      exact ⟨valid, level, f, ⟨lt, member, name⟩, lt, refers⟩
    · rintro ⟨valid, level, f, ⟨lt, member, name⟩, -, refers⟩
      exact ⟨valid, level, lt, f, member, name, refers⟩
  refine ⟨.new wellFormed, .nil, fun n => ?_, fun n b _ _ found => ?_, fun n b _ => links, fun _ isBlob => ?_⟩
  · change Option.map _ (Option.map _ (base.getBlobFileMetaData n)) = base.getBlobFileMetaData n
    cases base.getBlobFileMetaData n <;> rfl
  · cases found
  · refine Finset.eq_empty_of_forall_notMem fun sst member => ?_
    exact ((links isBlob sst).mp member).1 rfl

omit tracks in
/-- **A builder that applies edits follows the state.** -/
theorem tracks_of_edits (wellFormed : base.WellFormed) (forced : base.forceConsistencyChecks = true)
    (applied : (first :: rest).foldlM Rep.apply (Rep.new base) = .ok rep) :
    ∃ s, (first :: rest).foldlM (State.apply base.numLevels) base.state = some s ∧ Tracks base rep s := by
  -- The first edit checks the base.
  obtain ⟨_, firstApplied, _⟩ := ok_of_bind applied
  obtain ⟨_, checked, -⟩ := ok_of_bind firstApplied
  exact foldlM_refines (fun _ _ _ _ tracks => tracks.apply) applied
    (.new wellFormed (consistent_of_check forced checked))

end Order

/-! ## Saved blob files -/

theorem Tracks.sortedBase : KeyedList.Sorted BlobFileMetaData.blobFileNumber rep.base.blobFiles :=
  tracks.files.sameBase ▸ tracks.files.wellFormed.blobs

theorem Tracks.changes_of_mem (member : .both b m ∈ rep.mergeBlobFileMetas first) : Changes b m := by
  obtain ⟨inBase, found⟩ := find_of_both (sorted_lowerBound first tracks.sortedBase)
    (sorted_lowerBound first tracks.sorted) member
  rw [find_lowerBound first tracks.sortedBase] at inBase
  rw [find_lowerBound first tracks.sorted] at found
  split_ifs at inBase found with reached
  refine tracks.changes b.blobFileNumber b m ?_ found
  rwa [← tracks.files.sameBase]

/-- A merged blob file keeps its number and the table files linked to it. -/
theorem Tracks.savedBlobFile_of_mem (member : merged ∈ rep.mergeBlobFileMetas first) :
    (savedBlobFile merged).blobFileNumber = mergedNumber merged ∧
      (savedBlobFile merged).linkedSsts = Rep.currentLinkedSsts merged := by
  cases merged with
  | left => exact ⟨rfl, rfl⟩
  | right => exact ⟨rfl, rfl⟩
  | both =>
    have changes := tracks.changes_of_mem member
    simp only [savedBlobFile]
    split_ifs with delta
    · exact ⟨congrArg SharedBlobFileMetaData.blobFileNumber changes.sharedMeta, rfl⟩
    · refine ⟨rfl, ?_⟩
      rw [← changes.create_eq (by simpa using delta)]
      rfl

/-- The saved blob files, before those not needed are left out. -/
theorem Tracks.find_merge (first n : Nat) : find BlobFileMetaData.blobFileNumber n
      ((rep.mergeBlobFileMetas first).map savedBlobFile) = if first ≤ n then s.blobs n else none := by
  rw [find_map fun _ member => (tracks.savedBlobFile_of_mem member).1]
  unfold Rep.mergeBlobFileMetas mergedNumber
  rw [find_join (sorted_lowerBound first tracks.sortedBase) (sorted_lowerBound first tracks.sorted),
    find_lowerBound first tracks.sortedBase,
    find_lowerBound first tracks.sorted]
  split_ifs with reached
  · change (KeyedList.Joined.ofFind (rep.base.getBlobFileMetaData n) (rep.findMutable n)).map _ = _
    rw [← tracks.blobs n, Rep.blob, Rep.getOrCreateMutableBlobFileMetaData]
    cases inBase : rep.base.getBlobFileMetaData n with
    | none => cases rep.findMutable n <;> rfl
    | some b =>
      cases found : rep.findMutable n with
      | none => rfl
      | some m =>
        rw [tracks.files.sameBase] at inBase
        have changes := tracks.changes n b m inBase found
        simp only [KeyedList.Joined.ofFind, Option.map_some, savedBlobFile, Option.some_or, Option.some.injEq]
        split_ifs with delta
        · rfl
        · exact (changes.create_eq (by simpa using delta)).symm
  · rfl

/-- A blob file that table files are linked to. -/
def State.Linked (s : State κ μ) (number : Nat) : Prop :=
  ∃ blob, s.blobs number = some blob ∧ blob.linkedSsts ≠ ∅

theorem Tracks.sorted_merge (first : Nat) : KeyedList.Sorted mergedNumber (rep.mergeBlobFileMetas first) :=
  sorted_join (sorted_lowerBound first tracks.sortedBase) (sorted_lowerBound first tracks.sorted)

/-- A linked blob file is met by the search for the oldest one. -/
theorem Tracks.merged_of_linked (linked : s.Linked n) : ∃ merged ∈ rep.mergeBlobFileMetas kInvalidBlobFileNumber,
      mergedNumber merged = n ∧ Rep.currentLinkedSsts merged ≠ ∅ := by
  obtain ⟨_, isBlob, linked⟩ := linked
  have found := tracks.find_merge kInvalidBlobFileNumber n
  rw [if_pos (show kInvalidBlobFileNumber ≤ n from Nat.zero_le n), isBlob] at found
  obtain ⟨merged, member, rfl⟩ := mem_map.mp (mem_of_find found)
  obtain ⟨number, links⟩ := tracks.savedBlobFile_of_mem member
  exact ⟨merged, member, number.symm.trans (key_of_find found), links ▸ linked⟩

/-- The oldest blob file with links bounds the blob files that are saved. -/
theorem Tracks.oldest_le_iff (n : Nat) : (∃ older ≤ n, s.Linked older) ↔
      rep.getMinOldestBlobFileNumber ≠ kInvalidBlobFileNumber ∧ rep.getMinOldestBlobFileNumber ≤ n := by
  unfold Rep.getMinOldestBlobFileNumber
  cases first : (rep.mergeBlobFileMetas kInvalidBlobFileNumber).find? (Rep.currentLinkedSsts · ≠ ∅) with
  | none =>
    refine iff_of_false ?_ (by simp)
    rintro ⟨older, -, linked⟩
    obtain ⟨merged, member, -, links⟩ := tracks.merged_of_linked linked
    exact absurd (by simpa using links) (find?_eq_none.mp first merged member)
  | some merged =>
    have member := mem_of_find?_eq_some first
    obtain ⟨_, links⟩ := tracks.savedBlobFile_of_mem member
    have hasLinks : Rep.currentLinkedSsts merged ≠ ∅ := by simpa using find?_some first
    have isBlob : s.blobs (mergedNumber merged) = some (savedBlobFile merged) := by
      have found := tracks.find_merge kInvalidBlobFileNumber (mergedNumber merged)
      rw [if_pos (show kInvalidBlobFileNumber ≤ _ from Nat.zero_le _), find_map
        fun merged member => (tracks.savedBlobFile_of_mem member).1,
        find_of_mem (tracks.sorted_merge _) member] at found
      exact found.symm
    have linked : s.Linked (mergedNumber merged) := ⟨_, isBlob, links ▸ hasLinks⟩
    have valid : mergedNumber merged ≠ kInvalidBlobFileNumber := by
      intro invalid
      rw [invalid] at isBlob
      exact hasLinks (links ▸ tracks.invalid _ isBlob)
    refine ⟨?_, fun bound => ⟨_, bound.2, linked⟩⟩
    rintro ⟨_, le, olderLinked⟩
    obtain ⟨_, member', rfl, links'⟩ := tracks.merged_of_linked olderLinked
    exact ⟨valid, (key_le_of_find? (tracks.sorted_merge _) first member' (by simpa using links')).trans le⟩

end Steps

/-! ## Saved versions -/

section Saved
variable [LinearOrder κ]

/-- A version saved from a state: its live files on the levels the version has, and
the blob files that still hold data and are not older than all that are linked. -/
structure SavedFrom (numLevels : Nat) (s : State κ μ) (v : VersionStorageInfo κ μ) : Prop where
  sameLevels : v.numLevels = numLevels
  forced : v.forceConsistencyChecks = true
  wellFormed : v.WellFormed
  consistent : Consistent v
  named : ∀ n p, s.files n = some p → p.2.number = n
  files : ∀ level f, f ∈ v.files level ↔ level < numLevels ∧ s.files f.number = some (level, f)
  blobs : ∀ n b, v.getBlobFileMetaData n = some b ↔
    s.blobs n = some b ∧ Rep.isBlobFileNeeded b = true ∧ ∃ older ≤ n, s.Linked older

variable {s : State κ μ} {requirement : EpochNumberRequirement}

/-- **What a builder saves is its state.** -/
theorem Tracks.savedFrom (tracks : Tracks base rep s)
    (saves : rep.saveTo (.new base.numLevels requirement true) = .ok saved) :
    SavedFrom base.numLevels s saved := by
  have saves' := tracks.files.sameBase.symm ▸ saves
  obtain ⟨result, forced, checked⟩ := saveTo_ok saves'
  have numLevels := (files_of_saveTo saves').1.trans (by rw [tracks.files.sameBase])
  have consistent := consistent_of_check forced checked
  have files := tracks.files.mem_files saves'
  have sorted (first : Nat) : KeyedList.Sorted BlobFileMetaData.blobFileNumber
      (((rep.mergeBlobFileMetas first).map savedBlobFile).filter isBlobFileNeeded) :=
    List.Pairwise.filter _ (sorted_map
      (fun merged member => (tracks.savedBlobFile_of_mem member).1) (tracks.sorted_merge first))
  have blobFiles : saved.blobFiles = if rep.getMinOldestBlobFileNumber = kInvalidBlobFileNumber then []
      else ((rep.mergeBlobFileMetas rep.getMinOldestBlobFileNumber).map
        savedBlobFile).filter isBlobFileNeeded := by
    rw [result]
    unfold Rep.saveCompactCursorsTo Rep.saveBlobFilesTo
    dsimp only
    split_ifs <;> rfl
  refine ⟨numLevels, forced, ⟨?_, ?_⟩, consistent, fun n p => (tracks.files.entries n).named p, files, fun n _ => ?_⟩
  · exact nodup_numbers (fun level lt => (consistent.ordered level lt).nodup)
      fun level f member => ((files level f).mp member).2
  · rw [blobFiles]
    split_ifs
    · exact .nil
    · exact sorted _
  · rw [VersionStorageInfo.getBlobFileMetaData, blobFiles, tracks.oldest_le_iff n]
    split_ifs with invalid
    · simp [invalid]
    · rw [find_filter (sorted_map
        (fun _ member => (tracks.savedBlobFile_of_mem member).1) (tracks.sorted_merge _)),
        tracks.find_merge, Option.filter_eq_some_iff]
      split_ifs with reached
      · simp [invalid, reached]
      · simp [reached]

theorem Build.tracked (build : Build κ μ) (consistent : Consistent build.base) :
    ∃ s, build.edits.foldlM (State.apply build.base.numLevels) build.base.state = some s ∧
      Tracks build.base build.rep s :=
  foldlM_refines (fun _ _ _ _ tracks => tracks.apply) build.applied
    (.new build.wellFormed consistent)

/-- **Blob links are exact.** The table files linked to a saved blob file are those
of the version that refer to it. A blob file that is left out has no links and holds
only garbage, or is older than every blob file with links. -/
theorem blob_links_exact (build : Build κ μ) (consistent : Consistent build.base) :
    (∀ blob ∈ build.saved.blobFiles, ∀ sst, sst ∈ blob.linkedSsts ↔
      Links build.saved (List.range build.base.numLevels) blob.blobFileNumber sst) ∧
    ∀ number blob, build.rep.blob number = some blob → build.saved.getBlobFileMetaData number = none →
      (blob.linkedSsts = ∅ ∧ blob.sharedMeta.totalBlobCount ≤ blob.garbageBlobCount) ∨
        ∀ other blob', build.rep.blob other = some blob' → blob'.linkedSsts ≠ ∅ → number < other := by
  obtain ⟨_, -, tracks⟩ := build.tracked consistent
  have saved := tracks.savedFrom build.saves
  refine ⟨saved.sameLevels ▸ saved.consistent.links, fun number blob isBlob leftOut => ?_⟩
  by_cases needed : isBlobFileNeeded blob = true
  · refine .inr fun other blob' isOther linked => not_le.mp fun le => ?_
    rw [tracks.blobs] at isBlob isOther
    have kept := (saved.blobs number blob).mpr ⟨isBlob, needed, other, le, blob', isOther, linked⟩
    rw [leftOut] at kept
    cases kept
  · exact .inl (by simpa [isBlobFileNeeded] using needed)

/-! ## Two states of one history -/

/-- Two states that differ in files on levels the version does not have and in blob
files that are lost. -/
structure Related (numLevels : Nat) (lost : Nat → Prop) (s t : State κ μ) : Prop where
  files : ∀ n, t.files n = s.files n ∨ (t.files n = none ∧ ∃ p, s.files n = some p ∧ numLevels ≤ p.1)
  blobs : ∀ n, t.blobs n = s.blobs n ∨ (t.blobs n = none ∧ lost n)

section Related
omit [LinearOrder κ]
variable {numLevels : Nat} {lost : Nat → Prop} {s t : State κ μ}

/-- A blob file that an edit does not add is not there if it was not there before. -/
theorem State.blobs_of_apply (ran : s.apply numLevels edit = some s') (absent : s.blobs n = none)
    (notAdded : n ∉ edit.blobFileAdditions.map SharedBlobFileMetaData.blobFileNumber) :
    s'.blobs n = none := by
  have modify {blobs : Blobs} {number : Nat} {change : BlobFileMetaData → BlobFileMetaData}
      (absent : blobs n = none) : blobs.modify number change n = none := by
    rw [Blobs.modify_apply, absent]
    split_ifs <;> rfl
  obtain ⟨s₁, additions, ran⟩ := bind_eq_some_iff.mp ran
  obtain ⟨s₂, garbages, ran⟩ := bind_eq_some_iff.mp ran
  obtain ⟨s₃, deletions, ran⟩ := bind_eq_some_iff.mp ran
  have absent₁ : s₁.blobs n = none := by
    refine foldlM_keeps (P := fun s => s.blobs n = none) (fun x member s s' absent ran => ?_) additions absent
    obtain ⟨-, rfl⟩ := State.addBlobFile_some ran
    have other : n ≠ x.blobFileNumber := fun hit => notAdded (hit ▸ mem_map_of_mem member)
    simpa [other] using absent
  have absent₂ : s₂.blobs n = none := by
    refine foldlM_keeps (P := fun s => s.blobs n = none) (fun x _ s s' absent ran => ?_) garbages absent₁
    obtain ⟨_, _, isBlob, -, rfl⟩ := State.addGarbage_some ran
    have other : n ≠ x.blobFileNumber := by
      rintro rfl
      rw [absent] at isBlob
      cases isBlob
    simpa [other] using absent
  have absent₃ : s₃.blobs n = none := by
    refine foldlM_keeps (P := fun s => s.blobs n = none) (fun x _ s s' absent ran => ?_) deletions absent₂
    obtain ⟨_, -, rfl⟩ := State.delete_some ran
    split_ifs
    · exact modify absent
    · exact absent
  refine foldlM_keeps (P := fun s => s.blobs n = none) (fun _ _ _ _ absent ran => ?_) ran absent₃
  obtain rfl := State.add_some ran
  split_ifs
  · exact modify absent
  · exact absent

/-- What the second state has, the first one has. -/
theorem some_of_kept {α : Type} {o o' : Option α} {a : α} {gone : Prop} (kept : o' = o ∨ (o' = none ∧ gone))
    (is_some : o' = some a) : o = some a := by
  rcases kept with rfl | ⟨rfl, -⟩
  · exact is_some
  · cases is_some

variable (related : Related numLevels lost s t)
include related

theorem Related.modify (number : Nat) (change : BlobFileMetaData → BlobFileMetaData) (n : Nat) :
    t.blobs.modify number change n = s.blobs.modify number change n ∨
      (t.blobs.modify number change n = none ∧ lost n) := by
  rw [Blobs.modify_apply, Blobs.modify_apply]
  split_ifs
  · rcases related.blobs n with equal | ⟨gone, isLost⟩
    · exact .inl (by rw [equal])
    · exact .inr ⟨by rw [gone, Option.map_none], isLost⟩
  · exact related.blobs n

theorem Related.addBlobFile (ran : s.addBlobFile addition = some s') (ran' : t.addBlobFile addition = some t') :
    Related numLevels lost s' t' := by
  obtain ⟨-, rfl⟩ := State.addBlobFile_some ran
  obtain ⟨-, rfl⟩ := State.addBlobFile_some ran'
  refine ⟨related.files, fun n => ?_⟩
  by_cases same : n = addition.blobFileNumber
  · exact .inl (by simp [same])
  · simpa [same] using related.blobs n

theorem Related.addGarbage (ran : s.addGarbage garbage = some s') (ran' : t.addGarbage garbage = some t') :
    Related numLevels lost s' t' := by
  obtain ⟨_, _, isBlob, added, rfl⟩ := State.addGarbage_some ran
  obtain ⟨_, _, isBlob', added', rfl⟩ := State.addGarbage_some ran'
  cases isBlob.symm.trans (some_of_kept (related.blobs _) isBlob')
  cases added.symm.trans added'
  refine ⟨related.files, fun n => ?_⟩
  by_cases hit : n = garbage.blobFileNumber
  · exact .inl (by simp [hit])
  · simpa [hit] using related.blobs n

theorem Related.delete (ran : s.delete numLevels deleted = some s') (ran' : t.delete numLevels deleted = some t') :
    Related numLevels lost s' t' := by
  obtain ⟨_, live, rfl⟩ := State.delete_some ran
  obtain ⟨_, live', rfl⟩ := State.delete_some ran'
  cases live.symm.trans (some_of_kept (related.files _) live')
  refine ⟨fun n => ?_, fun n => ?_⟩
  · by_cases hit : n = deleted.2
    · exact .inl (by simp [Files.delete, hit])
    · simpa [Files.delete, hit] using related.files n
  · dsimp only
    split_ifs
    · exact related.modify _ _ n
    · exact related.blobs n

theorem Related.add (ran : s.add numLevels new = some s') (ran' : t.add numLevels new = some t') :
    Related numLevels lost s' t' := by
  obtain rfl := State.add_some ran
  obtain rfl := State.add_some ran'
  refine ⟨fun n => ?_, fun n => ?_⟩
  · by_cases hit : n = new.2.number
    · exact .inl (by simp [Files.add, hit])
    · simpa [Files.add, hit] using related.files n
  · dsimp only
    split_ifs
    · exact related.modify _ _ n
    · exact related.blobs n

/-- Related states stay related while an edit applies to both. -/
theorem Related.apply (ran : s.apply numLevels edit = some s') (ran' : t.apply numLevels edit = some t') :
    Related numLevels lost s' t' := by
  obtain ⟨_, additions, ran⟩ := bind_eq_some_iff.mp ran
  obtain ⟨_, additions', ran'⟩ := bind_eq_some_iff.mp ran'
  obtain ⟨_, garbages, ran⟩ := bind_eq_some_iff.mp ran
  obtain ⟨_, garbages', ran'⟩ := bind_eq_some_iff.mp ran'
  obtain ⟨_, deletions, ran⟩ := bind_eq_some_iff.mp ran
  obtain ⟨_, deletions', ran'⟩ := bind_eq_some_iff.mp ran'
  have related₁ := foldlM_lockstep (fun _ _ _ _ _ related => related.addBlobFile) additions additions' related
  have related₂ := foldlM_lockstep (fun _ _ _ _ _ related => related.addGarbage) garbages garbages' related₁
  have related₃ := foldlM_lockstep (fun _ _ _ _ _ related => related.delete) deletions deletions' related₂
  exact foldlM_lockstep (fun _ _ _ _ _ related => related.add) ran ran' related₃

end Related

variable {v : VersionStorageInfo κ μ} {numLevels : Nat}

/-- The files of a saved version. -/
theorem SavedFrom.liveFiles_iff (saved : SavedFrom numLevels s v) {n : Nat} {p : Nat × FileMetaData κ μ} :
    v.liveFiles n = some p ↔ p.1 < numLevels ∧ s.files n = some p := by
  obtain ⟨_, f⟩ := p
  rw [saved.wellFormed.liveFiles_iff, saved.files, saved.sameLevels]
  constructor
  · rintro ⟨lt, ⟨-, live⟩, rfl⟩
    exact ⟨lt, live⟩
  · rintro ⟨lt, live⟩
    have name : f.number = n := saved.named n _ live
    exact ⟨lt, ⟨lt, name ▸ live⟩, name⟩

variable {t : State κ μ} {lost : Nat → Prop}

/-- Saving one of two related states relates the other to the saved version, if the
blob files that are dropped count as lost. -/
theorem Related.saved (related : Related numLevels lost s t) (saved : SavedFrom numLevels t v)
    (dropped : ∀ n, t.blobs n ≠ none → v.getBlobFileMetaData n = none → lost n) :
    Related numLevels lost s v.state := by
  refine ⟨fun n => ?_, fun n => ?_⟩
  · change v.liveFiles n = s.files n ∨ (v.liveFiles n = none ∧ _)
    cases live : v.liveFiles n with
    | some => exact .inl (some_of_kept (related.files n) (saved.liveFiles_iff.mp live).2).symm
    | none =>
      cases inS : s.files n with
      | none => exact .inl rfl
      | some p =>
        refine .inr ⟨rfl, p, rfl, ?_⟩
        rcases related.files n with equal | ⟨-, q, isQ, beyond⟩
        · by_contra lt
          rw [saved.liveFiles_iff.mpr ⟨not_le.mp lt, equal.trans inS⟩] at live
          cases live
        · rw [inS] at isQ
          cases isQ
          exact beyond
  · change v.getBlobFileMetaData n = s.blobs n ∨ (v.getBlobFileMetaData n = none ∧ _)
    cases isBlob : v.getBlobFileMetaData n with
    | some b => exact .inl (some_of_kept (related.blobs n) ((saved.blobs n b).mp isBlob).1).symm
    | none =>
      rcases related.blobs n with equal | ⟨-, isLost⟩
      · by_cases absent : t.blobs n = none
        · left
          rw [← equal, absent]
        · exact .inr ⟨rfl, dropped n absent isBlob⟩
      · exact .inr ⟨rfl, isLost⟩

/-- The same blob files are saved from two related states, if what the first saves is
not lost. -/
theorem Related.same_blobFiles (related : Related numLevels (fun n => v.getBlobFileMetaData n = none) s t)
    (saved : SavedFrom numLevels s v) (saved' : SavedFrom numLevels t w) :
    v.blobFiles = w.blobFiles := by
  -- A linked blob file is itself saved, and so it is not lost.
  have linked (n : Nat) : s.Linked n ↔ t.Linked n := by
    rcases related.blobs n with equal | ⟨gone, isLost⟩
    · simp only [State.Linked, equal]
    · refine iff_of_false (fun ⟨b, isBlob, links⟩ => ?_) fun ⟨b, isBlob, _⟩ => ?_
      · have kept := (saved.blobs n b).mpr
          ⟨isBlob, by simp [isBlobFileNeeded, links], n, le_rfl, b, isBlob, links⟩
        rw [isLost] at kept
        cases kept
      · rw [gone] at isBlob
        cases isBlob
  refine sorted_ext saved.wellFormed.blobs saved'.wellFormed.blobs fun n => ?_
  ext b
  change v.getBlobFileMetaData n = some b ↔ w.getBlobFileMetaData n = some b
  have blobs := saved.blobs n b
  simp only [linked] at blobs
  rcases related.blobs n with equal | ⟨gone, isLost⟩
  · rw [blobs, saved'.blobs, equal]
  · refine iff_of_false (by simp [isLost]) fun isBlob => ?_
    have inState := ((saved'.blobs n b).mp isBlob).1
    rw [gone] at inState
    cases inState

/-- The same files are saved from two related states, in the order of the level. -/
theorem Related.same_files (related : Related numLevels lost s t)
    (saved : SavedFrom numLevels s v) (saved' : SavedFrom numLevels t w)
    (order : level ≠ 0 ∨ v.epochNumberRequirement = w.epochNumberRequirement) :
    v.files level = w.files level := by
  have same (f : FileMetaData κ μ) : f ∈ v.files level ↔ f ∈ w.files level := by
    rw [saved.files, saved'.files, and_congr_right_iff]
    intro lt
    rcases related.files f.number with equal | ⟨gone, p, live, beyond⟩
    · rw [equal]
    · rw [gone, live]
      refine iff_of_false (fun isLive => ?_) nofun
      cases isLive
      exact absurd lt (not_lt.mpr beyond)
  by_cases lt : level < numLevels
  · have ordered := saved.consistent.ordered level (saved.sameLevels ▸ lt)
    have ordered' := saved'.consistent.ordered level (saved'.sameLevels ▸ lt)
    have sameOrder : Ordered v.epochNumberRequirement level (w.files level) := by
      rcases order with positive | equal
      · simpa [Ordered, levelCmp, positive] using ordered'
      · exact equal ▸ ordered'
    exact ordered.ext sameOrder same
  · have empty {s : State κ μ} {v : VersionStorageInfo κ μ} (saved : SavedFrom numLevels s v) :
        v.files level = [] :=
      eq_nil_iff_forall_not_mem.mpr fun f member => lt ((saved.files level f).mp member).1
    rw [empty saved, empty saved']

/-! ## At once and one by one -/

/-- A version saved after one edit by a builder of its own. -/
def saveAfter (requirement : EpochNumberRequirement) (v : VersionStorageInfo κ μ)
    (edit : VersionEdit κ μ) : Except Corruption (VersionStorageInfo κ μ) := do
  let rep ← (Rep.new v).apply edit
  rep.saveTo (.new v.numLevels requirement true)

/-- The versions saved after each edit. -/
def saveAfterEach (requirement : EpochNumberRequirement) (v : VersionStorageInfo κ μ) :
    List (VersionEdit κ μ) → Except Corruption (List (VersionStorageInfo κ μ))
  | [] => .ok []
  | edit :: edits => do
    let next ← saveAfter requirement v edit
    let later ← saveAfterEach requirement next edits
    return next :: later

/-- The blob files of the final version are in every intermediate version from the
edit that adds them on: none of them is dropped on the way. -/
def NoneDropped (final : VersionStorageInfo κ μ) :
    VersionStorageInfo κ μ → List (VersionEdit κ μ) → List (VersionStorageInfo κ μ) → Prop
  | v, edit :: edit' :: edits, next :: later =>
    (∀ n, (final.getBlobFileMetaData n).isSome → (v.getBlobFileMetaData n).isSome ∨
        n ∈ edit.blobFileAdditions.map SharedBlobFileMetaData.blobFileNumber →
      (next.getBlobFileMetaData n).isSome) ∧ NoneDropped final next (edit' :: edits) later
  | _, _, _ => True

/-- A base version and edits for which both ways succeed: one builder for all edits,
and a builder of its own for each edit. -/
structure BothWays (κ μ : Type) [LinearOrder κ] where
  base : VersionStorageInfo κ μ
  wellFormed : base.WellFormed
  forced : base.forceConsistencyChecks = true
  requirement : EpochNumberRequirement
  first : VersionEdit κ μ
  rest : List (VersionEdit κ μ)
  rep : Rep κ μ
  applied : (first :: rest).foldlM Rep.apply (Rep.new base) = .ok rep
  atOnce : VersionStorageInfo κ μ
  saves : rep.saveTo (.new base.numLevels requirement true) = .ok atOnce
  versions : List (VersionStorageInfo κ μ)
  savesEach : saveAfterEach requirement base (first :: rest) = .ok versions

/-- The last of the versions saved one by one. -/
def BothWays.oneByOne (both : BothWays κ μ) : VersionStorageInfo κ μ :=
  both.versions.getLastD both.base

/-- The edits at once. -/
def BothWays.build (both : BothWays κ μ) : Build κ μ where
  base := both.base
  wellFormed := both.wellFormed
  edits := both.first :: both.rest
  rep := both.rep
  applied := both.applied
  requirement := both.requirement
  saved := both.atOnce
  saves := both.saves

/-- One edit, saved. -/
theorem savedFrom_saveAfter {next} (wellFormed : v.WellFormed) (forced : v.forceConsistencyChecks = true)
    (saves : saveAfter requirement v edit = .ok next) :
    ∃ t, v.state.apply v.numLevels edit = some t ∧ SavedFrom v.numLevels t next ∧
      (requirement = .kMustPresent → next.epochNumberRequirement = .kMustPresent) := by
  obtain ⟨rep, applied, saves⟩ := ok_of_bind saves
  have applied : [edit].foldlM Rep.apply (Rep.new v) = .ok rep := by simp [applied]
  obtain ⟨t, ran, tracks⟩ := tracks_of_edits wellFormed forced applied
  refine ⟨t, by simpa using ran, tracks.savedFrom saves, ?_⟩
  rintro rfl
  exact requirement_of_saveTo saves

/-- **Saving after each edit keeps to the state of all edits**, up to what was dropped
on the way. -/
theorem savedFrom_saveAfterEach (final : VersionStorageInfo κ μ)
    (isLost : ∀ n, final.getBlobFileMetaData n = none → lost n)
    (related : Related v.numLevels lost s v.state) (wellFormed : v.WellFormed)
    (forced : v.forceConsistencyChecks = true)
    (ran : (first :: rest).foldlM (State.apply v.numLevels) s = some s')
    (saves : saveAfterEach requirement v (first :: rest) = .ok versions)
    (kept : NoneDropped final v (first :: rest) versions) :
    ∃ t, Related v.numLevels lost s' t ∧ SavedFrom v.numLevels t (versions.getLastD v) ∧
      (requirement = .kMustPresent → (versions.getLastD v).epochNumberRequirement = .kMustPresent) := by
  induction rest generalizing first v s versions with
  | nil =>
    obtain ⟨next, saved, saves⟩ := ok_of_bind saves
    obtain ⟨_, later, same⟩ := ok_of_bind saves
    cases later
    cases same
    obtain ⟨t, ran', savedFrom, must⟩ := savedFrom_saveAfter wellFormed forced saved
    exact ⟨t, related.apply (by simpa using ran) ran', savedFrom, must⟩
  | cons _ _ ih =>
    obtain ⟨_, saved, saves⟩ := ok_of_bind saves
    obtain ⟨_, savesLater, same⟩ := ok_of_bind saves
    cases same
    obtain ⟨_, ran', savedFrom, -⟩ := savedFrom_saveAfter wellFormed forced saved
    obtain ⟨_, firstRan, ran⟩ := bind_eq_some_iff.mp ran
    have relatedNext := (related.apply firstRan ran').saved savedFrom fun n present dropped => by
      refine isLost n (Option.not_isSome_iff_eq_none.mp fun inFinal => ?_)
      refine absurd (kept.1 n inFinal ?_) (by simp [dropped])
      by_contra neither
      obtain ⟨absent, notAdded⟩ := not_or.mp neither
      exact present (State.blobs_of_apply ran' (Option.not_isSome_iff_eq_none.mp absent) notAdded)
    have levels := savedFrom.sameLevels
    rw [← levels] at ran relatedNext
    obtain ⟨t', related', savedFrom', must⟩ := ih relatedNext savedFrom.wellFormed savedFrom.forced
      ran savesLater kept.2
    rw [levels] at related' savedFrom'
    simp only [getLastD_cons]
    exact ⟨t', related', savedFrom', must⟩

omit [LinearOrder κ] in
/-- No blob file of a version without blob files is dropped. -/
theorem noneDropped_of_empty (empty : ∀ n, final.getBlobFileMetaData n = none) (v : VersionStorageInfo κ μ)
    (edits : List (VersionEdit κ μ)) (versions : List (VersionStorageInfo κ μ)) :
    NoneDropped final v edits versions := by
  induction edits generalizing v versions with
  | nil => trivial
  | cons _ rest ih =>
    cases rest with
    | nil => trivial
    | cons =>
      cases versions with
      | nil => trivial
      | cons next later => exact ⟨fun _ inFinal => by simp [empty] at inFinal, ih next later⟩

/-- **Applying edits at once equals applying them one by one**: the levels from 1 on
hold the same files in the same order, and so does level 0 if the two versions end up
with one epoch number requirement, which is so when epoch numbers must be present. The
blob files with their metadata are the same if no blob file of the final version was
dropped by an intermediate save. -/
theorem at_once_eq_one_by_one (both : BothWays κ μ) :
    (∀ level, level ≠ 0 → both.atOnce.files level = both.oneByOne.files level) ∧
    (both.requirement = .kMustPresent ∨ both.atOnce.epochNumberRequirement = both.oneByOne.epochNumberRequirement →
      both.atOnce.files 0 = both.oneByOne.files 0) ∧
    (NoneDropped both.atOnce both.base (both.first :: both.rest) both.versions →
      both.atOnce.blobFiles = both.oneByOne.blobFiles) := by
  obtain ⟨_, ran, tracks⟩ := tracks_of_edits both.wellFormed both.forced both.applied
  have saved := tracks.savedFrom both.saves
  have start (lost : Nat → Prop) : Related both.base.numLevels lost both.base.state both.base.state :=
    ⟨fun _ => .inl rfl, fun _ => .inl rfl⟩
  obtain ⟨t, related, saved', must⟩ := savedFrom_saveAfterEach
    (.new 0 both.requirement true) (fun _ _ => trivial) (start fun _ => True)
    both.wellFormed both.forced ran both.savesEach (noneDropped_of_empty (fun _ => rfl) _ _ _)
  refine ⟨fun _ positive => related.same_files saved saved' (.inl positive), fun order => ?_, fun kept => ?_⟩
  · refine related.same_files saved saved' (.inr ?_)
    rcases order with isMust | same
    · have saves := isMust ▸ both.saves
      exact (requirement_of_saveTo saves).trans (must isMust).symm
    · exact same
  · obtain ⟨_, related, saved', -⟩ := savedFrom_saveAfterEach both.atOnce (fun _ isNone => isNone) (start _)
      both.wellFormed both.forced ran both.savesEach kept
    exact related.same_blobFiles saved saved'

end Saved

/-! ## A blob file that is dropped on the way -/

/-- A blob file. -/
def lateBlob : SharedBlobFileMetaData := ⟨10, 1, 1, [], []⟩

/-- A table file that refers to the blob file. -/
def lateFile : FileMetaData Nat Unit :=
  ⟨11, ⟨0, 1, .kTypeValue⟩, ⟨1, 1, .kTypeValue⟩, 1, 1, 1, 10, ()⟩

/-- The builder after both edits. -/
def lateRep : Rep Nat Unit :=
  { Rep.new (.new 1 .kMustPresent true) with
    levels := update (fun _ => {}) 0 { addedFiles := [lateFile] }
    tableFileLevels := update (fun _ => none) 11 (some (some 0))
    mutableBlobFileMetas := [(MutableBlobFileMetaData.ofShared lateBlob).linkSst 11] }

/-- The version saved after both edits, with the blob files given. -/
def lateVersion (blobFiles : List BlobFileMetaData) : VersionStorageInfo Nat Unit :=
  { (VersionStorageInfo.new 1 .kMustPresent true : VersionStorageInfo Nat Unit) with
    files := fun level => if level < 1 then [lateFile] else []
    blobFiles := blobFiles }

/-- The table files saved by a builder that added the table file. -/
theorem late_saveSSTFilesTo (blobs : List MutableBlobFileMetaData) :
    Rep.saveSSTFilesTo { lateRep with mutableBlobFileMetas := blobs } (.new 1 .kMustPresent true) =
      lateVersion [] := by
  have files (level : Nat) :
      savedFiles { lateRep with mutableBlobFileMetas := blobs } (levelCmp .kMustPresent level) level =
        if level < 1 then [lateFile] else [] := by
    by_cases zero : level = 0
    · simp [zero, savedFiles, lateRep, Rep.new, VersionStorageInfo.new,
        Rep.mergeUnorderedAddedFilesWithBase, Rep.maybeAddFile]
    · simp [zero, savedFiles, lateRep, Rep.new, VersionStorageInfo.new, Rep.mergeUnorderedAddedFilesWithBase]
  have levels : Rep.numLevels { lateRep with mutableBlobFileMetas := blobs } = 1 := rfl
  unfold Rep.saveSSTFilesTo lateVersion
  congr 1
  funext level
  by_cases zero : level < 1 <;> simp [Rep.savedRequirement, VersionStorageInfo.new, files, levels, zero]

theorem lateRep_saves : lateRep.saveTo (.new 1 .kMustPresent true) = .ok (lateVersion [⟨lateBlob, {11}, 0, 0⟩]) := by
  have merge (first : Nat) (le : first ≤ 10) : lateRep.mergeBlobFileMetas first =
      [.right ((ofShared lateBlob).linkSst 11)] := by
    have reached : ¬10 < first := not_lt.mpr le
    simp [Rep.mergeBlobFileMetas, lateRep, Rep.new, VersionStorageInfo.new, join,
      lowerBound, MutableBlobFileMetaData.blobFileNumber, MutableBlobFileMetaData.linkSst,
      ofShared, lateBlob, reached]
  have oldest : lateRep.getMinOldestBlobFileNumber = 10 := by
    unfold Rep.getMinOldestBlobFileNumber
    rw [merge kInvalidBlobFileNumber (Nat.zero_le 10)]
    rfl
  have blobs : lateRep.saveBlobFilesTo (lateVersion []) = lateVersion [⟨lateBlob, {11}, 0, 0⟩] := by
    unfold Rep.saveBlobFilesTo
    rw [oldest]
    dsimp only
    rw [merge 10 le_rfl]
    rfl
  unfold Rep.saveTo
  rw [late_saveSSTFilesTo lateRep.mutableBlobFileMetas, blobs]
  rfl

/-- The blob file alone is not saved. -/
theorem lateBlob_dropped : saveAfter .kMustPresent (.new 1 .kMustPresent true)
    ({ blobFileAdditions := [lateBlob] } : VersionEdit Nat Unit) = .ok (.new 1 .kMustPresent true) := by
  let rep : Rep Nat Unit :=
    { Rep.new (.new 1 .kMustPresent true) with mutableBlobFileMetas := [.ofShared lateBlob] }
  have ssts : rep.saveSSTFilesTo (.new 1 .kMustPresent true) = .new 1 .kMustPresent true := by
    simp [rep, Rep.saveSSTFilesTo, Rep.savedRequirement, VersionStorageInfo.new, savedFiles,
      Rep.new, Rep.mergeUnorderedAddedFilesWithBase]
  change rep.saveTo (.new 1 .kMustPresent true) = _
  unfold Rep.saveTo
  rw [ssts, Rep.saveBlobFilesTo_unlinked rfl (by simp [rep, ofShared])]
  rfl

/-- Without links the table file is saved alone. -/
theorem late_saves_unlinked (unlinked : ∀ m ∈ blobs, m.linkedSsts = ∅) :
    Rep.saveTo { lateRep with mutableBlobFileMetas := blobs } (.new 1 .kMustPresent true) = .ok (lateVersion []) := by
  unfold Rep.saveTo
  rw [late_saveSSTFilesTo, Rep.saveBlobFilesTo_unlinked rfl unlinked]
  rfl

/-- The table file is saved without the blob file. -/
theorem lateFile_saved : saveAfter .kMustPresent (.new 1 .kMustPresent true)
    ({ newFiles := [(0, lateFile)] } : VersionEdit Nat Unit) = .ok (lateVersion []) := by
  exact late_saves_unlinked (forall_mem_nil _)

/-- A blob file is added, and then a table file that refers to it. -/
def lateLink : BothWays Nat Unit where
  base := .new 1 .kMustPresent true
  wellFormed := oneLevel_wellFormed
  forced := rfl
  requirement := .kMustPresent
  first := { blobFileAdditions := [lateBlob] }
  rest := [{ newFiles := [(0, lateFile)] }]
  rep := lateRep
  applied := rfl
  atOnce := lateVersion [⟨lateBlob, {11}, 0, 0⟩]
  saves := lateRep_saves
  versions := [.new 1 .kMustPresent true, lateVersion []]
  savesEach := by
    unfold saveAfterEach
    rw [lateBlob_dropped]
    change saveAfterEach .kMustPresent _ [_] >>= _ = _
    unfold saveAfterEach
    rw [lateFile_saved]
    rfl

/-- The intermediate version has no table file and drops the blob file. -/
theorem late_link_loses_blob_file : lateLink.atOnce.blobFiles ≠ lateLink.oneByOne.blobFiles := by
  simp [lateLink, lateVersion, BothWays.oneByOne]

/-- The version saved at once has the table file, and so has the last of those saved one by one. -/
theorem late_link_keeps_table_file :
    lateLink.atOnce.files 0 = [lateFile] ∧ lateLink.atOnce.files 0 = lateLink.oneByOne.files 0 :=
  ⟨rfl, (at_once_eq_one_by_one lateLink).2.1 (.inl rfl)⟩

/-- The blob file is saved with its link, to the table file of the version. -/
theorem late_link_is_exact : Links lateLink.build.saved (List.range 1) 10 11 := by
  have consistent : Consistent lateLink.build.base := consistent_of_check rfl rfl
  exact ((blob_links_exact lateLink.build consistent).1 ⟨lateBlob, {11}, 0, 0⟩ (mem_singleton_self _) 11).mp
    (Finset.mem_singleton_self 11)

/-- A table file is added, and then the blob file that it refers to. -/
def lateBlobBuild : Build Nat Unit where
  base := .new 1 .kMustPresent true
  wellFormed := oneLevel_wellFormed
  edits := [{ newFiles := [(0, lateFile)] }, { blobFileAdditions := [lateBlob] }]
  rep := { lateRep with mutableBlobFileMetas := [.ofShared lateBlob] }
  applied := rfl
  requirement := .kMustPresent
  saved := lateVersion []
  saves := late_saves_unlinked (by simp [MutableBlobFileMetaData.ofShared])

/-- The saved table file refers to the blob file, which is not garbage and is left
out: the table file was added first and is not linked to it. -/
theorem late_blob_file_is_left_out : lateBlobBuild.rep.blob 10 = some ⟨lateBlob, ∅, 0, 0⟩ ∧
    lateFile ∈ lateBlobBuild.saved.files 0 ∧ lateFile.oldestBlobFileNumber = 10 ∧
    lateBlobBuild.saved.getBlobFileMetaData 10 = none :=
  ⟨rfl, mem_singleton_self _, rfl, rfl⟩

/-! ## Garbage -/

/-- What is counted of blob files and their garbage. -/
inductive Measure where
  | count
  | bytes

def SharedBlobFileMetaData.totalBlob (sharedMeta : SharedBlobFileMetaData) : Measure → UInt64
  | .count => sharedMeta.totalBlobCount
  | .bytes => sharedMeta.totalBlobBytes

def BlobFileMetaData.garbageBlob (blob : BlobFileMetaData) : Measure → UInt64
  | .count => blob.garbageBlobCount
  | .bytes => blob.garbageBlobBytes

def BlobFileGarbage.garbageBlob (garbage : BlobFileGarbage) : Measure → UInt64
  | .count => garbage.garbageBlobCount
  | .bytes => garbage.garbageBlobBytes

/-- The garbage of a blob file by the base version and by records, as an integer. -/
def recorded (base : Blobs) (records : List BlobFileGarbage) (number : Nat) (measure : Measure) : Nat :=
  ((base number).elim 0 fun blob => (blob.garbageBlob measure).toNat) +
    ((records.filter (·.blobFileNumber = number)).map fun record => (record.garbageBlob measure).toNat).sum

/-- The garbage of the blob files is what is recorded, but for multiples of `2 ^ 64`,
and no more than the blob files hold. -/
def Exact (base blobs : Blobs) (records : List BlobFileGarbage) : Prop :=
  ∀ number, (blobs number = none → ∀ measure, recorded base records number measure = 0) ∧
    ∀ blob, blobs number = some blob → ∀ measure,
      (blob.garbageBlob measure).toNat = recorded base records number measure % 2 ^ 64 ∧
      blob.garbageBlob measure ≤ blob.sharedMeta.totalBlob measure

section Exact
variable {base blobs : Blobs} {blob blob' : BlobFileMetaData} {records : List BlobFileGarbage} {s : State κ μ}

theorem BlobFileMetaData.addGarbage_some
    (added : blob.addGarbage garbage.garbageBlobCount garbage.garbageBlobBytes = some blob') (measure : Measure) :
    blob'.sharedMeta = blob.sharedMeta ∧
      blob'.garbageBlob measure = blob.garbageBlob measure + garbage.garbageBlob measure ∧
      blob'.garbageBlob measure ≤ blob.sharedMeta.totalBlob measure := by
  unfold addGarbage at added
  split_ifs at added with overflow
  cases added
  obtain ⟨count, bytes⟩ := not_or.mp overflow
  cases measure with
  | count => exact ⟨rfl, rfl, UInt64.not_lt.mp count⟩
  | bytes => exact ⟨rfl, rfl, UInt64.not_lt.mp bytes⟩

private theorem recorded_concat (number : Nat) (measure : Measure) :
    recorded base (records ++ [garbage]) number measure = recorded base records number measure +
      if garbage.blobFileNumber = number then (garbage.garbageBlob measure).toNat else 0 := by
  by_cases same : garbage.blobFileNumber = number <;> simp [recorded, same, Nat.add_assoc]

theorem Exact.addGarbage (sums : Exact base s.blobs records) (ran : s.addGarbage garbage = some s') :
    Exact base s'.blobs (records ++ [garbage]) := by
  intro number
  obtain ⟨blob, _, isBlob, added, rfl⟩ := State.addGarbage_some ran
  have before := sums number
  dsimp only
  by_cases same : garbage.blobFileNumber = number
  · subst same
    rw [update_self]
    refine ⟨nofun, fun _ isNew measure => ?_⟩
    cases isNew
    obtain ⟨same, sum, bound⟩ := BlobFileMetaData.addGarbage_some added measure
    refine ⟨?_, same ▸ bound⟩
    rw [sum, UInt64.toNat_add, (before.2 blob isBlob measure).1, recorded_concat, if_pos rfl, Nat.mod_add_mod]
  · simpa only [recorded_concat, if_neg same, Nat.add_zero, update_of_ne (Ne.symm same)] using before

theorem Exact.addBlobFile (sums : Exact base s.blobs records) (ran : s.addBlobFile addition = some s') :
    Exact base s'.blobs records := by
  intro number
  obtain ⟨absent, rfl⟩ := State.addBlobFile_some ran
  have before := sums number
  dsimp only
  by_cases same : number = addition.blobFileNumber
  · subst same
    rw [update_self]
    refine ⟨nofun, fun _ isNew measure => ?_⟩
    cases isNew
    rw [before.1 absent]
    cases measure <;> exact ⟨rfl, UInt64.zero_le⟩
  · rwa [update_of_ne same]

/-- Links do not change the garbage. -/
theorem Exact.links [Decidable p] (sums : Exact base blobs records)
    (links : ∀ blob : BlobFileMetaData, ∃ linked, change blob = { blob with linkedSsts := linked }) :
    Exact base (if p then blobs.modify n change else blobs) records := by
  intro number
  obtain ⟨absent, present⟩ := sums number
  split
  · rw [Blobs.modify_apply]
    split
    · refine ⟨fun none => absent (by simpa using none), fun _ isBlob measure => ?_⟩
      obtain ⟨blob, current, rfl⟩ := map_eq_some_iff.mp isBlob
      obtain ⟨_, changed⟩ := links blob
      rw [changed]
      have same := present blob current measure
      cases measure <;> exact same
    · exact ⟨absent, present⟩
  · exact ⟨absent, present⟩

/-- **An edit keeps the garbage exact.** -/
theorem Exact.apply (sums : Exact base s.blobs records) (ran : s.apply numLevels edit = some s') :
    Exact base s'.blobs (records ++ edit.blobFileGarbages) := by
  obtain ⟨_, additions, ran⟩ := bind_eq_some_iff.mp ran
  obtain ⟨_, garbages, ran⟩ := bind_eq_some_iff.mp ran
  obtain ⟨_, deletions, files⟩ := bind_eq_some_iff.mp ran
  have sums₁ := foldlM_keeps (P := fun s => Exact base s.blobs records)
    (fun _ _ _ _ sums ran => sums.addBlobFile ran) additions sums
  have sums₂ := foldlM_collects (P := fun s => Exact base s.blobs)
    (fun _ _ _ _ sums ran => sums.addGarbage ran) garbages sums₁
  rw [flatMap_singleton'] at sums₂
  have sums₃ := foldlM_keeps (P := fun s => Exact base s.blobs (records ++ edit.blobFileGarbages))
    (fun _ _ _ _ sums ran => by
      obtain ⟨_, -, rfl⟩ := State.delete_some ran
      exact sums.links fun _ => ⟨_, rfl⟩) deletions sums₂
  exact foldlM_keeps (P := fun s => Exact base s.blobs (records ++ edit.blobFileGarbages)) (fun _ _ _ _ sums ran => by
      obtain rfl := State.add_some ran
      exact sums.links fun _ => ⟨_, rfl⟩) files sums₃

variable [LinearOrder κ]

/-- **Garbage is counted exactly if and only if its sum is below `2 ^ 64`**: after
every list of edits the garbage of a blob file is then what the base version and the
records say. It is never more than the file holds, and a record of more is rejected
unless the sum wraps around. -/
theorem garbage_exact (base : VersionStorageInfo κ μ) (wellFormed : base.WellFormed) (consistent : Consistent base)
    (sound : ∀ blob ∈ base.blobFiles, ∀ measure, blob.garbageBlob measure ≤ blob.sharedMeta.totalBlob measure)
    (edits : List (VersionEdit κ μ)) (rep : Rep κ μ) (applied : edits.foldlM Rep.apply (Rep.new base) = .ok rep)
    (number : Nat) (blob : BlobFileMetaData) (isBlob : rep.blob number = some blob) (measure : Measure) :
    let sum := recorded base.getBlobFileMetaData (edits.flatMap (·.blobFileGarbages)) number measure
    ((blob.garbageBlob measure).toNat = sum ↔ sum < 2 ^ 64) ∧
      blob.garbageBlob measure ≤ blob.sharedMeta.totalBlob measure ∧
      ∀ garbage : BlobFileGarbage, garbage.blobFileNumber = number → (blob.sharedMeta.totalBlob measure).toNat <
          (blob.garbageBlob measure).toNat + (garbage.garbageBlob measure).toNat →
        (blob.garbageBlob measure).toNat + (garbage.garbageBlob measure).toNat < 2 ^ 64 →
        ∃ error, rep.applyBlobFileGarbage garbage = .error error := by
  obtain ⟨s, ran, tracks⟩ := foldlM_refines (R := Tracks base) (f := Rep.apply)
    (fun _ _ _ _ tracks => tracks.apply) applied (.new wellFormed consistent)
  have start : Exact base.getBlobFileMetaData base.state.blobs [] := by
    refine fun number => ⟨fun none measure => ?_, fun b isBlob measure => ⟨?_, ?_⟩⟩
    · rw [recorded, show base.getBlobFileMetaData number = _ from none]
      rfl
    · rw [recorded, show base.getBlobFileMetaData number = _ from isBlob]
      exact (Nat.mod_eq_of_lt (UInt64.toNat_lt _)).symm
    · exact sound b (KeyedList.mem_of_find isBlob) measure
  have sums := foldlM_collects (P := fun s => Exact base.getBlobFileMetaData s.blobs)
    (fun _ _ _ _ sums ran => sums.apply ran) ran start
  have isBlob' := (tracks.blobs number).symm.trans isBlob
  obtain ⟨wrapped, bound⟩ := (sums number).2 blob isBlob' measure
  refine ⟨?_, bound, fun garbage isNumber exceeds room => ?_⟩
  · rw [wrapped]
    exact ⟨fun same => same ▸ Nat.mod_lt _ (by decide), Nat.mod_eq_of_lt⟩
  cases applied' : rep.applyBlobFileGarbage garbage with
  | error error => exact ⟨error, rfl⟩
  | ok =>
    obtain ⟨_, ran', -⟩ := tracks.addGarbage applied'
    obtain ⟨_, _, current, added, -⟩ := State.addGarbage_some ran'
    cases current.symm.trans (isNumber ▸ isBlob')
    obtain ⟨-, more, within⟩ := BlobFileMetaData.addGarbage_some added measure
    rw [more, UInt64.le_iff_toNat_le, UInt64.toNat_add, Nat.mod_eq_of_lt room] at within
    exact absurd within (not_le.mpr exceeds)

end Exact

/-- A blob file is added, with two records of garbage. -/
def garbageEdits (count : UInt64) : List (VersionEdit Nat Unit) :=
  [{ blobFileAdditions := [lateBlob], blobFileGarbages := [⟨10, 1, 0⟩, ⟨10, count, 0⟩] }]

theorem second_record_is_rejected :
    ∃ rep, (garbageEdits 0).foldlM Rep.apply (Rep.new (.new 1 .kMustPresent true)) = .ok rep ∧
      ((1 : UInt64).toNat = recorded (fun _ => none) ((garbageEdits 0).flatMap (·.blobFileGarbages)) 10 .count) ∧
      ∃ error, rep.applyBlobFileGarbage ⟨10, 1, 0⟩ = .error error := by
  obtain ⟨exactly, -, rejects⟩ :=
    garbage_exact (.new 1 .kMustPresent true) ⟨nodup_nil, .nil⟩ (consistent_of_check rfl rfl)
    nofun (garbageEdits 0) _ rfl 10 ⟨lateBlob, ∅, 1, 0⟩ rfl .count
  exact ⟨_, rfl, exactly.mpr (by decide), rejects ⟨10, 1, 0⟩ rfl (by decide) (by decide)⟩

/-- **The garbage wraps around**: more than the blob file holds is accepted, and the
garbage is less than before. -/
theorem garbage_wraps_around :
    ∃ rep, (garbageEdits 0xFFFFFFFFFFFFFFFF).foldlM Rep.apply (Rep.new (.new 1 .kMustPresent true)) = .ok rep ∧
      rep.blob 10 = some ⟨lateBlob, ∅, 0, 0⟩ ∧
      recorded (fun _ => none) ((garbageEdits 0xFFFFFFFFFFFFFFFF).flatMap (·.blobFileGarbages)) 10 .count = 2 ^ 64 := by
  refine ⟨{ Rep.new (.new 1 .kMustPresent true) with mutableBlobFileMetas := [⟨lateBlob, {}, ∅, 0, 0⟩] }, rfl, rfl, ?_⟩
  simp [recorded, garbageEdits, BlobFileGarbage.garbageBlob]

end Rocksdb.VersionBuilder
