import Rocksdb.VersionEditProofs

/-! A version edit that was written is read back. What changes is the boundaries of
files that do not store user-defined timestamps: they are written without them. -/
namespace Rocksdb.Manifest
open Coding Lib Lib.LittleEndian Lib.Parsing Lib.KeyedList List
open Collects (fieldIf field)

/-- What the types of a file's fields do not say. -/
structure FileMetaData.InRange (f : FileMetaData) : Prop where
  smallest : f.smallest.length < 2 ^ 32
  largest : f.largest.length < 2 ^ 32
  temperature : f.temperature ≤ kCold
  fileChecksum : f.fileChecksum.length < 2 ^ 32
  fileChecksumFuncName : f.fileChecksumFuncName.length < 2 ^ 32

/-- What the types of an edit's fields do not say. -/
structure VersionEdit.InRange (edit : VersionEdit) : Prop where
  dbId : ∀ id, edit.dbId = some id → id.length < 2 ^ 32
  comparator : ∀ name, edit.comparator = some name → name.length < 2 ^ 32
  compactCursors : ∀ cursor ∈ edit.compactCursors, validInternalKey cursor.2 = true ∧ cursor.2.length < 2 ^ 32
  deletedFiles : KeyedList.Sorted deletedFileOrder edit.deletedFiles
  newFiles : ∀ file ∈ edit.newFiles, file.2.InRange
  blobFileAdditions : ∀ addition ∈ edit.blobFileAdditions,
    addition.checksumMethod.length < 2 ^ 32 ∧ addition.checksumValue.length < 2 ^ 32
  columnFamilyAdd : ∀ name, edit.columnFamilyAdd = some name → name.length < 2 ^ 32
  fullHistoryTsLow : edit.fullHistoryTsLow.length < 2 ^ 32

/-- A file as it is written, for a size of timestamps. -/
def FileMetaData.written (tsSz : Nat) (f : FileMetaData) : FileMetaData :=
  if tsSz = 0 ∨ f.userDefinedTimestampsPersisted then f
  else { f with
    smallest := (stripTimestampFromInternalKey f.smallest tsSz).getD f.smallest
    largest := (stripTimestampFromInternalKey f.largest tsSz).getD f.largest }

def VersionEdit.written (tsSz : Option Nat) (edit : VersionEdit) : VersionEdit :=
  { edit with newFiles := edit.newFiles.map fun file => (file.1, file.2.written (tsSz.getD 0)) }

/-! ## File numbers -/

private theorem pack_unpack (packed : UInt64) :
    packFileNumberAndPathId (packed &&& kFileNumberMask) (packed / (kFileNumberMask + 1)) = packed := by
  have low : (packed &&& kFileNumberMask).toNat = packed.toNat % 2 ^ 62 := by
    exact Nat.and_two_pow_sub_one_eq_mod packed.toNat 62
  have high : (packed / (kFileNumberMask + 1) * (kFileNumberMask + 1)).toNat = packed.toNat / 2 ^ 62 * 2 ^ 62 := by
    have bound := packed.toNat_lt
    rw [UInt64.toNat_mul, UInt64.toNat_div]
    exact Nat.mod_eq_of_lt ((Nat.div_mul_le_self _ _).trans_lt bound)
  refine UInt64.toNat_inj.mp ?_
  rw [packFileNumberAndPathId, UInt64.toNat_or, low, high, ← Nat.shiftLeft_eq, Nat.or_comm,
    ← Nat.shiftLeft_add_eq_or_of_lt (Nat.mod_lt _ (Nat.two_pow_pos _)), Nat.shiftLeft_eq]
  omega

variable (fd : FileDescriptor)

theorem getPathId_toNat : fd.getPathId.toNat = fd.packedNumberAndPathId.toNat / 2 ^ 62 := by
  have bound := fd.packedNumberAndPathId.toNat_lt
  refine Nat.mod_eq_of_lt ((Nat.div_lt_of_lt_mul ?_).trans_le (by decide : 4 ≤ 2 ^ 32))
  exact bound

private theorem getPathId_lt : fd.getPathId.toNat < 4 := by
  have bound := fd.packedNumberAndPathId.toNat_lt
  rw [getPathId_toNat]
  omega

/-- The number and the path of a file make up its descriptor. -/
theorem pack_descriptor : packFileNumberAndPathId fd.getNumber fd.getPathId.toUInt64 = fd.packedNumberAndPathId := by
  have same : fd.getPathId.toUInt64 = fd.packedNumberAndPathId / (kFileNumberMask + 1) := by
    refine UInt64.toNat_inj.mp ?_
    rw [UInt32.toNat_toUInt64, getPathId_toNat, UInt64.toNat_div]
    rfl
  rw [same]
  exact pack_unpack _

/-! ## Boundaries -/

variable {tsSz : Nat}

theorem strip_shape (strip : stripTimestampFromInternalKey key tsSz = some stripped) :
    stripped.length + tsSz = key.length ∧ kNumInternalBytes ≤ stripped.length ∧
      stripped.drop (stripped.length - kNumInternalBytes) = key.drop (key.length - kNumInternalBytes) := by
  unfold stripTimestampFromInternalKey at strip
  split at strip
  · next long =>
    cases strip
    have eight : kNumInternalBytes = 8 := rfl
    have first : (key.take (key.length - 8 - tsSz)).length = key.length - 8 - tsSz := by
      rw [length_take]
      omega
    have second : (key.drop (key.length - 8)).length = 8 := by
      rw [length_drop]
      omega
    rw [eight, length_append, first, second]
    refine ⟨by omega, by omega, ?_⟩
    exact drop_left' first
  · cases strip

private theorem valid_strip (strip : stripTimestampFromInternalKey key tsSz = some stripped)
    (valid : validInternalKey key = true) :
    validInternalKey stripped = true := by
  obtain ⟨-, long, footer⟩ := strip_shape strip
  simp only [validInternalKey, Bool.and_eq_true, decide_eq_true_eq] at valid ⊢
  rw [footer]
  exact ⟨long, valid.2⟩

/-- The boundaries that are written for a file are those of the file as it is written. -/
theorem boundaries_written (inRange : f.InRange) (validSmallest : validInternalKey f.smallest = true)
    (validLargest : validInternalKey f.largest = true)
    (encoded : encodeFileBoundaries f tsSz = some boundaries) :
    let g := f.written tsSz
    boundaries = putLengthPrefixedSlice g.smallest ++ putLengthPrefixedSlice g.largest ∧
      (validInternalKey g.smallest = true ∧ g.smallest.length < 2 ^ 32) ∧
      (validInternalKey g.largest = true ∧ g.largest.length < 2 ^ 32) ∧
      g = { f with smallest := g.smallest, largest := g.largest } := by
  unfold encodeFileBoundaries at encoded
  intro g
  by_cases whole : tsSz = 0 ∨ f.userDefinedTimestampsPersisted
  · have same : g = f := if_pos whole
    rw [if_pos whole] at encoded
    cases encoded
    rw [same]
    exact ⟨rfl, ⟨validSmallest, inRange.smallest⟩, ⟨validLargest, inRange.largest⟩, rfl⟩
  · rw [if_neg whole] at encoded
    obtain ⟨smallest, first, encoded⟩ := Option.bind_eq_some_iff.mp encoded
    obtain ⟨largest, second, encoded⟩ := Option.bind_eq_some_iff.mp encoded
    cases encoded
    have same : g = { f with smallest, largest } := by
      refine (if_neg whole).trans ?_
      rw [first, second]
      rfl
    rw [same]
    have shorter := (strip_shape first).1
    have shorter' := (strip_shape second).1
    have bound := inRange.smallest
    have bound' := inRange.largest
    exact ⟨rfl, ⟨valid_strip first validSmallest, by dsimp only; omega⟩,
      ⟨valid_strip second validLargest, by dsimp only; omega⟩, rfl⟩

/-! ## Custom fields -/

section Custom
variable (s : CustomState)

/-- A number that is written unless it is zero. -/
theorem collects_numberIf {s s' : CustomState} {tag : CustomTag} {v : UInt64} (other : tag ≠ .kTerminate)
    (decoded : decodeKnownCustomField s (putNumber v) tag = .ok s') (zero : v = 0 → s' = s) :
    Collects s (customFieldIf (v ≠ 0) tag (putNumber v)) s' :=
  fieldIf other (putNumber_length v) (fun _ => decoded) fun absent => zero (by simpa using absent)

private theorem collects_oldestAncesterTime (v : UInt64) :
    Collects s [customField .kOldestAncesterTime (putNumber v)] { s with f.oldestAncesterTime := v } :=
  Collects.field (by decide) (putNumber_length v) (by simp only [decodeKnownCustomField, within_number]; rfl)

private theorem collects_fileCreationTime (v : UInt64) :
    Collects s [customField .kFileCreationTime (putNumber v)] { s with f.fileCreationTime := v } :=
  Collects.field (by decide) (putNumber_length v) (by simp only [decodeKnownCustomField, within_number]; rfl)

private theorem collects_epochNumber (v : UInt64) :
    Collects s [customField .kEpochNumber (putNumber v)] { s with f.epochNumber := v } :=
  Collects.field (by decide) (putNumber_length v) (by simp only [decodeKnownCustomField, within_number]; rfl)

private theorem collects_fileChecksum (short : checksum.length < 2 ^ 32) :
    Collects s [customField .kFileChecksum checksum] { s with f.fileChecksum := checksum } :=
  Collects.field (by decide) short rfl

private theorem collects_fileChecksumFuncName (short : name.length < 2 ^ 32) :
    Collects s [customField .kFileChecksumFuncName name] { s with f.fileChecksumFuncName := name } :=
  Collects.field (by decide) short rfl

private theorem collects_pathId (default : s.pathId = 0) (fd : FileDescriptor) :
    Collects s (customFieldIf (fd.getPathId ≠ 0) .kPathId [fd.getPathId.toUInt8]) { s with pathId := fd.getPathId } := by
  have small := getPathId_lt fd
  have byte : fd.getPathId.toUInt8.toUInt32 = fd.getPathId := by
    refine UInt32.toNat_inj.mp ?_
    rw [UInt8.toNat_toUInt32, UInt32.toNat_toUInt8]
    omega
  have fits : ¬ fd.getPathId > 3 := fun more => by
    have := UInt32.lt_iff_toNat_lt.mp more
    have three : (3 : UInt32).toNat = 3 := rfl
    omega
  refine fieldIf (by decide) (by decide : 1 < 2 ^ 32) (fun _ => ?_) fun absent => ?_
  · simp only [decodeKnownCustomField, oneByte]
    refine (if_neg ?_).trans ?_
    · rwa [byte]
    · rw [byte]
      rfl
  · have none : fd.getPathId = 0 := by simpa using absent
    rw [none, ← default]

private theorem collects_temperature (default : s.f.temperature = 0) (known : t ≤ kCold) :
    Collects s (customFieldIf (t ≠ 0) .kTemperature [t]) { s with f.temperature := t } := by
  refine fieldIf (by decide) (by decide : 1 < 2 ^ 32) (fun _ => ?_) fun absent => ?_
  · exact congrArg Except.ok (if_pos known)
  · have none : t = 0 := by simpa using absent
    rw [none, ← default]

private theorem collects_needCompaction (default : s.f.markedForCompaction = false) (marked : Bool) :
    Collects s (customFieldIf marked .kNeedCompaction [1]) { s with f.markedForCompaction := marked } := by
  refine fieldIf (by decide) (by decide : 1 < 2 ^ 32) (fun present => ?_) fun absent => ?_
  · rw [present]
    rfl
  · rw [absent, ← default]

private theorem collects_minLogNumberToKeepHack (known : number = none ∨ number = s.minLogNumberToKeep) :
    Collects s (number.toList.map fun number => customField .kMinLogNumberToKeepHack (putFixed64 number.toNat)) s := by
  cases number with
  | none => exact Collects.nil
  | some v =>
    have same : s.minLogNumberToKeep = some v := (known.resolve_left (by simp)).symm
    have read : Parses (orFail (corrupt "deleted log number malformatted") getFixed64) (putFixed64 v.toNat) v.toNat :=
      Parses.orFail (getFixed64_putFixed64 v.toNat_lt)
    refine Collects.field (by decide) ?_ ?_
    · rw [putFixed64, length_encode]
      decide
    · simp only [decodeKnownCustomField, within_of_parses read]
      refine congrArg Except.ok ?_
      rw [UInt64.ofNat_toNat, ← same]

private theorem collects_oldestBlobFileNumber (default : s.f.oldestBlobFileNumber = 0) (v : UInt64) :
    Collects s (customFieldIf (v ≠ 0) .kOldestBlobFileNumber (putNumber v)) { s with f.oldestBlobFileNumber := v } :=
  collects_numberIf (by decide) (by simp only [decodeKnownCustomField, within_number]; rfl)
    fun none => by rw [none, ← default]

private theorem collects_uniqueId (default : s.f.uniqueId = (0, 0)) (id : UInt64 × UInt64) :
    Collects s (customFieldIf (id ≠ (0, 0)) .kUniqueId (encodeUniqueIdBytes id)) { s with f.uniqueId := id } := by
  have first : (putFixed64 id.1.toNat).length = 8 := length_encode 8 _
  have second : (putFixed64 id.2.toNat).length = 8 := length_encode 8 _
  have size : (encodeUniqueIdBytes id).length = 16 := by
    rw [encodeUniqueIdBytes, length_append, first, second]
  have decoded (e : Corruption) : decodeUniqueIdBytes e (encodeUniqueIdBytes id) = .ok id := by
    rw [decodeUniqueIdBytes, if_neg (not_not_intro size), encodeUniqueIdBytes, take_left' first,
      drop_left' first, putFixed64, putFixed64, decode_encode_of_lt id.1.toNat_lt,
      decode_encode_of_lt id.2.toNat_lt, UInt64.ofNat_toNat, UInt64.ofNat_toNat]
  refine fieldIf (by decide) ?_ (fun _ => ?_) fun absent => ?_
  · rw [size]
    decide
  · simp only [decodeKnownCustomField, decoded]
    rfl
  · have none : id = (0, 0) := by simpa using absent
    rw [none, ← default]

private theorem collects_compensatedRangeDeletionSize (default : s.f.compensatedRangeDeletionSize = 0) (v : UInt64) :
    Collects s (customFieldIf (v ≠ 0) .kCompensatedRangeDeletionSize (putNumber v))
      { s with f.compensatedRangeDeletionSize := v } :=
  collects_numberIf (by decide) (by simp only [decodeKnownCustomField, within_number]; rfl)
    fun none => by rw [none, ← default]

private theorem collects_tailSize (default : s.f.tailSize = 0) (v : UInt64) :
    Collects s (customFieldIf (v ≠ 0) .kTailSize (putNumber v)) { s with f.tailSize := v } :=
  collects_numberIf (by decide) (by simp only [decodeKnownCustomField, within_number]; rfl)
    fun none => by rw [none, ← default]

private theorem collects_userDefinedTimestampsPersisted (default : s.f.userDefinedTimestampsPersisted = true)
    (persisted : Bool) :
    Collects s (customFieldIf (!persisted) .kUserDefinedTimestampsPersisted [0])
      { s with f.userDefinedTimestampsPersisted := persisted } := by
  refine fieldIf (by decide) (by decide : 1 < 2 ^ 32) (fun present => ?_) fun absent => ?_
  · have none : persisted = false := by simpa using present
    rw [none]
    rfl
  · have whole : persisted = true := by simpa using absent
    rw [whole, ← default]

end Custom

/-- **The custom fields of a file hold all of it but its keys and numbers.** -/
theorem customFields_collect (inRange : f.InRange) (smallest largest : Bytes)
    (known : number = none ∨ number = minLogNumberToKeep) :
    Collects { f := { smallest, largest }, minLogNumberToKeep } (customFields number f)
      { f := { f with fd := {}, smallest, largest }, pathId := f.fd.getPathId, minLogNumberToKeep } :=
  (collects_oldestAncesterTime _ f.oldestAncesterTime)
    |>.append (collects_fileCreationTime _ f.fileCreationTime)
    |>.append (collects_epochNumber _ f.epochNumber)
    |>.append (collects_fileChecksum _ inRange.fileChecksum)
    |>.append (collects_fileChecksumFuncName _ inRange.fileChecksumFuncName)
    |>.append (collects_pathId _ rfl f.fd)
    |>.append (collects_temperature _ rfl inRange.temperature)
    |>.append (collects_needCompaction _ rfl f.markedForCompaction)
    |>.append (collects_minLogNumberToKeepHack _ known)
    |>.append (collects_oldestBlobFileNumber _ rfl f.oldestBlobFileNumber)
    |>.append (collects_uniqueId _ rfl f.uniqueId)
    |>.append (collects_compensatedRangeDeletionSize _ rfl f.compensatedRangeDeletionSize)
    |>.append (collects_tailSize _ rfl f.tailSize)
    |>.append (collects_userDefinedTimestampsPersisted _ rfl f.userDefinedTimestampsPersisted)

/-! ## New files -/

/-- The edit with a file that was read up to its custom fields. -/
def finishFile (edit : VersionEdit) (level : Int32) (fd : FileDescriptor) (s : CustomState) : VersionEdit :=
  { edit with
    minLogNumberToKeep := s.minLogNumberToKeep
    newFiles := edit.newFiles ++ [(level, { s.f with
      fd := { fd with packedNumberAndPathId := packFileNumberAndPathId fd.getNumber s.pathId.toUInt64 } })] }

private theorem newFileHead_reads (edit : VersionEdit) (level : Int32) (f : FileMetaData)
    (validSmallest : validInternalKey smallest = true ∧ smallest.length < 2 ^ 32)
    (validLargest : validInternalKey largest = true ∧ largest.length < 2 ^ 32) (rest : Bytes) :
    decodeNewFile4From edit
        (newFileHead level f (putLengthPrefixedSlice smallest ++ putLengthPrefixedSlice largest) ++ rest) =
      (decodeCustomFields { f := { smallest, largest }, minLogNumberToKeep := edit.minLogNumberToKeep } >>=
        fun s => pure (finishFile edit level f.fd s) : Decoder VersionEdit) rest := by
  simp only [newFileHead, append_assoc]
  rw [decodeNewFile4From]
  rw [bind_of_ok (parses_level _ level _), bind_of_ok (parses_varint64 _ f.fd.getNumber _),
    bind_of_ok (parses_varint64 _ f.fd.fileSize _),
    bind_of_ok (parses_internalKey _ validSmallest.2 validSmallest.1 _),
    bind_of_ok (parses_internalKey _ validLargest.2 validLargest.1 _),
    bind_of_ok (parses_varint64 _ f.fd.smallestSeqno _), bind_of_ok (parses_varint64 _ f.fd.largestSeqno _)]
  rfl

variable {edit : VersionEdit}

private theorem applies_newFile {level : Int32}
    {field : Field} (inRange : f.InRange) (known : number = none ∨ number = edit.minLogNumberToKeep)
    (encoded : newFileField tsSz number level f = some field) :
    Applies edit field (edit.addFile (level, f.written tsSz)) := by
  unfold newFileField at encoded
  split at encoded
  · cases encoded
  · next accepted =>
    obtain ⟨⟨validSmallest, validLargest⟩, -⟩ : (validInternalKey f.smallest = true ∧
        validInternalKey f.largest = true) ∧ f.epochNumber ≠ kUnknownEpochNumber := by simpa using accepted
    obtain ⟨_, written, same⟩ := Option.map_eq_some_iff.mp encoded
    obtain ⟨shape, smallest, largest, rest⟩ := boundaries_written inRange validSmallest validLargest written
    subst same
    subst shape
    have applied := Applies.newFile4 (finishFile edit level f.fd) (newFileHead_reads edit level f smallest largest)
      (customFields_collect inRange _ _ known)
    have whole : finishFile edit level f.fd
        { f := { f with fd := {}, smallest := (f.written tsSz).smallest, largest := (f.written tsSz).largest }
          pathId := f.fd.getPathId, minLogNumberToKeep := edit.minLogNumberToKeep } =
        edit.addFile (level, f.written tsSz) := by
      rw [rest]
      simp only [finishFile, VersionEdit.addFile, pack_descriptor]
    rwa [whole] at applied

private theorem applies_newFiles (inRange : ∀ file ∈ files, file.2.InRange)
    (known : number = none ∨ number = edit.minLogNumberToKeep)
    (encoded : newFileFields tsSz number files = some fields) :
    AppliesAll edit fields { edit with
      newFiles := edit.newFiles ++ files.map fun file => (file.1, file.2.written tsSz) } := by
  induction files generalizing edit number fields with
  | nil =>
    cases encoded
    simp only [map_nil, append_nil]
    exact AppliesAll.nil
  | cons file _ ih =>
    obtain ⟨first, inRange⟩ := forall_mem_cons.mp inRange
    obtain ⟨_, written, encoded⟩ := Option.bind_eq_some_iff.mp encoded
    obtain ⟨fields', later, encoded⟩ := Option.bind_eq_some_iff.mp encoded
    cases encoded
    have rest : AppliesAll (edit.addFile (file.1, file.2.written tsSz)) fields' _ := ih inRange (Or.inl rfl) later
    simp only [VersionEdit.addFile, append_assoc, singleton_append] at rest
    exact .cons (applies_newFile first known written) rest

/-! ## The other fields -/

theorem Applies.known (read : Parses (edit.decodeKnownField tag) body edit') : Applies edit (field tag body) edit' := by
  refine .plain (tag_lt tag) ?_
  rwa [decodeField_number]

/-- An optional field, where the edit has none yet. -/
theorem applies_optional {α : Type} {put : α → Bytes} (tag : Tag) (value : Option α)
    (set : VersionEdit → Option α → VersionEdit) (default : set edit none = edit)
    (read : ∀ a, value = some a → Parses (edit.decodeKnownField tag) (put a) (set edit (some a))) :
    AppliesAll edit (value.toList.map fun a => field tag (put a)) (set edit value) := by
  refine AppliesAll.option (fun a present => .known ?_) fun absent => ?_
  · rw [present]
    exact read a present
  · rw [absent, default]

section Fields
variable (edit : VersionEdit)

private theorem applies_compactCursors
    (inRange : ∀ cursor ∈ cursors, validInternalKey cursor.2 = true ∧ cursor.2.length < 2 ^ 32) :
    AppliesAll edit ((cursors.filter fun cursor => validInternalKey cursor.2).map fun cursor =>
        field .kCompactCursor (putLevel cursor.1 ++ putLengthPrefixedSlice cursor.2))
      { edit with compactCursors := edit.compactCursors ++ cursors } := by
  rw [filter_eq_self.mpr fun cursor member => (inRange cursor member).1]
  refine AppliesAll.map (fun edit cursors => { edit with compactCursors := edit.compactCursors ++ cursors })
    (by simp) (by simp) fun cursor member _ => ?_
  obtain ⟨valid, short⟩ := inRange cursor member
  exact .known ((parses_level _ cursor.1).bind ((parses_internalKey _ short valid).map _))

private theorem applies_deletedFiles (files : List (Int32 × UInt64)) :
    AppliesAll edit (files.map fun file => field .kDeletedFile (putLevel file.1 ++ putNumber file.2))
      { edit with
        deletedFiles := files.foldl (fun l file => insert deletedFileOrder file l) edit.deletedFiles } := by
  refine AppliesAll.map (fun edit files => { edit with
    deletedFiles := files.foldl (fun l file => insert deletedFileOrder file l) edit.deletedFiles })
    (by simp) (by simp) fun file _ _ => ?_
  exact .known ((parses_level _ file.1).bind ((parses_varint64 _ file.2).map _))

private theorem applies_blobFileAdditions (inRange : ∀ addition ∈ additions,
      addition.checksumMethod.length < 2 ^ 32 ∧ addition.checksumValue.length < 2 ^ 32) :
    AppliesAll edit (additions.map fun addition => .blobFile .kBlobFileAddition addition.head [])
      { edit with blobFileAdditions := edit.blobFileAdditions ++ additions } := by
  refine AppliesAll.map (fun edit additions => { edit with blobFileAdditions := edit.blobFileAdditions ++ additions })
    (by simp) (by simp) fun addition member _ => .blobFile "BlobFileAddition" (fun _ => ?_) (by simp)
  obtain ⟨method, value⟩ := inRange addition member
  simp only [BlobFileAddition.head, append_assoc, VersionEdit.decodeKnownField, BlobFileAddition.decodeFrom,
    bind_assoc, pure_bind]
  rw [bind_of_ok (parses_varint64 _ addition.blobFileNumber _),
    bind_of_ok (parses_varint64 _ addition.totalBlobCount _),
    bind_of_ok (parses_varint64 _ addition.totalBlobBytes _), bind_of_ok (parses_slice _ method _),
    bind_of_ok (parses_slice _ value _)]

private theorem applies_blobFileGarbages (garbages : List BlobFileGarbage) :
    AppliesAll edit (garbages.map fun garbage => .blobFile .kBlobFileGarbage garbage.head [])
      { edit with blobFileGarbages := edit.blobFileGarbages ++ garbages } := by
  refine AppliesAll.map (fun edit garbages => { edit with blobFileGarbages := edit.blobFileGarbages ++ garbages })
    (by simp) (by simp) fun garbage _ _ => .blobFile "BlobFileGarbage" (fun _ => ?_) (by simp)
  simp only [BlobFileGarbage.head, append_assoc, VersionEdit.decodeKnownField, BlobFileGarbage.decodeFrom,
    bind_assoc, pure_bind]
  rw [bind_of_ok (parses_varint64 _ garbage.blobFileNumber _),
    bind_of_ok (parses_varint64 _ garbage.garbageBlobCount _),
    bind_of_ok (parses_varint64 _ garbage.garbageBlobBytes _)]

private theorem parses_walAddition (addition : WalAddition) :
    Parses WalAddition.decodeFrom addition.encode addition := by
  refine (parses_varint64 _ addition.number).bind fun rest => ?_
  have ends (a : WalAddition) : Parses (walAdditionRound a) (putVarint32 kWalTerminate) (.inr a) := by
    refine (parses_customTag (by decide) _).last ?_
    exact Parses.pure _
  split
  · have sized : Parses (walAdditionRound { number := addition.number })
        (putVarint32 kSyncedSize ++ putNumber addition.syncedSizeBytes) (.inl addition) := by
      refine (parses_customTag (by decide) _).bind ?_
      exact (parses_varint64 _ addition.syncedSizeBytes).map _
    rw [append_assoc, loop_again (sized _)]
    exact loop_leave (ends addition rest)
  · next unknown =>
    have none : addition = { number := addition.number } := by
      rw [not_not] at unknown
      rw [← unknown]
    rw [nil_append, none]
    exact loop_leave (ends _ rest)

private theorem walAddition_length (addition : WalAddition) : addition.encode.length < 2 ^ 32 := by
  have number := putNumber_length_le addition.number
  have size := putNumber_length_le addition.syncedSizeBytes
  have tag : (putVarint32 kSyncedSize).length = 1 := rfl
  have last : (putVarint32 kWalTerminate).length = 1 := rfl
  unfold WalAddition.encode
  split <;> simp only [length_append, length_nil, tag, last] <;> omega

private theorem applies_walAdditions (additions : List WalAddition) :
    AppliesAll edit (additions.map fun addition => field .kWalAddition2 (putLengthPrefixedSlice addition.encode))
      { edit with walAdditions := edit.walAdditions ++ additions } := by
  refine AppliesAll.map (fun edit additions => { edit with walAdditions := edit.walAdditions ++ additions })
    (by simp) (by simp) fun addition _ _ => .known ?_
  refine (parses_slice _ (walAddition_length addition)).last ?_
  rw [within_of_parses (parses_walAddition addition)]
  exact (Parses.lift addition).map _

private theorem applies_walDeletion (default : edit.walDeletion = 0) (number : UInt64) :
    AppliesAll edit (if number ≠ 0 then [field .kWalDeletion2 (putLengthPrefixedSlice (putNumber number))] else [])
      { edit with walDeletion := number } := by
  refine AppliesAll.ite (fun _ => .known ?_) fun absent => ?_
  · refine (parses_slice _ (putNumber_length number)).last ?_
    rw [decodeWalDeletion, within_number]
    exact (Parses.lift number).map _
  · rw [not_not.mp absent, ← default]

private theorem applies_columnFamily (default : edit.columnFamily = 0) (id : UInt32) :
    AppliesAll edit (if id ≠ 0 then [field .kColumnFamily (putVarint32 id.toNat)] else [])
      { edit with columnFamily := id } := by
  refine AppliesAll.ite (fun _ => .known ((parses_varint32 _ id).map _)) fun absent => ?_
  rw [not_not.mp absent, ← default]

private theorem applies_columnFamilyDrop (default : edit.isColumnFamilyDrop = false) (drop : Bool) :
    AppliesAll edit (if drop then [field .kColumnFamilyDrop []] else []) { edit with isColumnFamilyDrop := drop } := by
  refine AppliesAll.ite (fun present => .known ?_) fun absent => ?_
  · rw [present]
    exact Parses.pure _
  · rw [Bool.eq_false_of_not_eq_true absent, ← default]

private theorem applies_fullHistoryTsLow (default : edit.fullHistoryTsLow = []) (short : ts.length < 2 ^ 32) :
    AppliesAll edit (if ts ≠ [] then [field .kFullHistoryTsLow (putLengthPrefixedSlice ts)] else [])
      { edit with fullHistoryTsLow := ts } := by
  refine AppliesAll.ite (fun present => .known ?_) fun absent => ?_
  · refine (parses_slice _ short).last ?_
    rw [if_neg present]
    exact Parses.pure _
  · rw [not_not.mp absent, ← default]

private theorem parses_persist (persist : Bool) :
    Parses (edit.decodeKnownField .kPersistUserDefinedTimestamps) (putLengthPrefixedSlice [if persist then 1 else 0])
      { edit with persistUserDefinedTimestamps := some persist } := by
  refine (parses_slice _ (by simp)).last ((Parses.lift _).last ?_)
  cases persist <;> exact Parses.pure _

end Fields

/-! ## Edits -/

/-- The new files of an edit, where they are written. -/
theorem newFiles_apply (inRange : edit.InRange) {tsSz : Option Nat} (encoded : (if edit.newFiles = [] then some []
      else tsSz.bind fun tsSz => newFileFields tsSz edit.minLogNumberToKeep edit.newFiles) = some fields)
    {edit' : VersionEdit} (none : edit'.newFiles = []) (known : edit.minLogNumberToKeep = edit'.minLogNumberToKeep) :
    AppliesAll edit' fields { edit' with newFiles := (edit.written tsSz).newFiles } := by
  split at encoded
  · next empty =>
    cases encoded
    have same : (edit.written tsSz).newFiles = edit'.newFiles := by simp [VersionEdit.written, empty, none]
    rw [same]
    exact AppliesAll.nil
  · obtain ⟨_, present, encoded⟩ := Option.bind_eq_some_iff.mp encoded
    have applied := applies_newFiles inRange.newFiles (Or.inr known) encoded
    rw [none, nil_append] at applied
    rw [VersionEdit.written, present]
    exact applied

/-- **The fields that are written take the empty edit to the one that was written.** -/
theorem fields_apply (inRange : edit.InRange) {tsSz : Option Nat}
    (encoded : edit.fields tsSz = some fields) : AppliesAll {} fields (edit.written tsSz) := by
  obtain ⟨_, newFiles, same⟩ := Option.map_eq_some_iff.mp encoded
  subst same
  have deleted : edit.deletedFiles.foldl (fun l file => insert deletedFileOrder file l) [] =
      edit.deletedFiles := foldl_insert inRange.deletedFiles
  have start : AppliesAll {} [] {} := .nil
  have all := start
    |>.append (applies_optional .kDbId edit.dbId (fun e v => { e with dbId := v }) rfl
      fun a present => (parses_slice _ (inRange.dbId a present)).map _)
    |>.append (applies_optional .kComparator edit.comparator (fun e v => { e with comparator := v }) rfl
      fun a present => (parses_slice _ (inRange.comparator a present)).map _)
    |>.append (applies_optional .kLogNumber edit.logNumber (fun e v => { e with logNumber := v }) rfl
      fun a _ => (parses_varint64 _ a).map _)
    |>.append (applies_optional .kPrevLogNumber edit.prevLogNumber (fun e v => { e with prevLogNumber := v }) rfl
      fun a _ => (parses_varint64 _ a).map _)
    |>.append (applies_optional .kNextFileNumber edit.nextFileNumber (fun e v => { e with nextFileNumber := v }) rfl
      fun a _ => (parses_varint64 _ a).map _)
    |>.append (applies_optional .kMaxColumnFamily edit.maxColumnFamily (fun e v => { e with maxColumnFamily := v }) rfl
      fun a _ => (parses_varint32 _ a).map _)
    |>.append (applies_optional .kMinLogNumberToKeep edit.minLogNumberToKeep
      (fun e v => { e with minLogNumberToKeep := v }) rfl
      fun a _ => (parses_varint64 _ a).map _)
    |>.append (applies_optional .kLastSequence edit.lastSequence (fun e v => { e with lastSequence := v }) rfl
      fun a _ => (parses_varint64 _ a).map _)
    |>.append (applies_compactCursors _ inRange.compactCursors)
    |>.append (applies_deletedFiles _ edit.deletedFiles)
    |>.append (newFiles_apply inRange newFiles rfl rfl)
    |>.append (applies_blobFileAdditions _ inRange.blobFileAdditions)
    |>.append (applies_blobFileGarbages _ edit.blobFileGarbages)
    |>.append (applies_walAdditions _ edit.walAdditions)
    |>.append (applies_walDeletion _ rfl edit.walDeletion)
    |>.append (applies_columnFamily _ rfl edit.columnFamily)
    |>.append (applies_optional .kColumnFamilyAdd edit.columnFamilyAdd (fun e v => { e with columnFamilyAdd := v }) rfl
      fun a present => (parses_slice _ (inRange.columnFamilyAdd a present)).map _)
    |>.append (applies_columnFamilyDrop _ rfl edit.isColumnFamilyDrop)
    |>.append (applies_optional .kInAtomicGroup edit.inAtomicGroup (fun e v => { e with inAtomicGroup := v }) rfl
      fun a _ => (parses_varint32 _ a).map _)
    |>.append (applies_fullHistoryTsLow _ rfl inRange.fullHistoryTsLow)
    |>.append (applies_optional .kPersistUserDefinedTimestamps edit.persistUserDefinedTimestamps
      (fun e v => { e with persistUserDefinedTimestamps := v }) rfl
      fun a _ => parses_persist _ a)
  simp only [nil_append, deleted] at all
  exact all

theorem decodes_written (inRange : edit.InRange) {tsSz : Option Nat} {bytes : Bytes}
    (encoded : edit.encodeTo tsSz = some bytes) : VersionEdit.decodeFrom bytes = .ok (edit.written tsSz) := by
  obtain ⟨_, fieldsEncoded, same⟩ := Option.map_eq_some_iff.mp encoded
  subst same
  exact (fields_apply inRange fieldsEncoded).decodeFrom

/-- Nothing changes where timestamps have no size or every file stores them. -/
theorem written_eq_self {tsSz : Option Nat}
    (whole : tsSz.getD 0 = 0 ∨ ∀ file ∈ edit.newFiles, file.2.userDefinedTimestampsPersisted = true) :
    edit.written tsSz = edit := by
  have same : ∀ file ∈ edit.newFiles, (file.1, file.2.written (tsSz.getD 0)) = file := fun file member =>
    congrArg (Prod.mk file.1) (if_pos (whole.imp_right fun persisted => persisted file member))
  rw [VersionEdit.written, map_congr_left same, map_id']

/-- **A version edit that was encoded is decoded again**, and only the boundaries of files
that do not store user-defined timestamps change: they lose their timestamps. -/
theorem encoded_edit_decodes {edit : VersionEdit} (inRange : edit.InRange) {tsSz : Option Nat} {bytes : Bytes}
    (encoded : edit.encodeTo tsSz = some bytes) :
    VersionEdit.decodeFrom bytes = .ok (edit.written tsSz) ∧
      ((tsSz.getD 0 = 0 ∨ ∀ file ∈ edit.newFiles, file.2.userDefinedTimestampsPersisted = true) →
        VersionEdit.decodeFrom bytes = .ok edit) := by
  have decoded := decodes_written inRange encoded
  refine ⟨decoded, fun whole => ?_⟩
  rwa [written_eq_self whole] at decoded

/-- A key of one byte with a timestamp of eight, at sequence number one. -/
def timestampedKey (byte ts : UInt8) : Bytes := [byte, ts, 0, 0, 0, 0, 0, 0, 0, 1, 1, 0, 0, 0, 0, 0, 0]

/-- An edit that adds a file without timestamps among its keys, and replaces another. -/
def timestampedEdit : VersionEdit where
  dbId := some [1]
  minLogNumberToKeep := some 5
  lastSequence := some 9
  compactCursors := [(1, timestampedKey 2 7)]
  deletedFiles := [(0, 3)]
  newFiles :=
    [(1, { fd := { packedNumberAndPathId := 4, fileSize := 100, smallestSeqno := 1, largestSeqno := 1 }
           smallest := timestampedKey 1 7, largest := timestampedKey 2 7, epochNumber := 1, temperature := 4
           userDefinedTimestampsPersisted := false })]
  blobFileAdditions := [{ blobFileNumber := 6, totalBlobCount := 1, totalBlobBytes := 10 }]
  walDeletion := 2
  columnFamily := 1

theorem timestampedEdit_inRange : timestampedEdit.InRange where
  dbId := by
    rintro _ ⟨⟩
    decide
  comparator := by rintro _ ⟨⟩
  compactCursors := by decide
  deletedFiles := pairwise_singleton _ _
  newFiles := by
    intro _ member
    rw [mem_singleton.mp member]
    exact ⟨by decide, by decide, by decide, by decide, by decide⟩
  blobFileAdditions := by decide
  columnFamilyAdd := by rintro _ ⟨⟩
  fullHistoryTsLow := by decide

theorem timestampedEdit_encodes : ∃ bytes, timestampedEdit.encodeTo (some 8) = some bytes :=
  Option.isSome_iff_exists.mp rfl

theorem timestampedEdit_decodes : ∃ bytes, timestampedEdit.encodeTo (some 8) = some bytes ∧
    VersionEdit.decodeFrom bytes = .ok (timestampedEdit.written (some 8)) :=
  timestampedEdit_encodes.imp fun _ encoded => ⟨encoded, (encoded_edit_decodes timestampedEdit_inRange encoded).1⟩

/-- The file without timestamps comes back with other boundaries. -/
theorem timestampedEdit_loses_timestamps : ∃ bytes, timestampedEdit.encodeTo (some 8) = some bytes ∧
    VersionEdit.decodeFrom bytes ≠ .ok timestampedEdit := by
  obtain ⟨bytes, encoded⟩ := timestampedEdit_encodes
  refine ⟨bytes, encoded, ?_⟩
  rw [decodes_written timestampedEdit_inRange encoded]
  have other : timestampedEdit.written (some 8) ≠ timestampedEdit := by decide
  exact fun same => other (Except.ok.inj same)

end Rocksdb.Manifest
