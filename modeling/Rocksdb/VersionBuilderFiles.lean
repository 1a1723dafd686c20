import Mathlib.Data.Finset.Card
import Mathlib.Data.List.Pairwise
import Rocksdb.VersionBuilder
import Rocksdb.Lib.Loop

/-! The table files of a built version. A passed consistency check orders every level
(`consistent_of_check`): the neighbours it compares are ordered by transitive
relations. `TracksFiles` says how the per-level additions and deletions of a builder
stand for the files that are live after the edits, so that the saved level holds the
live files of that level and nothing else (`mem_savedFiles`). -/
namespace Rocksdb.VersionBuilder

open Lib Lib.Loop List
open Function (update update_self)

variable {κ μ : Type} {files : List (FileMetaData κ μ)}

/-! ## File orders -/

/-- Level 0 is sorted by this rank, from the newest file on. -/
def FileMetaData.rank (requirement : EpochNumberRequirement) (f : FileMetaData κ μ) : Nat ×ₗ Nat ×ₗ Nat ×ₗ Nat :=
  toLex (if requirement = .kMustPresent then f.epochNumber else 0,
    toLex (f.largestSeqno, toLex (f.smallestSeqno, f.number)))

/-! ## Loops of the checks -/

private theorem pairwise_of_checkNeighbours (transitive : ∀ a b c, R a b → R b c → R a c)
    (checks : ∀ a b, checker a b = .ok () → R a b)
    (checked : checkNeighbours checker files = .ok ()) :
    files.Pairwise R := by
  have : Trans R R R := ⟨transitive _ _ _⟩
  rw [← isChain_iff_pairwise]
  induction files with
  | nil => exact .nil
  | cons lhs rest ih =>
    cases rest with
    | nil => exact .singleton lhs
    | cons rhs =>
      obtain ⟨_, first, later⟩ := ok_of_bind checked
      exact .cons_cons (checks lhs rhs first) (ih later)

private theorem forM_ok {α : Type} {check : α → Except Corruption Unit} {l : List α}
    (checked : l.forM check = .ok ()) : ∀ x ∈ l, check x = .ok () := by
  induction l with
  | nil => simp
  | cons _ _ ih =>
    obtain ⟨_, first, later⟩ := ok_of_bind checked
    exact forall_mem_cons.mpr ⟨first, ih later⟩

private theorem mem_updateExpectedLinkedSsts : sst ∈ updateExpectedLinkedSsts expected file blob ↔ sst ∈ expected blob ∨
        (blob ≠ kInvalidBlobFileNumber ∧ file.number = sst ∧ file.oldestBlobFileNumber = blob) := by
  unfold updateExpectedLinkedSsts
  split_ifs with invalid
  · constructor
    · exact .inl
    · rintro (member | ⟨valid, -, rfl⟩)
      · exact member
      · exact absurd invalid valid
  · by_cases same : blob = file.oldestBlobFileNumber
    · subst same
      rw [update_self, Finset.mem_insert]
      constructor
      · rintro (rfl | member)
        · exact .inr ⟨invalid, rfl, rfl⟩
        · exact .inl member
      · rintro (member | ⟨-, rfl, -⟩)
        · exact .inr member
        · exact .inl rfl
    · rw [Function.update_of_ne same]
      constructor
      · exact .inl
      · rintro (member | ⟨-, -, other⟩)
        · exact member
        · exact absurd other.symm same

private theorem mem_foldl_updateExpectedLinkedSsts : sst ∈ files.foldl updateExpectedLinkedSsts expected blob ↔
      sst ∈ expected blob ∨ (blob ≠ kInvalidBlobFileNumber ∧
        ∃ f ∈ files, f.number = sst ∧ f.oldestBlobFileNumber = blob) := by
  induction files generalizing expected with
  | nil => simp
  | cons _ _ ih =>
    rw [foldl_cons, ih, mem_updateExpectedLinkedSsts, exists_mem_cons_iff]
    tauto

/-- Table file `sst` is on a level and refers to the blob file. -/
def Links (v : VersionStorageInfo κ μ) (levels : List Nat) (blob sst : Nat) : Prop :=
  blob ≠ kInvalidBlobFileNumber ∧
    ∃ level ∈ levels, ∃ f ∈ v.files level, f.number = sst ∧ f.oldestBlobFileNumber = blob

/-! ## The order of a level -/

section Order
variable [LinearOrder κ] {requirement : EpochNumberRequirement} {level : Nat} {a b : FileMetaData κ μ}
  {files : List (FileMetaData κ μ)} {v : VersionStorageInfo κ μ}

theorem levelCmp_zero : levelCmp requirement 0 a b = true ↔ b.rank requirement < a.rank requirement := by
  unfold levelCmp newestFirstByEpochNumber newestFirstBySeqNo FileMetaData.rank
  simp only [Prod.Lex.toLex_lt_toLex, if_true]
  cases requirement with
  | kMightMissing =>
    simp only [reduceCtorEq, if_false, lt_self_iff_false, true_and, false_or]
    split_ifs <;> simp only [decide_eq_true_eq] <;> omega
  | kMustPresent =>
    simp only [if_true]
    split_ifs <;> simp only [decide_eq_true_eq] <;> omega

theorem bySmallestKey_iff :
    bySmallestKey a b = true ↔ toLex (a.smallest, a.number) < toLex (b.smallest, b.number) := by
  unfold bySmallestKey
  rw [Prod.Lex.toLex_lt_toLex]
  split_ifs with differ
  · simp [differ]
  · simp [not_not.mp differ]

theorem smallest_le_of_bySmallestKey (before : bySmallestKey a b = true) : a.smallest ≤ b.smallest :=
  Prod.Lex.monotone_fst _ _ (bySmallestKey_iff.mp before).le

theorem levelCmp_positive (positive : level ≠ 0) : levelCmp requirement level a b = bySmallestKey a b := by
  unfold levelCmp
  rw [if_neg positive]

private theorem levelCmp_trans (ab : levelCmp requirement level a b = true)
    (bc : levelCmp requirement level b c = true) :
    levelCmp requirement level a c = true := by
  by_cases zero : level = 0
  · subst zero
    rw [levelCmp_zero] at *
    exact bc.trans ab
  · rw [levelCmp_positive zero, bySmallestKey_iff] at *
    exact ab.trans bc

theorem levelCmp_asymm (ab : levelCmp requirement level a b = true) : ¬levelCmp requirement level b a = true := by
  by_cases zero : level = 0
  · subst zero
    rw [levelCmp_zero] at *
    exact ab.asymm
  · rw [levelCmp_positive zero, bySmallestKey_iff] at *
    exact ab.asymm

/-- A level in order. -/
def Ordered (requirement : EpochNumberRequirement) (level : Nat) (files : List (FileMetaData κ μ)) : Prop :=
  files.Pairwise fun a b => levelCmp requirement level a b = true

theorem Ordered.nodup (ordered : Ordered requirement level files) : files.Nodup := by
  refine List.Pairwise.imp (fun {a b} before same => ?_) ordered
  subst same
  exact levelCmp_asymm before before

/-- Two levels in one order are equal if they hold the same files. -/
theorem Ordered.ext (ordered : Ordered requirement level files) (ordered' : Ordered requirement level files')
    (same : ∀ f, f ∈ files ↔ f ∈ files') : files = files' := by
  have perm := (perm_ext_iff_of_nodup ordered.nodup ordered'.nodup).mpr same
  exact perm.eq_of_pairwise (fun _ _ _ _ ab ba => absurd ba (levelCmp_asymm ab)) ordered ordered'

/-! ## Consistency checks -/

/-- What the consistency checks establish. -/
structure Consistent (v : VersionStorageInfo κ μ) : Prop where
  ordered : ∀ level < v.numLevels, Ordered v.epochNumberRequirement level (v.files level)
  disjoint : ∀ level < v.numLevels, level ≠ 0 → (v.files level).Pairwise fun a b => a.largest < b.smallest
  links : ∀ blob ∈ v.blobFiles, ∀ sst, sst ∈ blob.linkedSsts ↔
    Links v (List.range v.numLevels) blob.blobFileNumber sst

private theorem levelCmp_of_l0Checker (checked : l0Checker requirement a b = .ok ()) :
    levelCmp requirement 0 a b = true := by
  unfold l0Checker at checked
  cases requirement with
  | kMightMissing =>
    simp only at checked
    split_ifs at checked with sorted
    exact sorted
  | kMustPresent =>
    simp only at checked
    split_ifs at checked with overlap sorted
    exact sorted

private theorem of_levelChecker (checked : levelChecker level a b = .ok ()) :
    bySmallestKey a b = true ∧ a.largest < b.smallest := by
  unfold levelChecker at checked
  split_ifs at checked with sorted apart
  exact ⟨by simpa using sorted, not_le.mp apart⟩

/-- Every level of a checked version passed its own check. -/
theorem neighbours_of_details (checked : checkConsistencyDetails v = .ok ()) (lt : level < v.numLevels) :
    checkNeighbours (if level = 0 then l0Checker v.epochNumberRequirement else levelChecker level)
      (v.files level) = .ok () := by
  obtain ⟨expected, levels, -⟩ := ok_of_bind checked
  cases result : checkNeighbours (if level = 0 then l0Checker v.epochNumberRequirement else levelChecker level)
      (v.files level) with
  | ok => rfl
  | error e =>
    have refused (expected : Nat → Finset Nat) : ∃ e, checkConsistencyDetailsForLevel v expected level = .error e :=
      ⟨e, by rw [checkConsistencyDetailsForLevel, result]; rfl⟩
    obtain ⟨_, failed⟩ := foldlM_fails (mem_range.mpr lt) refused fun _ => ∅
    rw [failed] at levels
    cases levels

theorem ordered_of_details (checked : checkConsistencyDetails v = .ok ()) (lt : level < v.numLevels) :
    Ordered v.epochNumberRequirement level (v.files level) ∧
      (level ≠ 0 → (v.files level).Pairwise fun a b => a.largest < b.smallest) := by
  have checked := neighbours_of_details checked lt
  by_cases zero : level = 0
  · subst zero
    refine ⟨?_, fun positive => absurd rfl positive⟩
    exact pairwise_of_checkNeighbours
      (fun _ _ _ => levelCmp_trans) (fun _ _ => levelCmp_of_l0Checker) checked
  · rw [if_neg zero] at checked
    have both := pairwise_of_checkNeighbours (R := fun a b => bySmallestKey a b = true ∧ a.largest < b.smallest)
      (fun _ _ _ ab bc => ⟨?_, ab.2.trans_le (smallest_le_of_bySmallestKey bc.1)⟩)
      (fun _ _ => of_levelChecker) checked
    · exact ⟨both.imp fun before => (levelCmp_positive zero).trans before.1, fun _ => both.imp And.right⟩
    · exact bySmallestKey_iff.mpr ((bySmallestKey_iff.mp ab.1).trans (bySmallestKey_iff.mp bc.1))

private theorem expected_of_check
    (checked : levels.foldlM (checkConsistencyDetailsForLevel v) expected = .ok expected') (blob sst : Nat) :
    sst ∈ expected' blob ↔ sst ∈ expected blob ∨ Links v levels blob sst := by
  induction levels generalizing expected with
  | nil =>
    cases checked
    simp [Links]
  | cons _ _ ih =>
    obtain ⟨next, first, checked⟩ := ok_of_bind checked
    obtain ⟨_, -, next_eq⟩ := ok_of_bind first
    rw [ih checked, ← Except.ok.inj next_eq, mem_foldl_updateExpectedLinkedSsts]
    simp only [Links, exists_mem_cons_iff]
    rw [or_assoc, ← and_or_left]

private theorem consistent_of_details (checked : checkConsistencyDetails v = .ok ()) : Consistent v := by
  refine ⟨fun level lt => (ordered_of_details checked lt).1, fun _ lt => (ordered_of_details checked lt).2,
    fun blob member _ => ?_⟩
  obtain ⟨_, levels, blobs⟩ := ok_of_bind checked
  have passed := forM_ok blobs blob member
  unfold checkBlobFile at passed
  split_ifs at passed with garbage same
  rw [not_not.mp same, expected_of_check levels]
  simp

/-- **A checked version is consistent.** -/
theorem consistent_of_check (forced : v.forceConsistencyChecks = true) (checked : checkConsistency v = .ok ()) :
    Consistent v := by
  rw [checkConsistency, if_pos forced] at checked
  exact consistent_of_details checked

end Order

/-! ## Live files -/

/-- What the levels promise: `GenerateFileLocationIndex` finds no number twice, and
`AddBlobFile` is called with increasing numbers. -/
structure VersionStorageInfo.WellFormed (v : VersionStorageInfo κ μ) : Prop where
  unique : ((List.range v.numLevels).flatMap fun level => (v.files level).map (·.number)).Nodup
  blobs : KeyedList.Sorted BlobFileMetaData.blobFileNumber v.blobFiles

/-- The live files by number, with their levels. -/
abbrev Files (κ μ : Type) : Type := Nat → Option (Nat × FileMetaData κ μ)

/-- The files of a version. -/
def VersionStorageInfo.liveFiles (v : VersionStorageInfo κ μ) : Files κ μ := fun number =>
  (v.getFileLocation number).bind fun level =>
    ((v.files level).find? (·.number == number)).map (level, ·)

section Live
variable {v : VersionStorageInfo κ μ} {number level : Nat} {f : FileMetaData κ μ}

theorem VersionStorageInfo.WellFormed.same_file (wellFormed : v.WellFormed) (lt : level < v.numLevels)
    (lt' : level' < v.numLevels) (member : f ∈ v.files level) (member' : f' ∈ v.files level')
    (same : f.number = f'.number) : level = level' ∧ f = f' := by
  obtain ⟨each, apart⟩ := nodup_flatMap.mp wellFormed.unique
  have levels : level = level' := by
    by_contra differ
    have : Std.Symm (Function.onFun List.Disjoint fun level => (v.files level).map (·.number)) :=
      ⟨fun _ _ disjoint => disjoint.symm⟩
    have disjoint := apart.forall (mem_range.mpr lt) (mem_range.mpr lt') differ
    exact disjoint (mem_map_of_mem member) (same ▸ mem_map_of_mem member')
  subst levels
  exact ⟨rfl, inj_on_of_nodup_map (each level (mem_range.mpr lt)) member member' same⟩

theorem VersionStorageInfo.mem_of_getFileLocation (located : v.getFileLocation number = some level) :
    level < v.numLevels ∧ ∃ f ∈ v.files level, f.number = number := by
  have found := find?_some located
  have member := mem_of_find?_eq_some located
  exact ⟨mem_range.mp member, by simpa using found⟩

theorem VersionStorageInfo.getFileLocation_eq_none (absent : v.getFileLocation number = none)
    (lt : level < v.numLevels) (member : f ∈ v.files level) : f.number ≠ number := by
  have none_at := find?_eq_none.mp absent level (mem_range.mpr lt)
  intro same
  exact none_at (any_eq_true.mpr ⟨f, member, by simpa using same⟩)

theorem VersionStorageInfo.WellFormed.liveFiles_iff (wellFormed : v.WellFormed) :
    v.liveFiles number = some (level, f) ↔ level < v.numLevels ∧ f ∈ v.files level ∧ f.number = number := by
  constructor
  · intro live
    obtain ⟨_, located, found⟩ := Option.bind_eq_some_iff.mp live
    obtain ⟨g, found, pair⟩ := Option.map_eq_some_iff.mp found
    cases pair
    exact ⟨(mem_of_getFileLocation located).1, mem_of_find?_eq_some found, by simpa using find?_some found⟩
  · rintro ⟨lt, member, rfl⟩
    cases located : v.getFileLocation f.number with
    | none => exact absurd rfl (getFileLocation_eq_none located lt member)
    | some =>
      obtain ⟨lt', g, member', same⟩ := mem_of_getFileLocation located
      obtain ⟨rfl, rfl⟩ := wellFormed.same_file lt lt' member member' same.symm
      have found : (v.files level).find? (·.number == f.number) = some f := by
        cases found : (v.files level).find? (·.number == f.number) with
        | none => exact absurd (by simp) (find?_eq_none.mp found f member)
        | some g =>
          have same : g.number = f.number := by simpa using find?_some found
          rw [(wellFormed.same_file lt lt' (mem_of_find?_eq_some found) member same).2]
      simp [liveFiles, located, found]

end Live

theorem VersionStorageInfo.level_liveFiles (v : VersionStorageInfo κ μ) (number : Nat) :
    v.getFileLocation number = (v.liveFiles number).map Prod.fst := by
  unfold liveFiles
  cases located : v.getFileLocation number with
  | none => rfl
  | some level =>
    obtain ⟨-, f, member, same⟩ := mem_of_getFileLocation located
    cases found : (v.files level).find? (·.number == number) with
    | none => exact absurd (by simpa using same) (find?_eq_none.mp found f member)
    | some => simp [found]

theorem VersionStorageInfo.file_liveFiles (v : VersionStorageInfo κ μ) (number : Nat) :
    v.getFileMetaDataByNumber number = (v.liveFiles number).map Prod.snd := by
  unfold liveFiles getFileMetaDataByNumber
  cases v.getFileLocation number with
  | none => rfl
  | some => simp [Function.comp_def]

/-- The live files after a deletion. -/
def Files.delete (files : Files κ μ) (deleted : Nat × Nat) : Files κ μ :=
  update files deleted.2 none

/-- The live files after an addition. -/
def Files.add (files : Files κ μ) (new : Nat × FileMetaData κ μ) : Files κ μ :=
  update files new.2.number (some new)

/-- The live files after an edit: the deletions come first. -/
def Files.apply (files : Files κ μ) (edit : VersionEdit κ μ) : Files κ μ :=
  edit.newFiles.foldl Files.add (edit.deletedFiles.foldl Files.delete files)

/-- The level of a live file. -/
def Files.level (files : Files κ μ) (number : Nat) : Option Nat := (files number).map Prod.fst

/-! ## The entries of a builder -/

/-- What a builder holds about one file number: its level if it was touched, the
levels it is marked as deleted on, and the files added under it. -/
@[ext] structure Entry (κ μ : Type) where
  level : Option (Option Nat)
  deleted : Set Nat
  added : Set (Nat × FileMetaData κ μ)

/-- The entry of a number. -/
def Rep.entry (rep : Rep κ μ) (number : Nat) : Entry κ μ where
  level := rep.tableFileLevels number
  deleted := { l | number ∈ (rep.levels l).deletedFiles }
  added := { p | p.2 ∈ (rep.levels p.1).addedFiles ∧ p.2.number = number }

/-- An entry stands for a live file, or for none, given the file of the base. -/
structure Entry.Tracks (numLevels number : Nat) (inBase : Option (Nat × FileMetaData κ μ))
    (entry : Entry κ μ) (live : Option (Nat × FileMetaData κ μ)) : Prop where
  current : entry.level.getD (inBase.map Prod.fst) = live.map Prod.fst
  untouched : entry.level = none → live = inBase
  named : ∀ p, live = some p → p.2.number = number
  added : ∀ p ∈ entry.added, p.1 < numLevels ∧ entry.level ≠ none ∧ live = some p
  kept : ∀ p, live = some p → p.1 < numLevels → entry.level ≠ none → p ∈ entry.added
  deleted : ∀ l ∈ entry.deleted, l < numLevels ∧ live.map Prod.fst ≠ some l
  moved : ∀ p, inBase = some p → entry.level ≠ none → p.1 ∈ entry.deleted ∨ ∃ g, (p.1, g) ∈ entry.added

namespace Entry.Tracks
variable {numLevels number level : Nat} {inBase live : Option (Nat × FileMetaData κ μ)} {entry : Entry κ μ}

/-- Nothing is added under the number of a file that is not live. -/
theorem not_added (tracks : entry.Tracks numLevels number inBase none) : entry.added = ∅ :=
  Set.eq_empty_of_forall_notMem fun p member => nomatch (tracks.added p member).2.2

/-- A file of the base that is not where it was, or not live at all, was touched. -/
theorem touched (tracks : entry.Tracks numLevels number inBase live)
    (differ : live.map Prod.fst ≠ inBase.map Prod.fst) : entry.level ≠ none :=
  fun untouched => differ (congrArg _ (tracks.untouched untouched))

/-- Deleting a file of a level the version has. -/
theorem delete (tracks : entry.Tracks numLevels number inBase live)
    (on : live.map Prod.fst = some level) (lt : level < numLevels) :
    Tracks numLevels number inBase
      ⟨some none, insert level entry.deleted, { p ∈ entry.added | p.1 ≠ level }⟩ none where
  current := rfl
  untouched := nofun
  named := nofun
  added := by
    rintro p ⟨member, other⟩
    rw [(tracks.added p member).2.2] at on
    exact absurd (Option.some.inj on) other
  kept := nofun
  deleted := by
    rintro l (rfl | member)
    · exact ⟨lt, nofun⟩
    · exact ⟨(tracks.deleted l member).1, nofun⟩
  moved := by
    intro p isBase _
    left
    by_cases here : p.1 = level
    · exact .inl here
    · have touched := tracks.touched (by simpa [on, isBase] using Ne.symm here)
      rcases tracks.moved p isBase touched with gone | ⟨g, member⟩
      · exact .inr gone
      · rw [(tracks.added _ member).2.2] at on
        exact .inl (Option.some.inj on)

/-- Deleting a file of a level the version does not have. -/
theorem delete_invalid (tracks : entry.Tracks numLevels number inBase live)
    (on : live.map Prod.fst = some level) (beyond : numLevels ≤ level)
    (valid : ∀ p, inBase = some p → p.1 < numLevels) :
    Tracks numLevels number inBase { entry with level := some none } none where
  current := rfl
  untouched := nofun
  named := nofun
  added := by
    intro p member
    obtain ⟨lt, -, isLive⟩ := tracks.added p member
    rw [isLive] at on
    exact absurd (Option.some.inj on ▸ lt) (not_lt.mpr beyond)
  kept := nofun
  deleted := fun l member => ⟨(tracks.deleted l member).1, nofun⟩
  moved := by
    intro p isBase _
    refine tracks.moved p isBase (tracks.touched ?_)
    have lt := valid p isBase
    simp only [on, isBase, Option.map_some, ne_eq, Option.some.injEq]
    omega

/-- Adding a file to a level the version has. -/
theorem add (tracks : entry.Tracks numLevels number inBase none) (name : file.number = number)
    (lt : level < numLevels) :
    Tracks numLevels number inBase ⟨some (some level), entry.deleted \ {level}, insert (level, file) entry.added⟩
      (some (level, file)) where
  current := rfl
  untouched := nofun
  named := by
    rintro p isLive
    cases isLive
    exact name
  added := by
    rintro p (rfl | member)
    · exact ⟨lt, nofun, rfl⟩
    · exact absurd member (by simp [tracks.not_added])
  kept := by
    rintro p isLive - -
    cases isLive
    exact .inl rfl
  deleted := by
    rintro l ⟨member, other⟩
    exact ⟨(tracks.deleted l member).1, by simpa using Ne.symm other⟩
  moved := by
    intro p isBase _
    by_cases here : p.1 = level
    · exact .inr ⟨file, by simp [here]⟩
    · left
      rcases tracks.moved p isBase (tracks.touched (by simp [isBase])) with gone | ⟨g, member⟩
      · exact ⟨gone, here⟩
      · exact absurd member (by simp [tracks.not_added])

/-- Adding a file to a level the version does not have. -/
theorem add_invalid (tracks : entry.Tracks numLevels number inBase none) (name : file.number = number)
    (beyond : numLevels ≤ level) :
    Tracks numLevels number inBase { entry with level := some (some level) } (some (level, file)) where
  current := rfl
  untouched := nofun
  named := by
    rintro p isLive
    cases isLive
    exact name
  added := fun p member => absurd member (by simp [tracks.not_added])
  kept := by
    rintro p isLive lt
    cases isLive
    exact absurd lt (not_lt.mpr beyond)
  deleted := by
    intro l member
    have lt := (tracks.deleted l member).1
    refine ⟨lt, ?_⟩
    simp only [Option.map_some, ne_eq, Option.some.injEq]
    omega
  moved := fun p isBase _ => tracks.moved p isBase (tracks.touched (by simp [isBase]))

end Entry.Tracks

/-! ## The builder as a whole -/

/-- The numbers on a level are counted. -/
def Counts (files : Files κ μ) (level count : Nat) : Prop :=
  ∃ numbers : Finset Nat, numbers.card = count ∧ ∀ n, n ∈ numbers ↔ files.level n = some level

/-- Levels without repetitions that hold live files hold no number twice. -/
theorem nodup_numbers {files : Files κ μ} {numLevels : Nat} {levels : Nat → List (FileMetaData κ μ)}
    (nodup : ∀ level < numLevels, (levels level).Nodup)
    (live : ∀ level, ∀ f ∈ levels level, files f.number = some (level, f)) :
    ((range numLevels).flatMap fun level => (levels level).map (·.number)).Nodup := by
  have same_pair {l l' : Nat} {a b : FileMetaData κ μ} (inA : a ∈ levels l) (inB : b ∈ levels l')
      (same : a.number = b.number) : (l, a) = (l', b) := by
    have liveA := live l a inA
    rw [same, live l' b inB] at liveA
    exact (Option.some.inj liveA).symm
  refine nodup_flatMap.mpr ⟨fun level member => ?_, ?_⟩
  · refine (nodup level (mem_range.mp member)).map_on fun _ inA _ inB same => ?_
    exact congrArg Prod.snd (same_pair inA inB same)
  · refine nodup_range.imp_of_mem fun {l l'} _ _ differ number inL inL' => differ ?_
    obtain ⟨_, inA, nameA⟩ := mem_map.mp inL
    obtain ⟨_, inB, nameB⟩ := mem_map.mp inL'
    exact congrArg Prod.fst (same_pair inA inB (nameA.trans nameB.symm))

/-- A builder over a base version stands for live files. -/
structure TracksFiles (base : VersionStorageInfo κ μ) (rep : Rep κ μ) (files : Files κ μ) : Prop where
  sameBase : rep.base = base
  wellFormed : base.WellFormed
  entries : ∀ n, (rep.entry n).Tracks base.numLevels n (base.liveFiles n) (files n)
  sizes : ∀ level, base.numLevels ≤ level → Counts files level (rep.invalidLevelSizes level)

/-- The builder of a version stands for the files of the version. -/
theorem TracksFiles.new (wellFormed : base.WellFormed) : TracksFiles base (Rep.new base) base.liveFiles where
  sameBase := rfl
  wellFormed := wellFormed
  entries := fun n =>
    { current := rfl
      untouched := fun _ => rfl
      named := fun _ live => (wellFormed.liveFiles_iff.mp live).2.2
      added := fun _ member => absurd member.1 not_mem_nil
      kept := fun _ _ _ touched => absurd rfl touched
      deleted := fun _ member => absurd member (Finset.notMem_empty _)
      moved := fun _ _ touched => absurd rfl touched }
  sizes := by
    intro _ beyond
    refine ⟨∅, rfl, fun _ => ⟨fun member => absurd member (Finset.notMem_empty _), fun on => ?_⟩⟩
    obtain ⟨⟨_, _⟩, live, rfl⟩ := Option.map_eq_some_iff.mp on
    exact absurd (wellFormed.liveFiles_iff.mp live).1 (not_lt.mpr beyond)

section Counts
variable {files : Files κ μ} {level count number : Nat} (counts : Counts files level count)
include counts

/-- Changing one number counts the others as before. -/
theorem Counts.update (off : files.level number ≠ some level) (off' : live.map Prod.fst ≠ some level) :
    Counts (update files number live) level count := by
  obtain ⟨numbers, card, members⟩ := counts
  refine ⟨numbers, card, fun n => ?_⟩
  rw [members]
  by_cases same : n = number
  · subst same
    simp only [Files.level, update_self] at off ⊢
    exact iff_of_false off off'
  · simp [Files.level, same]

theorem Counts.insert (absent : files file.number = none) :
    Counts (Function.update files file.number (some (level, file))) level (count + 1) := by
  obtain ⟨numbers, card, members⟩ := counts
  have fresh : file.number ∉ numbers := by simp [members, Files.level, absent]
  refine ⟨Insert.insert file.number numbers, by rw [Finset.card_insert_of_notMem fresh, card], fun n => ?_⟩
  rw [Finset.mem_insert, members]
  by_cases same : n = file.number <;> simp [Files.level, same]

theorem Counts.erase (on : files.level number = some level) :
    Counts (Function.update files number none) level (count - 1) := by
  obtain ⟨numbers, card, members⟩ := counts
  refine ⟨numbers.erase number, by rw [Finset.card_erase_of_mem ((members number).mpr on), card], fun n => ?_⟩
  rw [Finset.mem_erase, members]
  by_cases same : n = number <;> simp [Files.level, same]

end Counts

section Steps
variable {base : VersionStorageInfo κ μ} {rep : Rep κ μ} {files : Files κ μ}

theorem TracksFiles.withBlobs (tracks : TracksFiles base rep files) (blobs : List MutableBlobFileMetaData) :
    TracksFiles base { rep with mutableBlobFileMetas := blobs } files :=
  ⟨tracks.sameBase, tracks.wellFormed, tracks.entries, tracks.sizes⟩

theorem TracksFiles.current (tracks : TracksFiles base rep files) (number : Nat) :
    rep.getCurrentLevelForTableFile number = files.level number := by
  have current := (tracks.entries number).current
  rw [← VersionStorageInfo.level_liveFiles, ← tracks.sameBase] at current
  rw [Files.level, ← current]
  unfold Rep.getCurrentLevelForTableFile Rep.entry
  cases rep.tableFileLevels number <;> rfl

/-- A step that changes one entry. -/
theorem TracksFiles.update (tracks : TracksFiles base rep files) (sameBase : rep'.base = rep.base)
    (entries : ∀ n, rep'.entry n = if n = number then entry else rep.entry n)
    (tracked : entry.Tracks base.numLevels number (base.liveFiles number) live)
    (sizes : ∀ level, base.numLevels ≤ level →
      Counts (update files number live) level (rep'.invalidLevelSizes level)) :
    TracksFiles base rep' (update files number live) := by
  refine ⟨sameBase.trans tracks.sameBase, tracks.wellFormed, fun n => ?_, sizes⟩
  rw [entries]
  by_cases same : n = number
  · subst same
    simpa using tracked
  · simpa [same] using tracks.entries n

theorem Rep.modifyBlobFile_blobs (rep : Rep κ μ) (number : Nat)
    (change : MutableBlobFileMetaData → MutableBlobFileMetaData) :
    ∃ blobs, rep.modifyBlobFile number change = { rep with mutableBlobFileMetas := blobs } := by
  unfold modifyBlobFile
  split_ifs
  · exact ⟨rep.mutableBlobFileMetas, rfl⟩
  · split
    · exact ⟨_, rfl⟩
    · exact ⟨rep.mutableBlobFileMetas, rfl⟩

theorem Rep.entry_delete (rep : Rep κ μ) (level number n : Nat) (blobs : List MutableBlobFileMetaData) : Rep.entry
      { rep with
        mutableBlobFileMetas := blobs
        levels := update rep.levels level
          { deletedFiles := Insert.insert number (rep.levels level).deletedFiles
            addedFiles := (rep.levels level).addedFiles.filter (·.number != number) }
        tableFileLevels := update rep.tableFileLevels number (some none) } n =
      if n = number then
        ⟨some none, Insert.insert level (rep.entry number).deleted, { p ∈ (rep.entry number).added | p.1 ≠ level }⟩
      else rep.entry n := by
  refine Entry.ext ?_ (Set.ext fun l => ?_) (Set.ext fun ⟨l, f⟩ => ?_)
  · by_cases same : n = number <;> simp [entry, same]
  · by_cases same : n = number <;> by_cases here : l = level <;> simp [entry, same, here]
  · by_cases same : n = number <;> by_cases here : l = level
    · subst here
      simp [entry, same]
    · simp [entry, same, here]
    · subst here
      simp only [entry, same, update_self, mem_filter, bne_iff_ne, if_false, Set.mem_ofPred_eq]
      constructor
      · rintro ⟨⟨member, -⟩, name⟩
        exact ⟨member, name⟩
      · rintro ⟨member, name⟩
        exact ⟨⟨member, name ▸ same⟩, name⟩
    · simp [entry, same, here]

theorem Rep.entry_add (rep : Rep κ μ) (level : Nat) (file : FileMetaData κ μ) (n : Nat)
    (blobs : List MutableBlobFileMetaData) :
    Rep.entry
      { rep with
        mutableBlobFileMetas := blobs
        levels := update rep.levels level
          { deletedFiles := (rep.levels level).deletedFiles.erase file.number
            addedFiles := (rep.levels level).addedFiles ++ [file] }
        tableFileLevels := update rep.tableFileLevels file.number (some (some level)) } n =
      if n = file.number then
        ⟨some (some level), (rep.entry file.number).deleted \ {level},
          Insert.insert (level, file) (rep.entry file.number).added⟩
      else rep.entry n := by
  refine Entry.ext ?_ (Set.ext fun l => ?_) (Set.ext fun ⟨l, f⟩ => ?_)
  · by_cases same : n = file.number <;> simp [entry, same]
  · by_cases same : n = file.number <;> by_cases here : l = level <;> simp [entry, same, here]
  · by_cases same : n = file.number <;> by_cases here : l = level
    · subst here
      simp only [entry, same, update_self, mem_append, mem_singleton, if_true,
        Set.mem_insert_iff, Set.mem_ofPred_eq, Prod.mk.injEq, true_and]
      constructor
      · rintro ⟨member | rfl, name⟩
        · exact .inr ⟨member, name⟩
        · exact .inl rfl
      · rintro (rfl | ⟨member, name⟩)
        · exact ⟨.inr rfl, rfl⟩
        · exact ⟨.inl member, name⟩
    · simp [entry, same, here]
    · subst here
      simp only [entry, same, update_self, mem_append, mem_singleton, if_false, Set.mem_ofPred_eq]
      constructor
      · rintro ⟨member | rfl, name⟩
        · exact ⟨member, name⟩
        · exact absurd name.symm same
      · rintro ⟨member, name⟩
        exact ⟨.inl member, name⟩
    · simp [entry, same, here]

variable (tracks : TracksFiles base rep files)
include tracks

/-- **A deletion that succeeds deletes a live file.** -/
theorem TracksFiles.applyFileDeletion (applied : rep.applyFileDeletion deleted = .ok rep') :
    files.level deleted.2 = some deleted.1 ∧ TracksFiles base rep' (files.delete deleted) := by
  obtain ⟨level, number⟩ := deleted
  have levels : rep.numLevels = base.numLevels := tracks.sameBase ▸ rfl
  unfold Rep.applyFileDeletion at applied
  dsimp only at applied
  split_ifs at applied with elsewhere beyond
  · have on : files.level number = some level := by rw [← tracks.current, ← not_not.mp elsewhere]
    cases applied
    refine ⟨on, tracks.update rfl (fun n => ?_) ((tracks.entries number).delete_invalid on (levels ▸ beyond)
      fun _ isBase => (tracks.wellFormed.liveFiles_iff.mp isBase).1) fun l outside => ?_⟩
    · by_cases same : n = number <;> simp [Rep.entry, same]
    · by_cases same : l = level
      · subst same
        simpa using (tracks.sizes l outside).erase on
      · have off : files.level number ≠ some l := by simpa [on] using Ne.symm same
        have gone : (none : Option (Nat × FileMetaData κ μ)).map Prod.fst ≠ some l := nofun
        simpa [same] using (tracks.sizes l outside).update off gone
  · have on : files.level number = some level := by rw [← tracks.current, ← not_not.mp elsewhere]
    have lt : level < base.numLevels := levels ▸ not_le.mp beyond
    obtain ⟨blobs, changed⟩ := rep.modifyBlobFile_blobs
      (rep.getOldestBlobFileNumberForTableFile level number) (.unlinkSst number)
    rw [changed] at applied
    cases applied
    refine ⟨on, tracks.update rfl (fun n => rep.entry_delete level number n blobs)
      ((tracks.entries number).delete on lt) fun l beyond => ?_⟩
    have off : files.level number ≠ some l := by
      simp only [on, ne_eq, Option.some.injEq]
      omega
    exact (tracks.sizes l beyond).update off nofun

/-- **An addition that succeeds adds a file that was not live.** -/
theorem TracksFiles.applyFileAddition {new : Nat × FileMetaData κ μ}
    (applied : rep.applyFileAddition new = .ok rep') :
    files new.2.number = none ∧ TracksFiles base rep' (files.add new) := by
  obtain ⟨level, file⟩ := new
  have levels : rep.numLevels = base.numLevels := tracks.sameBase ▸ rfl
  unfold Rep.applyFileAddition at applied
  dsimp only at applied
  cases current : rep.getCurrentLevelForTableFile file.number with
  | some =>
    rw [current] at applied
    cases applied
  | none =>
    rw [current] at applied
    have absent : files file.number = none := by
      have nowhere := (tracks.current file.number).symm.trans current
      simpa [Files.level] using nowhere
    have entry := absent ▸ tracks.entries file.number
    have off (l : Nat) : files.level file.number ≠ some l := by simp [Files.level, absent]
    split_ifs at applied with beyond
    · cases applied
      refine ⟨absent, tracks.update rfl (fun n => ?_) (entry.add_invalid rfl (levels ▸ beyond)) fun l outside => ?_⟩
      · by_cases same : n = file.number <;> simp [Rep.entry, same]
      · by_cases same : l = level
        · subst same
          simpa using (tracks.sizes l outside).insert absent
        · simpa [same] using (tracks.sizes l outside).update (off l)
            (by simpa using Ne.symm same : (some (level, file)).map Prod.fst ≠ some l)
    · have lt : level < base.numLevels := levels ▸ not_le.mp beyond
      obtain ⟨blobs, changed⟩ := Rep.modifyBlobFile_blobs
        { rep with
          levels := Function.update rep.levels level
            { deletedFiles := (rep.levels level).deletedFiles.erase file.number
              addedFiles := (rep.levels level).addedFiles ++ [file] } }
        file.oldestBlobFileNumber (.linkSst file.number)
      rw [changed] at applied
      cases applied
      refine ⟨absent, tracks.update rfl (fun n => rep.entry_add level file n blobs)
        (entry.add rfl lt) fun l beyond => ?_⟩
      refine (tracks.sizes l beyond).update (off l) ?_
      simp only [Option.map_some, ne_eq, Option.some.injEq]
      omega

theorem TracksFiles.applyBlobFileAddition (applied : rep.applyBlobFileAddition addition = .ok rep') :
    TracksFiles base rep' files := by
  unfold Rep.applyBlobFileAddition at applied
  split_ifs at applied
  cases applied
  exact tracks.withBlobs _

theorem TracksFiles.applyBlobFileGarbage (applied : rep.applyBlobFileGarbage garbage = .ok rep') :
    TracksFiles base rep' files := by
  unfold Rep.applyBlobFileGarbage at applied
  split at applied
  · cases applied
  · split at applied
    · cases applied
    · cases applied
      exact tracks.withBlobs _

theorem TracksFiles.applyCompactCursors (applied : rep.applyCompactCursors cursor = .ok rep') :
    TracksFiles base rep' files := by
  unfold Rep.applyCompactCursors at applied
  split_ifs at applied
  · cases applied
    exact ⟨tracks.sameBase, tracks.wellFormed, tracks.entries, tracks.sizes⟩
  · cases applied
    exact tracks

/-- **The saved files of a level are its live files.** -/
theorem TracksFiles.mem_savedFiles (cmp : FileMetaData κ μ → FileMetaData κ μ → Bool) (lt : level < base.numLevels)
    : f ∈ rep.savedFiles cmp level ↔ files f.number = some (level, f) := by
  have entry := tracks.entries f.number
  have inBase : base.liveFiles f.number = some (level, f) ↔ f ∈ rep.base.files level := by
    rw [tracks.wellFormed.liveFiles_iff, tracks.sameBase]
    tauto
  have saved : f ∈ rep.savedFiles cmp level ↔ f.number ∉ (rep.levels level).deletedFiles ∧
      (f ∈ (rep.levels level).addedFiles ∨ (f ∈ rep.base.files level ∧
        ∀ g ∈ (rep.levels level).addedFiles, g.number ≠ f.number)) := by
    unfold Rep.savedFiles Rep.mergeUnorderedAddedFilesWithBase Rep.maybeAddFile
    simp only [mem_filterMap, mem_merge, mem_map, mem_mergeSort]
    constructor
    · rintro ⟨_, source, result⟩
      split_ifs at result with gone superseded
      cases result
      refine ⟨gone, ?_⟩
      rcases source with ⟨g, member, rfl⟩ | ⟨g, member, rfl⟩
      · exact .inr ⟨member, by simpa using superseded⟩
      · exact .inl member
    · rintro ⟨kept, member | ⟨member, alone⟩⟩
      · exact ⟨(.added, f), .inr ⟨f, member, rfl⟩, by simp [kept]⟩
      · exact ⟨(.base, f), .inl ⟨f, member, rfl⟩, by simpa [kept] using alone⟩
  rw [saved]
  constructor
  · rintro ⟨kept, member | ⟨member, alone⟩⟩
    · exact (entry.added (level, f) ⟨member, rfl⟩).2.2
    · have isBase := inBase.mpr member
      by_cases touched : (rep.entry f.number).level = none
      · rw [entry.untouched touched, isBase]
      · rcases entry.moved _ isBase touched with gone | ⟨g, added, name⟩
        · exact absurd gone kept
        · exact absurd name (alone g added)
  · intro live
    refine ⟨fun gone => (entry.deleted level gone).2 (by simp [live]), ?_⟩
    by_cases touched : (rep.entry f.number).level = none
    · refine .inr ⟨inBase.mp ((entry.untouched touched).symm.trans live), fun g added name => ?_⟩
      exact (entry.added (level, g) ⟨added, name⟩).2.1 touched
    · exact .inl (entry.kept (level, f) live lt touched).1

variable [LinearOrder κ]

/-- **An edit that applies changes the live files.** -/
theorem TracksFiles.apply (applied : rep.apply edit = .ok rep') : TracksFiles base rep' (files.apply edit) := by
  obtain ⟨_, -, applied⟩ := ok_of_bind applied
  obtain ⟨_, additions, applied⟩ := ok_of_bind applied
  obtain ⟨_, garbages, applied⟩ := ok_of_bind applied
  obtain ⟨_, deletions, applied⟩ := ok_of_bind applied
  obtain ⟨_, files₄, cursors⟩ := ok_of_bind applied
  have tracks₁ := foldlM_simulates
    (fun _ _ _ _ tracks => tracks.applyBlobFileAddition) additions tracks
  have tracks₂ := foldlM_simulates
    (fun _ _ _ _ tracks => tracks.applyBlobFileGarbage) garbages tracks₁
  have tracks₃ := foldlM_simulates
    (fun _ _ _ _ tracks applied => (tracks.applyFileDeletion applied).2) deletions tracks₂
  have tracks₄ := foldlM_simulates
    (fun _ _ _ _ tracks applied => (tracks.applyFileAddition applied).2) files₄ tracks₃
  have tracks₅ := foldlM_simulates
    (fun _ _ _ _ tracks => tracks.applyCompactCursors) cursors tracks₄
  simpa [Files.apply] using tracks₅

end Steps

/-! ## Built versions -/

section Built
variable [LinearOrder κ]

/-- A base version, edits that all apply, and the version saved after them with the
consistency checks forced on. -/
structure Build (κ μ : Type) [LinearOrder κ] where
  base : VersionStorageInfo κ μ
  wellFormed : base.WellFormed
  edits : List (VersionEdit κ μ)
  rep : Rep κ μ
  applied : edits.foldlM Rep.apply (Rep.new base) = .ok rep
  requirement : EpochNumberRequirement
  saved : VersionStorageInfo κ μ
  saves : rep.saveTo (.new base.numLevels requirement true) = .ok saved

/-- The files that are live after the edits. -/
def Build.liveFiles (build : Build κ μ) : Files κ μ :=
  build.edits.foldl Files.apply build.base.liveFiles

theorem Build.tracks (build : Build κ μ) : TracksFiles build.base build.rep build.liveFiles :=
  foldlM_simulates (fun _ _ _ _ tracks applied => tracks.apply applied) build.applied (.new build.wellFormed)

theorem requirement_of_saveTo {rep : Rep κ μ} {saved : VersionStorageInfo κ μ}
    (saves : rep.saveTo (.new numLevels .kMustPresent true) = .ok saved) :
    saved.epochNumberRequirement = .kMustPresent := by
  obtain ⟨_, -, saves⟩ := ok_of_bind saves
  obtain ⟨_, -, same⟩ := ok_of_bind saves
  cases same
  unfold Rep.saveCompactCursorsTo Rep.saveBlobFilesTo Rep.saveSSTFilesTo Rep.savedRequirement
  dsimp only
  split_ifs <;> rfl

section Save
variable {rep : Rep κ μ} {requirement : EpochNumberRequirement} {saved : VersionStorageInfo κ μ}
  (saves : rep.saveTo (.new rep.base.numLevels requirement true) = .ok saved)
include saves

/-- What is saved into an empty version. -/
theorem saveTo_ok : saved = rep.saveCompactCursorsTo (rep.saveBlobFilesTo
        (rep.saveSSTFilesTo (.new rep.base.numLevels requirement true))) ∧
      saved.forceConsistencyChecks = true ∧ checkConsistency saved = .ok () := by
  obtain ⟨_, -, saves⟩ := ok_of_bind saves
  obtain ⟨_, checked, same⟩ := ok_of_bind saves
  cases same
  refine ⟨rfl, ?_, checked⟩
  unfold Rep.saveCompactCursorsTo Rep.saveBlobFilesTo
  dsimp only
  split_ifs <;> rfl

/-- The table files saved into an empty version. -/
theorem files_of_saveTo : saved.numLevels = rep.base.numLevels ∧ ∀ level, saved.files level =
      if level < rep.base.numLevels then
        rep.savedFiles (levelCmp saved.epochNumberRequirement level) level
      else [] := by
  obtain ⟨rfl, -, -⟩ := saveTo_ok saves
  unfold Rep.saveCompactCursorsTo Rep.saveBlobFilesTo Rep.saveSSTFilesTo Rep.numLevels
  dsimp only
  constructor
  · split_ifs <;> rfl
  · intro _
    split_ifs <;> simp_all [VersionStorageInfo.new]

/-- A saved level holds its live files. -/
theorem TracksFiles.mem_files {base : VersionStorageInfo κ μ} {files : Files κ μ}
    (tracks : TracksFiles base rep files) (level : Nat) (f : FileMetaData κ μ) : f ∈ saved.files level ↔
      level < base.numLevels ∧ files f.number = some (level, f) := by
  rw [(files_of_saveTo saves).2 level, tracks.sameBase]
  split_ifs with lt
  · rw [tracks.mem_savedFiles _ lt]
    simp [lt]
  · simp [lt]

end Save

/-- **A saved version holds the live files of its levels, each once, and every level
from 1 on is sorted with disjoint key ranges.** A file on a level the version does
not have is left out; `CheckConsistencyForNumLevels` says that there is none. -/
theorem built_version_sound (build : Build κ μ) : (∀ level, level ≠ 0 → (build.saved.files level).Pairwise fun a b =>
      a.smallest ≤ b.smallest ∧ a.largest < b.smallest) ∧
    ((List.range build.base.numLevels).flatMap fun level =>
      (build.saved.files level).map (·.number)).Nodup ∧
    (∀ level f, f ∈ build.saved.files level ↔
      level < build.base.numLevels ∧ build.liveFiles f.number = some (level, f)) ∧
    (build.rep.CheckConsistencyForNumLevels → ∀ number level f,
      build.liveFiles number = some (level, f) → f ∈ build.saved.files level) := by
  have tracks := build.tracks
  have saves := tracks.sameBase ▸ build.saves
  obtain ⟨-, forced, checked⟩ := saveTo_ok saves
  obtain ⟨levels, files⟩ := files_of_saveTo saves
  rw [tracks.sameBase] at levels files
  have consistent := consistent_of_check forced checked
  have members := tracks.mem_files saves
  refine ⟨fun level positive => ?_, ?_, members, fun valid number level f live => ?_⟩
  · by_cases lt : level < build.saved.numLevels
    · refine List.Pairwise.imp₂ (fun _ _ before apart => ⟨?_, apart⟩) (consistent.ordered level lt)
        (consistent.disjoint level lt positive)
      exact smallest_le_of_bySmallestKey ((levelCmp_positive positive).symm.trans before)
    · rw [files level, if_neg (levels ▸ lt)]
      exact .nil
  · exact nodup_numbers (fun level lt => (consistent.ordered level (levels ▸ lt)).nodup)
      fun level f member => ((members level f).mp member).2
  · have name : f.number = number := (tracks.entries number).named (level, f) live
    refine (members level f).mpr ⟨?_, name ▸ live⟩
    by_contra beyond
    obtain ⟨_, card, counted⟩ := tracks.sizes level (not_lt.mp beyond)
    rw [valid level, Finset.card_eq_zero] at card
    have member := (counted number).mpr (by rw [Files.level, live]; rfl)
    simp [card] at member

/-- The key ranges of two files meet. -/
def FileMetaData.Overlaps (a b : FileMetaData κ μ) : Prop :=
  a.smallest ≤ b.largest ∧ b.smallest ≤ a.largest

/-- Files of one epoch that overlap have a file between them. -/
theorem apart_of_neighbours (ordered : Ordered .kMustPresent 0 files)
    (checked : checkNeighbours (l0Checker .kMustPresent) files = .ok ())
    (between : ∀ a ∈ files, ∀ c ∈ files, ∀ b ∈ files, levelCmp .kMustPresent 0 a c = true →
      levelCmp .kMustPresent 0 c b = true → a.epochNumber = b.epochNumber → ¬a.Overlaps b) :
    files.Pairwise fun a b => a.epochNumber = b.epochNumber → ¬a.Overlaps b := by
  induction files with
  | nil => exact .nil
  | cons lhs rest ih =>
    cases rest with
    | nil => exact pairwise_singleton ..
    | cons rhs rest =>
      obtain ⟨_, first, later⟩ := ok_of_bind checked
      obtain ⟨before, ordered⟩ := pairwise_cons.mp ordered
      refine pairwise_cons.mpr ⟨forall_mem_cons.mpr ⟨fun same overlap => ?_, fun f member => ?_⟩, ih ordered later ?_⟩
      · simp [l0Checker, same, overlap.1, overlap.2] at first
      · exact between lhs mem_cons_self rhs (by simp) f (by simp [member]) (before rhs mem_cons_self)
          ((pairwise_cons.mp ordered).1 f member)
      · exact fun a a_mem c c_mem b b_mem =>
          between a (mem_cons_of_mem _ a_mem) c (mem_cons_of_mem _ c_mem) b (mem_cons_of_mem _ b_mem)

/-- A live file of level 0. -/
def Build.LiveTop (build : Build κ μ) (f : FileMetaData κ μ) : Prop :=
  0 < build.base.numLevels ∧ build.liveFiles f.number = some (0, f)

/-- **Level 0 is ordered by epoch, and files of one epoch are apart** exactly when no two
live files of one epoch overlap with another live file between them. Only neighbours are
compared, and files of one epoch are ordered by their sequence numbers. -/
theorem level_zero_by_epoch (build : Build κ μ) (required : build.requirement = .kMustPresent) :
    ((build.saved.files 0).Pairwise fun a b => newestFirstByEpochNumber a b = true) ∧
    (((build.saved.files 0).Pairwise fun a b => a.epochNumber = b.epochNumber → ¬a.Overlaps b) ↔
      ∀ a c b, build.LiveTop a → build.LiveTop c → build.LiveTop b → newestFirstByEpochNumber a c = true →
        newestFirstByEpochNumber c b = true → a.epochNumber = b.epochNumber → ¬a.Overlaps b) := by
  have saves := build.tracks.sameBase ▸ required ▸ build.saves
  obtain ⟨-, forced, checked⟩ := saveTo_ok saves
  have must := requirement_of_saveTo saves
  have members (f : FileMetaData κ μ) : f ∈ build.saved.files 0 ↔ build.LiveTop f := build.tracks.mem_files saves 0 f
  rw [checkConsistency, if_pos forced] at checked
  simp only [← members]
  by_cases lt : 0 < build.saved.numLevels
  · have ordered := (ordered_of_details checked lt).1
    have neighbours := neighbours_of_details checked lt
    rw [must] at ordered neighbours
    refine ⟨ordered, fun apart a c b a_mem _ b_mem before behind => ?_, fun between => ?_⟩
    · have different : a ≠ b := by
        rintro rfl
        exact lt_asymm (levelCmp_zero.mp (show levelCmp .kMustPresent 0 a c = true from before))
          (levelCmp_zero.mp (show levelCmp .kMustPresent 0 c a = true from behind))
      have symm : Std.Symm fun a b : FileMetaData κ μ => a.epochNumber = b.epochNumber → ¬a.Overlaps b :=
        ⟨fun _ _ apart same overlap => apart same.symm ⟨overlap.2, overlap.1⟩⟩
      exact apart.forall a_mem b_mem different
    · exact apart_of_neighbours ordered neighbours fun a a_mem c c_mem b b_mem => between a c b a_mem c_mem b_mem
  · have empty : build.saved.files 0 = [] := by
      rw [(files_of_saveTo saves).2, if_neg ((files_of_saveTo saves).1 ▸ lt)]
    simp [empty]

end Built

/-- A table file. -/
def strayFile : FileMetaData Nat Unit :=
  ⟨7, ⟨0, 1, .kTypeValue⟩, ⟨1, 1, .kTypeValue⟩, 1, 1, 1, kInvalidBlobFileNumber, ()⟩

/-- The builder after the file was added to a level that the version does not have. -/
def strayRep : Rep Nat Unit :=
  { Rep.new (.new 1 .kMustPresent true) with
    invalidLevelSizes := update (fun _ => 0) 1 1
    tableFileLevels := update (fun _ => none) 7 (some (some 1)) }

/-- No blob file is saved if the base has none and no new one has links. -/
theorem Rep.saveBlobFilesTo_unlinked [LinearOrder κ] {rep : Rep κ μ} (base : rep.base.blobFiles = [])
    (unlinked : ∀ m ∈ rep.mutableBlobFileMetas, m.linkedSsts = ∅) (v : VersionStorageInfo κ μ) :
    rep.saveBlobFilesTo v = v := by
  have oldest : rep.getMinOldestBlobFileNumber = kInvalidBlobFileNumber := by
    unfold getMinOldestBlobFileNumber mergeBlobFileMetas
    rw [base, KeyedList.lowerBound, dropWhile_nil, KeyedList.join, find?_eq_none.mpr]
    intro _ member
    obtain ⟨m, inBound, rfl⟩ := mem_map.mp member
    simp [currentLinkedSsts, unlinked m ((dropWhile_sublist _).subset inBound)]
  rw [saveBlobFilesTo, oldest]
  exact if_pos rfl

private theorem strayRep_saves : strayRep.saveTo (.new 1 .kMustPresent true) = .ok (.new 1 .kMustPresent true) := by
  have files (level : Nat) : strayRep.savedFiles (levelCmp .kMustPresent level) level = [] := by
    simp [strayRep, Rep.savedFiles, Rep.mergeUnorderedAddedFilesWithBase, Rep.new, VersionStorageInfo.new]
  have ssts : strayRep.saveSSTFilesTo (.new 1 .kMustPresent true) = .new 1 .kMustPresent true := by
    simp [Rep.saveSSTFilesTo, Rep.savedRequirement, VersionStorageInfo.new, files]
  unfold Rep.saveTo
  rw [ssts, Rep.saveBlobFilesTo_unlinked rfl (forall_mem_nil _)]
  rfl

theorem oneLevel_wellFormed : (.new 1 .kMustPresent true : VersionStorageInfo Nat Unit).WellFormed :=
  ⟨nodup_nil, .nil⟩

/-- The addition of a file to a level that a version of one level does not have. -/
def strayBuild : Build Nat Unit where
  base := .new 1 .kMustPresent true
  wellFormed := oneLevel_wellFormed
  edits := [{ newFiles := [(1, strayFile)] }]
  rep := strayRep
  applied := rfl
  requirement := .kMustPresent
  saved := .new 1 .kMustPresent true
  saves := strayRep_saves

/-- Both the edit and the save succeed, and the live file is on no level. -/
theorem file_beyond_levels_is_dropped : strayBuild.liveFiles 7 = some (1, strayFile) ∧
      ∀ level, strayFile ∉ strayBuild.saved.files level :=
  ⟨rfl, fun _ => not_mem_nil⟩

/-- A level 0 file of the first epoch. -/
def epochFile (number first last seqno : Nat) : FileMetaData Nat Unit :=
  ⟨number, ⟨first, 1, .kTypeValue⟩, ⟨last, 1, .kTypeValue⟩, seqno, seqno, 1, kInvalidBlobFileNumber, ()⟩

/-- A version with these files on level 0. -/
def epochVersion (files : List (FileMetaData Nat Unit)) : VersionStorageInfo Nat Unit :=
  { (VersionStorageInfo.new 1 .kMustPresent true : VersionStorageInfo Nat Unit) with
    files := fun level => if level < 1 then files else [] }

/-- The builder after a third file of one epoch is added. The second one stands between it
and the first one. -/
def epochRep (first last : Nat) : Rep Nat Unit :=
  { Rep.new (epochVersion [epochFile 7 1 2 9, epochFile 8 5 6 8]) with
    levels := update (fun _ => {}) 0 { addedFiles := [epochFile 9 first last 7] }
    tableFileLevels := update (fun _ => none) 9 (some (some 0)) }

/-- The version with the third file. -/
def epochSaved (first last : Nat) : VersionStorageInfo Nat Unit :=
  epochVersion [epochFile 7 1 2 9, epochFile 8 5 6 8, epochFile 9 first last 7]

theorem epochRep_saves (checked : checkConsistency (epochSaved first last) = .ok ()) :
    (epochRep first last).saveTo (.new 1 .kMustPresent true) = .ok (epochSaved first last) := by
  have files : (epochRep first last).savedFiles newestFirstByEpochNumber 0 =
      [epochFile 7 1 2 9, epochFile 8 5 6 8, epochFile 9 first last 7] := by
    simp [Rep.savedFiles, epochRep, Rep.new, epochVersion, Rep.mergeUnorderedAddedFilesWithBase,
      newestFirstByEpochNumber, newestFirstBySeqNo, epochFile, Rep.maybeAddFile]
  have ssts : (epochRep first last).saveSSTFilesTo (.new 1 .kMustPresent true) = epochSaved first last := by
    unfold Rep.saveSSTFilesTo epochSaved epochVersion
    congr 1
    funext level
    cases level with
    | zero => exact files
    | succ => rfl
  unfold Rep.saveTo
  rw [ssts, Rep.saveBlobFilesTo_unlinked rfl (forall_mem_nil _)]
  exact congrArg (· >>= fun _ => pure (epochSaved first last)) checked

/-- The addition of the third file. -/
def epochBuild (first last : Nat) (checked : checkConsistency (epochSaved first last) = .ok ()) : Build Nat Unit where
  base := epochVersion [epochFile 7 1 2 9, epochFile 8 5 6 8]
  wellFormed := ⟨by decide, .nil⟩
  edits := [{ newFiles := [(0, epochFile 9 first last 7)] }]
  rep := epochRep first last
  applied := rfl
  requirement := .kMustPresent
  saved := epochSaved first last
  saves := epochRep_saves checked

/-- Each of the three files is saved once, and no other file is. -/
theorem third_file_is_saved :
    let build := epochBuild 3 4 rfl
    ((List.range 1).flatMap fun level => (build.saved.files level).map (·.number)).Nodup ∧
      ∀ f, f ∈ build.saved.files 0 ↔ 0 < 1 ∧ build.liveFiles f.number = some (0, f) := by
  obtain ⟨-, once, live, -⟩ := built_version_sound (epochBuild 3 4 rfl)
  exact ⟨once, live 0⟩

/-- Three files of one epoch that are apart. -/
theorem third_file_is_apart :
    let build := epochBuild 3 4 rfl
    ((build.saved.files 0).Pairwise fun a b => a.epochNumber = b.epochNumber → ¬a.Overlaps b) ∧
      ∀ a c b, build.LiveTop a → build.LiveTop c → build.LiveTop b → newestFirstByEpochNumber a c = true →
        newestFirstByEpochNumber c b = true → a.epochNumber = b.epochNumber → ¬a.Overlaps b := by
  have apart : ((epochBuild 3 4 rfl).saved.files 0).Pairwise fun a b =>
      a.epochNumber = b.epochNumber → ¬a.Overlaps b := by
    unfold FileMetaData.Overlaps
    decide
  exact ⟨apart, (level_zero_by_epoch (epochBuild 3 4 rfl) rfl).2.mp apart⟩

/-- The check passes, and the first and the last file of the epoch overlap. -/
theorem distant_files_of_one_epoch_overlap :
    ∃ a ∈ (epochBuild 1 2 rfl).saved.files 0, ∃ b ∈ (epochBuild 1 2 rfl).saved.files 0, a ≠ b ∧
      a.epochNumber = b.epochNumber ∧ a.Overlaps b :=
  ⟨epochFile 7 1 2 9, by simp [epochBuild, epochSaved, epochVersion], epochFile 9 1 2 7,
    by simp [epochBuild, epochSaved, epochVersion],
    by decide, rfl, by decide, by decide⟩

end Rocksdb.VersionBuilder
