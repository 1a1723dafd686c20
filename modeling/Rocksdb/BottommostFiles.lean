import Rocksdb.DbFormat

/-! Bottommost files that are marked for compaction because no snapshot keeps their
sequence numbers (`db/version_set.cc`). The marks are computed again only when the oldest
snapshot has passed a threshold. -/
namespace Rocksdb.BottommostFiles
open List

structure FileMetaData where
  beingCompacted : Bool
  largestSeqno : Nat
  /-- `TryGetFileCreationTime`, as a signed number. -/
  creationTime : Int

def kUnknownFileCreationTime : Int := 0

/-- What `VersionStorageInfo` knows about the files, each with its level. -/
structure VersionStorageInfo where
  bottommostFiles : List (Nat × FileMetaData)
  bottommostFileCompactionDelay : Nat
  oldestSnapshotSeqnum : Nat
  markedForCompaction : List (Nat × FileMetaData)
  markThreshold : Nat

namespace VersionStorageInfo

/-- One round of the loop of `ComputeBottommostFilesMarkedForCompaction`. -/
def markFile (currentTime : Int) (v : VersionStorageInfo) (f : Nat × FileMetaData) : VersionStorageInfo :=
  let creationTimeUb := currentTime - v.bottommostFileCompactionDelay
  if !f.2.beingCompacted ∧ f.2.largestSeqno ≠ 0 then
    if f.2.largestSeqno < v.oldestSnapshotSeqnum then
      if v.bottommostFileCompactionDelay = 0 ∨ 0 < creationTimeUb ∧
          (f.2.creationTime = kUnknownFileCreationTime ∨ f.2.creationTime ≤ creationTimeUb) then
        { v with markedForCompaction := v.markedForCompaction ++ [f] }
      else v
    else { v with markThreshold := min v.markThreshold f.2.largestSeqno }
  else v

def computeBottommostFilesMarkedForCompaction (v : VersionStorageInfo) (currentTime : Int) (allowIngestBehind : Bool) :
    VersionStorageInfo :=
  let v := { v with markedForCompaction := [], markThreshold := kMaxSequenceNumber }
  if allowIngestBehind then v else v.bottommostFiles.foldl (markFile currentTime) v

def updateOldestSnapshot (v : VersionStorageInfo) (currentTime : Int) (seqnum : Nat) (allowIngestBehind : Bool) :
    VersionStorageInfo :=
  let v := { v with oldestSnapshotSeqnum := seqnum }
  if v.markThreshold < v.oldestSnapshotSeqnum then
    v.computeBottommostFilesMarkedForCompaction currentTime allowIngestBehind
  else v

end VersionStorageInfo

/-- No compaction has the file, and no snapshot keeps its sequence numbers. -/
def due (oldest : Nat) (f : Nat × FileMetaData) : Bool :=
  !f.2.beingCompacted && f.2.largestSeqno ≠ 0 && f.2.largestSeqno < oldest

/-- The marks are those of the oldest snapshot, and stay so up to the threshold. -/
structure Exact (files : List (Nat × FileMetaData)) (oldest : Nat) (v : VersionStorageInfo) : Prop where
  sameFiles : v.bottommostFiles = files
  noDelay : v.bottommostFileCompactionDelay = 0
  sameOldest : v.oldestSnapshotSeqnum = oldest
  marked : v.markedForCompaction = files.filter (due oldest)
  threshold : ∀ f ∈ files, ∀ later ≤ v.markThreshold, due later f = true → due oldest f = true

open VersionStorageInfo

variable {v : VersionStorageInfo} (now : Int)

private theorem markFiles_spec (files : List (Nat × FileMetaData)) (noDelay : v.bottommostFileCompactionDelay = 0) :
    ∃ threshold ≤ v.markThreshold, files.foldl (markFile now) v =
      { v with
        markedForCompaction := v.markedForCompaction ++ files.filter (due v.oldestSnapshotSeqnum)
        markThreshold := threshold } ∧
      ∀ f ∈ files, ∀ later ≤ threshold, due later f = true → due v.oldestSnapshotSeqnum f = true := by
  induction files generalizing v with
  | nil => exact ⟨v.markThreshold, le_rfl, by simp, nofun⟩
  | cons f _ ih =>
    rw [foldl_cons, filter_cons, markFile]
    split
    case isTrue candidate =>
      split
      case isTrue below =>
        have isDue : due v.oldestSnapshotSeqnum f = true := by simpa [due, below] using candidate
        rw [if_pos (.inl noDelay), if_pos isDue]
        obtain ⟨threshold, le, run, bound⟩ := ih (v := { v with markedForCompaction := _ ++ [f] }) noDelay
        exact ⟨threshold, le, by rw [run]; simp, forall_mem_cons.mpr ⟨fun _ _ _ => isDue, bound⟩⟩
      case isFalse above =>
        obtain ⟨threshold, le, run, bound⟩ := ih (v := { v with markThreshold := min _ f.2.largestSeqno }) noDelay
        obtain ⟨le, _⟩ := le_min_iff.mp le
        have notDue : ¬due v.oldestSnapshotSeqnum f = true := by simp [due, above]
        rw [if_neg notDue]
        refine ⟨threshold, le, run, forall_mem_cons.mpr ⟨fun later _ isDue => ?_, bound⟩⟩
        have below : f.2.largestSeqno < later := of_decide_eq_true (Bool.and_eq_true_iff.mp isDue).2
        omega
    case isFalse other =>
      have never (oldest : Nat) : ¬due oldest f = true := fun isDue => other (by simp_all [due])
      obtain ⟨threshold, le, run, bound⟩ := ih noDelay
      rw [if_neg (never _)]
      exact ⟨threshold, le, run, forall_mem_cons.mpr ⟨fun _ _ isDue => absurd isDue (never _), bound⟩⟩

theorem exact_compute (noDelay : v.bottommostFileCompactionDelay = 0) :
    Exact v.bottommostFiles v.oldestSnapshotSeqnum (v.computeBottommostFilesMarkedForCompaction now false) := by
  obtain ⟨_, -, run, bound⟩ := markFiles_spec now v.bottommostFiles noDelay
    (v := { v with markedForCompaction := [], markThreshold := kMaxSequenceNumber })
  rw [computeBottommostFilesMarkedForCompaction, if_neg Bool.false_ne_true, run]
  exact ⟨rfl, noDelay, rfl, rfl, bound⟩

/-- Up to the threshold, the marks of a later snapshot are those there are. -/
theorem Exact.update (current : Exact files oldest v) (le : oldest ≤ seqnum) :
    Exact files seqnum (v.updateOldestSnapshot now seqnum false) := by
  have mono (f : Nat × FileMetaData) (isDue : due oldest f = true) : due seqnum f = true := by
    simp only [due, Bool.and_eq_true, decide_eq_true_eq] at isDue ⊢
    exact ⟨isDue.1, isDue.2.trans_le le⟩
  unfold updateOldestSnapshot
  dsimp only
  split
  · exact current.sameFiles ▸ exact_compute now (v := { v with oldestSnapshotSeqnum := seqnum }) current.noDelay
  · next within =>
    refine ⟨current.sameFiles, current.noDelay, rfl, ?_, fun f member later early isDue => ?_⟩
    · exact current.marked.trans (filter_congr fun f member => Bool.eq_iff_iff.mpr
        ⟨mono f, current.threshold f member seqnum (not_lt.mp within)⟩)
    · exact mono f (current.threshold f member later early isDue)

theorem Exact.updates (current : Exact files oldest v) (updates : List (Int × Nat))
    (ascending : (oldest :: updates.map (·.2)).Pairwise (· ≤ ·)) :
    Exact files ((updates.map (·.2)).getLastD oldest)
      (updates.foldl (fun v update => v.updateOldestSnapshot update.1 update.2 false) v) := by
  induction updates generalizing v oldest with
  | nil => exact current
  | cons update _ ih =>
    obtain ⟨first, later⟩ := pairwise_cons.mp ascending
    rw [foldl_cons, map_cons, getLastD_cons]
    exact ih (current.update _ (first _ mem_cons_self)) later

/-- **The threshold misses no file.** After any updates in ascending order that follow a computation of the
marks, the marked files are those that are due. -/
theorem marked_exact (v : VersionStorageInfo) (noDelay : v.bottommostFileCompactionDelay = 0)
    (updates : List (Int × Nat)) (ascending : (v.oldestSnapshotSeqnum :: updates.map (·.2)).Pairwise (· ≤ ·)) :
    (updates.foldl (fun v update => v.updateOldestSnapshot update.1 update.2 false)
        (v.computeBottommostFilesMarkedForCompaction now false)).markedForCompaction =
      v.bottommostFiles.filter (due ((updates.map (·.2)).getLastD v.oldestSnapshotSeqnum)) :=
  ((exact_compute now noDelay).updates updates ascending).marked

/-- Two files, of which the first is due when the oldest snapshot has gone from 3 over 4 to 6 and 7. At 4 and at 7 the
threshold is not passed, and nothing is computed. -/
theorem marked_exact_seven :
    let v : VersionStorageInfo := ⟨[(1, ⟨false, 5, 0⟩), (1, ⟨true, 2, 0⟩), (2, ⟨false, 9, 0⟩)], 0, 3, [], 0⟩
    ([(0, 4), (0, 6), (0, 7)].foldl (fun v update => v.updateOldestSnapshot update.1 update.2 false)
      (v.computeBottommostFilesMarkedForCompaction 0 false)).markedForCompaction = [(1, ⟨false, 5, 0⟩)] := by
  intro v
  exact marked_exact 0 v rfl [(0, 4), (0, 6), (0, 7)] (by decide)

end Rocksdb.BottommostFiles
