import Rocksdb.LevelIterator

/-! A `LevelIterator` is a cursor over the keys of its files. Each file also
has a front and a back sentinel when tombstones are tracked: forward calls see
the one at the back, backward calls the one at the front. -/
namespace Rocksdb.LevelIteratorProofs
open FilePicker LevelIterator Lib.Cursor List

variable {κ V : Type} [LinearOrder κ]

/-- A place in a file. -/
inductive Slot where
  | front
  | key (index : Nat)
  | back
  deriving DecidableEq

def Slot.before : Slot → Slot → Bool
  | .front, .key _ | .front, .back | .key _, .back => true
  | .key i, .key j => i < j
  | _, _ => false

theorem Slot.not_before_front (s : Slot) : s.before .front = false := by
  cases s <;> rfl

/-- What the cursor stands on: a key of a file or one of its sentinels. -/
structure Item (κ V : Type) where
  file : Nat
  slot : Slot
  key : InternalKey κ
  value : Option V

def Item.before (a b : Item κ V) : Bool := a.file < b.file ∨ a.file = b.file ∧ a.slot.before b.slot

/-- The keys of a file. -/
def keyItems (file : Nat) (f : LevelFile κ V) : List (Item κ V) :=
  f.entries.zipIdx.map fun (e, index) => ⟨file, .key index, e.1, some e.2⟩

def frontItem (file : Nat) (f : LevelFile κ V) : Item κ V := ⟨file, .front, f.range.smallestKey, none⟩

def backItem (file : Nat) (f : LevelFile κ V) : Item κ V := ⟨file, .back, f.range.largestKey, none⟩

/-- What forward calls see of a file: its keys, then its sentinel. -/
def fileForward (tracked : Bool) (file : Nat) (f : LevelFile κ V) : List (Item κ V) :=
  keyItems file f ++ if tracked then [backItem file f] else []

/-- What backward calls see of a file: from its end, its keys, then its
sentinel. -/
def fileBackward (tracked : Bool) (file : Nat) (f : LevelFile κ V) : List (Item κ V) :=
  (if tracked then [frontItem file f] else []) ++ keyItems file f

/-- The concatenation of what is seen of each file. -/
def concatFiles (items : Nat → LevelFile κ V → List (Item κ V)) (files : List (LevelFile κ V)) : List (Item κ V) :=
  files.zipIdx.flatMap fun p => items p.2 p.1

/-- The cursor over the keys and sentinels of a level. -/
def levelTracks (files : List (LevelFile κ V)) (tracked : Bool) : Tracks (Item κ V) (InternalKey κ) where
  forward := concatFiles (fileForward tracked) files
  backward := concatFiles (fileBackward tracked) files
  before := Item.before
  atOrAfter := fun target x => target ≤ x.key
  atOrBefore := fun target x => x.key ≤ target

/-- A move is legal on a key, and on a sentinel away from its file. -/
def Legal (here : Option (Item κ V)) : Call (InternalKey κ) → Prop
  | .next => ∃ x ∈ here, x.slot ≠ .front
  | .prev => ∃ x ∈ here, x.slot ≠ .back
  | _ => True

/-! ## Items -/

section Items
variable {files : List (LevelFile κ V)} {tracked : Bool} {x : Item κ V}

variable {i : Nat} {f : LevelFile κ V}

theorem mem_keyItems : x ∈ keyItems i f ↔ ∃ j e, f.entries[j]? = some e ∧ x = ⟨i, .key j, e.1, some e.2⟩ := by
  simp only [keyItems, mem_map]
  constructor
  · rintro ⟨⟨e, j⟩, member, rfl⟩
    exact ⟨j, e, mem_zipIdx_iff_getElem?.mp member, rfl⟩
  · rintro ⟨j, e, at_j, rfl⟩
    exact ⟨(e, j), mem_zipIdx_iff_getElem?.mpr at_j, rfl⟩

private theorem mem_concatFiles : x ∈ concatFiles items files ↔ ∃ i f, files[i]? = some f ∧ x ∈ items i f := by
  simp only [concatFiles, mem_flatMap]
  constructor
  · rintro ⟨⟨f, i⟩, member, x_mem⟩
    exact ⟨i, f, mem_zipIdx_iff_getElem?.mp member, x_mem⟩
  · rintro ⟨i, f, at_i, x_mem⟩
    exact ⟨(f, i), mem_zipIdx_iff_getElem?.mpr at_i, x_mem⟩

theorem zipIdx_ascending {α : Type} (l : List α) : l.zipIdx.Pairwise (fun a b => a.2 < b.2) := by
  refine pairwise_map.mp ?_
  rw [zipIdx_map_snd]
  exact pairwise_lt_range'

theorem keyItems_sorted (i : Nat) (f : LevelFile κ V) : (keyItems i f).Pairwise (fun a b => a.before b) :=
  pairwise_map.mpr ((zipIdx_ascending f.entries).imp fun lt => by
    simp [Item.before, Slot.before, lt])

private theorem fileForward_sorted (tracked : Bool) (i : Nat) (f : LevelFile κ V) :
    (fileForward tracked i f).Pairwise (fun a b => a.before b) := by
  cases tracked with
  | false => simpa [fileForward] using keyItems_sorted i f
  | true =>
    refine pairwise_append.mpr ⟨keyItems_sorted i f, pairwise_singleton _ _, ?_⟩
    intro _ a_mem _ b_mem
    obtain ⟨_, _, -, rfl⟩ := mem_keyItems.mp a_mem
    obtain rfl := mem_singleton.mp b_mem
    simp [Item.before, Slot.before, backItem]

private theorem fileBackward_sorted (tracked : Bool) (i : Nat) (f : LevelFile κ V) :
    (fileBackward tracked i f).Pairwise (fun a b => a.before b) := by
  cases tracked with
  | false => simpa [fileBackward] using keyItems_sorted i f
  | true =>
    refine pairwise_append.mpr ⟨pairwise_singleton _ _, keyItems_sorted i f, ?_⟩
    intro _ a_mem _ b_mem
    obtain rfl := mem_singleton.mp a_mem
    obtain ⟨_, _, -, rfl⟩ := mem_keyItems.mp b_mem
    simp [Item.before, Slot.before, frontItem]

private theorem concatFiles_sorted (inFile : ∀ i f x, x ∈ items i f → x.file = i)
    (each : ∀ i f, (items i f).Pairwise (fun a b => a.before b)) (files : List (LevelFile κ V)) :
    (concatFiles items files).Pairwise (fun a b => a.before b) := by
  refine pairwise_flatMap.mpr ⟨fun p _ => each p.2 p.1, (zipIdx_ascending files).imp ?_⟩
  intro _ _ lt a a_mem b b_mem
  simp only [Item.before, inFile _ _ a a_mem, inFile _ _ b b_mem, decide_eq_true_eq]
  exact .inl lt

end Items

/-! ## The relation -/

/-- The iterator stands where the cursor stands, and the merging iterator sees
the tombstones of that file. -/
inductive Related (files : List (LevelFile κ V)) (tracked : Bool) : State κ → Option (Item κ V) → Prop
  | off (i : Nat) (s : Option (InternalKey κ)) : Related files tracked ⟨i, none, false, s, none⟩ none
  | key {i j : Nat} {f : LevelFile κ V} {e : InternalKey κ × V} (s : Option (InternalKey κ))
    (at_i : files[i]? = some f) (at_j : f.entries[j]? = some e) :
    Related files tracked ⟨i, some (some j), false, s, some i⟩ (some ⟨i, .key j, e.1, some e.2⟩)
  | back {i : Nat} {f : LevelFile κ V} (isTracked : tracked) (at_i : files[i]? = some f) :
    Related files tracked ⟨i, some none, true, some f.range.largestKey, some i⟩ (some (backItem i f))
  | front {i : Nat} {f : LevelFile κ V} (isTracked : tracked) (at_i : files[i]? = some f) :
    Related files tracked ⟨i, some none, true, some f.range.smallestKey, some i⟩ (some (frontItem i f))

theorem Related.current
    {here : Option (Item κ V)} (related : Related files tracked st here) :
    current files st = here.map fun x => (x.key, x.value) := by
  cases related with
  | off => rfl
  | key _ at_i at_j => simp [LevelIterator.current, at_i, at_j]
  | back => rfl
  | front => rfl

/-! ## Directions -/

/-- The direction of a call. -/
inductive Direction where
  | forward
  | backward

namespace Direction
variable (files : List (LevelFile κ V)) (tracked : Bool)

/-- What calls of the direction see of a level, in the order in which they come to it. -/
def track : Direction → List (Item κ V)
  | .forward => concatFiles (fileForward tracked) files
  | .backward => (concatFiles (fileBackward tracked) files).reverse

/-- A file of a level, or a key of a file, is met before another one. -/
def lt (a b : Nat) : Direction → Prop
  | .forward => a < b
  | .backward => b < a

instance : ∀ (d : Direction) (a b : Nat), Decidable (d.lt a b)
  | .forward, a, b => inferInstanceAs (Decidable (a < b))
  | .backward, a, b => inferInstanceAs (Decidable (b < a))

def ahead (a b : Item κ V) : Direction → Bool
  | .forward => a.before b
  | .backward => b.before a

def sentinel (i : Nat) (f : LevelFile κ V) : Direction → Item κ V
  | .forward => backItem i f
  | .backward => frontItem i f

/-- The first element behind a file. -/
def beyond (i : Nat) (d : Direction) : Option (Item κ V) :=
  (d.track files tracked).find? (fun y => d.lt i y.file)

/-- Where a call ends whose file iterator stops at `pos` in file `i`. -/
def land (i : Nat) (f : LevelFile κ V) (pos : Option Nat) (d : Direction) : Option (Item κ V) :=
  match pos with
  | some j => f.entries[j]?.map fun e => ⟨i, .key j, e.1, some e.2⟩
  | none => if tracked then some (d.sentinel i f) else d.beyond files tracked i

/-- Where a file is entered. -/
def start (f : LevelFile κ V) : Direction → Option Nat
  | .forward => f.seekToFirst
  | .backward => f.seekToLast

def nextFile (i : Nat) : Direction → Option Nat
  | .forward => if files.length ≤ i + 1 then none else some (i + 1)
  | .backward => if i = 0 then none else some (i - 1)

def filesLeft (i : Nat) : Direction → Nat
  | .forward => files.length - 1 - i
  | .backward => i

def boundary (i : Nat) : Direction → Option (InternalKey κ)
  | .forward => fileLargestKey files i
  | .backward => fileSmallestKey files i

def skipEmptyFile (fuel : Nat) (st : State κ) : Direction → State κ
  | .forward => skipEmptyFileForward files tracked fuel st
  | .backward => skipEmptyFileBackward files tracked fuel st

end Direction

open Direction (sentinel ahead nextFile filesLeft skipEmptyFile boundary land track)
section Directed
variable {files : List (LevelFile κ V)} {tracked : Bool} {i : Nat} {f : LevelFile κ V} {x : Item κ V}
  {d : Direction} {pos : Option Nat}

theorem file_of_mem (member : x ∈ keyItems i f ∨ tracked ∧ x = d.sentinel i f) : x.file = i := by
  rcases member with isKey | ⟨-, rfl⟩
  · obtain ⟨_, _, -, rfl⟩ := mem_keyItems.mp isKey
    rfl
  · cases d <;> rfl

theorem mem_fileForward :
    x ∈ fileForward tracked i f ↔ x ∈ keyItems i f ∨ tracked ∧ x = sentinel i f .forward := by
  cases tracked <;> simp [fileForward, sentinel]

theorem mem_fileBackward :
    x ∈ fileBackward tracked i f ↔ x ∈ keyItems i f ∨ tracked ∧ x = sentinel i f .backward := by
  cases tracked <;> simp [fileBackward, sentinel, or_comm]

theorem mem_track : x ∈ d.track files tracked ↔
    ∃ i f, files[i]? = some f ∧ (x ∈ keyItems i f ∨ tracked ∧ x = d.sentinel i f) := by
  cases d with
  | forward => simp only [track, mem_concatFiles, mem_fileForward]
  | backward => simp only [track, mem_reverse, mem_concatFiles, mem_fileBackward]

private theorem track_sorted (files : List (LevelFile κ V)) (tracked : Bool) (d : Direction) :
    (d.track files tracked).Pairwise (fun a b => d.ahead a b) := by
  cases d with
  | forward =>
    exact concatFiles_sorted (fun _ _ _ member => file_of_mem (mem_fileForward.mp member))
      (fileForward_sorted tracked) files
  | backward =>
    exact pairwise_reverse.mpr (concatFiles_sorted
      (fun _ _ _ member => file_of_mem (mem_fileBackward.mp member)) (fileBackward_sorted tracked) files)

omit [LinearOrder κ] in
private theorem not_ahead_of_file (lt : d.lt x.file y.file) : ¬d.ahead y x = true := by
  cases d <;> simp only [Direction.lt, ahead, Item.before, decide_eq_true_eq] at * <;> omega

/-- A search in one direction looks into one file, then at what comes behind
it. -/
theorem find_eq_land (at_i : files[i]? = some f) (near : ∀ y ∈ d.track files tracked, p y → y.file = i ∨ d.lt i y.file)
    (found : ∀ j, pos = some j → ∃ e, f.entries[j]? = some e ∧ p ⟨i, .key j, e.1, some e.2⟩)
    (skipped : ∀ j e, f.entries[j]? = some e → (∀ j', pos = some j' → d.lt j j') → ¬p ⟨i, .key j, e.1, some e.2⟩)
    (sentinel : tracked → p (d.sentinel i f)) (later : ∀ y ∈ d.track files tracked, d.lt i y.file → p y) :
    (d.track files tracked).find? p = d.land files tracked i f pos := by
  -- within the file no match comes before `pos`
  have matches_cases : ∀ y ∈ d.track files tracked, p y → d.lt i y.file ∨
      (∃ j j', ∃ e : InternalKey κ × V, y = ⟨i, .key j, e.1, some e.2⟩ ∧ pos = some j' ∧ ¬d.lt j j') ∨
        tracked ∧ y = d.sentinel i f := by
    intro y y_mem y_match
    rcases near y y_mem y_match with same | after
    · obtain ⟨i', f', at_i', member⟩ := mem_track.mp y_mem
      obtain rfl : i' = i := (file_of_mem member).symm.trans same
      cases at_i'.symm.trans at_i
      refine .inr (member.imp_left fun isKey => ?_)
      obtain ⟨j, e, at_j, rfl⟩ := mem_keyItems.mp isKey
      by_contra none
      exact skipped j e at_j (fun j' isPos => not_not.mp fun late => none ⟨j, j', e, rfl, isPos, late⟩) y_match
    · exact .inl after
  cases pos with
  | some j =>
    obtain ⟨e, at_j, isMatch⟩ := found j rfl
    simp only [land, at_j, Option.map_some]
    refine find?_eq_first (track_sorted files tracked d) ?_ isMatch fun y y_mem y_match => ?_
    · exact mem_track.mpr ⟨i, f, at_i, .inl (mem_keyItems.mpr ⟨j, e, at_j, rfl⟩)⟩
    · rcases matches_cases y y_mem y_match with after | ⟨j', _, e', rfl, isPos, late⟩ | ⟨-, rfl⟩
      · exact not_ahead_of_file after
      · cases isPos
        cases d <;> simpa [ahead, Direction.lt, Item.before, Slot.before] using late
      · cases d <;> simp [ahead, Direction.sentinel, Item.before, Slot.before, backItem, frontItem]
  | none =>
    have elsewhere : ∀ y ∈ d.track files tracked, p y → d.lt i y.file ∨ tracked ∧ y = d.sentinel i f :=
      fun y y_mem y_match => (matches_cases y y_mem y_match).imp_right (·.resolve_left (by simp))
    cases tracked with
    | true =>
      refine find?_eq_first (track_sorted files true d) ?_ (sentinel rfl) fun y y_mem y_match => ?_
      · exact mem_track.mpr ⟨i, f, at_i, .inr ⟨rfl, rfl⟩⟩
      · rcases elsewhere y y_mem y_match with after | ⟨-, rfl⟩
        · exact not_ahead_of_file (by cases d <;> exact after)
        · cases d <;> simp [ahead, Direction.sentinel, Item.before, Slot.before, backItem, frontItem]
    | false =>
      refine find?_congr fun y y_mem => Bool.eq_iff_iff.mpr ?_
      rw [decide_eq_true_eq]
      exact ⟨fun y_match => (elsewhere y y_mem y_match).resolve_right (by simp), later y y_mem⟩

/-- A file iterator that has been placed, with the sentinel tried. -/
theorem arrive (at_i : files[i]? = some f) (valid : ∀ j, pos = some j → j < f.entries.length) (enough : 0 < fuel)
    (s : Option (InternalKey κ))
    (skips : pos = none → Related files tracked (d.skipEmptyFile files tracked fuel
      ⟨i, some none, false, s, some i⟩) (d.beyond files tracked i)) :
    Related files tracked (d.skipEmptyFile files tracked fuel
      (trySetDeleteRangeSentinel tracked (d.boundary files i) ⟨i, some pos, false, s, some i⟩))
      (d.land files tracked i f pos) := by
  obtain ⟨fuel, rfl⟩ := Nat.exists_eq_succ_of_ne_zero enough.ne'
  have settled {st : State κ} (here : st.exhausted = false) : d.skipEmptyFile files tracked (fuel + 1) st = st := by
    cases d <;> simp [skipEmptyFile, skipEmptyFileForward, skipEmptyFileBackward, here]
  cases pos with
  | some j =>
    have at_j := getElem?_eq_getElem (valid j rfl)
    rw [trySetDeleteRangeSentinel, if_neg (by simp), settled rfl, land, at_j]
    exact .key s at_i at_j
  | none =>
    cases tracked with
    | true =>
      cases d with
      | forward =>
        rw [boundary, fileLargestKey, at_i]
        exact .back rfl at_i
      | backward =>
        rw [boundary, fileSmallestKey, at_i]
        exact .front rfl at_i
    | false => exact skips rfl

theorem start_valid (isPos : d.start f = some j) : j < f.entries.length := by
  cases d <;> (
    simp only [Direction.start, LevelFile.seekToFirst, LevelFile.seekToLast] at isPos
    split at isPos
    · cases isPos
    · cases isPos
      omega)

private theorem not_before_start (at_j : f.entries[j]? = some e) (before : ∀ j', d.start f = some j' → d.lt j j') :
    False := by
  obtain ⟨_, -⟩ := List.getElem?_eq_some_iff.mp at_j
  cases d with
  | forward => exact Nat.not_lt_zero j (before 0 (if_neg (by omega)))
  | backward =>
    have : f.entries.length - 1 < j := before _ (if_neg (by omega))
    omega

/-- A search that a whole file and all behind it match enters the file. -/
theorem start_lands (at_i : files[i]? = some f)
    (behind : ∀ y ∈ d.track files tracked, p y ↔ y.file = i ∨ d.lt i y.file) :
    (d.track files tracked).find? p = d.land files tracked i f (d.start f) := by
  have inFile {y : Item κ V} (member : y ∈ keyItems i f ∨ tracked ∧ y = d.sentinel i f) : p y :=
    (behind y (mem_track.mpr ⟨i, f, at_i, member⟩)).mpr (.inl (file_of_mem member))
  refine find_eq_land at_i (fun y member => (behind y member).mp) (fun j isPos => ?_)
    (fun j _ at_j before => (not_before_start at_j before).elim) (fun isTracked => inFile (.inr ⟨isTracked, rfl⟩))
    fun y member after => (behind y member).mpr (.inr after)
  have at_j := getElem?_eq_getElem (start_valid isPos)
  exact ⟨_, at_j, inFile (.inl (mem_keyItems.mpr ⟨j, _, at_j, rfl⟩))⟩

theorem bound_of_mem_track (member : x ∈ d.track files tracked) : x.file < files.length := by
  obtain ⟨_, _, at_i, inFile⟩ := mem_track.mp member
  rw [file_of_mem inFile]
  exact (List.getElem?_eq_some_iff.mp at_i).1

private theorem nextFile_cases (d : Direction) (bound : i < files.length) :
    d.nextFile files i = none ∧ (∀ k < files.length, ¬d.lt i k) ∨
    ∃ i', d.nextFile files i = some i' ∧ i' < files.length ∧
      d.filesLeft files i' < d.filesLeft files i ∧ ∀ k, d.lt i k ↔ k = i' ∨ d.lt i' k := by
  cases d with
  | forward =>
    simp only [nextFile, filesLeft, Direction.lt]
    split
    · exact .inl ⟨rfl, by omega⟩
    · exact .inr ⟨i + 1, rfl, by omega, by omega, by omega⟩
  | backward =>
    simp only [nextFile, filesLeft, Direction.lt]
    split
    · exact .inl ⟨rfl, by omega⟩
    · exact .inr ⟨i - 1, rfl, by omega, by omega, by omega⟩

/-- An iteration of `SkipEmptyFileForward` or `SkipEmptyFileBackward`. -/
theorem skipEmptyFile_succ (fuel : Nat) (exhausted : st.exhausted = true) :
    d.skipEmptyFile files tracked (fuel + 1) st = (d.nextFile files st.fileIndex).elim (dropFileIterator st)
      fun i => let opened := moveFileIter files (d.start ·) (initFileIterator files i st)
        d.skipEmptyFile files tracked fuel
          (trySetDeleteRangeSentinel tracked (d.boundary files opened.fileIndex) opened) := by
  cases d with
  | forward =>
    rw [skipEmptyFile, skipEmptyFileForward, if_pos exhausted, nextFile]
    split <;> rfl
  | backward =>
    rw [skipEmptyFile, skipEmptyFileBackward, if_pos exhausted, nextFile]
    split <;> rfl

/-- They go to the first element behind the current file. -/
theorem skipEmptyFile_spec (fuel : Nat) (st : State κ) (exhausted : st.exhausted = true)
    (bound : st.fileIndex < files.length) (enough : d.filesLeft files st.fileIndex < fuel) :
    Related files tracked (d.skipEmptyFile files tracked fuel st) (d.beyond files tracked st.fileIndex) := by
  induction fuel generalizing st with
  | zero => omega
  | succ fuel ih =>
    rw [skipEmptyFile_succ fuel exhausted]
    obtain ⟨i, fileIter, toReturn, s, tombstones⟩ := st
    obtain ⟨rfl, -⟩ : toReturn = false ∧ (fileIter = none ∨ fileIter = some none) := by
      simpa [State.exhausted] using exhausted
    rcases nextFile_cases d bound with ⟨last, nothing⟩ | ⟨i', next, bound', left, behind⟩
    · have none : d.beyond files tracked i = none :=
        find?_eq_none.mpr fun y member => by simpa using nothing y.file (bound_of_mem_track member)
      rw [last, none]
      exact .off i s
    · have at_next := getElem?_eq_getElem bound'
      have opened : moveFileIter files (d.start ·) (initFileIterator files i'
          ⟨i, fileIter, false, s, tombstones⟩) = ⟨i', some (d.start files[i']), false, s, some i'⟩ := by
        have other : i' ≠ i := by
          rintro rfl
          exact left.false
        rw [initFileIterator, if_neg (by omega), if_neg (by simp [other])]
        simp [moveFileIter, at_next]
      have lands : d.beyond files tracked i = d.land files tracked i' files[i'] (d.start files[i']) :=
        start_lands at_next fun y _ => decide_eq_true_iff.trans (behind y.file)
      rw [next, Option.elim_some, opened, lands]
      exact arrive at_next (fun _ => start_valid) (by omega) s
        fun _ => ih ⟨i', some none, false, s, some i'⟩ rfl bound' (by dsimp only; omega)

theorem placed_related (at_i : files[i]? = some f)
    (valid : ∀ j, pos = some j → j < f.entries.length) (s : Option (InternalKey κ)) :
    Related files tracked (d.skipEmptyFile files tracked files.length
      (trySetDeleteRangeSentinel tracked (d.boundary files i) ⟨i, some pos, false, s, some i⟩))
      (d.land files tracked i f pos) := by
  obtain ⟨bound, -⟩ := List.getElem?_eq_some_iff.mp at_i
  refine arrive at_i valid (by omega) s fun _ => skipEmptyFile_spec _ _ rfl bound ?_
  cases d <;> simp only [filesLeft] <;> omega

/-- A search behind a key of a file. -/
theorem key_lands (at_i : files[i]? = some f) (file : x.file = i) (slot : x.slot = .key j)
    (valid : ∀ j', pos = some j' → j' < f.entries.length ∧ d.lt j j')
    (adjacent : ∀ k < f.entries.length, d.lt j k → ∃ j', pos = some j' ∧ ¬d.lt k j') :
    (d.track files tracked).find? (d.ahead x ·) = d.land files tracked i f pos := by
  refine find_eq_land at_i (fun y _ after => ?_) (fun j' isPos => ?_) (fun k _ at_k before after => ?_)
    (fun _ => ?_) (fun y _ after => ?_)
  · rcases Nat.lt_trichotomy y.file i with before | same | behind
    all_goals cases d <;> simp_all [ahead, Direction.lt, Item.before] <;> omega
  · obtain ⟨bound, after⟩ := valid j' isPos
    refine ⟨_, List.getElem?_eq_getElem bound, ?_⟩
    cases d <;> simpa [ahead, Direction.lt, Item.before, file, slot, Slot.before] using after
  · obtain ⟨bound, -⟩ := List.getElem?_eq_some_iff.mp at_k
    have behind : d.lt j k := by
      cases d <;> simpa [ahead, Direction.lt, Item.before, file, slot, Slot.before] using after
    obtain ⟨j', isPos, late⟩ := adjacent k bound behind
    exact late (before j' isPos)
  · cases d <;> simp [ahead, sentinel, Item.before, file, slot, Slot.before, backItem, frontItem]
  · cases d <;> simp_all [ahead, Direction.lt, Item.before]

theorem sentinel_lands : (d.track files tracked).find? (d.ahead (d.sentinel i f) ·) = d.beyond files tracked i := by
  refine find?_congr fun _ _ => ?_
  cases d with
  | forward =>
    exact decide_eq_decide.mpr (by simp [sentinel, Direction.lt, backItem, Slot.before])
  | backward =>
    exact decide_eq_decide.mpr (by simp [sentinel, Direction.lt, frontItem, Slot.not_before_front])

end Directed

/-! ## The calls -/

section Calls
variable {level : Level κ V} {tracked : Bool} {st : State κ} {here : Option (Item κ V)}

variable {f : LevelFile κ V} {i : Nat} (related : Related level.files tracked st here)

include related in
/-- The current file is opened and its iterator placed. -/
theorem place_file (at_i : level.files[i]? = some f) (move : LevelFile κ V → Option Nat) :
    moveFileIter level.files move (initFileIterator level.files i (clearSentinel st)) =
      ⟨i, some (move f), false, st.sentinel, some i⟩ := by
  obtain ⟨_, -⟩ := List.getElem?_eq_some_iff.mp at_i
  unfold initFileIterator
  rw [if_neg (by omega)]
  split
  case isTrue same =>
    cases related <;> simp_all [clearSentinel, moveFileIter]
  case isFalse => simp [moveFileIter, clearSentinel, at_i]

variable {x : Item κ V}

/-- Keys and sentinels lie between the boundaries of their file. -/
theorem key_inRange (member : x ∈ keyItems i f ∨ x = backItem i f ∨ x = frontItem i f) :
    f.range.smallestKey ≤ x.key ∧ x.key ≤ f.range.largestKey := by
  rcases member with isKey | rfl | rfl
  · obtain ⟨_, e, at_j, rfl⟩ := mem_keyItems.mp isKey
    exact f.inRange e (mem_of_getElem? at_j)
  · exact ⟨f.proper, le_rfl⟩
  · exact ⟨le_rfl, f.proper⟩

theorem track_inRange {d : Direction} (member : x ∈ d.track level.files tracked) :
    ∃ f, level.files[x.file]? = some f ∧ f.range.smallestKey ≤ x.key ∧ x.key ≤ f.range.largestKey := by
  obtain ⟨_, f, at_i, inFile⟩ := mem_track.mp member
  obtain rfl := file_of_mem inFile
  refine ⟨f, at_i, key_inRange (inFile.imp_right fun isSentinel => ?_)⟩
  cases d with
  | forward => exact .inl isSentinel.2
  | backward => exact .inr isSentinel.2

variable {j : Nat}

theorem Level.largest_lt_smallest (at_i : level.files[i]? = some f)
    (at_j : level.files[j]? = some g) (lt : i < j) : f.range.largestKey < g.range.smallestKey := by
  obtain ⟨i_bound, rfl⟩ := List.getElem?_eq_some_iff.mp at_i
  obtain ⟨j_bound, rfl⟩ := List.getElem?_eq_some_iff.mp at_j
  exact pairwise_iff_getElem.mp level.disjoint i j i_bound j_bound lt

include related in
private theorem seekToFirst_related :
    Related level.files tracked (seekToFirst level.files tracked st)
      ((levelTracks level.files tracked).step here .seekToFirst) := by
  obtain ⟨f, _, filesDef⟩ := exists_cons_of_ne_nil level.nonempty
  have at_first : level.files[0]? = some f := by rw [filesDef]; rfl
  have head : (levelTracks level.files tracked).step here .seekToFirst =
      Direction.forward.land level.files tracked 0 f f.seekToFirst := by
    refine (head?_eq_find? _).trans (start_lands (d := .forward) at_first fun y _ => ?_)
    exact ⟨fun _ => Nat.eq_zero_or_pos y.file, fun _ => rfl⟩
  rw [head, seekToFirst, place_file related at_first]
  exact placed_related (d := .forward) at_first (fun _ => start_valid (d := .forward)) _

variable {target : InternalKey κ}

/-- A seek looks into the first file that does not end before the target. -/
theorem seek_lands (at_i : level.files[i]? = some f)
    (ended : ∀ i' f', i' < i → level.files[i']? = some f' → f'.range.largestKey < target)
    (reaches : target ≤ f.range.largestKey) :
    (levelTracks level.files tracked).step here (.seek target) =
      Direction.forward.land level.files tracked i f (f.seek target) := by
  refine find_eq_land (d := .forward) at_i ?_ ?_ ?_ (fun _ => decide_eq_true reaches) ?_
  · intro y y_mem after
    obtain ⟨g, at_y, -, high⟩ := track_inRange y_mem
    refine (Nat.lt_or_ge i y.file).symm.imp_left fun le => le.antisymm (not_lt.mp fun lt => ?_)
    exact (((of_decide_eq_true after).trans high).trans_lt (ended _ g lt at_y)).false
  · intro j isPos
    unfold LevelFile.seek at isPos
    dsimp only at isPos
    split at isPos
    · next bound =>
      cases isPos
      exact ⟨_, List.getElem?_eq_getElem bound, findIdx_getElem (w := bound)⟩
    · cases isPos
  · intro j e at_j first
    obtain ⟨_, rfl⟩ := List.getElem?_eq_some_iff.mp at_j
    have early : j < f.entries.findIdx (fun e => decide (target ≤ e.1)) := by
      by_contra late
      have found : f.seek target = some (f.entries.findIdx (fun e => decide (target ≤ e.1))) := if_pos (by omega)
      exact late (first _ found)
    simpa [levelTracks] using not_of_lt_findIdx early
  · intro _ y_mem after
    obtain ⟨_, at_y, low, -⟩ := track_inRange y_mem
    have apart := Level.largest_lt_smallest at_i at_y after
    exact decide_eq_true ((reaches.trans apart.le).trans low)

private theorem seek_valid (isPos : f.seek target = some j) : j < f.entries.length := by
  unfold LevelFile.seek at isPos
  dsimp only at isPos
  split at isPos
  · next bound => exact Option.some.inj isPos ▸ bound
  · cases isPos

private theorem seek_in_file (at_i : level.files[i]? = some f)
    (ended : ∀ i' f', i' < i → level.files[i']? = some f' → f'.range.largestKey < target)
    (reaches : target ≤ f.range.largestKey) (s : Option (InternalKey κ)) :
    Related level.files tracked (skipEmptyFileForward level.files tracked level.files.length
      (trySetDeleteRangeSentinel tracked (fileLargestKey level.files i) ⟨i, some (f.seek target), false, s, some i⟩))
      ((levelTracks level.files tracked).step here (.seek target)) := by
  rw [seek_lands at_i ended reaches]
  exact placed_related (d := .forward) at_i (fun _ => seek_valid) _

theorem findFile_ended (early : i < findFile level.files target) (at_i : level.files[i]? = some f) :
    f.range.largestKey < target := by
  obtain ⟨_, rfl⟩ := List.getElem?_eq_some_iff.mp at_i
  simpa using not_of_lt_findIdx early

private theorem seek_related (target : InternalKey κ) (related : Related level.files tracked st here) :
    Related level.files tracked (seek level.files tracked target st)
      ((levelTracks level.files tracked).step here (.seek target)) := by
  unfold seek
  dsimp only
  split
  case isTrue same =>
    obtain ⟨opened, _, at_i, low, high⟩ := same
    have kept : initFileIterator level.files st.fileIndex (clearSentinel st) = clearSentinel st := by
      obtain ⟨bound, -⟩ := List.getElem?_eq_some_iff.mp at_i
      exact (if_neg (not_le.mpr bound)).trans (if_pos ⟨opened, rfl⟩)
    have placed := place_file related at_i (·.seek target)
    rw [show (clearSentinel st).fileIndex = st.fileIndex from rfl, kept] at placed
    rw [placed]
    exact seek_in_file at_i (fun i' f' lt at_i' => (Level.largest_lt_smallest at_i' at_i lt).trans_le low) high _
  case isFalse =>
    by_cases past : level.files.length ≤ findFile level.files target
    · have nothing : (levelTracks level.files tracked).step here (.seek target) = none := by
        refine find?_eq_none.mpr fun _ y_mem => ?_
        obtain ⟨_, at_y, -, high⟩ := track_inRange (d := .forward) y_mem
        obtain ⟨bound, -⟩ := List.getElem?_eq_some_iff.mp at_y
        simpa [levelTracks] using high.trans_lt (findFile_ended (by omega) at_y)
      obtain ⟨_, lengthDef⟩ := Nat.exists_eq_succ_of_ne_zero (fun zero => level.nonempty (length_eq_zero_iff.mp zero))
      have dropped : initFileIterator level.files (findFile level.files target) (clearSentinel st) =
          ⟨findFile level.files target, none, false, st.sentinel, none⟩ := if_pos past
      rw [nothing, dropped, lengthDef]
      have last := Nat.le_succ_of_le past
      simp only [moveFileIter, trySetDeleteRangeSentinel, skipEmptyFileForward, State.exhausted, last,
        Option.map_none, reduceCtorEq, and_false, if_false, if_true, Bool.not_false, Bool.true_and,
        decide_true, Bool.true_or, dropFileIterator]
      exact .off _ _
    · have bound := not_le.mp past
      have reaches := findIdx_getElem (w := bound)
      rw [place_file related (List.getElem?_eq_getElem bound)]
      exact seek_in_file (List.getElem?_eq_getElem bound)
        (fun _ _ lt at_i' => findFile_ended lt at_i') (of_decide_eq_true reaches) _

private theorem next_valid (isPos : f.next j = some j') : j' = j + 1 ∧ j' < f.entries.length := by
  unfold LevelFile.next at isPos
  split at isPos
  · exact Option.some.inj isPos ▸ ⟨rfl, ‹_›⟩
  · cases isPos

include related in
private theorem next_related (legal : Legal here .next) :
    Related level.files tracked (next level.files tracked st)
      ((levelTracks level.files tracked).step here .next) := by
  obtain ⟨_, rfl, notFront⟩ := legal
  cases related with
  | @key i j f e s at_i =>
    have moved : moveFromCurrent level.files LevelFile.next ⟨i, some (some j), false, s, some i⟩ =
        ⟨i, some (f.next j), false, s, some i⟩ := by
      simp [moveFromCurrent, moveFileIter, at_i]
    have lands : (levelTracks level.files tracked).step (some ⟨i, .key j, e.1, some e.2⟩) .next =
        Direction.forward.land level.files tracked i f (f.next j) :=
      key_lands (d := .forward) at_i rfl rfl
        (fun _ isPos => ⟨(next_valid isPos).2, (next_valid isPos).1 ▸ Nat.lt_succ_self j⟩)
        fun k bound (after : j < k) => ⟨j + 1, if_pos (by omega), not_lt.mpr after⟩
    rw [lands, LevelIterator.next, if_neg (by simp), moved]
    exact placed_related (d := .forward) at_i (fun _ isPos => (next_valid isPos).2) s
  | @back i f _ at_i =>
    obtain ⟨bound, -⟩ := List.getElem?_eq_some_iff.mp at_i
    rw [show (levelTracks level.files tracked).step (some (backItem i f)) .next = _ from
      sentinel_lands (d := .forward), LevelIterator.next, if_pos rfl]
    exact skipEmptyFile_spec (d := .forward) _ _ rfl bound (by simp only [filesLeft]; omega)
  | front => exact absurd rfl notFront

include related in
private theorem seekToLast_related :
    Related level.files tracked (seekToLast level.files tracked st)
      ((levelTracks level.files tracked).step here .seekToLast) := by
  have positive := length_pos_of_ne_nil level.nonempty
  obtain ⟨f, at_last⟩ : ∃ f, level.files[level.files.length - 1]? = some f :=
    ⟨_, getElem?_eq_getElem (by omega)⟩
  have tail : (levelTracks level.files tracked).step here .seekToLast =
      Direction.backward.land level.files tracked (level.files.length - 1) f f.seekToLast := by
    refine (head?_reverse.symm.trans (head?_eq_find? _)).trans
      (start_lands (d := .backward) at_last fun y member => ?_)
    have inside : y.file < level.files.length := bound_of_mem_track member
    exact ⟨fun _ => (Nat.le_sub_one_of_lt inside).eq_or_lt, fun _ => rfl⟩
  rw [tail, seekToLast, place_file related at_last]
  exact placed_related (d := .backward) at_last (fun _ => start_valid (d := .backward)) _

/-- The keys of a file from the first one past the target on. -/
theorem target_lt_entries
    (late : f.entries.findIdx (fun e => decide (target < e.1)) ≤ j) (bound : j < f.entries.length) :
    target < (f.entries[j]).1 := by
  have reached : target < (f.entries[f.entries.findIdx fun e => decide (target < e.1)]).1 := by
    simpa using findIdx_getElem (w := late.trans_lt bound)
  rcases late.eq_or_lt with same | before
  · simpa only [same] using reached
  · exact reached.trans (pairwise_iff_getElem.mp f.sorted _ j (before.trans bound) bound before)

theorem seekForPrev_valid (isPos : f.seekForPrev target = some j) :
    f.entries.findIdx (fun e => decide (target < e.1)) = j + 1 ∧ j < f.entries.length := by
  have bound : f.entries.findIdx (fun e => decide (target < e.1)) ≤ f.entries.length := findIdx_le_length
  unfold LevelFile.seekForPrev at isPos
  dsimp only at isPos
  split at isPos
  · cases isPos
  · cases isPos
    omega

/-- A backward seek looks into the last file that does not begin after the
target. -/
theorem seekForPrev_lands (at_i : level.files[i]? = some f)
    (beyond : ∀ i' f', i < i' → level.files[i']? = some f' → target < f'.range.smallestKey)
    (begins : f.range.smallestKey ≤ target) :
    (levelTracks level.files tracked).step here (.seekForPrev target) =
      Direction.backward.land level.files tracked i f (f.seekForPrev target) := by
  refine find_eq_land (d := .backward) at_i ?_ ?_ ?_ (fun _ => decide_eq_true begins) ?_
  · intro y y_mem before
    obtain ⟨g, at_y, low, -⟩ := track_inRange y_mem
    refine (Nat.lt_or_ge y.file i).symm.imp_left fun ge => le_antisymm (not_lt.mp fun lt => ?_) ge
    exact ((low.trans (of_decide_eq_true before)).trans_lt (beyond _ g lt at_y)).false
  · intro j isPos
    obtain ⟨_, bound⟩ := seekForPrev_valid isPos
    have early : j < f.entries.findIdx (fun e => decide (target < e.1)) := by omega
    exact ⟨_, List.getElem?_eq_getElem bound, by simpa [levelTracks] using not_of_lt_findIdx early⟩
  · intro j e at_j last
    obtain ⟨bound, rfl⟩ := List.getElem?_eq_some_iff.mp at_j
    have late : f.entries.findIdx (fun e => decide (target < e.1)) ≤ j := by
      by_contra early
      have found : f.seekForPrev target = some (f.entries.findIdx (fun e => decide (target < e.1)) - 1) :=
        if_neg (by omega)
      have : _ - 1 < j := last _ found
      omega
    simpa [levelTracks] using target_lt_entries late bound
  · intro _ y_mem before
    obtain ⟨_, at_y, -, high⟩ := track_inRange y_mem
    have apart := Level.largest_lt_smallest at_y at_i before
    exact decide_eq_true ((high.trans apart.le).trans begins)

private theorem seekForPrev_related (target : InternalKey κ) (related : Related level.files tracked st here) :
    Related level.files tracked (seekForPrev level.files tracked target st)
      ((levelTracks level.files tracked).step here (.seekForPrev target)) := by
  have positive := length_pos_of_ne_nil level.nonempty
  unfold seekForPrev
  dsimp only
  split
  case isTrue outside =>
    obtain ⟨-, f, at_first, before⟩ := outside
    have nothing : (levelTracks level.files tracked).step here (.seekForPrev target) = none := by
      refine find?_eq_none.mpr fun y y_mem => ?_
      obtain ⟨g, at_y, low, -⟩ := track_inRange (d := .backward) y_mem
      have first : f.range.smallestKey ≤ g.range.smallestKey := by
        rcases Nat.eq_zero_or_pos y.file with zero | later
        · rw [zero] at at_y
          exact (Option.some.inj (at_first.symm.trans at_y)) ▸ le_rfl
        · exact f.proper.trans (Level.largest_lt_smallest at_first at_y later).le
      simpa [levelTracks] using before.trans_le (first.trans low)
    rw [nothing]
    cases related <;> exact .off _ _
  case isFalse inside =>
    set i := if level.files.length ≤ findFile level.files target then level.files.length - 1
      else findFile level.files target with iDef
    have bound : i < level.files.length := by
      rw [iDef]
      split <;> omega
    have at_i := List.getElem?_eq_getElem bound
    rw [place_file related at_i]
    by_cases begins : (level.files[i]).range.smallestKey ≤ target
    · rw [if_pos ⟨_, at_i, begins⟩, seekForPrev_lands at_i ?_ begins]
      · exact placed_related (d := .backward) at_i (fun _ isPos => (seekForPrev_valid isPos).2) _
      · intro _ _ later at_i'
        obtain ⟨_, -⟩ := List.getElem?_eq_some_iff.mp at_i'
        have inFiles : findFile level.files target < level.files.length := by
          by_contra past
          rw [if_pos (by omega)] at iDef
          omega
        have same : findFile level.files target = i := by rw [iDef, if_neg (by omega)]
        have reaches : target ≤ (level.files[findFile level.files target]).range.largestKey :=
          of_decide_eq_true (findIdx_getElem (w := inFiles))
        simp only [same] at reaches
        exact reaches.trans_lt (Level.largest_lt_smallest at_i at_i' later)
    · -- the file begins after the target, so the answer is before it
      have after := not_le.mp begins
      have same : findFile level.files target = i := by
        rw [iDef]
        split
        · have ended : (level.files[i]).range.largestKey < target := findFile_ended (by omega) at_i
          exact absurd ((level.files[i]).proper.trans ended.le) begins
        · rfl
      have atStart : (level.files[i]).seekForPrev target = none := by
        by_contra found
        obtain ⟨j, isPos⟩ := Option.ne_none_iff_exists'.mp found
        obtain ⟨_, jBound⟩ := seekForPrev_valid isPos
        have early : j < (level.files[i]).entries.findIdx (fun e => decide (target < e.1)) := by omega
        have low := ((level.files[i]).inRange _ (List.getElem_mem jBound)).1
        exact absurd (after.trans_le low) (by simpa using not_of_lt_findIdx early)
      have before : (levelTracks level.files tracked).step here (.seekForPrev target) =
          Direction.backward.beyond level.files tracked i := by
        refine find?_congr fun _ y_mem => ?_
        obtain ⟨g, at_y, low, high⟩ := track_inRange (d := .backward) y_mem
        refine decide_eq_decide.mpr ⟨fun le => ?_, fun lt => ?_⟩
        · by_contra notBefore
          have first : (level.files[i]).range.smallestKey ≤ g.range.smallestKey := by
            rcases (not_lt.mp notBefore).eq_or_lt with at_same | later
            · rw [← at_same] at at_y
              exact (Option.some.inj (at_i.symm.trans at_y)) ▸ le_rfl
            · exact (level.files[i]).proper.trans (Level.largest_lt_smallest at_i at_y later).le
          exact absurd (after.trans_le (first.trans low)) le.not_gt
        · exact (high.trans_lt (findFile_ended (lt.trans_eq same.symm) at_y)).le
      rw [if_neg (fun ⟨g, at_same, le⟩ => begins (Option.some.inj (at_i.symm.trans at_same) ▸ le)), before, atStart]
      exact skipEmptyFile_spec (d := .backward) _ _ rfl bound bound

private theorem prev_valid (isPos : LevelFile.prev j = some j') : j = j' + 1 := by
  unfold LevelFile.prev at isPos
  split at isPos
  · cases isPos
  · cases isPos
    omega

include related in
private theorem prev_related (legal : Legal here .prev) :
    Related level.files tracked (prev level.files tracked st)
      ((levelTracks level.files tracked).step here .prev) := by
  obtain ⟨_, rfl, notBack⟩ := legal
  cases related with
  | @key i j f e s at_i at_j =>
    obtain ⟨bound, -⟩ := List.getElem?_eq_some_iff.mp at_j
    have moved : moveFromCurrent level.files (fun _ => LevelFile.prev) ⟨i, some (some j), false, s, some i⟩ =
        ⟨i, some (LevelFile.prev j), false, s, some i⟩ := by
      simp [moveFromCurrent, moveFileIter, at_i]
    have valid : ∀ j', LevelFile.prev j = some j' → j' < f.entries.length ∧ j' < j := by
      intro j' isPos
      have := prev_valid isPos
      omega
    have lands : (levelTracks level.files tracked).step (some ⟨i, .key j, e.1, some e.2⟩) .prev =
        Direction.backward.land level.files tracked i f (LevelFile.prev j) :=
      key_lands (d := .backward) at_i rfl rfl valid
        fun k bound (before : k < j) => ⟨j - 1, if_neg (by omega), not_lt.mpr (Nat.le_sub_one_of_lt before)⟩
    rw [lands, LevelIterator.prev, if_neg (by simp), moved]
    exact placed_related (d := .backward) at_i (fun j' isPos => (valid j' isPos).1) s
  | back => exact absurd rfl notBack
  | @front i f _ at_i =>
    obtain ⟨bound, -⟩ := List.getElem?_eq_some_iff.mp at_i
    rw [show (levelTracks level.files tracked).step (some (frontItem i f)) .prev = _ from
      sentinel_lands (d := .backward), LevelIterator.prev, if_pos rfl]
    exact skipEmptyFile_spec (d := .backward) _ _ rfl bound bound

/-- Every legal call keeps iterator and cursor together. -/
theorem call_related (st : State κ) (here : Option (Item κ V)) (c : Call (InternalKey κ))
    (related : Related level.files tracked st here) (legal : Legal here c) :
    Related level.files tracked (call level.files tracked st c) ((levelTracks level.files tracked).step here c) := by
  cases c with
  | seekToFirst => exact seekToFirst_related related
  | seekToLast => exact seekToLast_related related
  | seek target => exact seek_related target related
  | seekForPrev target => exact seekForPrev_related target related
  | next => exact next_related related legal
  | prev => exact prev_related related legal

end Calls

instance (here : Option (Item κ V)) (c : Call (InternalKey κ)) : Decidable (Legal here c) := by
  cases c <;> unfold Legal <;> infer_instance

/-- **A `LevelIterator` is a cursor over the keys of its files**, with one
sentinel for each exhausted file exactly when tombstones are tracked. From a
sentinel it is only moved on in the direction in which it got there. -/
theorem level_iterator_is_cursor (level : Level κ V) (tracked : Bool) (calls : List (Call (InternalKey κ)))
    (legal : LegalRun (levelTracks level.files tracked).step Legal none calls) :
    current level.files (calls.foldl (call level.files tracked) (newLevelIterator level.files)) =
      (calls.foldl (levelTracks level.files tracked).step none).map fun x => (x.key, x.value) :=
  (foldl_related call_related calls _ _ (.off _ _) legal).current

/-- Two files, the second without point keys. -/
def twoFiles : Level Nat Nat where
  files :=
    [{ range := ⟨⟨1, 9, .kTypeValue⟩, ⟨4, 7, .kTypeValue⟩⟩
       entries := [(⟨1, 9, .kTypeValue⟩, 10), (⟨4, 7, .kTypeValue⟩, 40)]
       sorted := by decide
       proper := by decide
       inRange := by decide },
     { range := ⟨⟨5, 3, .kTypeRangeDeletion⟩, ⟨8, kMaxSequenceNumber, .kTypeRangeDeletion⟩⟩
       entries := []
       sorted := by decide
       proper := by decide
       inRange := by decide }]
  nonempty := by decide
  disjoint := by decide

theorem level_iterator_is_cursor_twoFiles : LegalRun (levelTracks twoFiles.files true).step Legal none
      [.seek ⟨4, 8, .kTypeValue⟩, .next, .next, .seekForPrev ⟨9, 0, .kTypeValue⟩, .prev, .prev] ∧
    current twoFiles.files ([Call.seek ⟨4, 8, .kTypeValue⟩, .next, .next,
      .seekForPrev ⟨9, 0, .kTypeValue⟩, .prev, .prev].foldl (call twoFiles.files true)
        (newLevelIterator twoFiles.files)) = some (⟨1, 9, .kTypeValue⟩, some 10) :=
  have legal : LegalRun (levelTracks twoFiles.files true).step Legal none
      [.seek ⟨4, 8, .kTypeValue⟩, .next, .next, .seekForPrev ⟨9, 0, .kTypeValue⟩, .prev, .prev] := by
    decide
  ⟨legal, (level_iterator_is_cursor twoFiles true _ legal).trans (by decide)⟩

/-- **Prev at the sentinel behind a file skips the file.** The cursor would go
back to the last key; the iterator takes the exhausted file for one it has
already gone through backward. -/
theorem prev_at_back_sentinel_skips_file :
    current twoFiles.files ([Call.seekToFirst, .next, .next].foldl (call twoFiles.files true)
      (newLevelIterator twoFiles.files)) = some (⟨4, 7, .kTypeValue⟩, none) ∧
    current twoFiles.files ([Call.seekToFirst, .next, .next, .prev].foldl (call twoFiles.files true)
      (newLevelIterator twoFiles.files)) = none ∧
    ([Call.seekToFirst, .next, .next, .prev].foldl (levelTracks twoFiles.files true).step none).map
      (fun x => (x.key, x.value)) = some (⟨4, 7, .kTypeValue⟩, some 40) := by
  refine ⟨?_, ?_, ?_⟩ <;> decide

end Rocksdb.LevelIteratorProofs
