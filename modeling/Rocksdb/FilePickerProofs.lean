import Mathlib.Order.CountableDenseLinearOrder
import Rocksdb.FilePicker

/-! The index never changes which files a lookup reads. The reference search
below binary searches every level in full; the picker's bounds are shown to
exclude only files that cannot contain the lookup key, and the picker itself
is a cursor over the reference list. -/
namespace Rocksdb.FilePickerProofs
open FilePicker InternalKey List

variable {κ : Type} [LinearOrder κ]

/-- The lookup user key lies between the boundary user keys of the file. -/
def InRange (u : κ) (f : FdWithKeyRange κ) : Prop :=
  f.smallestKey.userKey ≤ u ∧ u ≤ f.largestKey.userKey

instance (u : κ) (f : FdWithKeyRange κ) : Decidable (InRange u f) := inferInstanceAs (Decidable (_ ∧ _))

/-- Level 0 is read through; with few files and no other level, unfiltered. -/
def scanLevel0 (filtered : Bool) (u : κ) : Nat → List (FdWithKeyRange κ) → List Nat
  | _, [] => []
  | index, f :: files =>
    if filtered = false ∨ InRange u f then index :: scanLevel0 filtered u (index + 1) files
    else scanLevel0 filtered u (index + 1) files

/-- A sorted level is read from the first candidate on, for as long as the
next file can still hold the user key. -/
def scanSorted (u : κ) : Nat → List (FdWithKeyRange κ) → List Nat
  | _, [] => []
  | index, f :: files =>
    if InRange u f then
      index :: if u < f.largestKey.userKey then [] else scanSorted u (index + 1) files
    else []

/-- One level searched from file `index` on. -/
def scanLevel (numLevels level : Nat) (u : κ) (files : List (FdWithKeyRange κ)) (index : Nat) : List Nat :=
  if level = 0 then
    scanLevel0 (1 < numLevels ∨ 3 < files.length) u index (files.drop index)
  else scanSorted u index (files.drop index)

/-- The search of one level without the index: a binary search of all its
files for the first one not wholly before the lookup key. -/
def searchLevel (numLevels level : Nat) (ikey : InternalKey κ) (files : List (FdWithKeyRange κ)) : List Nat :=
  scanLevel numLevels level ikey.userKey files (if level = 0 then 0 else files.findIdx (fun f => ikey ≤ f.largestKey))

/-- Every level searched without the index, from `level` on. -/
def searchFrom (numLevels : Nat) (ikey : InternalKey κ) : Nat → List (List (FdWithKeyRange κ)) → List (Nat × Nat)
  | _, [] => []
  | level, files :: deeper =>
    (searchLevel numLevels level ikey files).map (level, ·) ++ searchFrom numLevels ikey (level + 1) deeper

def searchWithoutIndex (levels : List (List (FdWithKeyRange κ))) (ikey : InternalKey κ) : List (Nat × Nat) :=
  searchFrom levels.length ikey 0 levels

/-- A version: file ranges are proper, and below level 0 sorted and disjoint
as internal key ranges, so neighbours may share a boundary user key. -/
structure Layout (κ : Type) [LinearOrder κ] where
  levels : List (List (FdWithKeyRange κ))
  proper : ∀ files ∈ levels, ∀ f ∈ files, f.smallestKey ≤ f.largestKey
  sorted : ∀ files ∈ levels.tail, files.Pairwise (fun a b => a.largestKey < b.smallestKey)

/-! ## The index arrays -/

/-- Every lower file before a left bound is passed by its upper file. The walk
may resume because what one upper file passes, every later one passes. -/
theorem calculateLB_sound (passes : α → α → Bool) (lower upper : List α) (lowerIdx : Nat)
    (monotone : upper.Pairwise (fun a b => ∀ l ∈ lower, passes a l → passes b l))
    (resumed : ∀ u ∈ upper, ∀ (j : Nat) l, j < lowerIdx → lower[j]? = some l → passes u l) :
    ∀ (i : Nat) u, upper[i]? = some u → ∃ n : Nat, (calculateLB passes lower lowerIdx upper)[i]? = some (n : Int) ∧
      n ≤ max lowerIdx lower.length ∧ ∀ (j : Nat) l, j < n → lower[j]? = some l → passes u l := by
  induction upper generalizing lowerIdx with
  | nil => simp
  | cons head rest ih =>
    obtain ⟨first, restMonotone⟩ := pairwise_cons.mp monotone
    let n := lowerIdx + (lower.drop lowerIdx).findIdx (fun l => !passes head l)
    have headPasses : ∀ (j : Nat) l, j < n → lower[j]? = some l → passes head l := by
      intro j l lt at_j
      by_cases early : j < lowerIdx
      · exact resumed head (by simp) j l early at_j
      · have inDrop : (lower.drop lowerIdx)[j - lowerIdx]? = some l := by
          rw [List.getElem?_drop, Nat.add_sub_cancel' (not_lt.mp early), at_j]
        obtain ⟨bound, same⟩ := List.getElem?_eq_some_iff.mp inDrop
        have skipped := not_of_lt_findIdx (p := fun l => !passes head l)
          (show j - lowerIdx < (lower.drop lowerIdx).findIdx _ by omega)
        rw [same] at skipped
        simpa using skipped
    have within : (lower.drop lowerIdx).findIdx (fun l => !passes head l) ≤ _ := findIdx_le_length
    rw [length_drop] at within
    intro i u at_i
    cases i with
    | zero =>
      obtain rfl : head = u := by simpa using at_i
      exact ⟨n, rfl, by omega, headPasses⟩
    | succ i =>
      have resumedRest : ∀ u ∈ rest, ∀ (j : Nat) l, j < n → lower[j]? = some l → passes u l :=
        fun u member j l lt at_j =>
          first u member l (mem_of_getElem? at_j) (headPasses j l lt at_j)
      obtain ⟨m, found, _, sound⟩ := ih n restMonotone resumedRest i u at_i
      exact ⟨m, found, by omega, sound⟩

/-- The downward walk is the upward walk over the reversed levels. -/
theorem calculateRB_eq (passes : α → α → Bool) (lower upper : List α) (skipped : Nat) :
    calculateRB passes lower skipped upper =
      (calculateLB passes lower skipped upper).map (fun n => (lower.length : Int) - 1 - n) := by
  induction upper generalizing skipped with
  | nil => rfl
  | cons _ _ ih => simp [calculateRB, calculateLB, ih]

private theorem calculateLB_length (passes : α → α → Bool) (lower upper : List α) (lowerIdx : Nat) :
    (calculateLB passes lower lowerIdx upper).length = upper.length := by
  induction upper generalizing lowerIdx with
  | nil => rfl
  | cons _ _ ih => simp [calculateLB, ih]

/-- Every lower file after a right bound lies beyond its upper file. -/
theorem calculateRB_sound (passes : α → α → Bool) (lower : List α) {upper : List α}
    (monotone : upper.Pairwise (fun a b => ∀ l ∈ lower, passes b l → passes a l)) :
    ∀ (i : Nat) u, upper[i]? = some u → ∃ rb : Int,
      (calculateRB passes lower.reverse 0 upper.reverse).reverse[i]? = some rb ∧
      -1 ≤ rb ∧ rb < lower.length ∧ ∀ (j : Nat) l, rb < (j : Int) → lower[j]? = some l → passes u l := by
  intro i u at_i
  obtain ⟨bound, -⟩ := List.getElem?_eq_some_iff.mp at_i
  have reversed : upper.reverse[upper.length - 1 - i]? = some u := by
    rw [List.getElem?_reverse (by omega), ← at_i]
    congr 1
    omega
  obtain ⟨n, found, le, sound⟩ := calculateLB_sound passes lower.reverse upper.reverse 0
    (pairwise_reverse.mpr (monotone.imp fun mono l member => mono l (by simpa using member)))
    (fun _ _ _ _ impossible => absurd impossible (Nat.not_lt_zero _)) _ u reversed
  refine ⟨(lower.length : Int) - 1 - n, ?_, ?_, by omega, ?_⟩
  · rw [List.getElem?_reverse (by simpa [calculateRB_eq, calculateLB_length] using bound), calculateRB_eq]
    simp [calculateLB_length, found]
  · rw [length_reverse] at le
    omega
  · intro j l _ at_j
    obtain ⟨_, -⟩ := List.getElem?_eq_some_iff.mp at_j
    refine sound (lower.length - 1 - j) l (by omega) ?_
    rw [List.getElem?_reverse (by omega), ← at_j]
    congr 1
    omega

/-- File ranges of a sorted level. -/
structure SortedLevel (files : List (FdWithKeyRange κ)) : Prop where
  proper : ∀ f ∈ files, f.smallestKey ≤ f.largestKey
  disjoint : files.Pairwise (fun a b => a.largestKey < b.smallestKey)

variable {files : List (FdWithKeyRange κ)}

theorem SortedLevel.smallest_mono (sorted : SortedLevel files) :
    files.Pairwise (fun a b => a.smallestKey.userKey ≤ b.smallestKey.userKey) :=
  sorted.disjoint.imp_of_mem fun member _ lt =>
    userKey_le_of_le ((sorted.proper _ member).trans lt.le)

theorem SortedLevel.largest_mono (sorted : SortedLevel files) :
    files.Pairwise (fun a b => a.largestKey.userKey ≤ b.largestKey.userKey) :=
  sorted.disjoint.imp_of_mem fun _ member lt =>
    userKey_le_of_le (lt.le.trans (sorted.proper _ member))

/-- Files before a left bound end before the key. -/
def LeftOk (files : List (FdWithKeyRange κ)) (key : κ) (left : Int) : Prop :=
  0 ≤ left ∧ left ≤ files.length ∧ ∀ (j : Nat) f, (j : Int) < left → files[j]? = some f → f.largestKey.userKey < key

/-- Files after a right bound start after the key. -/
def RightOk (files : List (FdWithKeyRange κ)) (key : κ) (right : Int) : Prop :=
  -1 ≤ right ∧ right < files.length ∧
    ∀ (j : Nat) f, right < (j : Int) → files[j]? = some f → key < f.smallestKey.userKey

theorem LeftOk.mono (ok : LeftOk files low left) (le : low ≤ key) : LeftOk files key left :=
  ⟨ok.1, ok.2.1, fun j f lt at_j => (ok.2.2 j f lt at_j).trans_le le⟩

theorem RightOk.mono (ok : RightOk files high right) (le : key ≤ high) : RightOk files key right :=
  ⟨ok.1, ok.2.1, fun j f lt at_j => le.trans_lt (ok.2.2 j f lt at_j)⟩

variable {upper : List (FdWithKeyRange κ)} {i : Nat}

variable (lower : List (FdWithKeyRange κ))

private theorem leftOk_of_calculateLB (boundary : FdWithKeyRange κ → κ)
    (monotone : upper.Pairwise (fun a b => boundary a ≤ boundary b))
    (at_i : upper[i]? = some f) :
    ∃ lb, (calculateLB (fun u l => l.largestKey.userKey < boundary u) lower 0 upper)[i]? = some lb ∧
      LeftOk lower (boundary f) lb := by
  obtain ⟨n, found, _, sound⟩ := calculateLB_sound
    (fun u l => decide (l.largestKey.userKey < boundary u)) lower upper 0
    (monotone.imp fun le l _ lt => by simpa using lt_of_lt_of_le (by simpa using lt) le)
    (fun _ _ _ _ impossible => absurd impossible (Nat.not_lt_zero _)) i f at_i
  exact ⟨n, found, by omega, by omega, fun j l _ at_j => by simpa using sound j l (by omega) at_j⟩

private theorem rightOk_of_calculateRB (boundary : FdWithKeyRange κ → κ)
    (monotone : upper.Pairwise (fun a b => boundary a ≤ boundary b))
    (at_i : upper[i]? = some f) :
    ∃ rb, (calculateRB (fun u l => boundary u < l.smallestKey.userKey) lower.reverse 0
      upper.reverse).reverse[i]? = some rb ∧ RightOk lower (boundary f) rb := by
  obtain ⟨rb, found, low, high, sound⟩ := calculateRB_sound
    (fun u l => decide (boundary u < l.smallestKey.userKey)) lower
    (monotone.imp fun le l _ lt => by simpa using lt_of_le_of_lt le (by simpa using lt)) i f at_i
  exact ⟨rb, found, low, high, fun j l lt at_j => by simpa using sound j l lt at_j⟩

/-- The four bounds stored for an upper file. -/
theorem indexUnits_sound (sorted : SortedLevel upper) (at_i : upper[i]? = some f) :
    ∃ unit, (indexUnits upper lower)[i]? = some unit ∧ LeftOk lower f.smallestKey.userKey unit.smallestLb ∧
      LeftOk lower f.largestKey.userKey unit.largestLb ∧
      RightOk lower f.smallestKey.userKey unit.smallestRb ∧
      RightOk lower f.largestKey.userKey unit.largestRb := by
  obtain ⟨slb, slbAt, slbOk⟩ := leftOk_of_calculateLB lower (·.smallestKey.userKey) sorted.smallest_mono at_i
  obtain ⟨llb, llbAt, llbOk⟩ := leftOk_of_calculateLB lower (·.largestKey.userKey) sorted.largest_mono at_i
  obtain ⟨srb, srbAt, srbOk⟩ := rightOk_of_calculateRB lower (·.smallestKey.userKey) sorted.smallest_mono at_i
  obtain ⟨lrb, lrbAt, lrbOk⟩ := rightOk_of_calculateRB lower (·.largestKey.userKey) sorted.largest_mono at_i
  refine ⟨⟨slb, llb, srb, lrb⟩, ?_, slbOk, llbOk, srbOk, lrbOk⟩
  have lefts := (getElem?_zip_eq_some (z := (slb, llb))).mpr ⟨slbAt, llbAt⟩
  have rights := (getElem?_zip_eq_some (z := (srb, lrb))).mpr ⟨srbAt, lrbAt⟩
  have all := (getElem?_zip_eq_some (z := ((slb, llb), (srb, lrb)))).mpr ⟨lefts, rights⟩
  simp only [indexUnits, getElem?_map]
  rw [all]
  rfl

/-! ## The bounds a search carries to the next level -/

/-- The search bounds of a level exclude only files without the lookup key. -/
structure BoundsOk (files : List (FdWithKeyRange κ)) (u : κ) (left right : Int) : Prop where
  leftOk : LeftOk files u left
  rightOk : (left = 0 ∧ right = kLevelMaxIndex) ∨ RightOk files u right

section Whole
variable (files) (u : κ)

theorem leftOk_zero : LeftOk files u 0 :=
  ⟨le_rfl, by omega, fun _ _ _ _ => by omega⟩

theorem boundsOk_unhinted : BoundsOk files u 0 kLevelMaxIndex :=
  ⟨leftOk_zero files u, .inl ⟨rfl, rfl⟩⟩

theorem rightOk_last : RightOk files u ((files.length : Int) - 1) := by
  refine ⟨by omega, by omega, fun _ _ _ at_j => ?_⟩
  obtain ⟨_, -⟩ := List.getElem?_eq_some_iff.mp at_j
  omega

end Whole

/-- The outcome of comparing the lookup key with the boundaries of a file. -/
def compareBoundaries (u : κ) (f : FdWithKeyRange κ) : Ordering × Ordering :=
  let cmpSmallest := cmp u f.smallestKey.userKey
  (cmpSmallest, if cmpSmallest = .lt then .lt else cmp u f.largestKey.userKey)

private theorem outside_iff (u : κ) (f : FdWithKeyRange κ) :
    ((compareBoundaries u f).1 = .lt ∨ (compareBoundaries u f).2 = .gt) ↔ ¬InRange u f := by
  unfold compareBoundaries InRange
  rcases lt_trichotomy u f.smallestKey.userKey with lt | eq | gt
  · simp [(cmp_eq_lt_iff _ _).mpr lt, lt.not_ge]
  · subst eq
    simp [cmp_eq_gt_iff]
  · simp [(cmp_eq_gt_iff _ _).mpr gt, gt.le, cmp_eq_gt_iff]

variable {index : Nat} {u : κ} {ikey : InternalKey κ} {level : Nat}

/-- Whatever the comparison says, the index gives sound bounds for the next
level, provided the files already passed end by the lookup key. -/
theorem getNextLevelIndex_sound (deep : 0 < level) (at_level : levels[level]? = some files) (sorted : SortedLevel files)
    (at_index : files[index]? = some f)
    (passed : ∀ (j : Nat) g, j < index → files[j]? = some g → g.largestKey.userKey ≤ u) :
    let cmps := compareBoundaries u f
    let bounds := getNextLevelIndex levels level index cmps.1 cmps.2
    BoundsOk (levels[level + 1]?.getD []) u bounds.1 bounds.2 := by
  intro cmps bounds
  obtain ⟨_, -⟩ := List.getElem?_eq_some_iff.mp at_level
  by_cases last : level + 1 = levels.length
  · have none : levels[level + 1]? = none := List.getElem?_eq_none (by omega)
    simp only [bounds, getNextLevelIndex, last, if_true]
    rw [← last, none]
    exact ⟨leftOk_zero _ u, .inr (rightOk_last [] u)⟩
  · set next := levels[level + 1]?.getD []
    have units : nextLevelIndex levels level = indexUnits files next := by
      rw [nextLevelIndex, if_pos ⟨deep, by omega⟩, at_level]
      rfl
    obtain ⟨unit, unitAt, slb, llb, srb, lrb⟩ := indexUnits_sound next sorted at_index
    simp only [bounds, getNextLevelIndex, last, if_false, units, unitAt, Option.getD_some]
    simp only [cmps, compareBoundaries]
    rcases lt_trichotomy u f.smallestKey.userKey with lt | eq | gt
    · rw [(cmp_eq_lt_iff _ _).mpr lt]
      refine ⟨?_, .inr (srb.mono lt.le)⟩
      dsimp only
      split
      case isTrue positive =>
        obtain ⟨_, -⟩ := List.getElem?_eq_some_iff.mp at_index
        have before : files[index - 1]? = some files[index - 1] := List.getElem?_eq_getElem (by omega)
        obtain ⟨unit', unitAt', -, llb', -⟩ := indexUnits_sound next sorted before
        rw [unitAt']
        exact llb'.mono (passed _ _ (by omega) before)
      case isFalse => exact leftOk_zero next u
    · rw [(cmp_eq_eq_iff _ _).mpr eq]
      exact ⟨slb.mono eq.ge, .inr (srb.mono eq.le)⟩
    · rw [(cmp_eq_gt_iff _ _).mpr gt]
      rcases lt_trichotomy u f.largestKey.userKey with lt' | eq' | gt'
      · simp only [(cmp_eq_lt_iff _ _).mpr lt', reduceCtorEq, if_false]
        exact ⟨slb.mono gt.le, .inr (lrb.mono lt'.le)⟩
      · simp only [(cmp_eq_eq_iff _ _).mpr eq', reduceCtorEq, if_false]
        exact ⟨llb.mono eq'.ge, .inr (lrb.mono eq'.le)⟩
      · simp only [(cmp_eq_gt_iff _ _).mpr gt', reduceCtorEq, if_false]
        exact ⟨llb.mono gt'.le, .inr (rightOk_last next u)⟩

/-! ## The picker is a cursor over the reference search -/

private theorem findFileInRange_eq (le : left ≤ right)
    (passed : ∀ (j : Nat) f, j < left → files[j]? = some f → ¬ikey ≤ f.largestKey)
    (bound : left ≤ files.length) :
    findFileInRange files ikey left right = min right (files.findIdx (fun f => ikey ≤ f.largestKey)) := by
  have early : (files.take left).findIdx (fun f => decide (ikey ≤ f.largestKey)) = left := by
    refine (findIdx_eq_length.mpr fun f member => ?_).trans (length_take_of_le bound)
    obtain ⟨j, at_j⟩ := mem_iff_getElem?.mp member
    rw [getElem?_take] at at_j
    split at at_j
    case isTrue lt => simpa using passed j f lt at_j
    case isFalse => cases at_j
  have split : files.findIdx (fun f => decide (ikey ≤ f.largestKey)) =
      left + (files.drop left).findIdx (fun f => decide (ikey ≤ f.largestKey)) := by
    conv_lhs => rw [← take_append_drop left files]
    rw [findIdx_append, early, length_take_of_le bound, if_neg (lt_irrefl _), Nat.add_comm]
  rw [findFileInRange, findIdx_take, split]
  omega

private theorem scanSorted_of_not_inRange
    (outside : ∀ f, files[n]? = some f → ¬InRange u f) : scanSorted u n (files.drop n) = [] := by
  cases at_n : files[n]? with
  | none => rw [drop_eq_nil_of_le (getElem?_eq_none_iff.mp at_n), scanSorted]
  | some f => rw [drop_eq_getElem?_toList_append, at_n]; simp [scanSorted, outside f at_n]

variable (version : Layout κ)

theorem Layout.sortedLevel (deep : 0 < level)
    (at_level : version.levels[level]? = some files) : SortedLevel files := by
  refine ⟨version.proper files (mem_of_getElem? at_level), version.sorted files ?_⟩
  refine mem_of_getElem? (i := level - 1) ?_
  rw [getElem?_tail, Nat.sub_add_cancel deep, at_level]

/-- What the picker still has to return. -/
def remaining (levels : List (List (FdWithKeyRange κ))) (ikey : InternalKey κ) (st : State) : List (Nat × Nat) :=
  if st.searchEnded then []
  else
    (scanLevel levels.length st.currLevel ikey.userKey (levels[st.currLevel]?.getD [])
      st.currIndexInCurrLevel).map (st.currLevel, ·) ++
    searchFrom levels.length ikey (st.currLevel + 1) (levels.drop (st.currLevel + 1))

/-- The iterations the picker can still make. -/
def work (levels : List (List (FdWithKeyRange κ))) (st : State) : Nat :=
  if st.searchEnded then 0
  else (levels[st.currLevel]?.getD []).length - st.currIndexInCurrLevel + 1 + budget (levels.drop (st.currLevel + 1))

/-- The invariant of a search under way. -/
structure Searching (levels : List (List (FdWithKeyRange κ))) (u : κ) (st : State) : Prop where
  level : st.currLevel < levels.length
  top : st.currLevel = 0 → st.searchLeftBound = 0 ∧ st.searchRightBound = kLevelMaxIndex
  passed : 0 < st.currLevel → ∀ (j : Nat) f, j < st.currIndexInCurrLevel →
    (levels[st.currLevel]?.getD [])[j]? = some f → f.largestKey.userKey ≤ u
  exhausted : (levels[st.currLevel]?.getD []).length ≤ st.currIndexInCurrLevel →
    BoundsOk (levels[st.currLevel + 1]?.getD []) u st.searchLeftBound st.searchRightBound

/-- The right bound `PrepareNextLevel` searches up to. -/
def effectiveRight (files : List (FdWithKeyRange κ)) (right : Int) : Int :=
  if right = kLevelMaxIndex then (files.length : Int) - 1 else right

theorem BoundsOk.effectiveRight
    (ok : BoundsOk files u left right) : RightOk files u (effectiveRight files right) := by
  unfold FilePickerProofs.effectiveRight
  split
  case isTrue => exact rightOk_last files u
  case isFalse known => exact ok.rightOk.resolve_left fun unhinted => known unhinted.2

/-- A level whose first candidate lies beyond the right bound has no file to
return. -/
theorem searchLevel_eq_nil (deep : 0 < level) (ok : RightOk files ikey.userKey right)
    (beyond : right < files.findIdx (fun f => ikey ≤ f.largestKey)) :
    searchLevel numLevels level ikey files = [] := by
  rw [searchLevel, if_neg deep.ne', scanLevel, if_neg deep.ne']
  refine scanSorted_of_not_inRange fun f at_n inRange => ?_
  exact (ok.2.2 _ f beyond at_n).not_ge inRange.1

/-- The first candidate is never before the left bound. -/
theorem LeftOk.le_findIdx
    (ok : LeftOk files ikey.userKey left) : left ≤ files.findIdx (fun f => ikey ≤ f.largestKey) := by
  by_contra early
  have bound : files.findIdx (fun f => decide (ikey ≤ f.largestKey)) < files.length := by
    have := ok.2.1
    omega
  have candidate := findIdx_getElem (w := bound)
  have le := userKey_le_of_le (of_decide_eq_true candidate)
  exact (ok.2.2 _ _ (not_le.mp early) (getElem?_eq_getElem bound)).not_ge le

/-- With sound bounds, the narrowed binary search of a level stops at the
right bound or at the candidate of the full one. -/
theorem findFileInRange_of_boundsOk (ok : BoundsOk files ikey.userKey left right) (le : left ≤ right) :
    findFileInRange files ikey left.toNat (effectiveRight files right + 1).toNat =
      min (effectiveRight files right + 1).toNat (files.findIdx (fun f => ikey ≤ f.largestKey)) := by
  have leftBound := ok.leftOk.2.1
  refine findFileInRange_eq ?_ (fun j f _ at_j => ?_) (by omega)
  · unfold effectiveRight
    split <;> omega
  · have before := ok.leftOk.2.2 j f (by omega) at_j
    exact fun after => (userKey_le_of_le after).not_gt before

/-- `PrepareNextLevel` stops at the first level with something to return. -/
theorem prepareLevel_spec (ikey : InternalKey κ) :
    ∀ (rest : List (List (FdWithKeyRange κ))) (level : Nat) (left right : Int), version.levels.drop level = rest →
      (level = 0 → left = 0 ∧ right = kLevelMaxIndex) →
      BoundsOk (version.levels[level]?.getD []) ikey.userKey left right →
      let st := prepareLevel ikey level rest left right
      (st.searchEnded = false → Searching version.levels ikey.userKey st) ∧
      remaining version.levels ikey st = searchFrom version.levels.length ikey level rest ∧
      work version.levels st ≤ budget rest := by
  intro rest
  induction rest with
  | nil =>
    intro level left right _ _ _
    simp [prepareLevel, remaining, searchFrom, work]
  | cons files deeper ih =>
    intro level _ _ dropped top ok
    have at_level : version.levels[level]? = some files := by
      rw [← head?_drop, dropped, head?_cons]
    obtain ⟨levelBound, -⟩ := List.getElem?_eq_some_iff.mp at_level
    have droppedNext : version.levels.drop (level + 1) = deeper := by
      rw [← tail_drop, dropped, tail_cons]
    have next := ih (level + 1) 0 kLevelMaxIndex droppedNext (by omega) (boundsOk_unhinted _ _)
    have budgetCons : budget (files :: deeper) = files.length + 1 + budget deeper := by
      simp [budget]
    -- a level that is passed over has nothing to return
    have skip (empty : searchLevel version.levels.length level ikey files = []) :
        let st := prepareLevel ikey (level + 1) deeper 0 kLevelMaxIndex
        remaining version.levels ikey st = searchFrom version.levels.length ikey level (files :: deeper) ∧
          work version.levels st ≤ budget (files :: deeper) := by
      refine ⟨?_, by have := next.2.2; omega⟩
      rw [next.2.1, searchFrom, empty, map_nil, nil_append]
    rw [at_level, Option.getD_some] at ok
    rw [prepareLevel]
    split
    case isTrue none => exact ⟨next.1, skip (by subst none; simp [searchLevel, scanLevel, scanLevel0, scanSorted])⟩
    case isFalse nonempty =>
      split
      case isTrue zero =>
        subst zero
        refine ⟨fun _ => ⟨levelBound, fun _ => top rfl, fun impossible => absurd impossible (lt_irrefl _),
          fun _ => ?_⟩, ?_, ?_⟩
        · obtain ⟨rfl, rfl⟩ := top rfl
          exact boundsOk_unhinted _ _
        · simp [remaining, at_level, droppedNext, searchFrom, searchLevel]
        · simp [work, at_level, droppedNext, budgetCons]
      case isFalse notTop =>
        have deep : 0 < level := Nat.pos_of_ne_zero notTop
        split
        case isTrue le =>
          have found := findFileInRange_of_boundsOk ok le
          have rightOk := ok.effectiveRight
          simp only [← effectiveRight.eq_1]
          rw [found]
          split
          case isTrue beyond => exact ⟨next.1, skip (searchLevel_eq_nil deep rightOk (by omega))⟩
          case isFalse within =>
            have last := rightOk.2.1
            have nonneg := rightOk.1
            rw [min_eq_right (by omega)] at found ⊢
            refine ⟨fun _ => ⟨levelBound, fun zero => absurd zero notTop, fun _ _ _ lt at_j => ?_,
              fun past => ?_⟩, ?_, ?_⟩
            · simp only [at_level, Option.getD_some] at lt at_j
              obtain ⟨_, rfl⟩ := List.getElem?_eq_some_iff.mp at_j
              have before := not_of_lt_findIdx  lt
              exact userKey_le_of_le (not_le.mp (of_decide_eq_false before)).le
            · simp only [at_level, Option.getD_some] at past
              omega
            · simp [remaining, at_level, droppedNext, searchFrom, searchLevel, notTop]
            · simp only [work, at_level, droppedNext, budgetCons]
              simp
        case isFalse crossed =>
          have start := ok.leftOk.le_findIdx
          refine ⟨next.1, skip (searchLevel_eq_nil deep (ok.rightOk.resolve_left ?_) (by omega))⟩
          rintro ⟨rfl, rfl⟩
          exact crossed (by decide)

private theorem prepareNextLevel_spec (ikey : InternalKey κ) (st : State)
    (ok : BoundsOk (version.levels[st.currLevel + 1]?.getD []) ikey.userKey st.searchLeftBound st.searchRightBound) :
    let next := prepareNextLevel version.levels ikey st
    (next.searchEnded = false → Searching version.levels ikey.userKey next) ∧
    remaining version.levels ikey next = searchFrom version.levels.length ikey (st.currLevel + 1)
      (version.levels.drop (st.currLevel + 1)) ∧
    work version.levels next ≤ budget (version.levels.drop (st.currLevel + 1)) :=
  prepareLevel_spec version ikey _ _ _ _ rfl (by omega) ok

private theorem scanLevel_exhausted (past : files.length ≤ index) : scanLevel numLevels level u files index = [] := by
  simp [scanLevel, drop_eq_nil_of_le past, scanLevel0, scanSorted]

private theorem scanLevel_top (top : level = 0) (at_index : files[index]? = some f) :
    scanLevel numLevels level u files index = if (1 < numLevels ∨ 3 < files.length) → InRange u f then
        index :: scanLevel numLevels level u files (index + 1)
      else scanLevel numLevels level u files (index + 1) := by
  simp only [scanLevel, if_pos top]
  rw [drop_eq_getElem?_toList_append, at_index]
  simp only [Option.toList, cons_append, nil_append, scanLevel0, decide_eq_false_iff_not, imp_iff_not_or]

private theorem scanLevel_sorted (deep : 0 < level) (at_index : files[index]? = some f) :
    scanLevel numLevels level u files index = if InRange u f then
        index :: if u < f.largestKey.userKey then [] else scanLevel numLevels level u files (index + 1)
      else [] := by
  simp only [scanLevel, if_neg deep.ne']
  rw [drop_eq_getElem?_toList_append, at_index]
  rfl

/-- **`GetNextFile` returns the next file of the reference search** and
leaves the picker at the rest of it. -/
theorem getNextFile_spec (ikey : InternalKey κ) : ∀ (fuel : Nat) (st : State),
      (st.searchEnded = false → Searching version.levels ikey.userKey st) →
      work version.levels st < fuel →
      ∃ st', getNextFile version.levels ikey fuel st = ((remaining version.levels ikey st).head?, st') ∧
        (st'.searchEnded = false → Searching version.levels ikey.userKey st') ∧
        remaining version.levels ikey st' = (remaining version.levels ikey st).tail := by
  intro fuel
  induction fuel with
  | zero => intro st _ impossible; omega
  | succ _ ih =>
    intro st inv enough
    by_cases ended : st.searchEnded
    · exact ⟨st, by simp [getNextFile, remaining, ended], inv, by simp [remaining, ended]⟩
    · replace inv := inv (by simpa using ended)
      have levelAt : ∃ files, version.levels[st.currLevel]? = some files := ⟨_, List.getElem?_eq_getElem inv.level⟩
      obtain ⟨files, at_level⟩ := levelAt
      have getD : version.levels[st.currLevel]?.getD [] = files := by rw [at_level]; rfl
      have restAt (left right : Int) (index : Nat) :
          remaining version.levels ikey ⟨st.currLevel, left, right, st.searchEnded, index⟩ =
            (scanLevel version.levels.length st.currLevel ikey.userKey files index).map (st.currLevel, ·) ++
            searchFrom version.levels.length ikey (st.currLevel + 1) (version.levels.drop (st.currLevel + 1)) := by
        simp only [remaining, if_neg ended, getD]
      have rest : remaining version.levels ikey st = _ := restAt ..
      rw [work, if_neg ended, getD] at enough
      rw [getNextFile, if_neg ended, rest]
      simp only [getD]
      cases at_index : files[st.currIndexInCurrLevel]? with
      | none =>
        -- the level is exhausted: go on with the next one
        have past := List.getElem?_eq_none_iff.mp at_index
        obtain ⟨nextInv, nextRest, _⟩ :=
          prepareNextLevel_spec version ikey st (inv.exhausted (by rwa [getD]))
        rw [scanLevel_exhausted past, map_nil, nil_append, ← nextRest]
        exact ih _ nextInv (by omega)
      | some f =>
        obtain ⟨_, -⟩ := List.getElem?_eq_some_iff.mp at_index
        have outside := outside_iff ikey.userKey f
        simp only [compareBoundaries] at outside
        by_cases top : st.currLevel = 0
        · obtain ⟨left, right⟩ := inv.top top
          have nextInv : Searching version.levels ikey.userKey
              { st with currIndexInCurrLevel := st.currIndexInCurrLevel + 1 } := by
            refine ⟨inv.level, inv.top, fun deep => absurd top deep.ne', fun _ => ?_⟩
            rw [left, right]
            exact boundsOk_unhinted _ _
          have returned : ∃ st', (some (st.currLevel, st.currIndexInCurrLevel),
                { st with currIndexInCurrLevel := st.currIndexInCurrLevel + 1 }) =
              (some (st.currLevel, st.currIndexInCurrLevel), st') ∧
              (st'.searchEnded = false → Searching version.levels ikey.userKey st') ∧
              remaining version.levels ikey st' = _ :=
            ⟨_, rfl, fun _ => nextInv, restAt ..⟩
          rw [scanLevel_top top at_index]
          simp only [if_pos top, outside]
          by_cases filtered : 1 < version.levels.length ∨ 3 < files.length
          · by_cases inRange : InRange ikey.userKey f
            · rw [if_pos filtered, if_neg (not_not_intro inRange), if_pos fun _ => inRange]
              exact returned
            · rw [if_pos filtered, if_pos inRange, if_neg fun filter => inRange (filter filtered),
                ← restAt st.searchLeftBound st.searchRightBound]
              refine ih _ (fun _ => nextInv) ?_
              simp only [work, if_neg ended, getD]
              omega
          · rw [if_neg filtered, if_pos fun filter => absurd filter filtered]
            exact returned
        · have deep : 0 < st.currLevel := Nat.pos_of_ne_zero top
          have level := inv.level
          have passed := inv.passed deep
          rw [getD] at passed
          have hinted := getNextLevelIndex_sound deep at_level (version.sortedLevel deep at_level) at_index passed
          simp only [compareBoundaries] at hinted
          dsimp only
          generalize getNextLevelIndex version.levels st.currLevel st.currIndexInCurrLevel _ _ = bounds at hinted ⊢
          rw [if_pos (.inl (by omega)), if_neg top, scanLevel_sorted deep at_index]
          simp only [outside]
          obtain ⟨leaveInv, leaveRest, leaveWork⟩ := prepareNextLevel_spec version ikey
            { st with searchLeftBound := bounds.1, searchRightBound := bounds.2 } hinted
          by_cases inRange : InRange ikey.userKey f
          · rw [if_neg (not_not_intro inRange), if_pos inRange]
            have notBefore : cmp ikey.userKey f.smallestKey.userKey ≠ .lt :=
              fun before => absurd inRange (outside.mp (.inl before))
            simp only [if_neg notBefore]
            simp only [cmp_eq_lt_iff]
            by_cases within : ikey.userKey < f.largestKey.userKey
            · rw [if_pos within, if_pos within]
              exact ⟨_, rfl, leaveInv, leaveRest⟩
            · rw [if_neg within, if_neg within]
              refine ⟨_, rfl, fun _ => ⟨level, fun zero => absurd zero top, fun _ j g lt at_j => ?_,
                fun _ => hinted⟩, restAt ..⟩
              rw [getD] at at_j
              rcases Nat.lt_succ_iff_lt_or_eq.mp lt with earlier | rfl
              · exact passed j g earlier at_j
              · cases at_index.symm.trans at_j
                exact not_lt.mp within
          · rw [if_pos inRange, if_neg inRange, map_nil, nil_append]
            rw [← leaveRest]
            dsimp only at leaveWork
            exact ih _ leaveInv (by omega)

/-! ## Whole searches -/

/-- A scan returns positions of the level, from its start on and in order. -/
theorem scanLevel_sublist (numLevels level : Nat) (u : κ) (files : List (FdWithKeyRange κ)) (index : Nat) :
    (scanLevel numLevels level u files index).Sublist (range' index (files.length - index)) := by
  have top (filtered : Bool) (rest : List (FdWithKeyRange κ)) (index : Nat) :
      (scanLevel0 filtered u index rest).Sublist (range' index rest.length) := by
    induction rest generalizing index with
    | nil => exact nil_sublist _
    | cons _ _ ih =>
      rw [scanLevel0, length_cons, range'_succ]
      split
      · exact (ih _).cons_cons _
      · exact (ih _).cons _
  have sorted (rest : List (FdWithKeyRange κ)) (index : Nat) :
      (scanSorted u index rest).Sublist (range' index rest.length) := by
    induction rest generalizing index with
    | nil => exact nil_sublist _
    | cons _ _ ih =>
      rw [scanSorted, length_cons, range'_succ]
      split
      · split
        · exact (nil_sublist _).cons_cons _
        · exact (ih _).cons_cons _
      · exact nil_sublist _
  rw [← length_drop]
  unfold scanLevel
  split
  · exact top _ _ _
  · exact sorted _ _

private theorem searchFrom_length_le (numLevels : Nat) (ikey : InternalKey κ)
    (rest : List (List (FdWithKeyRange κ))) (level : Nat) :
    (searchFrom numLevels ikey level rest).length ≤ budget rest := by
  induction rest generalizing level with
  | nil => simp [searchFrom]
  | cons files _ ih =>
    have scanned := (scanLevel_sublist numLevels level ikey.userKey files
      (if level = 0 then 0 else files.findIdx (fun f => ikey ≤ f.largestKey))).length_le
    rw [length_range'] at scanned
    have below := ih (level + 1)
    simp only [searchFrom, searchLevel, length_append, length_map, budget, map_cons, sum_cons] at below ⊢
    omega

omit [LinearOrder κ] in
private theorem budget_drop_le (levels : List (List (FdWithKeyRange κ))) (level : Nat) :
    budget (levels.drop level) ≤ budget levels := by
  have append (above below : List (List (FdWithKeyRange κ))) :
      budget (above ++ below) = budget above + budget below := by simp [budget]
  conv_rhs => rw [← take_append_drop level levels, append]
  omega

private theorem work_le_budget (inv : st.searchEnded = false → Searching levels u st) :
    work levels st ≤ budget levels := by
  unfold work
  split
  · exact Nat.zero_le _
  case isFalse running =>
    have level := (inv (by simpa using running)).level
    refine le_trans ?_ (budget_drop_le levels st.currLevel)
    rw [drop_eq_getElem_cons level, getElem?_eq_getElem level]
    simp only [Option.getD_some, budget, map_cons, sum_cons]
    omega

private theorem pickLoop_eq_remaining (ikey : InternalKey κ) (fuel : Nat) (st : State)
    (inv : st.searchEnded = false → Searching version.levels ikey.userKey st)
    (enough : (remaining version.levels ikey st).length < fuel) :
    pickLoop version.levels ikey fuel st = remaining version.levels ikey st := by
  induction fuel generalizing st with
  | zero => omega
  | succ _ ih =>
    obtain ⟨st', step, inv', rest⟩ := getNextFile_spec version ikey (budget version.levels + 1) st inv
      (Nat.lt_succ_of_le (work_le_budget inv))
    rw [pickLoop, step]
    cases next : remaining version.levels ikey st with
    | nil => rfl
    | cons =>
      rw [next, tail_cons] at rest
      rw [next, length_cons] at enough
      simp only [head?_cons]
      rw [ih st' inv' (by rw [rest]; omega), rest]

theorem pickFiles_eq (ikey : InternalKey κ) :
    pickFiles version.levels ikey = searchWithoutIndex version.levels ikey := by
  obtain ⟨inv, rest, -⟩ := prepareLevel_spec version ikey version.levels 0 0 kLevelMaxIndex rfl
    (fun _ => ⟨rfl, rfl⟩) (boundsOk_unhinted _ _)
  have bound := searchFrom_length_le version.levels.length ikey version.levels 0
  rw [pickFiles, newPicker, pickLoop_eq_remaining version ikey _ _ inv (by rw [rest]; omega)]
  exact rest

/-! ## What the reference search returns -/

/-- The reference search searches every level. -/
theorem mem_searchFrom : found ∈ searchFrom numLevels ikey start rest ↔
      ∃ k files, rest[k]? = some files ∧ found.1 = start + k ∧
        found.2 ∈ searchLevel numLevels (start + k) ikey files := by
  induction rest generalizing start with
  | nil => simp [searchFrom]
  | cons head _ ih =>
    rw [searchFrom, mem_append, mem_map, ih]
    constructor
    · rintro (⟨_, member, rfl⟩ | ⟨k, files, at_k, level, member⟩)
      · exact ⟨0, head, rfl, rfl, member⟩
      · exact ⟨k + 1, files, at_k, by omega, by rwa [← Nat.add_right_comm] at member⟩
    · rintro ⟨_ | k, files, at_k, level, member⟩
      · obtain rfl : head = files := by simpa using at_k
        exact .inl ⟨found.2, member, Prod.ext level.symm rfl⟩
      · exact .inr ⟨k, files, at_k, by omega, by rwa [Nat.add_right_comm]⟩

/-- The order of the reference search: level by level, and within a level by
position, which is newest first in level 0. -/
theorem searchFrom_increasing (numLevels : Nat) (ikey : InternalKey κ)
    (rest : List (List (FdWithKeyRange κ))) (level : Nat) :
    (searchFrom numLevels ikey level rest).Pairwise (fun a b => a.1 < b.1 ∨ a.1 = b.1 ∧ a.2 < b.2) := by
  induction rest generalizing level with
  | nil => simp [searchFrom]
  | cons files deeper ih =>
    refine pairwise_append.mpr ⟨?_, ih (level + 1), ?_⟩
    · have increasing : (searchLevel numLevels level ikey files).Pairwise (· < ·) :=
        List.Pairwise.sublist (scanLevel_sublist _ _ _ _ _) pairwise_lt_range'
      exact pairwise_map.mpr (increasing.imp fun lt => .inr ⟨rfl, lt⟩)
    · intro _ here _ below
      obtain ⟨_, -, rfl⟩ := mem_map.mp here
      obtain ⟨_, -, -, _, -⟩ := mem_searchFrom.mp below
      exact .inl (by omega)

private theorem mem_scanLevel0 (at_index : rest[index]? = some f) (inRange : InRange u f) (start : Nat) :
    start + index ∈ scanLevel0 filtered u start rest := by
  induction rest generalizing index start with
  | nil => simp at at_index
  | cons head _ ih =>
    rw [scanLevel0]
    cases index with
    | zero =>
      obtain rfl : head = f := by simpa using at_index
      simp [inRange]
    | succ =>
      have later := ih at_index (start + 1)
      rw [Nat.add_right_comm] at later
      split
      · exact mem_cons_of_mem _ later
      · exact later

private theorem mem_scanSorted (at_index : rest[index]? = some f) (inRange : InRange u f)
    (shared : ∀ (j : Nat) g, j < index → rest[j]? = some g → InRange u g ∧ g.largestKey.userKey ≤ u) (start : Nat) :
    start + index ∈ scanSorted u start rest := by
  induction rest generalizing index start with
  | nil => simp at at_index
  | cons head _ ih =>
    rw [scanSorted]
    cases index with
    | zero =>
      obtain rfl : head = f := by simpa using at_index
      simp [inRange]
    | succ =>
      obtain ⟨headInRange, headEnds⟩ := shared 0 head (by omega) rfl
      have later := ih at_index
        (fun j g _ at_j => shared (j + 1) g (by omega) at_j) (start + 1)
      rw [Nat.add_right_comm] at later
      rw [if_pos headInRange, if_neg headEnds.not_gt]
      exact mem_cons_of_mem _ later

/-- From the first file not wholly before the lookup key on, no file is. -/
theorem SortedLevel.candidate (sorted : SortedLevel files)
    (first : files.findIdx (fun f => decide (ikey ≤ f.largestKey)) = n) (start : n ≤ index)
    (bound : index < files.length) : ikey ≤ files[index].largestKey := by
  subst first
  have reached : ikey ≤ (files[files.findIdx fun f => decide (ikey ≤ f.largestKey)]).largestKey := by
    simpa using findIdx_getElem (w := start.trans_lt bound)
  rcases start.eq_or_lt with same | before
  · simpa only [same] using reached
  · have apart := pairwise_iff_getElem.mp sorted.disjoint _ index (before.trans bound) bound before
    exact reached.trans (apart.le.trans (sorted.proper _ (getElem_mem bound)))

/-- A file whose range holds the lookup user key, at or after the lookup
internal key, is always returned. The files between the first candidate and
it end with that very user key. -/
theorem mem_searchLevel (at_level : version.levels[level]? = some files) (at_index : files[index]? = some f)
    (inRange : InRange ikey.userKey f) (after : ikey ≤ f.largestKey) :
    index ∈ searchLevel numLevels level ikey files := by
  rw [searchLevel, scanLevel]
  by_cases top : level = 0
  · simp only [if_pos top, drop_zero]
    simpa using mem_scanLevel0 at_index inRange 0
  · have sorted := version.sortedLevel (Nat.pos_of_ne_zero top) at_level
    obtain ⟨bound, rfl⟩ := List.getElem?_eq_some_iff.mp at_index
    set n := files.findIdx (fun f => decide (ikey ≤ f.largestKey)) with nDef
    have start : n ≤ index := by
      by_contra early
      exact of_decide_eq_false (not_of_lt_findIdx (not_le.mp early)) after
    simp only [if_neg top]
    have found : (files.drop n)[index - n]? = some files[index] := by
      rw [List.getElem?_drop, Nat.add_sub_cancel' start, at_index]
    have member := mem_scanSorted found inRange ?_ n
    · rwa [Nat.add_sub_cancel' start] at member
    · intro j _ _ at_j
      rw [List.getElem?_drop] at at_j
      obtain ⟨jBound, rfl⟩ := List.getElem?_eq_some_iff.mp at_j
      have ends : files[n + j].largestKey.userKey ≤ ikey.userKey :=
        (userKey_le_of_le (pairwise_iff_getElem.mp sorted.disjoint (n + j) index jBound bound (by omega)).le).trans
          inRange.1
      have proper := userKey_le_of_le (sorted.proper files[n + j] (List.getElem_mem jBound))
      have candidate := sorted.candidate nDef.symm (Nat.le_add_right n j) jBound
      exact ⟨⟨proper.trans ends, userKey_le_of_le candidate⟩, ends⟩

private theorem scanSorted_at (member : index ∈ scanSorted u start rest) :
    start ≤ index ∧ ∃ f, rest[index - start]? = some f ∧ InRange u f := by
  induction rest generalizing start with
  | nil => simp [scanSorted] at member
  | cons head _ ih =>
    rw [scanSorted] at member
    split at member
    case isTrue inRange =>
      rcases mem_cons.mp member with rfl | member
      · exact ⟨le_rfl, head, by simp, inRange⟩
      · split at member
        · cases member
        · obtain ⟨_, f, at_index, inRange⟩ := ih member
          refine ⟨by omega, f, ?_, inRange⟩
          rw [show index - start = index - (start + 1) + 1 by omega, getElem?_cons_succ, at_index]
    case isFalse => cases member

/-- Every returned position holds a file, and below level 0 one that the lookup
key can be in. -/
theorem searchLevel_at (at_level : version.levels[level]? = some files)
    (member : index ∈ searchLevel numLevels level ikey files) :
    ∃ f, files[index]? = some f ∧ (0 < level → InRange ikey.userKey f ∧ ikey ≤ f.largestKey) := by
  rw [searchLevel] at member
  by_cases top : level = 0
  · have inside := (scanLevel_sublist _ _ _ _ _).subset member
    rw [if_pos top, mem_range'_1] at inside
    exact ⟨_, List.getElem?_eq_getElem (by omega), fun deep => absurd top deep.ne'⟩
  · have sorted := version.sortedLevel (Nat.pos_of_ne_zero top) at_level
    simp only [scanLevel, if_neg top] at member
    set n := files.findIdx (fun f => decide (ikey ≤ f.largestKey)) with nDef
    obtain ⟨start, f, at_index, inRange⟩ := scanSorted_at member
    rw [List.getElem?_drop, Nat.add_sub_cancel' start] at at_index
    refine ⟨f, at_index, fun _ => ⟨inRange, ?_⟩⟩
    obtain ⟨bound, rfl⟩ := List.getElem?_eq_some_iff.mp at_index
    exact sorted.candidate nDef.symm start bound

theorem pickFiles_at (member : found ∈ pickFiles version.levels ikey) :
    ∃ files f, version.levels[found.1]? = some files ∧ files[found.2]? = some f ∧
      (0 < found.1 → InRange ikey.userKey f ∧ ikey ≤ f.largestKey) := by
  rw [pickFiles_eq] at member
  obtain ⟨_, files, at_level, same, index_mem⟩ := mem_searchFrom.mp member
  rw [Nat.zero_add] at same index_mem
  subst same
  obtain ⟨f, at_index, candidate⟩ := searchLevel_at version at_level index_mem
  exact ⟨files, f, at_level, at_index, candidate⟩

theorem mem_pickFiles (at_level : version.levels[level]? = some files) (at_index : files[index]? = some f)
    (inRange : InRange ikey.userKey f) (after : ikey ≤ f.largestKey) :
    (level, index) ∈ pickFiles version.levels ikey := by
  rw [pickFiles_eq]
  refine mem_searchFrom.mpr ⟨level, files, at_level, (Nat.zero_add level).symm, ?_⟩
  exact mem_searchLevel version (by rwa [Nat.zero_add]) at_index inRange after

theorem pickFiles_increasing (ikey : InternalKey κ) :
    (pickFiles version.levels ikey).Pairwise (fun a b => a.1 < b.1 ∨ a.1 = b.1 ∧ a.2 < b.2) := by
  rw [pickFiles_eq]
  exact searchFrom_increasing _ ikey version.levels 0

/-- **The index only saves comparisons.** The picker returns exactly the files
of the search without the index; every file that can hold the lookup key is
among them, and they come level by level in list order, so none comes twice. -/
theorem file_picker_matches_search_without_index (version : Layout κ) (ikey : InternalKey κ) :
    pickFiles version.levels ikey = searchWithoutIndex version.levels ikey ∧
    (∀ (level index : Nat) files f, version.levels[level]? = some files →
      files[index]? = some f → InRange ikey.userKey f → ikey ≤ f.largestKey →
      (level, index) ∈ pickFiles version.levels ikey) ∧
    (pickFiles version.levels ikey).Pairwise (fun a b => a.1 < b.1 ∨ a.1 = b.1 ∧ a.2 < b.2) := by
  exact ⟨pickFiles_eq version ikey, fun _ _ _ _ => mem_pickFiles version, pickFiles_increasing version ikey⟩

/-- Two overlapping files, two files that are apart, and three. -/
def threeLevels : Layout Nat where
  levels :=
    [[(1, 6), (4, 9)], [(1, 3), (5, 8)], [(1, 2), (4, 6), (7, 9)]].map (·.map fun (first, last) =>
      ⟨⟨first, 2, .kTypeValue⟩, ⟨last, 1, .kTypeValue⟩⟩)
  proper := by decide
  sorted := by decide

theorem file_picker_of_threeLevels :
    pickFiles threeLevels.levels ⟨5, 9, .kTypeValue⟩ = [(0, 0), (0, 1), (1, 1), (2, 1)] ∧
      searchWithoutIndex threeLevels.levels ⟨5, 9, .kTypeValue⟩ = [(0, 0), (0, 1), (1, 1), (2, 1)] := by
  have picked : pickFiles threeLevels.levels ⟨5, 9, .kTypeValue⟩ = [(0, 0), (0, 1), (1, 1), (2, 1)] := by decide
  exact ⟨picked, (file_picker_matches_search_without_index threeLevels _).1 ▸ picked⟩

end Rocksdb.FilePickerProofs
