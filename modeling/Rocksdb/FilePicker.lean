import Rocksdb.DbFormat

/-! Choosing the files of a version a point lookup reads: `FileIndexer`
(`db/file_indexer.cc`) precomputes, for each file, bounds on the files of the
next level, and `FilePicker` (`db/version_set.cc`) narrows its binary search
of each level with the bounds found in the level above. The indices are the
`int32_t` of the source, as integers; a level holds fewer than `2^31` files. -/
namespace Rocksdb.FilePicker

variable {κ : Type} [LinearOrder κ]

/-- `FdWithKeyRange`: the recorded boundaries of one table file. -/
structure FdWithKeyRange (κ : Type) where
  smallestKey : InternalKey κ
  largestKey : InternalKey κ

/-- `FileIndexer::kLevelMaxIndex`: no right bound is known. -/
def kLevelMaxIndex : Int := 2 ^ 31 - 1

/-- `IndexUnit`: bounds on the files of the next level, one for each outcome
of comparing a key with the two boundaries of a file. -/
structure IndexUnit where
  smallestLb : Int
  largestLb : Int
  smallestRb : Int
  largestRb : Int

/-- `CalculateLB`: both levels are walked upwards, and the walk over the lower
files resumes where the previous upper file stopped it. `passes u l` is
`cmp_op(u, l) > 0`. -/
def calculateLB (passes : α → α → Bool) (lower : List α) : Nat → List α → List Int
  | _, [] => []
  | lowerIdx, u :: upper =>
    let lowerIdx := lowerIdx + (lower.drop lowerIdx).findIdx (fun l => !passes u l)
    (lowerIdx : Int) :: calculateLB passes lower lowerIdx upper

/-- `CalculateRB` walks both levels downwards. `upper` and `lower` come in
reverse, `skipped` counts the lower files already passed, and `passes u l` is
`cmp_op(u, l) < 0`. The bounds come out in reverse too. -/
def calculateRB (passes : α → α → Bool) (lower : List α) : Nat → List α → List Int
  | _, [] => []
  | skipped, u :: upper =>
    let skipped := skipped + (lower.drop skipped).findIdx (fun l => !passes u l)
    ((lower.length : Int) - 1 - skipped) :: calculateRB passes lower skipped upper

/-- The four arrays `UpdateIndex` computes for two neighbouring levels. -/
def indexUnits (upper lower : List (FdWithKeyRange κ)) : List IndexUnit :=
  let smallestLb := calculateLB (fun u l => l.largestKey.userKey < u.smallestKey.userKey) lower 0 upper
  let largestLb := calculateLB (fun u l => l.largestKey.userKey < u.largestKey.userKey) lower 0 upper
  let smallestRb := (calculateRB
    (fun u l => u.smallestKey.userKey < l.smallestKey.userKey) lower.reverse 0 upper.reverse).reverse
  let largestRb := (calculateRB
    (fun u l => u.largestKey.userKey < l.smallestKey.userKey) lower.reverse 0 upper.reverse).reverse
  (smallestLb.zip largestLb).zip (smallestRb.zip largestRb) |>.map
    fun ((slb, llb), (srb, lrb)) => ⟨slb, llb, srb, lrb⟩

variable (levels : List (List (FdWithKeyRange κ))) (ikey : InternalKey κ)

/-- The index `UpdateIndex` leaves behind for a level: level 0 and the last
level have none. -/
def nextLevelIndex (level : Nat) : List IndexUnit :=
  if 0 < level ∧ level + 1 < levels.length then
    indexUnits (levels[level]?.getD []) (levels[level + 1]?.getD [])
  else []

/-- `level_rb_`: the last file of a level. -/
def levelRb (level : Nat) : Int :=
  ((levels[level]?.getD []).length : Int) - 1

/-- `GetNextLevelIndex`: the two bounds on the next level. -/
def getNextLevelIndex (level fileIndex : Nat)
    (cmpSmallest cmpLargest : Ordering) : Int × Int :=
  -- last level, no hint
  if level + 1 = levels.length then (0, -1)
  else
    let units := nextLevelIndex levels level
    let unit := units[fileIndex]?.getD ⟨0, 0, -1, -1⟩
    match cmpSmallest, cmpLargest with
    | .lt, _ =>
      (if 0 < level ∧ 0 < fileIndex then (units[fileIndex - 1]?.getD ⟨0, 0, -1, -1⟩).largestLb
        else 0, unit.smallestRb)
    | .eq, _ => (unit.smallestLb, unit.smallestRb)
    | .gt, .lt => (unit.smallestLb, unit.largestRb)
    | .gt, .eq => (unit.largestLb, unit.largestRb)
    | .gt, .gt => (unit.largestLb, levelRb levels (level + 1))

/-- `FindFileInRange`: `std::lower_bound` over the files `[left, right)`. -/
def findFileInRange (files : List (FdWithKeyRange κ)) (ikey : InternalKey κ) (left right : Nat) : Nat :=
  left + ((files.drop left).take (right - left)).findIdx (fun f => ikey ≤ f.largestKey)

/-- The search state of a `FilePicker`. -/
structure State where
  currLevel : Nat
  searchLeftBound : Int
  searchRightBound : Int
  searchEnded : Bool
  currIndexInCurrLevel : Nat

/-- `PrepareNextLevel`, from the level about to be searched and the levels
from it on. -/
def prepareLevel : Nat → List (List (FdWithKeyRange κ)) → Int → Int → State
  | level, [], left, right => ⟨level, left, right, true, 0⟩
  | level, files :: deeper, left, right =>
    if files = [] then
      -- an empty level gives no hint: search all files of the next one
      prepareLevel (level + 1) deeper 0 kLevelMaxIndex
    else if level = 0 then ⟨level, left, right, false, 0⟩
    else if left ≤ right then
      let right := if right = kLevelMaxIndex then (files.length : Int) - 1 else right
      let startIndex := findFileInRange files ikey left.toNat (right + 1).toNat
      if (startIndex : Int) = right + 1 then
        -- the lookup key comes after the right bound
        prepareLevel (level + 1) deeper 0 kLevelMaxIndex
      else ⟨level, left, right, false, startIndex⟩
    else prepareLevel (level + 1) deeper 0 kLevelMaxIndex

/-- `PrepareNextLevel` of a search state. -/
def prepareNextLevel (st : State) : State :=
  prepareLevel ikey (st.currLevel + 1) (levels.drop (st.currLevel + 1)) st.searchLeftBound st.searchRightBound

/-- The constructor of `FilePicker` prepares the first level. -/
def newPicker : State :=
  prepareLevel ikey 0 levels 0 kLevelMaxIndex

/-- `GetNextFile`: the loops over levels and over the files of a level. The
returned file is named by its level and its index there. `fuel` bounds the
iterations; `pickFiles` gives enough. -/
def getNextFile : Nat → State → Option (Nat × Nat) × State
  | 0, st => (none, st)
  | fuel + 1, st =>
    if st.searchEnded then (none, st)
    else
      let files := levels[st.currLevel]?.getD []
      match files[st.currIndexInCurrLevel]? with
      | none => getNextFile fuel (prepareNextLevel levels ikey st)
      | some f =>
        let found := (st.currLevel, st.currIndexInCurrLevel)
        let next := { st with currIndexInCurrLevel := st.currIndexInCurrLevel + 1 }
        if 1 < levels.length ∨ 3 < files.length then
          let cmpSmallest := cmp ikey.userKey f.smallestKey.userKey
          let cmpLargest :=
            if cmpSmallest = .lt then .lt else cmp ikey.userKey f.largestKey.userKey
          if st.currLevel = 0 then
            if cmpSmallest = .lt ∨ cmpLargest = .gt then getNextFile fuel next
            else (some found, next)
          else
            let bounds := getNextLevelIndex levels st.currLevel st.currIndexInCurrLevel cmpSmallest cmpLargest
            let hinted := { st with searchLeftBound := bounds.1, searchRightBound := bounds.2 }
            if cmpSmallest = .lt ∨ cmpLargest = .gt then
              -- the key falls out of the file's range: search the next level
              getNextFile fuel (prepareNextLevel levels ikey hinted)
            else if cmpLargest = .lt then
              -- no more files to search in this level
              (some found, prepareNextLevel levels ikey hinted)
            else
              (some found, { hinted with currIndexInCurrLevel := st.currIndexInCurrLevel + 1 })
        else (some found, next)

/-- The iterations a whole search can take. -/
def budget : Nat :=
  (levels.map (·.length + 1)).sum

/-- Every file a caller gets by calling `GetNextFile` until it answers null. -/
def pickLoop : Nat → State → List (Nat × Nat)
  | 0, _ => []
  | fuel + 1, st =>
    match getNextFile levels ikey (budget levels + 1) st with
    | (none, _) => []
    | (some found, st) => found :: pickLoop fuel st

def pickFiles : List (Nat × Nat) :=
  pickLoop levels ikey (budget levels + 1) (newPicker levels ikey)

end Rocksdb.FilePicker
