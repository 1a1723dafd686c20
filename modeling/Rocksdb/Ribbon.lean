import Rocksdb.Lib.Memory
import Mathlib.Logic.Function.Basic

/-! Ribbon filters (`util/ribbon_alg.h`): banding, which is Gaussian elimination on the
fly, back substitution to the simple and to the interleaved storage, and queries. A
coefficient row has `w` bits and a result row `r` bits; slots, blocks and segments are
counted by numbers. -/
namespace Rocksdb.Ribbon
open Lib

variable {w r : Nat} {α : Type}

/-- `CountTrailingZeroBits` of a row that is not zero. -/
def countTrailingZeroBits (x : BitVec w) : Nat := (List.range w).findIdx fun k => x.getLsbD k

/-- `BitParity`. -/
def bitParity (x : BitVec w) : Bool := (List.range w).foldl (fun parity k => parity ^^ x.getLsbD k) false

/-! ## Banding -/

/-- A coefficient row and a result row. -/
structure Row (w r : Nat) where
  cr : BitVec w
  rr : BitVec r

/-- `BandingStorage`. What it gives for unconstrained rows in back substitution is up to the storage. -/
structure BandingStorage (w r : Nat) where
  numStarts : Nat
  rows : Nat → Row w r
  unconstrained : Nat → BitVec r
  usePrefetch : Bool

namespace BandingStorage

def numSlots (bs : BandingStorage w r) : Nat := bs.numStarts + w - 1

def loadRow (bs : BandingStorage w r) (i : Nat) (forBackSubst : Bool) : Row w r :=
  if forBackSubst && (bs.rows i).cr = 0 then ⟨0, bs.unconstrained i⟩ else bs.rows i

def storeRow (bs : BandingStorage w r) (i : Nat) (row : Row w r) : BandingStorage w r :=
  { bs with rows := Function.update bs.rows i row }

/-- A storage to which nothing has been added. -/
def empty (numStarts : Nat) (unconstrained : Nat → BitVec r) (usePrefetch : Bool) : BandingStorage w r :=
  ⟨numStarts, fun _ => ⟨0, 0⟩, unconstrained, usePrefetch⟩

end BandingStorage

/-- `BandingHasher`, with what its concept asks for. -/
structure BandingHasher (α : Type) (w r : Nat) where
  Hash : Type
  getHash : α → Hash
  getStart : Hash → Nat → Nat
  getCoeffRow : Hash → BitVec w
  getResultRowFromInput : α → BitVec r
  getResultRowFromHash : Hash → BitVec r
  firstCoeffAlwaysOne : Bool
  getStart_lt : ∀ h numStarts, 0 < numStarts → getStart h numStarts < numStarts
  getCoeffRow_ne : ∀ h, getCoeffRow h ≠ 0
  getCoeffRow_one : ∀ h, firstCoeffAlwaysOne = true → (getCoeffRow h).getLsbD 0 = true

/-- The storage and the slots to clear if the range is rolled back. -/
structure Banding (w r : Nat) where
  bs : BandingStorage w r
  backtrack : List Nat

/-- The loop of `BandingAdd`. A round goes to a later slot, so that there are at most as many rounds as slots. -/
def bandingAddLoop (st : Banding w r) : Nat → Nat → Row w r → Option (Bool × Banding w r)
  | 0, _, _ => none
  | rounds + 1, i, row =>
    let atI := st.bs.loadRow i false
    if atI.cr = 0 then some (true, ⟨st.bs.storeRow i row, st.backtrack ++ [i]⟩)
    else
      let cr := row.cr ^^^ atI.cr
      let rr := row.rr ^^^ atI.rr
      if cr = 0 then some (rr = 0, st)
      else
        let tz := countTrailingZeroBits cr
        bandingAddLoop st rounds (i + tz) ⟨cr >>> tz, rr⟩

/-- `BandingAdd`. -/
def bandingAdd (firstCoeffAlwaysOne : Bool) (st : Banding w r) (start : Nat) (rr : BitVec r) (cr : BitVec w) :
    Option (Bool × Banding w r) :=
  let tz := if firstCoeffAlwaysOne then 0 else countTrailingZeroBits cr
  bandingAddLoop st st.bs.numSlots (start + tz) ⟨cr >>> tz, rr⟩

section Range
variable (bh : BandingHasher α w r)

/-- The loop of `BandingAddRange` without prefetch. -/
def simpleLoop : List α → Banding w r → Option (Bool × Banding w r)
  | [], st => some (true, st)
  | cur :: rest, st =>
    let h := bh.getHash cur
    let start := bh.getStart h st.bs.numStarts
    let rr := bh.getResultRowFromInput cur ||| bh.getResultRowFromHash h
    match bandingAdd bh.firstCoeffAlwaysOne st start rr (bh.getCoeffRow h) with
    | some (true, st) => simpleLoop rest st
    | failed => failed

/-- The pipelined loop: the next input is hashed before the current one is added. -/
def pipelinedLoop : List α → bh.Hash → Nat → BitVec r → Banding w r → Option (Bool × Banding w r)
  | [], h, start, rr, st =>
    bandingAdd bh.firstCoeffAlwaysOne st start (rr ||| bh.getResultRowFromHash h) (bh.getCoeffRow h)
  | cur :: rest, h, start, rr, st =>
    let nextH := bh.getHash cur
    let nextStart := bh.getStart nextH st.bs.numStarts
    let nextRr := bh.getResultRowFromInput cur
    match bandingAdd bh.firstCoeffAlwaysOne st start (rr ||| bh.getResultRowFromHash h) (bh.getCoeffRow h) with
    | some (true, st) => pipelinedLoop rest nextH nextStart nextRr st
    | failed => failed

/-- The slots of a failed range are cleared, the last one first. -/
def rollBack (st : Banding w r) : BandingStorage w r :=
  st.backtrack.reverse.foldl (fun bs i => bs.storeRow i ⟨0, 0⟩) st.bs

/-- `BandingAddRange` up to its end or its failure. -/
def addInputs (bs : BandingStorage w r) : List α → Option (Bool × Banding w r)
  | [] => some (true, ⟨bs, []⟩)
  | first :: rest =>
    if !bs.usePrefetch then simpleLoop bh (first :: rest) ⟨bs, []⟩
    else
      let h := bh.getHash first
      pipelinedLoop bh rest h (bh.getStart h bs.numStarts) (bh.getResultRowFromInput first) ⟨bs, []⟩

/-- `BandingAddRange`. -/
def bandingAddRange (useBacktrack : Bool) (bs : BandingStorage w r) (inputs : List α) :
    Option (Bool × BandingStorage w r) :=
  (addInputs bh bs inputs).map fun result =>
    (result.1, if !result.1 && useBacktrack then rollBack result.2 else result.2.bs)

end Range

/-! ## Back substitution -/

/-- The next solution bit of a column and the column that ends with it. -/
def backSubstColumn (row : Row w r) (column : BitVec w) (j : Nat) : Bool × BitVec w :=
  let tmp := column <<< 1
  let bit := bitParity (tmp &&& row.cr) ^^ (row.rr >>> j).getLsbD 0
  (bit, tmp ||| (if bit then 1#w else 0#w))

/-- `SimpleSolutionStorage`. -/
structure SimpleSolution (r : Nat) where
  numStarts : Nat
  rows : Nat → BitVec r

/-- One row of `SimpleBackSubst`: the solution row and the new state. -/
def simpleBackSubstRow (row : Row w r) (state : Nat → BitVec w) : BitVec r × (Nat → BitVec w) :=
  (List.range r).foldl (fun acc j =>
    let next := backSubstColumn row (acc.2 j) j
    (acc.1 ||| ((if next.1 then 1#r else 0#r) <<< j), Function.update acc.2 j next.2)) (0, state)

/-- The loop of `SimpleBackSubst`, from the last slot to the first. -/
def simpleBackSubstLoop (bs : BandingStorage w r) : Nat → (Nat → BitVec w) → (Nat → BitVec r) → Nat → BitVec r
  | 0, _, rows => rows
  | i + 1, state, rows =>
    let next := simpleBackSubstRow (bs.loadRow i true) state
    simpleBackSubstLoop bs i next.2 (Function.update rows i next.1)

/-- `SimpleBackSubst`, whatever was in the storage. -/
def simpleBackSubst (sss : SimpleSolution r) (bs : BandingStorage w r) : SimpleSolution r :=
  ⟨bs.numStarts, simpleBackSubstLoop bs bs.numSlots (fun _ => 0) sss.rows⟩

/-- `InterleavedSolutionStorage`: blocks before `upperStartBlock` have one column less than the others. -/
structure InterleavedSolution (w : Nat) where
  numStarts : Nat
  upperNumColumns : Nat
  upperStartBlock : Nat
  segments : Nat → BitVec w

namespace InterleavedSolution

def numBlocks (iss : InterleavedSolution w) : Nat := (iss.numStarts + w - 1) / w

/-- `GetNumSegments`; all available segments are used. -/
def numSegments (iss : InterleavedSolution w) : Nat :=
  iss.upperStartBlock * (iss.upperNumColumns - 1) + (iss.numBlocks - iss.upperStartBlock) * iss.upperNumColumns

end InterleavedSolution

/-- `BackSubstBlock`, for the slots below the given one of the block. -/
def backSubstBlock (bs : BandingStorage w r) (numColumns startSlot : Nat) : Nat → (Nat → BitVec w) → Nat → BitVec w
  | 0, state => state
  | k + 1, state =>
    let row := bs.loadRow (startSlot + k) true
    backSubstBlock bs numColumns startSlot k
      ((List.range numColumns).foldl (fun state j => Function.update state j (backSubstColumn row (state j) j).2) state)

/-- The variables of `InterleavedBackSubst`. -/
structure Interleaving (w : Nat) where
  state : Nat → BitVec w
  segmentNum : Nat
  segments : Nat → BitVec w

/-- A loop of `InterleavedBackSubst` over some blocks with the same number of columns, the last one first. -/
def backSubstBlocks (bs : BandingStorage w r) (numColumns firstBlock : Nat) : Nat → Interleaving w → Interleaving w
  | 0, st => st
  | n + 1, st =>
    let state := backSubstBlock bs numColumns ((firstBlock + n) * w) w st.state
    let segmentNum := st.segmentNum - numColumns
    backSubstBlocks bs numColumns firstBlock n
      ⟨state, segmentNum, Memory.write st.segments segmentNum ((List.range numColumns).map state)⟩

/-- `InterleavedBackSubst`. -/
def interleavedBackSubst (iss : InterleavedSolution w) (bs : BandingStorage w r) : InterleavedSolution w :=
  let iss := { iss with numStarts := bs.numStarts }
  let numColumns := iss.upperNumColumns
  if numColumns = 0 then iss
  else
    let upper := backSubstBlocks bs numColumns iss.upperStartBlock (iss.numBlocks - iss.upperStartBlock)
      ⟨fun _ => 0, iss.numSegments, iss.segments⟩
    { iss with segments := (backSubstBlocks bs (numColumns - 1) 0 iss.upperStartBlock upper).segments }

/-! ## Queries -/

section Queries
variable (hasher : BandingHasher α w r)

/-- `SimpleQueryHelper`. -/
def simpleQueryHelper (startSlot : Nat) (cr : BitVec w) (sss : SimpleSolution r) : BitVec r :=
  (List.range w).foldl (fun result i =>
    result ^^^ (sss.rows (startSlot + i) &&& (0#r - ((cr >>> i).setWidth r &&& 1#r)))) 0

/-- `SimplePhsfQuery`. -/
def simplePhsfQuery (key : α) (sss : SimpleSolution r) : BitVec r :=
  let hash := hasher.getHash key
  simpleQueryHelper (hasher.getStart hash sss.numStarts) (hasher.getCoeffRow hash) sss

/-- `SimpleFilterQuery`. -/
def simpleFilterQuery (key : α) (sss : SimpleSolution r) : Bool :=
  let hash := hasher.getHash key
  hasher.getResultRowFromHash hash =
    simpleQueryHelper (hasher.getStart hash sss.numStarts) (hasher.getCoeffRow hash) sss

/-- What `InterleavedPrepareQuery` saves. -/
structure PreparedQuery (Hash : Type) where
  hash : Hash
  segmentNum : Nat
  numColumns : Nat
  startBit : Nat

/-- `InterleavedPrepareQuery`. -/
def interleavedPrepareQuery (key : α) (iss : InterleavedSolution w) : PreparedQuery hasher.Hash :=
  let hash := hasher.getHash key
  let startSlot := hasher.getStart hash iss.numStarts
  let startBlockNum := startSlot / w
  { hash
    segmentNum := startBlockNum * iss.upperNumColumns - min startBlockNum iss.upperStartBlock
    numColumns := iss.upperNumColumns - if startBlockNum < iss.upperStartBlock then 1 else 0
    startBit := startSlot % w }

/-- `InterleavedPhsfQuery`. -/
def interleavedPhsfQuery (query : PreparedQuery hasher.Hash) (iss : InterleavedSolution w) : BitVec r :=
  let cr := hasher.getCoeffRow query.hash
  let add (segmentNum : Nat) (cr : BitVec w) (sr : BitVec r) : BitVec r :=
    (List.range query.numColumns).foldl (fun sr i =>
      sr ^^^ ((if bitParity (iss.segments (segmentNum + i) &&& cr) then 1#r else 0#r) <<< i)) sr
  let sr := add query.segmentNum (cr <<< query.startBit) 0
  if 0 < query.startBit then add (query.segmentNum + query.numColumns) (cr >>> (w - query.startBit)) sr else sr

/-- `InterleavedFilterQuery`. -/
def interleavedFilterQuery (query : PreparedQuery hasher.Hash) (iss : InterleavedSolution w) : Bool :=
  let cr := hasher.getCoeffRow query.hash
  let expected := hasher.getResultRowFromHash query.hash
  if query.startBit = 0 then
    (List.range query.numColumns).all fun i =>
      bitParity (iss.segments (query.segmentNum + i) &&& cr) = (expected >>> i).getLsbD 0
  else
    (List.range query.numColumns).all fun i =>
      bitParity ((iss.segments (query.segmentNum + i) &&& cr <<< query.startBit) ^^^
        (iss.segments (query.segmentNum + query.numColumns + i) &&& cr >>> (w - query.startBit))) =
          (expected >>> i).getLsbD 0

end Queries

end Rocksdb.Ribbon
