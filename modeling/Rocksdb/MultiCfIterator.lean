import Rocksdb.BinaryHeap
import Rocksdb.Lib.Cursor
import Rocksdb.Lib.LittleEndian
import Mathlib.Data.List.Lex

/-! The coalescing iterator (`db/multi_cf_iterator_impl.h`, `db/coalescing_iterator.{h,cc}`):
one iterator over several column families, with a heap of the iterators of the families.
The iterator of a family is a cursor over what the family shows. What happens when it
reports errors is said at the end. -/
namespace Rocksdb.MultiCf
open Heaps Lib.Cursor Lib.LittleEndian

variable {κ : Type} [LinearOrder κ]

/-- Bytes are compared as numbers, and names of columns byte by byte. -/
instance linearOrderUInt8 : LinearOrder UInt8 where
  le_refl := UInt8.le_refl
  le_trans _ _ _ := UInt8.le_trans
  le_antisymm _ _ := UInt8.le_antisymm
  le_total := UInt8.le_total
  lt_iff_le_not_ge a b := by
    rw [UInt8.lt_iff_toNat_lt, UInt8.le_iff_toNat_le, UInt8.le_iff_toNat_le]
    omega
  toDecidableLE := inferInstance
  toDecidableEq := inferInstance
  toDecidableLT := inferInstance

structure WideColumn where
  name : Bytes
  value : Bytes
  deriving DecidableEq

/-- A user key and its columns, as the iterator of a family returns them. -/
structure Entry (κ : Type) where
  key : κ
  columns : List WideColumn

/-- What a column family shows. -/
structure Family (κ : Type) [LinearOrder κ] where
  entries : List (Entry κ)
  sorted : entries.Pairwise (fun a b => a.key < b.key)
  columnsSorted : ∀ e ∈ entries, e.columns.Pairwise (fun a b => a.name < b.name)

def Family.tracks (f : Family κ) : Tracks (Entry κ) κ where
  forward := f.entries
  backward := f.entries
  before a b := a.key < b.key
  atOrAfter target e := target ≤ e.key
  atOrBefore target e := e.key ≤ target

/-- The iterator of a family. -/
structure ChildIter (κ : Type) [LinearOrder κ] where
  family : Family κ
  here : Option (Entry κ)

def ChildIter.step (call : Call κ) (child : ChildIter κ) : ChildIter κ :=
  { child with here := child.family.tracks.step child.here call }

/-- Which heap the variant `heap_` holds. -/
inductive HeapType where
  | min
  | max
  deriving DecidableEq

/-- The members of a `CoalescingIterator` and of its `MultiCfIteratorImpl`. An item of the heap is the number of an
iterator, its `order`. -/
structure CoalescingIterator (κ : Type) [LinearOrder κ] where
  children : List (ChildIter κ)
  allowUnpreparedValue : Bool
  heapType : HeapType
  heap : BinaryHeap Nat
  value : Bytes
  wideColumns : List WideColumn

/-- The entry of the iterator of an item. -/
def entryOf (children : List (ChildIter κ)) (item : Nat) : Option (Entry κ) := children[item]?.bind ChildIter.here

/-- The key of the iterator of an item, which is defined if the iterator is valid. -/
def keyOf (children : List (ChildIter κ)) (item : Nat) : WithBot κ := (entryOf children item).map Entry.key

/-- `MultiCfHeapItemComparator`. -/
def itemLess (heapType : HeapType) (children : List (ChildIter κ)) (a b : Nat) : Bool :=
  if keyOf children a = keyOf children b then b < a
  else
    match heapType with
    | .min => keyOf children b < keyOf children a
    | .max => keyOf children a < keyOf children b

/-- `WideColumnWithOrderComparator`. -/
def columnLess (a b : WideColumn × Nat) : Bool := if a.1.name = b.1.name then b.2 < a.2 else b.1.name < a.1.name

/-- The loop of `Coalesce`. -/
def coalesceLoop (heap : BinaryHeap (WideColumn × Nat)) (current : WideColumn × Nat) (wideColumns : List WideColumn) :
    List WideColumn :=
  match _ : heap.top? with
  | none => wideColumns ++ [current.1]
  | some top =>
    coalesceLoop (heap.pop columnLess) top
      (if current.1.name < top.1.name then wideColumns ++ [current.1] else wideColumns)
  termination_by heap.size
  decreasing_by exact BinaryHeap.size_pop_lt columnLess ‹_›

/-- The columns of an item, each with the order of the item. -/
def columnsOf (children : List (ChildIter κ)) (item : Nat) : List (WideColumn × Nat) :=
  (((entryOf children item).map Entry.columns).getD []).map (·, item)

/-- The columns without their orders, and without those that a later one replaces. -/
def coalesceColumns (columns : List (WideColumn × Nat)) (wideColumns : List WideColumn) : List WideColumn :=
  let heap := columns.foldl (fun heap column => heap.push columnLess column) BinaryHeap.empty
  match heap.top? with
  | none => wideColumns
  | some current => coalesceLoop (heap.pop columnLess) current wideColumns

namespace CoalescingIterator
variable (it : CoalescingIterator κ)

/-- An iterator that has not been positioned. -/
def new (families : List (Family κ)) (allowUnpreparedValue : Bool) : CoalescingIterator κ where
  children := families.map fun family => ⟨family, none⟩
  allowUnpreparedValue
  heapType := .min
  heap := .empty
  value := []
  wideColumns := []

def valid : Bool := it.heap.top?.isSome

def key : Option κ := (it.heap.top?.bind (entryOf it.children)).map Entry.key

def less : Nat → Nat → Bool := itemLess it.heapType it.children

def reset : CoalescingIterator κ := { it with value := [], wideColumns := [] }

/-- `Coalesce`. -/
def coalesce (items : List Nat) : CoalescingIterator κ :=
  let wideColumns := coalesceColumns (items.flatMap (columnsOf it.children)) it.wideColumns
  { it with
    wideColumns
    value :=
      match wideColumns with
      | [] => it.value
      | first :: _ => if first.name = [] then first.value else it.value }

/-- The loop of `PopulateIterator`: items with the key of the top are taken off the heap. -/
def populateLoop (less : Nat → Nat → Bool) (children : List (ChildIter κ)) (top : Nat) (heap : BinaryHeap Nat)
    (toPopulate : List Nat) : BinaryHeap Nat × List Nat :=
  match _ : heap.top? with
  | none => (heap, toPopulate)
  | some current =>
    if keyOf children current ≠ keyOf children top then (heap, toPopulate)
    else populateLoop less children top (heap.pop less) (toPopulate ++ [current])
  termination_by heap.size
  decreasing_by exact BinaryHeap.size_pop_lt less ‹_›

/-- `PopulateIterator`. -/
def populateIterator : CoalescingIterator κ :=
  match it.heap.top? with
  | none => it
  | some top =>
    let (heap, toPopulate) := populateLoop it.less it.children top (it.heap.pop it.less) [top]
    coalesce { it with heap := toPopulate.foldl (fun heap item => heap.push it.less item) heap } toPopulate

/-- The items of the key of the top, as `PopulateIterator` takes them off the heap. -/
def toPopulate : List Nat :=
  match it.heap.top? with
  | none => []
  | some top => (populateLoop it.less it.children top (it.heap.pop it.less) [top]).2

/-- The end of `SeekCommon` and of `AdvanceIterator`. -/
def populate : CoalescingIterator κ :=
  if !it.allowUnpreparedValue && it.valid then it.populateIterator else it

def prepareValue : CoalescingIterator κ := if !it.allowUnpreparedValue then it else it.populateIterator

def stepChild (call : Call κ) (item : Nat) : CoalescingIterator κ :=
  { it with children := it.children.modify item (ChildIter.step call) }

/-- The iterator of an item moves, and the item goes to the heap if the iterator is valid. -/
def stepAndPush (call : Call κ) (item : Nat) : CoalescingIterator κ :=
  let it := it.stepChild call item
  if (entryOf it.children item).isSome then { it with heap := it.heap.push it.less item } else it

/-- `GetHeap` for a call that seeks. -/
def getHeap (heapType : HeapType) : CoalescingIterator κ :=
  if it.heapType = heapType then it else { it with heapType, heap := .empty }

/-- `SeekCommon`. -/
def seekCommon (call : Call κ) : CoalescingIterator κ :=
  ((List.range it.children.length).foldl (fun (it : CoalescingIterator κ) item => it.stepAndPush call item)
    { it.reset with heap := .empty }).populate

/-- The loop of `AdvanceIterator`. A round moves another iterator, so that there are fewer rounds than items. -/
def advanceLoop (call : Call κ) (top : Nat) : Nat → CoalescingIterator κ → Option (CoalescingIterator κ)
  | 0, _ => none
  | rounds + 1, it =>
    match it.heap.top? with
    | none => some it
    | some current =>
      if keyOf it.children current ≠ keyOf it.children top then some it
      else
        let it := it.stepChild call current
        advanceLoop call top rounds
          { it with
            heap :=
              if (entryOf it.children current).isSome then it.heap.replaceTop it.less current else it.heap.pop it.less }

/-- `AdvanceIterator`. -/
def advanceIterator (call : Call κ) : Option (CoalescingIterator κ) :=
  let it := it.reset
  match it.heap.top? with
  | none => some it
  | some top =>
    let it := { it with heap := it.heap.pop it.less }
    (advanceLoop call top (it.heap.size + 1) it).map fun it => (it.stepAndPush call top).populate

/-- One call. `Next` and `Prev` are only defined on an iterator that is valid. -/
def step : Call κ → Option (CoalescingIterator κ)
  | .seekToFirst => some ((it.getHeap .min).seekCommon .seekToFirst)
  | .seek target => some ((it.getHeap .min).seekCommon (.seek target))
  | .seekToLast => some ((it.getHeap .max).seekCommon .seekToLast)
  | .seekForPrev target => some ((it.getHeap .max).seekCommon (.seekForPrev target))
  | .next =>
    match it.key with
    | none => none
    | some target =>
      match it.heapType with
      | .min => it.advanceIterator .next
      | .max => ((it.getHeap .min).seekCommon (.seek target)).advanceIterator .next
  | .prev =>
    match it.key with
    | none => none
    | some target =>
      match it.heapType with
      | .max => it.advanceIterator .prev
      | .min => ((it.getHeap .max).seekCommon (.seekForPrev target)).advanceIterator .prev

def run (calls : List (Call κ)) : Option (CoalescingIterator κ) := calls.foldlM step it

end CoalescingIterator

/-! ## Errors of the iterators of the families -/

/-- The errors that the iterators report in one pass over them: when they move, and when their value is prepared. -/
structure Faults (ε : Type) where
  move : Nat → Option ε
  prepare : Nat → Option ε

inductive Operation (κ : Type) where
  | move (call : Call κ)
  | prepareValue

/-- The iterator with its `status_`, and all errors that the iterators of the families have reported to it. -/
structure Reporting (κ ε : Type) [LinearOrder κ] where
  it : CoalescingIterator κ
  status : Option ε
  reported : List ε

namespace Reporting
variable {ε : Type} (r : Reporting κ ε) (turn faults : Faults ε)

def new (families : List (Family κ)) (allowUnpreparedValue : Bool) : Reporting κ ε :=
  ⟨.new families allowUnpreparedValue, none, []⟩

def valid : Bool := r.it.valid && r.status.isNone

def clear : Reporting κ ε := { r with it := { r.it with heap := .empty } }

/-- An iterator reports an error and is not valid. Of all errors `considerStatus` keeps the first. -/
def fail (item : Nat) (error : ε) : Reporting κ ε where
  it := { r.it with children := r.it.children.modify item ({ · with here := none }) }
  status := r.status.or (some error)
  reported := r.reported ++ [error]

def moveChild (call : Call κ) (item : Nat) : Reporting κ ε :=
  match faults.move item with
  | none => { r with it := r.it.stepChild call item }
  | some error => r.fail item error

/-- `PopulateIterator`: the first iterator that cannot prepare its value ends the call. -/
def populateIterator : Reporting κ ε :=
  match r.it.toPopulate.findSome? fun item => (faults.prepare item).map (item, ·) with
  | none => { r with it := r.it.populateIterator }
  | some (item, error) => (r.fail item error).clear

def populate : Reporting κ ε :=
  if !r.it.allowUnpreparedValue && r.it.valid then r.populateIterator faults else r

/-- The loop of `SeekCommon` and what comes after it. `AdvanceIterator` ends in the same way, with its top. -/
def pushLoop (call : Call κ) : List Nat → Reporting κ ε → Reporting κ ε
  | [], r => r.populate faults
  | item :: items, r =>
    let r := r.moveChild faults call item
    if (entryOf r.it.children item).isSome then
      pushLoop call items { r with it := { r.it with heap := r.it.heap.push r.it.less item } }
    else if r.status.isSome then r.clear
    else pushLoop call items r

def seekCommon (heapType : HeapType) (call : Call κ) : Reporting κ ε :=
  pushLoop faults call (List.range r.it.children.length)
    { r with it := { (r.it.getHeap heapType).reset with heap := .empty } }

/-- The loop of `AdvanceIterator`, which an error ends. -/
def advanceLoop (call : Call κ) (top : Nat) : Nat → Reporting κ ε → Option (Reporting κ ε)
  | 0, _ => none
  | rounds + 1, r =>
    match r.it.heap.top? with
    | none => some r
    | some current =>
      if keyOf r.it.children current ≠ keyOf r.it.children top then some r
      else
        let r := r.moveChild faults call current
        if (entryOf r.it.children current).isSome then
          advanceLoop call top rounds { r with it := { r.it with heap := r.it.heap.replaceTop r.it.less current } }
        else if r.status.isSome then some r.clear
        else advanceLoop call top rounds { r with it := { r.it with heap := r.it.heap.pop r.it.less } }

def advanceIterator (call : Call κ) : Option (Reporting κ ε) :=
  let r := { r with it := r.it.reset }
  match r.it.heap.top? with
  | none => some r
  | some top =>
    let it := { r.it with heap := r.it.heap.pop r.it.less }
    (advanceLoop faults call top (it.heap.size + 1) { r with it }).map fun r =>
      if r.status.isSome then r else pushLoop faults call [top] r

/-- `Next` and `Prev`: an iterator with the other heap first seeks its own key. -/
def advance (heapType : HeapType) (back : κ → Call κ) (call : Call κ) : Option (Reporting κ ε) :=
  if !r.valid then none
  else
    r.it.key.bind fun target =>
      if r.it.heapType = heapType then r.advanceIterator faults call
      else (r.seekCommon turn heapType (back target)).advanceIterator faults call

/-- One operation, with the errors during it: `turn` is for the seek of an iterator that turns round. -/
def step : Operation κ → Option (Reporting κ ε)
  | .move .seekToFirst => some (r.seekCommon faults .min .seekToFirst)
  | .move (.seek target) => some (r.seekCommon faults .min (.seek target))
  | .move .seekToLast => some (r.seekCommon faults .max .seekToLast)
  | .move (.seekForPrev target) => some (r.seekCommon faults .max (.seekForPrev target))
  | .move .next => r.advance turn faults .min .seek .next
  | .move .prev => r.advance turn faults .max .seekForPrev .prev
  | .prepareValue =>
    if !r.valid then none else if !r.it.allowUnpreparedValue then some r else some (r.populateIterator faults)

def run (history : List (Operation κ × Faults ε × Faults ε)) : Option (Reporting κ ε) :=
  history.foldlM (fun r entry => r.step entry.2.1 entry.2.2 entry.1) r

end Reporting

end Rocksdb.MultiCf
