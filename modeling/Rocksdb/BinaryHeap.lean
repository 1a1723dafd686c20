import Mathlib.Data.List.Perm.Basic

/-! `BinaryHeap` (`util/heap.h`): a heap in a vector whose top is the largest element,
with a cache of the larger child of the root. The comparison is an argument of every
operation, since it may look at state outside the heap; between operations it may only
change at the root. -/
namespace Rocksdb.Heaps

variable {T : Type}

/-- The members of a `BinaryHeap`. The cache holds the index of a child, or none for the largest `size_t`. -/
structure BinaryHeap (T : Type) where
  data : List T
  rootCmpCache : Option {child : Nat // 0 < child}

namespace BinaryHeap

def empty : BinaryHeap T := ⟨[], none⟩

def size (h : BinaryHeap T) : Nat := h.data.length

def top? (h : BinaryHeap T) : Option T := h.data.head?

section Operations
variable (cmp : T → T → Bool)

/-- The loop of `upheap`: the hole moves towards the root. -/
def upheapLoop (v : T) (data : List T) (index : Nat) : List T × Nat :=
  if 0 < index then
    let parent := (index - 1) / 2
    if !cmp (data.getD parent v) v then (data, index)
    else upheapLoop v (data.set index (data.getD parent v)) parent
  else (data, index)
  termination_by index

/-- `push`, with `upheap` of the element at the end. -/
def push (h : BinaryHeap T) (value : T) : BinaryHeap T :=
  let (data, index) := upheapLoop cmp value (h.data ++ [value]) h.data.length
  ⟨data.set index value, none⟩

/-- The larger child of a slot that has a child. -/
def largerChild (data : List T) (v : T) (index : Nat) : Nat :=
  if 2 * index + 2 < data.length ∧ cmp (data.getD (2 * index + 1) v) (data.getD (2 * index + 2) v) then 2 * index + 2
  else 2 * index + 1

variable (cache : Option {child : Nat // 0 < child})

/-- The child that `downheap` compares with. -/
def pickChild (data : List T) (v : T) (index : Nat) : Nat :=
  match cache with
  | none => largerChild cmp data v index
  | some cached => if index = 0 ∧ cached.1 < data.length then cached.1 else largerChild cmp data v index

theorem lt_pickChild (data : List T) (v : T) (index : Nat) : index < pickChild cmp cache data v index := by
  have larger : index < largerChild cmp data v index := by
    unfold largerChild
    split <;> omega
  unfold pickChild
  split
  · exact larger
  · next cached =>
    split
    · next root => exact root.1 ▸ cached.2
    · exact larger

/-- The loop of `downheap`: the hole moves away from the root. -/
def downheapLoop (v : T) (data : List T) (index : Nat)
    (picked : Option {child : Nat // 0 < child}) : List T × Nat × Option {child : Nat // 0 < child} :=
  if 2 * index + 1 < data.length then
    let child := pickChild cmp cache data v index
    have positive : 0 < child := Nat.zero_lt_of_lt (lt_pickChild cmp cache data v index)
    if !cmp v (data.getD child v) then (data, index, some ⟨child, positive⟩)
    else downheapLoop v (data.set index (data.getD child v)) child (some ⟨child, positive⟩)
  else (data, index, picked)
  termination_by data.length - index
  decreasing_by
    have after := lt_pickChild cmp cache data v index
    rw [List.length_set]
    omega

/-- `downheap` of the root. -/
def downheap (v : T) (data : List T) : BinaryHeap T :=
  let (data, index, picked) := downheapLoop cmp cache v data 0 none
  ⟨data.set index v, if index = 0 then picked else none⟩

def replaceTop (h : BinaryHeap T) (value : T) : BinaryHeap T :=
  downheap cmp h.rootCmpCache value (h.data.set 0 value)

/-- `pop`. The last element replaces the root. -/
def pop (h : BinaryHeap T) : BinaryHeap T :=
  match h.data.getLast? with
  | none => h
  | some last =>
    let data := (h.data.set 0 last).dropLast
    match data with
    | [] => ⟨[], none⟩
    | root :: _ => downheap cmp h.rootCmpCache root data

/-! Sizes, for loops that take elements off. -/

private theorem length_downheapLoop (v : T) (data : List T) (index : Nat)
    (picked : Option {child : Nat // 0 < child}) :
    (downheapLoop cmp cache v data index picked).1.length = data.length := by
  fun_induction downheapLoop cmp cache v data index picked with
  | case1 => rfl
  | case2 _ _ _ _ _ _ _ ih => rw [ih, List.length_set]
  | case3 => rfl

private theorem size_downheap (v : T) (data : List T) : (downheap cmp cache v data).size = data.length := by
  rw [size, downheap]
  rw [List.length_set, length_downheapLoop]

theorem size_pop_lt {h : BinaryHeap T} (top : h.top? = some x) : (h.pop cmp).size < h.size := by
  have nonempty : h.data ≠ [] := fun empty => by simp [top?, empty] at top
  have positive : 0 < h.data.length := List.length_pos_iff.mpr nonempty
  rw [pop, List.getLast?_eq_some_getLast nonempty]
  dsimp only
  split
  · exact positive
  · rw [size_downheap, List.length_dropLast, List.length_set]
    exact Nat.sub_lt positive Nat.one_pos

end Operations

/-- The heaps that `push`, `pop`, `replace_top` and `clear` can build, with what has been put in and
not taken out. `pop` and `replace_top` are called on heaps that are not empty. -/
inductive Reached [DecidableEq T] (cmp : T → T → Bool) : BinaryHeap T → List T → Prop where
  | new : Reached cmp empty []
  | push (value : T) : Reached cmp h bag → Reached cmp (h.push cmp value) (value :: bag)
  | pop : Reached cmp h bag → h.top? = some x → Reached cmp (h.pop cmp) (bag.erase x)
  | replaceTop (value : T) : Reached cmp h bag → h.top? = some x →
      Reached cmp (h.replaceTop cmp value) (value :: bag.erase x)
  | clear : Reached cmp h bag → Reached cmp empty []

end BinaryHeap

end Rocksdb.Heaps
