import Rocksdb.BinaryHeap
import Mathlib.Order.Nat

/-! The operations of `BinaryHeap` keep the order of the heap and the cache of the root,
and change the elements as a multiset in the obvious way. -/
namespace Rocksdb.Heaps
open List

variable {T : Type}

/-- Comparisons a heap can work with: neither element of an incomparable pair is less. -/
structure StrictWeak (cmp : T → T → Bool) : Prop where
  asymm : ∀ a b, cmp a b = true → cmp b a = false
  trans : ∀ a b c, cmp a b = false → cmp b c = false → cmp a c = false

theorem StrictWeak.irrefl {cmp : T → T → Bool} (weak : StrictWeak cmp) (a : T) : cmp a a = false := by
  by_contra less
  rw [Bool.not_eq_false] at less
  exact absurd (weak.asymm a a less) (by simp [less])

/-- Slot `c` is a child of slot `p`. -/
def Child (p c : Nat) : Prop := c = 2 * p + 1 ∨ c = 2 * p + 2

theorem Child.lt (child : Child p c) : p < c := by
  rcases child with rfl | rfl <;> omega

theorem Child.parent_unique (first : Child p c) (second : Child q c) : p = q := by
  unfold Child at first second
  omega

theorem Child.parent (positive : 0 < i) : Child ((i - 1) / 2) i := by
  unfold Child
  omega

/-! ## Lists with a hole -/

section Holes
variable {l : List T} {i j : Nat} {v x : T}

theorem getD_of_getElem? (found : l[j]? = some x) : l.getD j v = x := by
  rw [getD_eq_getElem?_getD, found, Option.getD_some]

/-- What stands in a list whose hole has been filled. -/
theorem getElem?_set_cases (inside : i < l.length) (found : (l.set i v)[j]? = some x) :
    j = i ∧ x = v ∨ j ≠ i ∧ l[j]? = some x := by
  by_cases here : j = i
  · rw [here, getElem?_set_self inside] at found
    exact .inl ⟨here, (Option.some.inj found).symm⟩
  · exact .inr ⟨here, (getElem?_set_ne (Ne.symm here)).symm.trans found⟩

/-- Moving an element into the hole moves the hole. -/
theorem set_set_perm (inside : i < l.length) (found : l[j]? = some x) (ne : i ≠ j) (v : T) :
    (l.set i x).set j v ~ l.set i v := by
  obtain ⟨_, rfl⟩ := List.getElem?_eq_some_iff.mp found
  have moved : (l.set i l[j])[j]? = some l[j] := by rw [getElem?_set_ne ne, found]
  obtain ⟨inside', same⟩ := List.getElem?_eq_some_iff.mp moved
  have rest : (l.set i l[j]).eraseIdx j ~ l.eraseIdx i := by
    have whole := getElem_cons_eraseIdx_perm inside'
    rw [same] at whole
    exact (whole.trans (set_perm_cons_eraseIdx inside _)).cons_inv
  exact (set_perm_cons_eraseIdx inside' v).trans ((rest.cons v).trans (set_perm_cons_eraseIdx inside v).symm)

end Holes

/-! ## Order -/

section Order
variable {cmp : T → T → Bool} {data : List T} {hole : Nat} {v : T}

/-- No element is less than a child, as far as the parents `which` go. -/
def Ordered (cmp : T → T → Bool) (which : Nat → Prop) (data : List T) : Prop :=
  ∀ p c x y, Child p c → which p → data[p]? = some x → data[c]? = some y → cmp x y = false

/-- An element in its place. -/
theorem ordered_set (inside : hole < data.length)
    (others : ∀ p c x y, Child p c → p ≠ hole → c ≠ hole → data[p]? = some x → data[c]? = some y → cmp x y = false)
    (above : ∀ p x, Child p hole → data[p]? = some x → cmp x v = false)
    (below : ∀ c y, Child hole c → data[c]? = some y → cmp v y = false) :
    Ordered cmp (fun _ => True) (data.set hole v) := by
  intro p c x y child _ at_p at_c
  have lt := child.lt
  rcases getElem?_set_cases inside at_p with ⟨rfl, rfl⟩ | ⟨p_ne, old_p⟩ <;>
    rcases getElem?_set_cases inside at_c with ⟨rfl, rfl⟩ | ⟨c_ne, old_c⟩
  · exact absurd rfl lt.ne
  · exact below c y child old_c
  · exact above p x child old_p
  · exact others p c x y child p_ne c_ne old_p old_c

/-- A hole through which an element rises. -/
structure Rises (cmp : T → T → Bool) (v : T) (data : List T) (hole : Nat) : Prop where
  inside : hole < data.length
  others : ∀ p c x y, Child p c → c ≠ hole → data[p]? = some x → data[c]? = some y → cmp x y = false
  below : ∀ c y, Child hole c → data[c]? = some y → cmp v y = false
  around : ∀ p c x y, Child p hole → Child hole c → data[p]? = some x → data[c]? = some y → cmp x y = false

theorem Rises.move (weak : StrictWeak cmp) (rises : Rises cmp v data hole) {p : Nat} {x : T} (parent : Child p hole)
    (found : data[p]? = some x) (less : cmp x v = true) : Rises cmp v (data.set hole x) p := by
  have lt := parent.lt
  have belowX (c : Nat) (y : T) (child : Child p c) (at_c : (data.set hole x)[c]? = some y) : cmp x y = false := by
    rcases getElem?_set_cases rises.inside at_c with ⟨rfl, rfl⟩ | ⟨ne, at_c⟩
    · exact weak.irrefl y
    · exact rises.others p c x y child ne found at_c
  constructor
  · rw [length_set]
    exact lt.trans rises.inside
  · intro q c a b child ne at_q at_c
    rcases getElem?_set_cases rises.inside at_q with ⟨rfl, rfl⟩ | ⟨-, old_q⟩
    · have after := child.lt
      rw [getElem?_set_ne after.ne] at at_c
      exact rises.around p c a b parent child found at_c
    · rcases getElem?_set_cases rises.inside at_c with ⟨rfl, -⟩ | ⟨c_ne, at_c⟩
      · obtain rfl := child.parent_unique parent
        cases found.symm.trans old_q
        exact belowX c b parent at_c
      · exact rises.others q c a b child c_ne old_q at_c
  · intro c y child at_c
    exact weak.trans v x y (weak.asymm x v less) (belowX c y child at_c)
  · intro q c a b grand child at_q at_c
    have before := grand.lt
    rw [getElem?_set_ne (by omega)] at at_q
    exact weak.trans a x b (rises.others q p a x grand (by omega) at_q found) (belowX c b child at_c)

theorem Rises.settle (rises : Rises cmp v data hole)
    (stops : ∀ p x, Child p hole → data[p]? = some x → cmp x v = false) :
    Ordered cmp (fun _ => True) (data.set hole v) :=
  ordered_set rises.inside (fun p c x y child _ => rises.others p c x y child) stops rises.below

/-- A hole through which an element sinks. -/
structure Sinks (cmp : T → T → Bool) (v : T) (data : List T) (hole : Nat) : Prop where
  inside : hole < data.length
  others : Ordered cmp (· ≠ hole) data
  above : ∀ p x, Child p hole → data[p]? = some x → cmp x v = false
  around : ∀ p c x y, Child p hole → Child hole c → data[p]? = some x → data[c]? = some y → cmp x y = false

theorem Sinks.move (weak : StrictWeak cmp) (sinks : Sinks cmp v data hole) (child : Child hole c)
    (found : data[c]? = some y) (larger : ∀ d z, Child hole d → data[d]? = some z → cmp y z = false)
    (less : cmp v y = true) : Sinks cmp v (data.set hole y) c := by
  have lt := child.lt
  have atHole {p : Nat} {a : T} (pair : Child p c) (at_p : (data.set hole y)[p]? = some a) : a = y := by
    obtain rfl := pair.parent_unique child
    exact (Option.some.inj ((getElem?_set_self sinks.inside).symm.trans at_p)).symm
  constructor
  · rw [length_set]
    exact (List.getElem?_eq_some_iff.mp found).1
  · intro p d a b pair ne at_p at_d
    have before := pair.lt
    rcases getElem?_set_cases sinks.inside at_p with ⟨rfl, rfl⟩ | ⟨p_ne, old_p⟩
    · rw [getElem?_set_ne before.ne] at at_d
      exact larger d b pair at_d
    · rcases getElem?_set_cases sinks.inside at_d with ⟨rfl, rfl⟩ | ⟨-, old_d⟩
      · exact sinks.around p c a b pair child old_p found
      · exact sinks.others p d a b pair p_ne old_p old_d
  · intro p a pair at_p
    rw [atHole pair at_p]
    exact weak.asymm v y less
  · intro _ d _ b pair grand at_p at_d
    rw [getElem?_set_ne (lt.trans grand.lt).ne] at at_d
    rw [atHole pair at_p]
    exact sinks.others c d y b grand lt.ne' found at_d

theorem Sinks.settle (sinks : Sinks cmp v data hole)
    (stops : ∀ c y, Child hole c → data[c]? = some y → cmp v y = false) :
    Ordered cmp (fun _ => True) (data.set hole v) :=
  ordered_set sinks.inside (fun p c x y child p_ne _ => sinks.others p c x y child p_ne) sinks.above stops

end Order

namespace BinaryHeap
variable {cmp : T → T → Bool} {h : BinaryHeap T}

/-! ## The invariant -/

/-- The cache of the root, if it is used, is a child that is not less than the other one. -/
def Cached (cmp : T → T → Bool) (cache : Option {child : Nat // 0 < child}) (data : List T) : Prop :=
  ∀ cached ∈ cache, ∀ x, data[cached.1]? = some x → Child 0 cached.1 ∧
    ∀ c y, Child 0 c → data[c]? = some y → cmp x y = false

/-- A heap whose root may be out of order. -/
structure Loose (cmp : T → T → Bool) (h : BinaryHeap T) : Prop where
  ordered : Ordered cmp (· ≠ 0) h.data
  cached : Cached cmp h.rootCmpCache h.data

/-- A heap in order. -/
structure Valid (cmp : T → T → Bool) (h : BinaryHeap T) : Prop where
  ordered : Ordered cmp (fun _ => True) h.data
  cached : Cached cmp h.rootCmpCache h.data

theorem Valid.loose (valid : Valid cmp h) : Loose cmp h :=
  ⟨fun p c x y child _ => valid.ordered p c x y child trivial, valid.cached⟩

theorem valid_empty : Valid cmp (empty : BinaryHeap T) := ⟨fun _ _ _ _ _ _ at_p => by simp [empty] at at_p, nofun⟩

variable {x : T}

/-- The order is that of the elements: another comparison that agrees on them will do. -/
theorem Valid.congr (valid : Valid cmp h) (same : ∀ x ∈ h.data, ∀ y ∈ h.data, cmp' x y = cmp x y) : Valid cmp' h := by
  constructor
  · intro p c x y child which at_p at_c
    rw [same x (mem_of_getElem? at_p) y (mem_of_getElem? at_c)]
    exact valid.ordered p c x y child which at_p at_c
  · intro cached used x at_x
    obtain ⟨child, larger⟩ := valid.cached cached used x at_x
    refine ⟨child, fun c y isChild at_c => ?_⟩
    rw [same x (mem_of_getElem? at_x) y (mem_of_getElem? at_c)]
    exact larger c y isChild at_c

/-- The comparison may change at the root. -/
theorem Valid.loosen (valid : Valid cmp h)
    (same : ∀ x ∈ h.data.tail, ∀ y ∈ h.data.tail, cmp' x y = cmp x y) : Loose cmp' h := by
  have inTail {i : Nat} {x : T} (positive : 0 < i) (at_i : h.data[i]? = some x) : x ∈ h.data.tail := by
    obtain ⟨_, rfl⟩ := Nat.exists_eq_succ_of_ne_zero positive.ne'
    exact mem_of_getElem? (getElem?_tail.trans at_i)
  constructor
  · intro p c x y child _ at_p at_c
    have lt := child.lt
    rw [same x (inTail (by omega) at_p) y (inTail (by omega) at_c)]
    exact valid.ordered p c x y child trivial at_p at_c
  · intro cached used x at_x
    obtain ⟨child, larger⟩ := valid.cached cached used x at_x
    refine ⟨child, fun c y isChild at_c => ?_⟩
    rw [same x (inTail cached.2 at_x) y (inTail isChild.lt at_c)]
    exact larger c y isChild at_c

variable (weak : StrictWeak cmp)
include weak

/-- **The top is the largest element.** -/
theorem Valid.top_largest (valid : Valid cmp h) (top : h.top? = some x) : ∀ y ∈ h.data, cmp x y = false := by
  rw [top?, head?_eq_getElem?] at top
  have all (i : Nat) (y : T) : h.data[i]? = some y → cmp x y = false := by
    induction i using Nat.strongRecOn generalizing y with
    | ind i ih =>
      intro at_i
      by_cases root : i = 0
      · subst root
        cases top.symm.trans at_i
        exact weak.irrefl x
      · have parent := Child.parent (Nat.pos_of_ne_zero root)
        obtain ⟨inside, -⟩ := List.getElem?_eq_some_iff.mp at_i
        have at_parent := getElem?_eq_getElem (parent.lt.trans inside)
        exact weak.trans x _ y (ih _ parent.lt _ at_parent) (valid.ordered _ i _ y parent trivial at_parent at_i)
  intro y member
  obtain ⟨i, at_i⟩ := mem_iff_getElem?.mp member
  exact all i y at_i

/-! ## Push -/

private theorem upheapLoop_spec (v : T) (data : List T) (index : Nat) (rises : Rises cmp v data index) :
    let hole := upheapLoop cmp v data index
    Ordered cmp (fun _ => True) (hole.1.set hole.2 v) ∧ hole.1.set hole.2 v ~ data.set index v := by
  induction index using Nat.strongRecOn generalizing data with
  | ind index ih =>
    rw [upheapLoop]
    by_cases positive : 0 < index
    · have parent := Child.parent positive
      obtain ⟨x, found⟩ : ∃ x, data[(index - 1) / 2]? = some x :=
        ⟨_, getElem?_eq_getElem (parent.lt.trans rises.inside)⟩
      rw [if_pos positive]
      dsimp only
      rw [getD_of_getElem? found]
      cases less : cmp x v with
      | true =>
        obtain ⟨ordered, perm⟩ := ih _ parent.lt _ (rises.move weak parent found less)
        exact ⟨ordered, perm.trans (set_set_perm rises.inside found parent.lt.ne' v)⟩
      | false =>
        refine ⟨rises.settle fun p _ isParent at_p => ?_, Perm.refl _⟩
        obtain rfl := isParent.parent_unique parent
        cases found.symm.trans at_p
        exact less
    · rw [if_neg positive]
      refine ⟨rises.settle fun _ _ isParent => ?_, Perm.refl _⟩
      have lt := isParent.lt
      omega

theorem push_spec (valid : Valid cmp h) (value : T) :
    Valid cmp (h.push cmp value) ∧ (h.push cmp value).data ~ value :: h.data := by
  have rises : Rises cmp value (h.data ++ [value]) h.data.length := by
    have noChild (c : Nat) (y : T) (child : Child h.data.length c) : (h.data ++ [value])[c]? ≠ some y := by
      have lt := child.lt
      rw [getElem?_eq_none (by simp; omega)]
      exact Option.some_ne_none y |>.symm
    refine ⟨by simp, fun p c x y child _ at_p at_c => ?_, fun c y child at_c => absurd at_c (noChild c y child),
      fun p c x y _ child _ at_c => absurd at_c (noChild c y child)⟩
    obtain ⟨inside, -⟩ := List.getElem?_eq_some_iff.mp at_c
    rw [length_append, length_singleton] at inside
    have lt := child.lt
    rw [getElem?_append_left (by omega)] at at_p at_c
    exact valid.ordered p c x y child trivial at_p at_c
  obtain ⟨ordered, perm⟩ := upheapLoop_spec weak value _ _ rises
  refine ⟨⟨ordered, fun _ used => absurd used (Option.not_mem_none _)⟩, perm.trans ?_⟩
  rw [set_append_right _ _ (Nat.le_refl _), Nat.sub_self, set_cons_zero]
  exact perm_append_singleton value h.data

theorem pushAll_spec (valid : Valid cmp h) (values : List T) :
    Valid cmp (values.foldl (fun h value => h.push cmp value) h) ∧
      (values.foldl (fun h value => h.push cmp value) h).data ~ values ++ h.data := by
  induction values generalizing h with
  | nil => exact ⟨valid, Perm.refl _⟩
  | cons value values ih =>
    obtain ⟨pushed, perm⟩ := push_spec weak valid value
    obtain ⟨all, permAll⟩ := ih pushed
    exact ⟨all, permAll.trans ((perm.append_left values).trans perm_middle)⟩

/-! ## Replacing and removing the root -/

private theorem largerChild_spec {data : List T} (v : T) (inside : 2 * index + 1 < data.length) :
    ∃ y, data[largerChild cmp data v index]? = some y ∧ Child index (largerChild cmp data v index) ∧
      ∀ d z, Child index d → data[d]? = some z → cmp y z = false := by
  obtain ⟨left, atLeft⟩ : ∃ left, data[2 * index + 1]? = some left := ⟨_, getElem?_eq_getElem inside⟩
  rw [largerChild, getD_of_getElem? atLeft]
  have among {y : T} (overLeft : cmp y left = false)
      (overRight : ∀ right, data[2 * index + 2]? = some right → cmp y right = false) :
      ∀ d z, Child index d → data[d]? = some z → cmp y z = false := by
    rintro _ z (rfl | rfl) at_d
    · exact Option.some.inj (atLeft.symm.trans at_d) ▸ overLeft
    · exact overRight z at_d
  by_cases both : 2 * index + 2 < data.length
  · obtain ⟨right, atRight⟩ : ∃ right, data[2 * index + 2]? = some right := ⟨_, getElem?_eq_getElem both⟩
    rw [getD_of_getElem? atRight]
    cases less : cmp left right with
    | true =>
      rw [if_pos ⟨both, rfl⟩]
      refine ⟨right, atRight, .inr rfl, among (weak.asymm _ _ less) fun z at_d => ?_⟩
      exact Option.some.inj (atRight.symm.trans at_d) ▸ weak.irrefl _
    | false =>
      rw [if_neg (by simp)]
      refine ⟨left, atLeft, .inl rfl, among (weak.irrefl _) fun z at_d => ?_⟩
      exact Option.some.inj (atRight.symm.trans at_d) ▸ less
  · rw [if_neg fun h => both h.1]
    exact ⟨left, atLeft, .inl rfl, among (weak.irrefl _) fun _ at_d =>
      absurd (List.getElem?_eq_some_iff.mp at_d).1 both⟩

private theorem pickChild_spec {data : List T}
    (v : T) (cached : index = 0 → Cached cmp cache data) (inside : 2 * index + 1 < data.length) :
    ∃ y, data[pickChild cmp cache data v index]? = some y ∧ Child index (pickChild cmp cache data v index) ∧
      ∀ d z, Child index d → data[d]? = some z → cmp y z = false := by
  unfold pickChild
  split
  · exact largerChild_spec weak v inside
  · next used =>
    split
    · next root =>
      obtain ⟨rfl, valid⟩ := root
      exact ⟨_, getElem?_eq_getElem valid, cached rfl used rfl _ (getElem?_eq_getElem valid)⟩
    · exact largerChild_spec weak v inside

/-- What `downheap` has done when its loop ends: the hole is where the element belongs, and if it has not moved then the
picked child is the larger one. -/
structure Sunk (cmp : T → T → Bool) (v : T) (data : List T) (index : Nat)
    (result : List T × Nat × Option {child : Nat // 0 < child}) : Prop where
  ordered : Ordered cmp (fun _ => True) (result.1.set result.2.1 v)
  perm : result.1.set result.2.1 v ~ data.set index v
  cached : result.2.1 = 0 → Cached cmp result.2.2 (result.1.set 0 v)

private theorem downheapLoop_sunk (cache : Option {child : Nat // 0 < child}) (v : T) (data : List T)
    (index : Nat) (picked : Option {child : Nat // 0 < child}) (sinks : Sinks cmp v data index)
    (cached : index = 0 → Cached cmp cache data) (noPick : index = 0 → picked = none) :
    Sunk cmp v data index (downheapLoop cmp cache v data index picked) := by
  rw [downheapLoop]
  split
  · next inside =>
    obtain ⟨y, found, child, larger⟩ := pickChild_spec weak v cached inside
    have after := child.lt
    dsimp only
    rw [getD_of_getElem? found]
    cases less : cmp v y with
    | true =>
      have sunk := downheapLoop_sunk cache v (data.set index y) (pickChild cmp cache data v index)
        (some ⟨_, Nat.zero_lt_of_lt after⟩) (sinks.move weak child found larger less) (fun zero => by omega)
        (fun zero => by omega)
      exact ⟨sunk.ordered, sunk.perm.trans (set_set_perm sinks.inside found after.ne v), sunk.cached⟩
    | false =>
      rw [Bool.not_false, if_pos rfl]
      have elsewhere {i : Nat} (positive : 0 < i) : (data.set 0 v)[i]? = data[i]? := getElem?_set_ne positive.ne
      refine ⟨sinks.settle fun c z isChild at_c => weak.trans v y z less (larger c z isChild at_c), Perm.refl _,
        fun zero _ used _ at_x => ?_⟩
      subst zero
      cases used
      rw [elsewhere after, found] at at_x
      cases at_x
      exact ⟨child, fun c z isChild at_c => larger c z isChild ((elsewhere isChild.lt).symm.trans at_c)⟩
  · refine ⟨sinks.settle fun _ _ isChild at_c => ?_, Perm.refl _, fun zero => ?_⟩
    · obtain ⟨_, -⟩ := List.getElem?_eq_some_iff.mp at_c
      unfold Child at isChild
      omega
    · rw [noPick zero]
      nofun
  termination_by data.length - index
  decreasing_by
    rw [length_set]
    omega

variable {rest : List T}

private theorem downheap_spec (ordered : Ordered cmp (· ≠ 0) (v :: rest)) (cached : Cached cmp cache (v :: rest)) :
    Valid cmp (downheap cmp cache v (v :: rest)) ∧ (downheap cmp cache v (v :: rest)).data ~ v :: rest := by
  have noParent (p : Nat) (child : Child p 0) : False := absurd child.lt (Nat.not_lt_zero p)
  have sunk := downheapLoop_sunk weak cache v (v :: rest) 0 none
    ⟨Nat.succ_pos _, ordered, fun p _ child => (noParent p child).elim, fun p _ _ _ child => (noParent p child).elim⟩
    (fun _ => cached) (fun _ => rfl)
  rw [downheap]
  generalize downheapLoop cmp cache v (v :: rest) 0 none = result at sunk ⊢
  obtain ⟨_, _, _⟩ := result
  refine ⟨⟨sunk.ordered, ?_⟩, sunk.perm⟩
  dsimp only
  split
  · next zero =>
    have cached := sunk.cached zero
    rw [zero]
    exact cached
  · exact fun _ used => absurd used (Option.not_mem_none _)

/-- A root that is put in its place, above elements that stood in a heap already. -/
theorem Loose.downheap_spec (loose : Loose cmp h)
    (same : ∀ i a, 0 < i → (v :: rest)[i]? = some a → h.data[i]? = some a) :
    Valid cmp (downheap cmp h.rootCmpCache v (v :: rest)) ∧
      (downheap cmp h.rootCmpCache v (v :: rest)).data ~ v :: rest := by
  refine BinaryHeap.downheap_spec weak (fun p c a b child notRoot at_p at_c => ?_) fun cached used a at_a => ?_
  · exact loose.ordered p c a b child notRoot (same p a (Nat.pos_of_ne_zero notRoot) at_p)
      (same c b (Nat.zero_lt_of_lt child.lt) at_c)
  · obtain ⟨child, larger⟩ := loose.cached cached used a (same cached.1 a cached.2 at_a)
    exact ⟨child, fun c b isChild at_c => larger c b isChild (same c b isChild.lt at_c)⟩

theorem replaceTop_spec (loose : Loose cmp h) (data : h.data = x :: rest)
    (value : T) : Valid cmp (h.replaceTop cmp value) ∧ (h.replaceTop cmp value).data ~ value :: rest := by
  rw [replaceTop, data, set_cons_zero]
  refine loose.downheap_spec weak fun _ _ positive _ => ?_
  obtain ⟨_, rfl⟩ := Nat.exists_eq_succ_of_ne_zero positive.ne'
  rwa [data]

theorem pop_spec (loose : Loose cmp h) (data : h.data = x :: rest) :
    Valid cmp (h.pop cmp) ∧ (h.pop cmp).data ~ rest := by
  rw [pop, data]
  rcases eq_nil_or_concat' rest with rfl | ⟨front, last, rfl⟩
  · exact ⟨valid_empty, Perm.refl _⟩
  · have getLast : (x :: (front ++ [last])).getLast? = some last := by rw [← cons_append, getLast?_concat]
    have dropLast : ((x :: (front ++ [last])).set 0 last).dropLast = last :: front := by
      rw [set_cons_zero, ← cons_append, dropLast_concat]
    rw [getLast]
    dsimp only
    rw [dropLast]
    have same (i : Nat) (a : T) (positive : 0 < i) (at_i : (last :: front)[i]? = some a) : h.data[i]? = some a := by
      obtain ⟨_, rfl⟩ := Nat.exists_eq_succ_of_ne_zero positive.ne'
      rw [getElem?_cons_succ] at at_i
      rw [data, getElem?_cons_succ, getElem?_append_left (List.getElem?_eq_some_iff.mp at_i).1]
      exact at_i
    obtain ⟨valid, perm⟩ := loose.downheap_spec weak same
    exact ⟨valid, perm.trans (perm_append_singleton last front).symm⟩

theorem Reached.inv [DecidableEq T] (reached : Reached cmp h bag) : Valid cmp h ∧ h.data ~ bag := by
  -- what is below the top is what the bag holds without it
  have below {h : BinaryHeap T} {bag : List T} {x : T} (holds : h.data ~ bag) (top : h.top? = some x) :
      ∃ rest, h.data = x :: rest ∧ rest ~ bag.erase x := by
    obtain ⟨rest, data⟩ := head?_eq_some_iff.mp top
    rw [data] at holds
    exact ⟨rest, data, by simpa using holds.erase x⟩
  induction reached with
  | new | clear => exact ⟨valid_empty, Perm.refl _⟩
  | push value _ ih =>
    obtain ⟨valid, pushed⟩ := push_spec weak ih.1 value
    exact ⟨valid, pushed.trans (ih.2.cons value)⟩
  | pop _ top ih =>
    obtain ⟨rest, data, same⟩ := below ih.2 top
    obtain ⟨valid, popped⟩ := pop_spec weak ih.1.loose data
    exact ⟨valid, popped.trans same⟩
  | replaceTop value _ top ih =>
    obtain ⟨_, data, same⟩ := below ih.2 top
    obtain ⟨valid, replaced⟩ := replaceTop_spec weak ih.1.loose data value
    exact ⟨valid, replaced.trans (same.cons value)⟩

/-- **The heap is a priority queue**: it holds just what it should, it has a top unless it should be
empty, and no element is above the top. -/
theorem Reached.priority_queue [DecidableEq T] (reached : Reached cmp h bag) :
    h.data ~ bag ∧ (h.top? = none ↔ bag = []) ∧ ∀ x, h.top? = some x → ∀ y ∈ bag, cmp x y = false := by
  obtain ⟨valid, holds⟩ := reached.inv weak
  refine ⟨holds, ?_, fun _ top y inBag => valid.top_largest weak top y (holds.mem_iff.mpr inBag)⟩
  rw [top?, head?_eq_none_iff]
  exact ⟨fun empty => (empty ▸ holds).nil_eq.symm, fun empty => (empty ▸ holds).eq_nil⟩

end BinaryHeap

/-- Of three numbers the largest is replaced and then the top is taken off, with the larger child of the root from the
cache. -/
theorem BinaryHeap.Reached.priority_queue_three :
    let less (a b : Nat) : Bool := a < b
    let h := (((empty.push less 3).push less 5).push less 4).replaceTop less 4
    h.rootCmpCache.isSome ∧ (h.pop less).data ~ [4, 3] ∧
      ((h.pop less).top? = none ↔ [4, 3] = []) ∧
      ∀ x, (h.pop less).top? = some x → ∀ y ∈ [4, 3], decide (x < y) = false := by
  intro less h
  have top : (((empty.push less 3).push less 5).push less 4).top? = some 5 := by decide +kernel
  have top' : h.top? = some 4 := by decide +kernel
  have weak : StrictWeak less := ⟨by simpa [less] using fun _ _ => le_of_lt, by simp [less]; omega⟩
  exact ⟨by decide +kernel,
    priority_queue weak (.pop (.replaceTop 4 (.push 4 (.push 5 (.push 3 .new))) top) top')⟩

end Rocksdb.Heaps
