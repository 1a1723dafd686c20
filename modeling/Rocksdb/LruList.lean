import Rocksdb.LruCache
import Mathlib.Algebra.Order.BigOperators.Group.Finset

/-! The list of the LRU cache is three segments one behind the other, told apart by two
pointers and by the flags of the entries; whatever is done to the list is done to one
of the segments. -/
namespace Rocksdb.LruCache
open List
namespace LRUCacheShard
variable {κ δ : Type} {s s' : LRUCacheShard κ δ} {doubles : Doubles δ} {e : Nat}

/-! ## Lists with pointers -/

section Pointers
variable {a b : List Nat}

theorem dropWhile_ne_append (notIn : e ∉ a) : (a ++ e :: b).dropWhile (· ≠ e) = e :: b := by
  rw [dropWhile_append_of_pos fun x member => by simpa using ne_of_mem_of_not_mem member notIn]
  simp

theorem takeWhile_ne_append (notIn : e ∉ a) : (a ++ e :: b).takeWhile (· ≠ e) = a := by
  rw [takeWhile_append_of_pos fun x member => by simpa using ne_of_mem_of_not_mem member notIn]
  simp

/-- A list as its last element behind the others. -/
theorem eq_concat_of_getLast? (nodup : (a ++ b).Nodup) (last : a.getLast? = some x) : ∃ c, a = c ++ [x] ∧ x ∉ c := by
  have split := (dropLast_append_getLast? x last).symm
  rw [split, append_assoc] at nodup
  exact ⟨_, split, fun member => disjoint_of_nodup_append nodup member (by simp)⟩

theorem nextOf_getLast? (nodup : (a ++ b).Nodup) : nextOf (a ++ b) a.getLast? = b.head? := by
  cases last : a.getLast? with
  | none =>
    rw [getLast?_eq_none_iff.mp last]
    rfl
  | some =>
    obtain ⟨_, rfl, notIn⟩ := eq_concat_of_getLast? nodup last
    rw [nextOf, append_assoc, singleton_append, dropWhile_ne_append notIn]
    rfl

theorem insertAfter_getLast? (nodup : (a ++ b).Nodup) (e : Nat) :
    insertAfter (a ++ b) e a.getLast? = a ++ e :: b := by
  cases last : a.getLast? with
  | none =>
    rw [getLast?_eq_none_iff.mp last]
    rfl
  | some =>
    obtain ⟨_, rfl, notIn⟩ := eq_concat_of_getLast? nodup last
    rw [insertAfter, append_assoc, singleton_append, dropWhile_ne_append notIn, takeWhile_ne_append notIn]
    simp

/-- A pointer to the end of the first part of a list, when an element is removed. -/
theorem getLast?_erase (nodup : (a ++ b).Nodup) (e : Nat) :
    (if a.getLast? = some e then prevOf (a ++ b) e else a.getLast?) = (a.erase e).getLast? := by
  split
  · next last =>
    obtain ⟨c, rfl, notIn⟩ := eq_concat_of_getLast? nodup last
    rw [prevOf, append_assoc, singleton_append, takeWhile_ne_append notIn,
      erase_append_right _ notIn, erase_cons_head, append_nil]
  · next other =>
    by_cases member : e ∈ a
    · cases last : a.getLast? with
      | none =>
        rw [getLast?_eq_none_iff.mp last] at member
        cases member
      | some =>
        obtain ⟨c, rfl, -⟩ := eq_concat_of_getLast? nodup last
        have before : e ∈ c := by
          rcases mem_append.mp member with before | here
          · exact before
          · exact absurd (by simpa using (mem_singleton.mp here).symm) other
        rw [erase_append_left _ before, getLast?_concat]
    · rw [erase_of_not_mem member]

end Pointers

/-! ## Segments -/

/-- The sum of the charges of some handles. -/
def charges (s : LRUCacheShard κ δ) (l : List Nat) : Nat := (l.map fun p => (s.mem p).totalCharge).sum

/-- The LRU list is split by its pointers into the entries of the bottom, the low and the high priority pool, as
their flags say, and the usages of the pools are theirs. -/
structure Segments (s : LRUCacheShard κ δ) (bottom low high : List Nat) : Prop where
  lru : s.lru = bottom ++ low ++ high
  nodup : (bottom ++ low ++ high).Nodup
  lruBottomPri : s.lruBottomPri = bottom.getLast?
  lruLowPri : s.lruLowPri = (bottom ++ low).getLast?
  inBottom : ∀ p ∈ bottom, (s.mem p).inHighPriPool = false ∧ (s.mem p).inLowPriPool = false
  inLow : ∀ p ∈ low, (s.mem p).inHighPriPool = false ∧ (s.mem p).inLowPriPool = true
  inHigh : ∀ p ∈ high, (s.mem p).inHighPriPool = true ∧ (s.mem p).inLowPriPool = false
  lowPriPoolUsage : s.lowPriPoolUsage = charges s low
  highPriPoolUsage : s.highPriPoolUsage = charges s high

/-- What the operations on the LRU list leave alone: all but the list, its pointers, the flags and the usages. -/
structure Keeps (s s' : LRUCacheShard κ δ) : Prop where
  fresh : s'.fresh = s.fresh
  live : s'.live = s.live
  table : s'.table = s.table
  capacity : s'.capacity = s.capacity
  lowPriPoolCapacity : s'.lowPriPoolCapacity = s.lowPriPoolCapacity
  usage : s'.usage = s.usage
  key : ∀ p, (s'.mem p).key = (s.mem p).key
  totalCharge : ∀ p, (s'.mem p).totalCharge = (s.mem p).totalCharge
  refs : ∀ p, (s'.mem p).refs = (s.mem p).refs
  inCache : ∀ p, (s'.mem p).inCache = (s.mem p).inCache

/-- What moving entries between the pools leaves alone. -/
structure Relinks (s s' : LRUCacheShard κ δ) : Prop extends Keeps s s' where
  lru : s'.lru = s.lru
  lruUsage : s'.lruUsage = s.lruUsage

section Segments
variable {bottom low high : List Nat}

theorem Keeps.rfl : Keeps s s := by constructor <;> intros <;> rfl

theorem Keeps.trans (first : Keeps s s') (second : Keeps s' s'') : Keeps s s'' where
  fresh := second.fresh.trans first.fresh
  live := second.live.trans first.live
  table := second.table.trans first.table
  capacity := second.capacity.trans first.capacity
  lowPriPoolCapacity := second.lowPriPoolCapacity.trans first.lowPriPoolCapacity
  usage := second.usage.trans first.usage
  key p := (second.key p).trans (first.key p)
  totalCharge p := (second.totalCharge p).trans (first.totalCharge p)
  refs p := (second.refs p).trans (first.refs p)
  inCache p := (second.inCache p).trans (first.inCache p)

variable {l : List Nat}

theorem charges_congr (same : ∀ p ∈ l, (s'.mem p).totalCharge = (s.mem p).totalCharge) :
    charges s' l = charges s l := by
  rw [charges, charges, map_congr_left same]

theorem charges_append (l l' : List Nat) : charges s (l ++ l') = charges s l + charges s l' := by
  simp [charges]

private theorem charges_erase (member : e ∈ l) : charges s l = (s.mem e).totalCharge + charges s (l.erase e) := by
  have perm := (perm_cons_erase member).map fun p => (s.mem p).totalCharge
  simpa [charges] using perm.sum_eq

theorem sub64_add (small : a + b < 2 ^ 64) : sub64 (a + b) a = b := by
  unfold sub64
  omega

theorem add64_eq (small : a + b < 2 ^ 64) : add64 a b = a + b := Nat.mod_eq_of_lt small

theorem modify_mem_other (f : LRUHandle κ → LRUHandle κ) (other : p ≠ e) : (s.modify e f).mem p = s.mem p :=
  Function.update_of_ne other _ _

theorem modify_mem_same (f : LRUHandle κ → LRUHandle κ) : (s.modify e f).mem e = f (s.mem e) := Function.update_self ..

theorem charges_le_of_sublist (sub : l.Sublist l') : charges s l ≤ charges s l' :=
  (sub.map _).sum_le_sum fun _ _ => Nat.zero_le _

theorem sub64_charges (member : e ∈ l) (small : charges s l < 2 ^ 64) :
    sub64 (charges s l) (s.mem e).totalCharge = charges s (l.erase e) := by
  rw [charges_erase member] at small ⊢
  exact sub64_add small

private theorem erase_append_of_nodup {a b : List Nat} (nodup : (a ++ b).Nodup) :
    (a ++ b).erase e = a.erase e ++ b.erase e := by
  by_cases here : e ∈ a
  · have notIn : e ∉ b := disjoint_of_nodup_append nodup here
    rw [erase_append_left _ here, erase_of_not_mem notIn]
  · rw [erase_append_right _ here, erase_of_not_mem here]

/-- Flags of entries other than the changed one. -/
theorem flags_other (f : LRUHandle κ → LRUHandle κ) (notIn : e ∉ l)
    (flags : ∀ p ∈ l, (s.mem p).inHighPriPool = inHigh ∧ (s.mem p).inLowPriPool = inLow) :
    ∀ p ∈ l, ((s.modify e f).mem p).inHighPriPool = inHigh ∧ ((s.modify e f).mem p).inLowPriPool = inLow := by
  intro p member
  rw [modify_mem_other f (ne_of_mem_of_not_mem member notIn)]
  exact flags p member

/-- A change to a handle that is not in the list. -/
theorem Segments.modify (segments : Segments s bottom low high) (f : LRUHandle κ → LRUHandle κ) (notIn : e ∉ s.lru) :
    Segments (s.modify e f) bottom low high := by
  have apart {l : List Nat} (sub : ∀ p ∈ l, p ∈ bottom ++ low ++ high) : e ∉ l :=
    fun member => notIn (segments.lru ▸ sub e member)
  have same {l : List Nat} (sub : ∀ p ∈ l, p ∈ bottom ++ low ++ high) : charges (s.modify e f) l = charges s l :=
    charges_congr fun p member => by rw [modify_mem_other f (ne_of_mem_of_not_mem member (apart sub))]
  exact
    { segments with
      inBottom := flags_other f (apart fun p member => by simp [member]) segments.inBottom
      inLow := flags_other f (apart fun p member => by simp [member]) segments.inLow
      inHigh := flags_other f (apart fun p member => by simp [member]) segments.inHigh
      lowPriPoolUsage := segments.lowPriPoolUsage.trans (same fun p member => by simp [member]).symm
      highPriPoolUsage := segments.highPriPoolUsage.trans (same fun p member => by simp [member]).symm }

/-- Flags of a segment that an entry joins at its end. -/
theorem flags_concat (notIn : e ∉ l)
    (flags : ∀ p ∈ l, (s.mem p).inHighPriPool = inHigh ∧ (s.mem p).inLowPriPool = inLow) :
    ∀ p ∈ l ++ [e], ((s.modify e (·.setPools inHigh inLow)).mem p).inHighPriPool = inHigh ∧
      ((s.modify e (·.setPools inHigh inLow)).mem p).inLowPriPool = inLow := by
  refine forall_mem_append.mpr ⟨flags_other _ notIn flags, forall_mem_singleton.mpr ?_⟩
  rw [modify_mem_same]
  exact ⟨rfl, rfl⟩

private theorem setPools_totalCharge (inHigh inLow : Bool) (p : Nat) :
    ((s.modify e (·.setPools inHigh inLow)).mem p).totalCharge = (s.mem p).totalCharge := by
  by_cases same : p = e
  · rw [same, modify_mem_same]
    rfl
  · rw [modify_mem_other _ same]

theorem charges_setPools (inHigh inLow : Bool) (l : List Nat) :
    charges (s.modify e (·.setPools inHigh inLow)) l = charges s l :=
  charges_congr fun p _ => setPools_totalCharge inHigh inLow p

theorem charges_cons (l : List Nat) : charges s (e :: l) = (s.mem e).totalCharge + charges s l := by simp [charges]

/-- The usage of a pool that an entry joins. -/
theorem usage_concat {usage : Nat} (inHigh inLow : Bool) (isUsage : usage = charges s l)
    (small : charges s l + (s.mem e).totalCharge < 2 ^ 64) :
    add64 usage (s.mem e).totalCharge = charges (s.modify e (·.setPools inHigh inLow)) (l ++ [e]) := by
  rw [charges_setPools, isUsage, add64_eq small]
  simp [charges]

/-- The usage of a pool that its oldest entry leaves. -/
theorem usage_tail {usage : Nat} (inHigh inLow : Bool) (isUsage : usage = charges s (e :: l))
    (small : charges s (e :: l) < 2 ^ 64) :
    sub64 usage (s.mem e).totalCharge = charges (s.modify e (·.setPools inHigh inLow)) l := by
  rw [charges_cons] at isUsage small
  rw [charges_setPools, isUsage, sub64_add small]

namespace Segments

section Remove
variable (segments : Segments s bottom low high)
include segments

theorem mem_lru : e ∈ s.lru ↔ e ∈ bottom ∨ e ∈ low ∨ e ∈ high := by
  simp [segments.lru]

/-- The flags of an entry of the list tell its segment. -/
theorem mem_high (member : e ∈ s.lru) (flag : (s.mem e).inHighPriPool = true) : e ∈ high := by
  rcases segments.mem_lru.mp member with inBottom | inLow | inHigh
  · simp [(segments.inBottom e inBottom).1] at flag
  · simp [(segments.inLow e inLow).1] at flag
  · exact inHigh

private theorem mem_low (member : e ∈ s.lru) (flag : (s.mem e).inLowPriPool = true) : e ∈ low := by
  rcases segments.mem_lru.mp member with inBottom | inLow | inHigh
  · simp [(segments.inBottom e inBottom).2] at flag
  · exact inLow
  · simp [(segments.inHigh e inHigh).2] at flag

theorem low_sublist : low.Sublist s.lru := by
  rw [segments.lru]
  exact (sublist_append_right bottom low).trans (sublist_append_left _ high)

theorem high_sublist : high.Sublist s.lru := by
  rw [segments.lru]
  exact sublist_append_right _ high

/-- `LRU_Remove` takes the entry out of its segment. -/
theorem remove (member : e ∈ s.lru) (small : charges s s.lru < 2 ^ 64) :
    Segments (s.lruRemove e) (bottom.erase e) (low.erase e) (high.erase e) where
  lru := by
    rw [lruRemove, segments.lru, erase_append_of_nodup segments.nodup,
      erase_append_of_nodup (nodup_append.mp segments.nodup).1]
  nodup := by
    rw [← erase_append_of_nodup (nodup_append.mp segments.nodup).1, ← erase_append_of_nodup segments.nodup]
    exact segments.nodup.erase e
  lruBottomPri := by
    have nodup : (bottom ++ (low ++ high)).Nodup := append_assoc bottom low high ▸ segments.nodup
    simp only [lruRemove, segments.lruBottomPri, segments.lru]
    rw [append_assoc, getLast?_erase nodup]
  lruLowPri := by
    simp only [lruRemove, segments.lruLowPri, segments.lru]
    rw [getLast?_erase segments.nodup, erase_append_of_nodup (nodup_append.mp segments.nodup).1]
  inBottom p inBottom := segments.inBottom p (mem_of_mem_erase inBottom)
  inLow p inLow := segments.inLow p (mem_of_mem_erase inLow)
  inHigh p inHigh := segments.inHigh p (mem_of_mem_erase inHigh)
  lowPriPoolUsage := by
    have small := (charges_le_of_sublist segments.low_sublist).trans_lt small
    simp only [lruRemove, segments.lowPriPoolUsage]
    by_cases inLow : e ∈ low
    · rw [if_pos (by simp [segments.inLow e inLow])]
      exact sub64_charges inLow small
    · have flag : ¬(s.mem e).inLowPriPool = true := fun flag => inLow (segments.mem_low member flag)
      rw [if_neg (by simp [flag]), erase_of_not_mem inLow]
      rfl
  highPriPoolUsage := by
    have small := (charges_le_of_sublist segments.high_sublist).trans_lt small
    simp only [lruRemove, segments.highPriPoolUsage]
    by_cases inHigh : e ∈ high
    · rw [if_pos (segments.inHigh e inHigh).1]
      exact sub64_charges inHigh small
    · have flag : ¬(s.mem e).inHighPriPool = true := fun flag => inHigh (segments.mem_high member flag)
      rw [if_neg flag, erase_of_not_mem inHigh]
      rfl

end Remove

/-- The oldest entry of the high priority pool becomes the newest one of the low priority pool. -/
theorem moveDown (segments : Segments s bottom low (e :: high)) (small : charges s s.lru < 2 ^ 64) :
    Segments { s.modify e (·.setPools false true) with
      lruLowPri := some e
      highPriPoolUsage := sub64 s.highPriPoolUsage (s.mem e).totalCharge
      lowPriPoolUsage := add64 s.lowPriPoolUsage (s.mem e).totalCharge } bottom (low ++ [e]) high := by
  have nodup := segments.nodup
  rw [segments.lru, charges_append, charges_append] at small
  have inHigh := charges_cons (s := s) (e := e) high
  have notBefore : e ∉ bottom ++ low := fun member => disjoint_of_nodup_append nodup member mem_cons_self
  have notBehind : e ∉ high := (nodup_cons.mp (nodup_append.mp nodup).2.1).1
  simp only [mem_append, not_or] at notBefore
  exact
    { lru := segments.lru.trans (by simp)
      nodup := by simpa using nodup
      lruBottomPri := segments.lruBottomPri
      lruLowPri := by rw [← append_assoc, getLast?_concat]
      inBottom := flags_other (·.setPools false true) notBefore.1 segments.inBottom
      inLow := flags_concat notBefore.2 segments.inLow
      inHigh := flags_other (·.setPools false true) notBehind fun p member =>
        segments.inHigh p (mem_cons_of_mem _ member)
      lowPriPoolUsage := usage_concat false true segments.lowPriPoolUsage (by omega)
      highPriPoolUsage := usage_tail false true segments.highPriPoolUsage (by omega) }

/-- The oldest entry of the low priority pool becomes the newest one of the bottom. -/
theorem moveToBottom (segments : Segments s bottom (e :: low) high) (small : charges s s.lru < 2 ^ 64) :
    Segments { s.modify e (·.setPools false false) with
      lruBottomPri := some e
      lowPriPoolUsage := sub64 s.lowPriPoolUsage (s.mem e).totalCharge } (bottom ++ [e]) low high := by
  have nodup := segments.nodup
  rw [segments.lru, charges_append, charges_append] at small
  have notBefore : e ∉ bottom := fun member =>
    disjoint_of_nodup_append (nodup_append.mp nodup).1 member mem_cons_self
  have notBehind : e ∉ low ++ high := by
    rw [append_assoc, cons_append] at nodup
    exact (nodup_cons.mp (nodup_append.mp nodup).2.1).1
  simp only [mem_append, not_or] at notBehind
  exact
    { lru := segments.lru.trans (by simp)
      nodup := by simpa using nodup
      lruBottomPri := by rw [getLast?_concat]
      lruLowPri := segments.lruLowPri.trans (by simp)
      inBottom := flags_concat notBefore segments.inBottom
      inLow := flags_other (·.setPools false false) notBehind.1 fun p member =>
        segments.inLow p (mem_cons_of_mem _ member)
      inHigh := flags_other (·.setPools false false) notBehind.2 segments.inHigh
      lowPriPoolUsage := usage_tail false false segments.lowPriPoolUsage (by omega)
      highPriPoolUsage := segments.highPriPoolUsage.trans (charges_setPools false false high).symm }

end Segments

/-- Moving an entry between the pools. -/
theorem setPools_relinks (inHigh inLow : Bool) (lruLowPri lruBottomPri : Option Nat)
    (highPriPoolUsage lowPriPoolUsage : Nat) :
    Relinks s { s.modify e (·.setPools inHigh inLow) with
      lruLowPri, lruBottomPri, highPriPoolUsage, lowPriPoolUsage } := by
  have same {α : Type} (field : LRUHandle κ → α) (kept : ∀ h, field (h.setPools inHigh inLow) = field h) (p : Nat) :
      field ((s.modify e (·.setPools inHigh inLow)).mem p) = field (s.mem p) := by
    by_cases here : p = e
    · rw [here, modify_mem_same, kept]
    · rw [modify_mem_other _ here]
  exact
    { fresh := rfl, live := rfl, table := rfl, capacity := rfl, lowPriPoolCapacity := rfl, usage := rfl
      lru := rfl, lruUsage := rfl
      key := same (·.key) fun _ => rfl
      totalCharge := same (·.totalCharge) fun _ => rfl
      refs := same (·.refs) fun _ => rfl
      inCache := same (·.inCache) fun _ => rfl }

theorem Relinks.rfl : Relinks s s := { Keeps.rfl with lru := Eq.refl _, lruUsage := Eq.refl _ }

theorem Relinks.trans (first : Relinks s s') (second : Relinks s' s'') : Relinks s s'' :=
  { first.toKeeps.trans second.toKeeps with
    lru := second.lru.trans first.lru
    lruUsage := second.lruUsage.trans first.lruUsage }

theorem Relinks.charges (relinks : Relinks s s') : charges s' s'.lru = charges s s.lru := by
  rw [relinks.lru]
  exact charges_congr fun p _ => relinks.totalCharge p

/-- The first loop of `MaintainPoolSize` moves entries from the high to the low priority pool. -/
theorem overflowHigh_spec (rounds : Nat) (segments : Segments s bottom low high) (small : charges s s.lru < 2 ^ 64) :
    ∃ low' high', Segments (overflowHigh doubles rounds s) bottom low' high' ∧
      Relinks s (overflowHigh doubles rounds s) := by
  induction rounds generalizing s low high with
  | zero => exact ⟨low, high, segments, .rfl⟩
  | succ _ ih =>
    have next : nextOf s.lru s.lruLowPri = high.head? := by
      rw [segments.lru, segments.lruLowPri, nextOf_getLast? segments.nodup]
    rw [overflowHigh, next]
    split
    · cases high with
      | nil => exact ⟨low, [], segments, .rfl⟩
      | cons e =>
        have relinks := setPools_relinks (s := s) (e := e) false true (some e) s.lruBottomPri
          (sub64 s.highPriPoolUsage (s.mem e).totalCharge) (add64 s.lowPriPoolUsage (s.mem e).totalCharge)
        obtain ⟨low', high', after, relinks'⟩ := ih (segments.moveDown small) (relinks.charges ▸ small)
        exact ⟨low', high', after, relinks.trans relinks'⟩
    · exact ⟨low, high, segments, .rfl⟩

/-- The second loop of `MaintainPoolSize` moves entries from the low priority pool to the bottom. It ends at the latest
when that pool is empty. -/
theorem overflowLow_spec (rounds : Nat) (segments : Segments s bottom low high) (small : charges s s.lru < 2 ^ 64)
    (empty : doubles.exceeds 0 s.lowPriPoolCapacity = false) :
    ∃ bottom' low', Segments (overflowLow doubles rounds s) bottom' low' high ∧
      Relinks s (overflowLow doubles rounds s) := by
  induction rounds generalizing s bottom low with
  | zero => exact ⟨bottom, low, segments, .rfl⟩
  | succ _ ih =>
    have nodup : (bottom ++ (low ++ high)).Nodup := append_assoc bottom _ high ▸ segments.nodup
    have next : nextOf s.lru s.lruBottomPri = (low ++ high).head? := by
      rw [segments.lru, segments.lruBottomPri, append_assoc, nextOf_getLast? nodup]
    rw [overflowLow, next]
    split
    · next exceeded =>
      cases low with
      | nil =>
        rw [segments.lowPriPoolUsage, charges, map_nil, sum_nil, empty] at exceeded
        cases exceeded
      | cons e =>
        have relinks := setPools_relinks (s := s) (e := e) false false s.lruLowPri (some e) s.highPriPoolUsage
          (sub64 s.lowPriPoolUsage (s.mem e).totalCharge)
        obtain ⟨bottom', low', after, relinks'⟩ := ih (segments.moveToBottom small) (relinks.charges ▸ small) empty
        exact ⟨bottom', low', after, relinks.trans relinks'⟩
    · exact ⟨bottom, low, segments, .rfl⟩

/-- `MaintainPoolSize` only moves the borders between the segments. -/
theorem maintainPoolSize_spec (segments : Segments s bottom low high) (small : charges s s.lru < 2 ^ 64)
    (empty : doubles.exceeds 0 s.lowPriPoolCapacity = false) :
    ∃ bottom' low' high', Segments (maintainPoolSize doubles s) bottom' low' high' ∧
      Relinks s (maintainPoolSize doubles s) := by
  obtain ⟨_, high₁, after₁, relinks₁⟩ := overflowHigh_spec s.lru.length segments small
  obtain ⟨bottom₂, low₂, after₂, relinks₂⟩ :=
    overflowLow_spec s.lru.length after₁ (relinks₁.charges ▸ small) (relinks₁.lowPriPoolCapacity ▸ empty)
  exact ⟨bottom₂, low₂, high₁, after₂, relinks₁.trans relinks₂⟩

namespace Segments

theorem nodup_insert (nodup : (a ++ b).Nodup) (notIn : e ∉ a ++ b) : (a ++ e :: b).Nodup :=
  perm_middle.nodup_iff.mpr (nodup_cons.mpr ⟨notIn, nodup⟩)

variable (segments : Segments s bottom low high)
include segments

/-- An entry joins the high priority pool as the newest one of the list. -/
theorem joinHigh (notIn : e ∉ s.lru) (small : charges s s.lru + (s.mem e).totalCharge < 2 ^ 64) :
    Segments { s.modify e (·.setPools true false) with
      lru := s.lru ++ [e]
      highPriPoolUsage := add64 s.highPriPoolUsage (s.mem e).totalCharge } bottom low (high ++ [e]) := by
  have highSmall := charges_le_of_sublist (s := s) segments.high_sublist
  rw [segments.mem_lru, not_or, not_or] at notIn
  exact
    { lru := by simp [segments.lru]
      nodup := by
        rw [← append_assoc, nodup_append_comm]
        exact nodup_cons.mpr ⟨by simpa using notIn, segments.nodup⟩
      lruBottomPri := segments.lruBottomPri
      lruLowPri := segments.lruLowPri
      inBottom := flags_other (·.setPools true false) notIn.1 segments.inBottom
      inLow := flags_other (·.setPools true false) notIn.2.1 segments.inLow
      inHigh := flags_concat notIn.2.2 segments.inHigh
      lowPriPoolUsage := segments.lowPriPoolUsage.trans (charges_setPools true false low).symm
      highPriPoolUsage := usage_concat true false segments.highPriPoolUsage (by omega) }

/-- An entry joins the low priority pool as the newest one of it. -/
theorem joinLow (notIn : e ∉ s.lru) (small : charges s s.lru + (s.mem e).totalCharge < 2 ^ 64) :
    Segments { s.modify e (·.setPools false true) with
      lru := insertAfter s.lru e s.lruLowPri
      lowPriPoolUsage := add64 s.lowPriPoolUsage (s.mem e).totalCharge
      lruLowPri := some e } bottom (low ++ [e]) high := by
  have lowSmall := charges_le_of_sublist (s := s) segments.low_sublist
  have place : insertAfter s.lru e s.lruLowPri = bottom ++ low ++ e :: high := by
    rw [segments.lru, segments.lruLowPri, insertAfter_getLast? segments.nodup]
  have nodup := nodup_insert segments.nodup (segments.lru ▸ notIn)
  rw [segments.mem_lru, not_or, not_or] at notIn
  exact
    { lru := place.trans (by simp)
      nodup := by simpa using nodup
      lruBottomPri := segments.lruBottomPri
      lruLowPri := by rw [← append_assoc, getLast?_concat]
      inBottom := flags_other (·.setPools false true) notIn.1 segments.inBottom
      inLow := flags_concat notIn.2.1 segments.inLow
      inHigh := flags_other (·.setPools false true) notIn.2.2 segments.inHigh
      lowPriPoolUsage := usage_concat false true segments.lowPriPoolUsage (by omega)
      highPriPoolUsage := segments.highPriPoolUsage.trans (charges_setPools false true high).symm }

/-- The two pointers are equal exactly when the low priority pool is empty. -/
theorem pointers_eq_iff : s.lruBottomPri = s.lruLowPri ↔ low = [] := by
  rw [segments.lruBottomPri, segments.lruLowPri]
  constructor
  · intro same
    by_contra nonempty
    have last := getLast?_eq_some_getLast nonempty
    rw [getLast?_append, last, Option.some_or] at same
    have disjoint := disjoint_of_nodup_append (nodup_append.mp segments.nodup).1
    exact disjoint (mem_of_getLast? same) (mem_of_getLast? last)
  · rintro rfl
    rw [append_nil]

/-- An entry joins the bottom as the newest one of it. -/
theorem joinBottom (notIn : e ∉ s.lru) : Segments { s.modify e (·.setPools false false) with
      lru := insertAfter s.lru e s.lruBottomPri
      lruLowPri := if s.lruBottomPri = s.lruLowPri then some e else s.lruLowPri
      lruBottomPri := some e } (bottom ++ [e]) low high := by
  have nodup : (bottom ++ (low ++ high)).Nodup := append_assoc bottom low high ▸ segments.nodup
  have place : insertAfter s.lru e s.lruBottomPri = bottom ++ e :: (low ++ high) := by
    rw [segments.lru, segments.lruBottomPri, append_assoc, insertAfter_getLast? nodup]
  have nodup' := nodup_insert nodup (by simpa [segments.lru] using notIn)
  have pointers := segments.pointers_eq_iff
  rw [segments.mem_lru, not_or, not_or] at notIn
  exact
    { lru := place.trans (by simp)
      nodup := by simpa using nodup'
      lruBottomPri := by rw [getLast?_concat]
      lruLowPri := by
        by_cases none : low = []
        · rw [if_pos (pointers.mpr none), none, append_nil, getLast?_concat]
        · have last := getLast?_eq_some_getLast none
          rw [if_neg fun same => none (pointers.mp same), segments.lruLowPri, getLast?_append, getLast?_append,
            last, Option.some_or, Option.some_or]
      inBottom := flags_concat notIn.1 segments.inBottom
      inLow := flags_other (·.setPools false false) notIn.2.1 segments.inLow
      inHigh := flags_other (·.setPools false false) notIn.2.2 segments.inHigh
      lowPriPoolUsage := segments.lowPriPoolUsage.trans (charges_setPools false false low).symm
      highPriPoolUsage := segments.highPriPoolUsage.trans (charges_setPools false false high).symm }

end Segments

/-- What `LRU_Insert` does before the usage of the list is raised. -/
structure Joins (s s' : LRUCacheShard κ δ) (e : Nat) : Prop extends Keeps s s' where
  lru : s'.lru.Perm (e :: s.lru)
  lruUsage : s'.lruUsage = s.lruUsage

private theorem setPools_joins (inHigh inLow : Bool) {lru : List Nat} (lruLowPri lruBottomPri : Option Nat)
    (highPriPoolUsage lowPriPoolUsage : Nat) (perm : lru.Perm (e :: s.lru)) :
    Joins s { s.modify e (·.setPools inHigh inLow) with
      lru, lruLowPri, lruBottomPri, highPriPoolUsage, lowPriPoolUsage } e :=
  { setPools_relinks inHigh inLow lruLowPri lruBottomPri highPriPoolUsage lowPriPoolUsage with
    lru := perm
    lruUsage := rfl }

theorem Joins.relinks (joins : Joins s s' e) (relinks : Relinks s' s'') : Joins s s'' e :=
  { joins.toKeeps.trans relinks.toKeeps with
    lru := relinks.lru ▸ joins.lru
    lruUsage := relinks.lruUsage.trans joins.lruUsage }

theorem Joins.charges (joins : Joins s s' e) : charges s' s'.lru = (s.mem e).totalCharge + charges s s.lru := by
  rw [← charges_cons, charges_congr fun p _ => joins.totalCharge p]
  exact (joins.lru.map _).sum_eq

private theorem insertAfter_perm (split : list = a ++ b) (nodup : list.Nodup)
    (last : pointer = a.getLast?) : (insertAfter list e pointer).Perm (e :: list) := by
  subst split last
  rw [insertAfter_getLast? nodup]
  exact perm_middle

/-- The entry joins the segment that its priority and the ratios ask for, and the pools are brought back to size. -/
theorem lruInsert_spec (segments : Segments s bottom low high) (notIn : e ∉ s.lru)
    (small : charges s s.lru + (s.mem e).totalCharge < 2 ^ 64) (empty : doubles.exceeds 0 s.lowPriPoolCapacity = false)
    (lruUsage : s.lruUsage = charges s s.lru) :
    (∃ bottom' low' high', Segments (s.lruInsert doubles e) bottom' low' high') ∧ Keeps s (s.lruInsert doubles e) ∧
      (s.lruInsert doubles e).lru.Perm (e :: s.lru) ∧
      (s.lruInsert doubles e).lruUsage = charges (s.lruInsert doubles e) (s.lruInsert doubles e).lru := by
  have maintained {t : LRUCacheShard κ δ} {bottom' low' high' : List Nat} (segments' : Segments t bottom' low' high')
      (joins : Joins s t e) : (∃ bottom' low' high', Segments (maintainPoolSize doubles t) bottom' low' high') ∧
      Joins s (maintainPoolSize doubles t) e := by
    obtain ⟨bottom₂, low₂, high₂, after, relinks⟩ := maintainPoolSize_spec segments'
      (by rw [joins.charges]; omega) (joins.lowPriPoolCapacity ▸ empty)
    exact ⟨⟨bottom₂, low₂, high₂, after⟩, joins.relinks relinks⟩
  have nodup := segments.nodup
  rw [← segments.lru] at nodup
  -- The usage of the list is raised behind the choice of the segment.
  have joined : ∃ t, s.lruInsert doubles e = { t with lruUsage := add64 t.lruUsage (s.mem e).totalCharge } ∧
      (∃ bottom' low' high', Segments t bottom' low' high') ∧ Joins s t e := by
    refine ⟨_, rfl, ?_⟩
    split
    · exact maintained (segments.joinHigh notIn small)
        (setPools_joins _ _ _ _ _ _ (perm_append_singleton _ _))
    split
    · exact maintained (segments.joinLow notIn small)
        (setPools_joins _ _ _ _ _ _ (insertAfter_perm segments.lru nodup segments.lruLowPri))
    · exact ⟨⟨_, _, _, segments.joinBottom notIn⟩, setPools_joins _ _ _ _ _ _
        (insertAfter_perm (segments.lru.trans (append_assoc ..)) nodup segments.lruBottomPri)⟩
  obtain ⟨t, result, ⟨bottom', low', high', segments'⟩, joins⟩ := joined
  rw [result]
  refine ⟨⟨bottom', low', high', { segments' with }⟩, { joins.toKeeps with }, joins.lru, ?_⟩
  change add64 t.lruUsage (s.mem e).totalCharge = charges t t.lru
  rw [joins.charges, joins.lruUsage, lruUsage, add64_eq small, Nat.add_comm]

end Segments

end LRUCacheShard
end Rocksdb.LruCache
