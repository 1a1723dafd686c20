import Rocksdb.Lib.Cursor
import Rocksdb.LruList

/-! The accounting of the LRU cache. A call works on one handle and leaves the others
as they are; it keeps the sums, and the handle ends up where its flags and references
say. -/
namespace Rocksdb.LruCache
open Function List
open LRUHandle (hasRefs unref)
namespace LRUCacheShard
variable {κ δ : Type} {s s' : LRUCacheShard κ δ} {doubles : Doubles δ} {e : Nat}

/-! ## Entries -/

/-- What the fields of the shard say about the handle of an entry. -/
structure Settled (s : LRUCacheShard κ δ) (p : Nat) : Prop where
  listed : p ∈ s.lru ↔ p ∈ s.live ∧ (s.mem p).inCache = true ∧ (s.mem p).refs = 0
  tabled : ∀ k, s.table k = some p ↔ p ∈ s.live ∧ (s.mem p).inCache = true ∧ (s.mem p).key = k
  held : p ∈ s.live → (s.mem p).inCache = true ∨ 0 < (s.mem p).refs

/-- The list and the sums. -/
structure Accounted (doubles : Doubles δ) (s : LRUCacheShard κ δ) : Prop where
  segments : ∃ bottom low high, Segments s bottom low high
  lruUsage : s.lruUsage = charges s s.lru
  lruLive : ∀ p ∈ s.lru, p ∈ s.live
  old : ∀ p ∈ s.live, p < s.fresh
  usage : s.usage = ∑ p ∈ s.live, (s.mem p).totalCharge
  small : s.usage < 2 ^ 64
  empty : doubles.exceeds 0 s.lowPriPoolCapacity = false

/-- The invariant of the shard. -/
structure Inv (doubles : Doubles δ) (s : LRUCacheShard κ δ) : Prop extends Accounted doubles s where
  settled : ∀ p, Settled s p

/-- Nothing changes for the other handles. -/
structure Frame (e : Nat) (s s' : LRUCacheShard κ δ) : Prop where
  lru : ∀ p, p ≠ e → (p ∈ s'.lru ↔ p ∈ s.lru)
  live : ∀ p, p ≠ e → (p ∈ s'.live ↔ p ∈ s.live)
  table : ∀ p, p ≠ e → ∀ k, s'.table k = some p ↔ s.table k = some p
  key : ∀ p, p ≠ e → (s'.mem p).key = (s.mem p).key
  refs : ∀ p, p ≠ e → (s'.mem p).refs = (s.mem p).refs
  inCache : ∀ p, p ≠ e → (s'.mem p).inCache = (s.mem p).inCache

theorem Settled.frame (settled : Settled s p) (frame : Frame e s s') (other : p ≠ e) : Settled s' p where
  listed := by
    rw [frame.lru p other, frame.live p other, frame.inCache p other, frame.refs p other]
    exact settled.listed
  tabled k := by
    rw [frame.table p other, frame.live p other, frame.inCache p other, frame.key p other]
    exact settled.tabled k
  held member := by
    rw [frame.inCache p other, frame.refs p other]
    exact settled.held ((frame.live p other).mp member)

/-- An operation on one handle keeps the invariant when it keeps the sums and settles that handle. -/
theorem Inv.of_frame (inv : Inv doubles s) (frame : Frame e s s') (accounted : Accounted doubles s')
    (settled : Settled s' e) : Inv doubles s' :=
  { accounted with
    settled := fun p => by
      by_cases same : p = e
      · exact same ▸ settled
      · exact (inv.settled p).frame frame same }

namespace Frame

theorem trans (first : Frame e s s') (second : Frame e s' s'') : Frame e s s'' where
  lru p other := (second.lru p other).trans (first.lru p other)
  live p other := (second.live p other).trans (first.live p other)
  table p other k := (second.table p other k).trans (first.table p other k)
  key p other := (second.key p other).trans (first.key p other)
  refs p other := (second.refs p other).trans (first.refs p other)
  inCache p other := (second.inCache p other).trans (first.inCache p other)

theorem modify (f : LRUHandle κ → LRUHandle κ) : Frame e s (s.modify e f) where
  lru _ _ := Iff.rfl
  live _ _ := Iff.rfl
  table _ _ _ := Iff.rfl
  key p other := by rw [modify_mem_other f other]
  refs p other := by rw [modify_mem_other f other]
  inCache p other := by rw [modify_mem_other f other]

theorem lruRemove : Frame e s (s.lruRemove e) where
  lru _ other := mem_erase_of_ne other
  live _ _ := Iff.rfl
  table _ _ _ := Iff.rfl
  key _ _ := Eq.refl _
  refs _ _ := Eq.refl _
  inCache _ _ := Eq.refl _

/-- The key of the handle, or a key that is not in the table, is taken out of it. -/
theorem tableRemove [DecidableEq κ] {key : κ} (own : ∀ p, s.table key = some p → p = e) :
    Frame e s (s.tableRemove key) where
  lru _ _ := Iff.rfl
  live _ _ := Iff.rfl
  table p other k := by
    by_cases same : k = key
    · subst same
      simp only [LRUCacheShard.tableRemove, update_self, reduceCtorEq, false_iff]
      exact fun found => other (own p found)
    · simp [LRUCacheShard.tableRemove, update_of_ne same]
  key _ _ := Eq.refl _
  refs _ _ := Eq.refl _
  inCache _ _ := Eq.refl _

theorem discharge (usage : Nat) : Frame e s ({ s with usage }.free e) where
  lru _ _ := Iff.rfl
  live p other := by simp [free, other]
  table _ _ _ := Iff.rfl
  key _ _ := Eq.refl _
  refs _ _ := Eq.refl _
  inCache _ _ := Eq.refl _

end Frame

/-- The entry is charged and, unless it stands alone, in the table. -/
def enter (s : LRUCacheShard κ δ) (e : Nat) (table : κ → Option Nat) : LRUCacheShard κ δ :=
  { s with table, usage := add64 s.usage (s.mem e).totalCharge, live := Insert.insert e s.live }

namespace Accounted

variable (accounted : Accounted doubles s)
include accounted

theorem charges_le_usage (nodup : l.Nodup) (live : ∀ p ∈ l, p ∈ s.live) : charges s l ≤ s.usage := by
  rw [accounted.usage, charges, ← sum_toFinset _ nodup]
  exact Finset.sum_le_sum_of_subset fun p member => live p (mem_toFinset.mp member)

theorem nodup : s.lru.Nodup := by
  obtain ⟨_, _, _, segments⟩ := accounted.segments
  exact segments.lru ▸ segments.nodup

theorem charges_lt : charges s s.lru < 2 ^ 64 :=
  (accounted.charges_le_usage accounted.nodup accounted.lruLive).trans_lt accounted.small

theorem lruRemove (member : e ∈ s.lru) : Accounted doubles (s.lruRemove e) := by
  have small := accounted.charges_lt
  obtain ⟨_, _, _, segments⟩ := accounted.segments
  exact
    { accounted with
      segments := ⟨_, _, _, segments.remove member small⟩
      lruUsage := by
        simp only [LRUCacheShard.lruRemove, accounted.lruUsage]
        exact sub64_charges member small
      lruLive := fun p inList => accounted.lruLive p (mem_of_mem_erase inList) }

theorem not_mem_lruRemove : e ∉ (s.lruRemove e).lru := accounted.nodup.not_mem_erase

/-- Counting references or taking an entry out of the cache does not touch the sums. -/
theorem modify (totalCharge : (f (s.mem e)).totalCharge = (s.mem e).totalCharge)
    (inHighPriPool : (f (s.mem e)).inHighPriPool = (s.mem e).inHighPriPool)
    (inLowPriPool : (f (s.mem e)).inLowPriPool = (s.mem e).inLowPriPool) : Accounted doubles (s.modify e f) := by
  have same {α : Type} (field : LRUHandle κ → α) (kept : field (f (s.mem e)) = field (s.mem e)) (p : Nat) :
      field ((s.modify e f).mem p) = field (s.mem p) := by
    by_cases here : p = e
    · rw [here, modify_mem_same, kept]
    · rw [modify_mem_other _ here]
  have charges_same (l : List Nat) : charges (s.modify e f) l = charges s l :=
    charges_congr fun p _ => same (·.totalCharge) totalCharge p
  obtain ⟨bottom, low, high, segments⟩ := accounted.segments
  have high_same := same (·.inHighPriPool) inHighPriPool
  have low_same := same (·.inLowPriPool) inLowPriPool
  exact
    { accounted with
      segments := ⟨bottom, low, high, { segments with
          inBottom := fun p member => by
            rw [high_same, low_same]
            exact segments.inBottom p member
          inLow := fun p member => by
            rw [high_same, low_same]
            exact segments.inLow p member
          inHigh := fun p member => by
            rw [high_same, low_same]
            exact segments.inHigh p member
          lowPriPoolUsage := segments.lowPriPoolUsage.trans (charges_same low).symm
          highPriPoolUsage := segments.highPriPoolUsage.trans (charges_same high).symm }⟩
      lruUsage := accounted.lruUsage.trans (charges_same s.lru).symm
      usage := accounted.usage.trans
        (Finset.sum_congr rfl fun p _ => (same (·.totalCharge) totalCharge p).symm) }

/-- Writing a handle that is not in use. -/
theorem modify_unused (f : LRUHandle κ → LRUHandle κ) (unused : e ∉ s.live) : Accounted doubles (s.modify e f) := by
  obtain ⟨bottom, low, high, segments⟩ := accounted.segments
  have notIn : e ∉ s.lru := fun member => unused (accounted.lruLive e member)
  have same (p : Nat) (member : p ∈ s.live) : (s.modify e f).mem p = s.mem p :=
    modify_mem_other f (ne_of_mem_of_not_mem member unused)
  exact
    { accounted with
      segments := ⟨bottom, low, high, segments.modify f notIn⟩
      lruUsage := accounted.lruUsage.trans
        (charges_congr fun p member => by rw [same p (accounted.lruLive p member)]).symm
      usage := accounted.usage.trans (Finset.sum_congr rfl fun p member => by rw [same p member]) }

/-- An entry is no longer charged. -/
theorem discharge (member : e ∈ s.live) (notIn : e ∉ s.lru) :
    Accounted doubles ({ s with usage := sub64 s.usage (s.mem e).totalCharge }.free e) := by
  obtain ⟨bottom, low, high, segments⟩ := accounted.segments
  have sum : s.usage = (s.mem e).totalCharge + ∑ p ∈ s.live.erase e, (s.mem p).totalCharge := by
    rw [accounted.usage]
    exact (Finset.add_sum_erase _ _ member).symm
  have small := accounted.small
  have rest : sub64 s.usage (s.mem e).totalCharge = ∑ p ∈ s.live.erase e, (s.mem p).totalCharge := by
    rw [sum] at small ⊢
    exact sub64_add small
  exact
    { segments := ⟨bottom, low, high, { segments with }⟩
      lruUsage := accounted.lruUsage
      lruLive := fun p inList => Finset.mem_erase.mpr ⟨ne_of_mem_of_not_mem inList notIn, accounted.lruLive p inList⟩
      old := fun p inLive => accounted.old p (Finset.mem_of_mem_erase inLive)
      usage := rest
      small := by
        exact Nat.mod_lt _ (by decide)
      empty := accounted.empty }

/-- A new entry is charged, whatever is done to the table. -/
theorem enter (table : κ → Option Nat) (unused : e ∉ s.live) (old : e < s.fresh)
    (small : s.usage + (s.mem e).totalCharge < 2 ^ 64) :
    Accounted doubles (s.enter e table) := by
  obtain ⟨bottom, low, high, segments⟩ := accounted.segments
  exact
    { segments := ⟨bottom, low, high, { segments with }⟩
      lruUsage := accounted.lruUsage
      lruLive := fun p inList => Finset.mem_insert_of_mem (accounted.lruLive p inList)
      old := fun p inLive => by
        rcases Finset.mem_insert.mp inLive with here | before
        · exact here ▸ old
        · exact accounted.old p before
      usage := by
        change add64 s.usage (s.mem e).totalCharge = ∑ p ∈ Insert.insert e s.live, (s.mem p).totalCharge
        rw [add64_eq small, Finset.sum_insert unused, ← accounted.usage, Nat.add_comm]
      small := Nat.mod_lt _ (by decide)
      empty := accounted.empty }

/-- An entry in use joins the list. -/
theorem lruInsert (member : e ∈ s.live) (notIn : e ∉ s.lru) :
    Accounted doubles (s.lruInsert doubles e) ∧ Keeps s (s.lruInsert doubles e) ∧
      (s.lruInsert doubles e).lru.Perm (e :: s.lru) := by
  obtain ⟨_, _, _, segments⟩ := accounted.segments
  have live : ∀ p ∈ e :: s.lru, p ∈ s.live := forall_mem_cons.mpr ⟨member, accounted.lruLive⟩
  have below := accounted.charges_le_usage (nodup_cons.mpr ⟨notIn, accounted.nodup⟩) live
  rw [charges_cons, Nat.add_comm] at below
  obtain ⟨segments', keeps, perm, lruUsage⟩ :=
    lruInsert_spec segments notIn (below.trans_lt accounted.small) accounted.empty accounted.lruUsage
  refine ⟨?_, keeps, perm⟩
  exact
    { segments := segments'
      lruUsage
      lruLive := fun p inList => by
        rw [keeps.live]
        exact live p (perm.mem_iff.mp inList)
      old := keeps.live ▸ keeps.fresh ▸ accounted.old
      usage := by
        rw [keeps.usage, keeps.live, accounted.usage]
        exact Finset.sum_congr rfl fun p _ => (keeps.totalCharge p).symm
      small := keeps.usage ▸ accounted.small
      empty := keeps.lowPriPoolCapacity ▸ accounted.empty }

end Accounted

/-! ## Calls -/

theorem Settled.of_unused (notIn : p ∉ s.lru) (unused : p ∉ s.live) (absent : ∀ k, s.table k ≠ some p) :
    Settled s p where
  listed := by simp [notIn, unused]
  tabled k := by simp [absent k, unused]
  held member := absurd member unused

theorem Frame.lruInsert (keeps : Keeps s s') (perm : s'.lru.Perm (e :: s.lru)) : Frame e s s' where
  lru p other := by simp [perm.mem_iff, other]
  live p _ := by rw [keeps.live]
  table p _ k := by rw [keeps.table]
  key p _ := keeps.key p
  refs p _ := keeps.refs p
  inCache p _ := keeps.inCache p

section Calls

private theorem tableRemove_of_ne [DecidableEq κ] (other : k ≠ key) : (s.tableRemove key).table k = s.table k :=
  update_of_ne other _ _

theorem Accounted.tableRemove [DecidableEq κ] (accounted : Accounted doubles s) (key : κ) :
    Accounted doubles (s.tableRemove key) := by
  obtain ⟨bottom, low, high, segments⟩ := accounted.segments
  exact { accounted with segments := ⟨bottom, low, high, { segments with }⟩ }

section Using
variable (inv : Inv doubles s)
include inv

theorem Inv.own_key (member : e ∈ s.live) (inCache : (s.mem e).inCache = true) : s.table (s.mem e).key = some e :=
  ((inv.settled e).tabled _).mpr ⟨member, inCache, rfl⟩

/-- A handle that has left the table, by its own key. -/
theorem Inv.absent_of_tableRemove [DecidableEq κ] (found : s.table key = some e) (k : κ) :
    (s.tableRemove key).table k ≠ some e := by
  by_cases same : k = key
  · simp [tableRemove, same]
  · intro again
    rw [tableRemove_of_ne same] at again
    have own := (((inv.settled e).tabled key).mp found).2.2
    exact same ((((inv.settled e).tabled k).mp again).2.2.symm.trans own)

theorem evict_inv [DecidableEq κ] (member : e ∈ s.lru) : Inv doubles (s.evict e) := by
  obtain ⟨inLive, inCache, -⟩ := (inv.settled e).listed.mp member
  have found := inv.own_key inLive inCache
  have frame : Frame e s (s.evict e) :=
    Frame.lruRemove.trans <|
      (Frame.tableRemove (s := s.lruRemove e) fun p again => Option.some.inj (again.symm.trans found)).trans <|
      (Frame.modify _).trans (Frame.discharge _)
  have removed := (inv.toAccounted.lruRemove member).tableRemove (s.mem e).key
  have notIn : e ∉ (s.lruRemove e).lru := inv.toAccounted.not_mem_lruRemove
  have left := (removed.modify (f := ({ · with inCache := false })) (e := e) rfl rfl rfl).discharge inLive notIn
  rw [modify_mem_same] at left
  exact inv.of_frame frame left (.of_unused notIn (Finset.notMem_erase e _) (inv.absent_of_tableRemove found))

/-- `Erase`, and what `Insert` does to the entry of the same key. -/
theorem erase_inv [DecidableEq κ] (key : κ) : Inv doubles (s.erase key) := by
  cases found : s.table key with
  | none =>
    have same : s.tableRemove key = s := by
      rw [tableRemove, ← found, update_eq_self]
    rw [erase, found, same]
    exact inv
  | some old =>
    obtain ⟨inLive, inCache, -⟩ := ((inv.settled old).tabled key).mp found
    have absent := inv.absent_of_tableRemove found
    set s' := (s.tableRemove key).modify old ({ · with inCache := false })
    have frame : Frame old s s' :=
      (Frame.tableRemove fun p again => Option.some.inj (again.symm.trans found)).trans (Frame.modify _)
    have accounted := (inv.toAccounted.tableRemove key).modify (f := ({ · with inCache := false })) (e := old)
      rfl rfl rfl
    rw [erase, found, replaceOld, show (s.tableRemove key).mem = s.mem from rfl]
    by_cases refs : 0 < (s.mem old).refs
    · have notIn : old ∉ s.lru := fun member => by
        have unreferenced := ((inv.settled old).listed.mp member).2.2
        omega
      rw [if_pos (by simpa [hasRefs] using refs)]
      refine inv.of_frame frame accounted ⟨?_, fun k => ?_, fun _ => ?_⟩
      · rw [modify_mem_same]
        exact ⟨fun member => absurd member notIn, fun settled => absurd settled.2.1 (by simp)⟩
      · rw [modify_mem_same]
        exact ⟨fun again => absurd again (absent k), fun settled => absurd settled.2.1 (by simp)⟩
      · rw [modify_mem_same]
        exact .inr refs
    · have member : old ∈ s.lru := (inv.settled old).listed.mpr ⟨inLive, inCache, by omega⟩
      have notIn : old ∉ (s.lruRemove old).lru := inv.toAccounted.not_mem_lruRemove
      rw [if_neg (by simpa [hasRefs] using refs)]
      have left := (accounted.lruRemove member).discharge inLive notIn
      change Accounted doubles
        ({ s'.lruRemove old with usage := sub64 s.usage (s'.mem old).totalCharge }.free old) at left
      rw [modify_mem_same] at left
      exact inv.of_frame (frame.trans (Frame.lruRemove.trans (Frame.discharge _))) left
        (.of_unused notIn (Finset.notMem_erase old _) absent)

/-- An entry outside of the list whose references, but not its key or place in the table, change. -/
theorem Inv.reference (frame : Frame e s s') (accounted : Accounted doubles s')
    (notIn : e ∉ s'.lru) (table : s'.table = s.table) (live : s'.live = s.live) (handle : s'.mem e = h)
    (key : h.key = (s.mem e).key) (inCache : h.inCache = (s.mem e).inCache) (refs : 0 < h.refs) : Inv doubles s' := by
  subst handle
  refine inv.of_frame frame accounted ⟨?_, fun k => ?_, fun _ => .inr refs⟩
  · exact ⟨fun member => absurd member notIn, fun settled => absurd settled.2.2 (by omega)⟩
  · rw [table, live, key, inCache]
    exact (inv.settled e).tabled k

omit inv in
theorem ref_pos (fits : refs + 1 < 2 ^ 32) : 0 < (refs + 1) % 2 ^ 32 := by omega

theorem Inv.not_listed (refs : 0 < (s.mem e).refs) : e ∉ s.lru := fun member => by
  have unreferenced := ((inv.settled e).listed.mp member).2.2
  omega

private theorem lookup_inv (key : κ)
    (fits : ∀ p, s.table key = some p → (s.mem p).refs + 1 < 2 ^ 32) : Inv doubles (s.lookup key).2 := by
  cases found : s.table key with
  | none =>
    rw [lookup, found]
    exact inv
  | some e =>
    obtain ⟨inLive, inCache, -⟩ := ((inv.settled e).tabled key).mp found
    have fits := ref_pos (fits e found)
    rw [lookup, found]
    by_cases refs : 0 < (s.mem e).refs
    · simp only [hasRefs, refs, decide_true, if_true]
      exact inv.reference (Frame.modify _) (inv.toAccounted.modify rfl rfl rfl) (inv.not_listed refs) rfl rfl
        (modify_mem_same _) rfl rfl fits
    · have member : e ∈ s.lru := (inv.settled e).listed.mpr ⟨inLive, inCache, by omega⟩
      simp only [hasRefs, refs, decide_false, Bool.false_eq_true, if_false]
      exact inv.reference (Frame.lruRemove.trans (Frame.modify _))
        ((inv.toAccounted.lruRemove member).modify rfl rfl rfl) inv.toAccounted.not_mem_lruRemove rfl rfl
        (modify_mem_same _) rfl rfl fits

private theorem ref_inv (refs : 0 < (s.mem e).refs) (fits : (s.mem e).refs + 1 < 2 ^ 32) : Inv doubles (s.ref e) :=
  inv.reference (Frame.modify _) (inv.toAccounted.modify rfl rfl rfl) (inv.not_listed refs) rfl rfl
    (modify_mem_same _) rfl rfl (ref_pos fits)

/-- An entry outside of the list is freed when its last reference is given back. -/
theorem release_inv [DecidableEq κ] (inLive : e ∈ s.live) (refs : 0 < (s.mem e).refs) (eraseIfLastRef : Bool) :
    Inv doubles (s.release doubles e eraseIfLastRef).2 := by
  have notIn := inv.not_listed refs
  have handle : (s.modify e (·.unref)).mem e = (s.mem e).unref := modify_mem_same _
  have frame : Frame e s (s.modify e (·.unref)) := Frame.modify _
  have accounted := inv.toAccounted.modify (f := (·.unref)) (e := e) rfl rfl rfl
  rw [release, handle]
  by_cases more : 0 < (s.mem e).refs - 1
  · rw [if_pos (by simp [hasRefs, unref, more])]
    exact inv.reference frame accounted notIn rfl rfl handle rfl rfl more
  rw [if_neg (by simp [hasRefs, unref, more]),
    show (s.mem e).unref.inCache = (s.mem e).inCache from rfl]
  cases inCache : (s.mem e).inCache with
  | true =>
    have found := inv.own_key inLive inCache
    simp only [if_true]
    split
    · have left := ((accounted.tableRemove (s.mem e).key).modify (f := ({ · with inCache := false })) (e := e)
        rfl rfl rfl).discharge inLive notIn
      rw [modify_mem_same, show ((s.modify e (·.unref)).tableRemove (s.mem e).key).mem e = (s.mem e).unref from handle]
        at left
      have frame' : Frame e (s.modify e (·.unref)) ((s.modify e (·.unref)).tableRemove (s.mem e).key) :=
        Frame.tableRemove fun p again => Option.some.inj (again.symm.trans found)
      exact inv.of_frame (frame.trans (frame'.trans ((Frame.modify _).trans (Frame.discharge _)))) left
        (.of_unused notIn (Finset.notMem_erase e _) (inv.absent_of_tableRemove found))
    · obtain ⟨accounted', keeps, perm⟩ := accounted.lruInsert inLive notIn
      refine inv.of_frame (frame.trans (.lruInsert keeps perm)) accounted' ⟨?_, fun k => ?_, fun _ => .inl ?_⟩
      · rw [keeps.live, keeps.inCache, keeps.refs, handle, perm.mem_iff]
        exact ⟨fun _ => ⟨inLive, inCache, by simp only [unref]; omega⟩, fun _ => mem_cons_self⟩
      · rw [keeps.table, keeps.live, keeps.inCache, keeps.key, handle]
        exact (inv.settled e).tabled k
      · rw [keeps.inCache, handle]
        exact inCache
  | false =>
    have left := accounted.discharge inLive notIn
    rw [handle] at left
    have absent (k : κ) : s.table k ≠ some e := fun found => by
      have inTable := (((inv.settled e).tabled k).mp found).2.1
      simp [inCache] at inTable
    exact inv.of_frame (frame.trans (Frame.discharge _)) left (.of_unused notIn (Finset.notMem_erase e _) absent)

end Using

theorem Accounted.totalCharge_le (accounted : Accounted doubles s) (member : e ∈ s.live) :
    (s.mem e).totalCharge ≤ s.usage := by
  rw [accounted.usage]
  exact Finset.single_le_sum_of_canonicallyOrdered (f := fun p => (s.mem p).totalCharge) member

theorem Accounted.discharge_le (accounted : Accounted doubles s) (member : e ∈ s.live) :
    sub64 s.usage (s.mem e).totalCharge ≤ s.usage := by
  have below := accounted.totalCharge_le member
  unfold sub64
  omega

/-- What an eviction leaves alone. -/
structure Evicts (s s' : LRUCacheShard κ δ) : Prop where
  fresh : s'.fresh = s.fresh
  capacity : s'.capacity = s.capacity
  live : s'.live ⊆ s.live
  lru : s'.lru ⊆ s.lru
  usage : s'.usage ≤ s.usage
  mem : ∀ p, p ∉ s.live → s'.mem p = s.mem p

theorem Evicts.rfl : Evicts s s := by constructor <;> simp

theorem Evicts.trans (first : Evicts s s') (second : Evicts s' s'') : Evicts s s'' where
  fresh := second.fresh.trans first.fresh
  capacity := second.capacity.trans first.capacity
  live := Finset.Subset.trans second.live first.live
  lru := List.Subset.trans second.lru first.lru
  usage := second.usage.trans first.usage
  mem p unused := (second.mem p fun member => unused (first.live member)).trans (first.mem p unused)

section Evict
variable [DecidableEq κ]

private theorem evict_evicts (inv : Inv doubles s) (member : e ∈ s.lru) : Evicts s (s.evict e) where
  fresh := rfl
  capacity := rfl
  live := Finset.erase_subset e s.live
  lru := erase_subset
  usage := inv.toAccounted.discharge_le (inv.lruLive e member)
  mem _ unused := update_of_ne (ne_of_mem_of_not_mem (inv.lruLive e member) unused).symm _ _

/-- `EvictFromLRU` stops when the charge fits or the list is empty. -/
theorem evictLoop_spec (charge rounds : Nat) (inv : Inv doubles s) (enough : s.lru.length ≤ rounds) :
    let s' := s.evictLoop charge rounds
    Inv doubles s' ∧ Evicts s s' ∧ (s.capacity < add64 s'.usage charge → s'.lru = []) := by
  induction rounds generalizing s with
  | zero =>
    exact ⟨inv, .rfl, fun _ => length_eq_zero_iff.mp (Nat.le_zero.mp enough)⟩
  | succ rounds ih =>
    rw [evictLoop]
    split
    · cases list : s.lru with
      | nil => exact ⟨inv, .rfl, fun _ => list⟩
      | cons old =>
        have member : old ∈ s.lru := list ▸ mem_cons_self
        have shorter : (s.evict old).lru.length ≤ rounds := by
          change (s.lru.erase old).length ≤ rounds
          rw [length_erase_of_mem member]
          omega
        have evicts := evict_evicts inv member
        obtain ⟨inv', evicts', stops⟩ := ih (evict_inv inv member) shorter
        exact ⟨inv', evicts.trans evicts', stops⟩
    · next fits => exact ⟨inv, .rfl, fun exceeded => absurd exceeded fits⟩

theorem evictFromLRU_spec (charge : Nat) (inv : Inv doubles s) :
    Inv doubles (s.evictFromLRU charge) ∧ Evicts s (s.evictFromLRU charge) ∧
      (s.capacity < add64 (s.evictFromLRU charge).usage charge → (s.evictFromLRU charge).lru = []) :=
  evictLoop_spec charge s.lru.length inv le_rfl

private theorem eraseUnRefLoop_inv (rounds : Nat) (inv : Inv doubles s) :
    Inv doubles (s.eraseUnRefLoop rounds) := by
  induction rounds generalizing s with
  | zero => exact inv
  | succ _ ih =>
    rw [eraseUnRefLoop]
    cases list : s.lru with
    | nil => exact inv
    | cons => exact ih (evict_inv inv (list ▸ mem_cons_self))

theorem erase_evicts (inv : Inv doubles s) (key : κ) : Evicts s (s.erase key) := by
  cases found : s.table key with
  | none =>
    rw [erase, found]
    constructor <;> simp [tableRemove, replaceOld]
  | some old =>
    have inLive := (((inv.settled old).tabled key).mp found).1
    have other (p : Nat) (unused : p ∉ s.live) : p ≠ old := (ne_of_mem_of_not_mem inLive unused).symm
    rw [erase, found, replaceOld]
    split
    · exact ⟨rfl, rfl, fun _ => id, fun _ => id, le_rfl, fun p unused => update_of_ne (other p unused) _ _⟩
    · exact ⟨rfl, rfl, Finset.erase_subset old s.live, erase_subset, inv.toAccounted.discharge_le inLive,
        fun p unused => update_of_ne (other p unused) _ _⟩

theorem erase_table (s : LRUCacheShard κ δ) (key : κ) :
    (s.erase key).table = update s.table key none := by
  rw [erase]
  cases s.table key with
  | none => rfl
  | some =>
    rw [replaceOld]
    split <;> rfl

end Evict

private theorem enter_modify (other : e ≠ old) (table : κ → Option Nat) (f : LRUHandle κ → LRUHandle κ) :
    (s.enter e table).modify old f = (s.modify old f).enter e table := by
  simp [enter, modify, update_of_ne other]

private theorem enter_lruRemove (old : Nat) (table : κ → Option Nat) :
    (s.enter e table).lruRemove old = (s.lruRemove old).enter e table := rfl

private theorem enter_discharge (other : e ≠ old) (table : κ → Option Nat)
    (commute : sub64 (add64 s.usage (s.mem e).totalCharge) charge =
      add64 (sub64 s.usage charge) (s.mem e).totalCharge) :
    { s.enter e table with usage := sub64 (s.enter e table).usage charge }.free old =
      ({ s with usage := sub64 s.usage charge }.free old).enter e table := by
  simp only [enter, free, Finset.erase_insert_of_ne other, commute]

/-- Replacing the entry of a key is erasing it first. -/
theorem replaceOld_eq_enter_erase [DecidableEq κ] (inv : Inv doubles s) (key : κ) (unused : e ∉ s.live)
    (small : s.usage + (s.mem e).totalCharge < 2 ^ 64) :
    (s.enter e (update s.table key (some e))).replaceOld (s.table key) =
      (s.erase key).enter e (update (s.erase key).table key (some e)) := by
  rw [erase_table, update_idem]
  cases found : s.table key with
  | none => rw [erase, found]; rfl
  | some old =>
    have inLive := (((inv.settled old).tabled key).mp found).1
    have other : e ≠ old := (ne_of_mem_of_not_mem inLive unused).symm
    have below := inv.toAccounted.totalCharge_le inLive
    have commute : sub64 (add64 s.usage (s.mem e).totalCharge) (s.mem old).totalCharge =
        add64 (sub64 s.usage (s.mem old).totalCharge) (s.mem e).totalCharge := by
      unfold add64 sub64
      omega
    rw [erase, found, replaceOld, replaceOld, show (s.enter e _).mem = s.mem from rfl,
      show (s.tableRemove key).mem = s.mem from rfl]
    split
    · exact enter_modify other _ _
    · rw [enter_modify other, enter_lruRemove]
      refine enter_discharge other _ ?_
      rw [show ((s.modify old _).lruRemove old).mem e = s.mem e from update_of_ne other _ _]
      exact commute

/-- A handle that is not in use is not in the list or the table, so that its memory may be written. -/
theorem Inv.modify_unused (f : LRUHandle κ → LRUHandle κ) (inv : Inv doubles s) (unused : e ∉ s.live) :
    Inv doubles (s.modify e f) := by
  have settled := inv.settled e
  have notIn : e ∉ s.lru := fun member => unused (inv.lruLive e member)
  have absent (k : κ) : s.table k ≠ some e := fun found => unused ((settled.tabled k).mp found).1
  exact inv.of_frame (Frame.modify f) (inv.toAccounted.modify_unused f unused) (.of_unused notIn unused absent)

theorem createHandle_inv (inv : Inv doubles s) (h : LRUHandle κ) : Inv doubles (s.createHandle h).2 := by
  have unused : s.fresh ∉ s.live := fun member => Nat.lt_irrefl _ (inv.old _ member)
  have written := inv.modify_unused (fun _ => h) unused
  obtain ⟨bottom, low, high, segments⟩ := written.segments
  exact
    { written with
      segments := ⟨bottom, low, high, { segments with }⟩
      old := fun p member => Nat.lt_succ_of_lt (inv.old p member)
      settled := fun p => { written.settled p with } }

/-- The frame of an entry that enters the shard, in the table unless it stands alone. -/
theorem Frame.enter [DecidableEq κ] {key : κ} (free : s.table key = none) :
    Frame e s (s.enter e (update s.table key (some e))) where
  lru _ _ := Iff.rfl
  live p other := by simp [LRUCacheShard.enter, other]
  table p other k := by
    by_cases same : k = key
    · simp [LRUCacheShard.enter, same, free, other.symm]
    · simp [LRUCacheShard.enter, update_of_ne same]
  key _ _ := Eq.refl _
  refs _ _ := Eq.refl _
  inCache _ _ := Eq.refl _

/-- What the rest of an insertion starts from: a shard without the key, and a handle that is ready to enter it. -/
structure Ready (doubles : Doubles δ) (s : LRUCacheShard κ δ) (e : Nat) (key : κ) : Prop extends Inv doubles s where
  unused : e ∉ s.live
  fresh : e < s.fresh
  handleKey : (s.mem e).key = key
  handleInCache : (s.mem e).inCache = true
  handleRefs : (s.mem e).refs = 0
  free : s.table key = none
  fits : s.usage + (s.mem e).totalCharge < 2 ^ 64

section Ready
variable {key : κ}

variable (ready : Ready doubles s e key)
include ready

theorem Ready.tabled [DecidableEq κ] (k : κ) :
    (s.enter e (update s.table key (some e))).table k = some e ↔ key = k := by
  by_cases same : k = key
  · simp [enter, same]
  · have absent : s.table k ≠ some e := fun found => ready.unused (((ready.settled e).tabled k).mp found).1
    simp [enter, update_of_ne same, absent, Ne.symm same]

theorem Ready.not_listed : e ∉ s.lru := fun member => ready.unused (ready.lruLive e member)

/-- The caller gets a reference. -/
theorem Ready.enter_ref [DecidableEq κ] :
    Inv doubles ((s.enter e (update s.table key (some e))).modify e (·.ref)) := by
  have accounted := ready.toAccounted.enter (update s.table key (some e)) ready.unused ready.fresh ready.fits
  have tabled := ready.tabled
  refine ready.of_frame ((Frame.enter ready.free).trans (Frame.modify _)) (accounted.modify rfl rfl rfl)
    ⟨?_, fun k => ?_, fun _ => ?_⟩
  · rw [modify_mem_same]
    refine ⟨fun member => absurd member ready.not_listed, fun settled => absurd settled.2.2 ?_⟩
    simp [LRUHandle.ref, enter, ready.handleRefs]
  · rw [modify_mem_same]
    refine (tabled k).trans ⟨fun own => ⟨Finset.mem_insert_self e _, ready.handleInCache, ?_⟩, fun settled => ?_⟩
    · exact ready.handleKey.trans own
    · exact ready.handleKey.symm.trans settled.2.2
  · rw [modify_mem_same]
    exact .inl ready.handleInCache

/-- The caller wants no reference. -/
theorem Ready.enter_lruInsert [DecidableEq κ] :
    let s' := (s.enter e (update s.table key (some e))).lruInsert doubles e
    Inv doubles s' ∧ s'.usage = add64 s.usage (s.mem e).totalCharge ∧ s'.capacity = s.capacity := by
  have accounted := ready.toAccounted.enter (update s.table key (some e)) ready.unused ready.fresh ready.fits
  have tabled := ready.tabled
  obtain ⟨accounted', keeps, perm⟩ := accounted.lruInsert (Finset.mem_insert_self e _) ready.not_listed
  refine ⟨ready.of_frame ((Frame.enter ready.free).trans (.lruInsert keeps perm)) accounted'
    ⟨?_, fun k => ?_, fun _ => .inl ?_⟩, keeps.usage, keeps.capacity⟩
  · rw [keeps.live, keeps.inCache, keeps.refs, perm.mem_iff]
    exact ⟨fun _ => ⟨Finset.mem_insert_self e _, ready.handleInCache, ready.handleRefs⟩, fun _ => mem_cons_self⟩
  · rw [keeps.table, keeps.live, keeps.inCache, keeps.key, tabled]
    refine ⟨fun own => ⟨Finset.mem_insert_self e _, ready.handleInCache, ready.handleKey.trans own⟩, fun settled => ?_⟩
    exact ready.handleKey.symm.trans settled.2.2
  · rw [keeps.inCache]
    exact ready.handleInCache

end Ready

/-- A shard above its capacity has nothing left to evict. -/
structure Trimmed (doubles : Doubles δ) (s : LRUCacheShard κ δ) : Prop extends Inv doubles s where
  trimmed : s.capacity < s.usage → s.lru = []

variable (inv : Inv doubles s)
include inv

section Enter
variable [DecidableEq κ] (unused : e ∉ s.live) (fresh : e < s.fresh) (inCache : (s.mem e).inCache = true)
  (refs : (s.mem e).refs = 0) (fits : s.usage + (s.mem e).totalCharge < 2 ^ 64)
include unused fresh inCache refs fits

/-- The handle is ready to enter once the entry of the same key is gone. -/
theorem ready_of_erase : Ready doubles (s.erase (s.mem e).key) e (s.mem e).key := by
  have erases := erase_evicts inv (s.mem e).key
  have handle := erases.mem e unused
  exact
    { erase_inv inv (s.mem e).key with
      unused := fun member => unused (erases.live member)
      fresh := erases.fresh ▸ fresh
      handleKey := by rw [handle]
      handleInCache := by rw [handle, inCache]
      handleRefs := by rw [handle, refs]
      free := by rw [erase_table, update_self]
      fits := by
        rw [handle]
        exact (Nat.add_le_add_right erases.usage _).trans_lt fits }

/-- What `InsertItem` does with a handle that is let in. -/
theorem admit_trimmed (stops : s.capacity < add64 s.usage (s.mem e).totalCharge → s.lru = []) :
    let s' := (s.enter e (update s.table (s.mem e).key (some e))).replaceOld (s.table (s.mem e).key)
    Trimmed doubles (s'.modify e (·.ref)) ∧ (s'.mem e).refs = 0 ∧
      (add64 s.usage (s.mem e).totalCharge ≤ s.capacity → Trimmed doubles (s'.lruInsert doubles e)) := by
  have ready := ready_of_erase inv unused fresh inCache refs fits
  have erases := erase_evicts inv (s.mem e).key
  have handle := erases.mem e unused
  have below : add64 (s.erase (s.mem e).key).usage (s.mem e).totalCharge ≤ add64 s.usage (s.mem e).totalCharge := by
    have smaller := erases.usage
    rw [add64_eq fits, add64_eq (by omega)]
    omega
  rw [replaceOld_eq_enter_erase inv _ unused fits]
  obtain ⟨inserted, usage, capacity⟩ := ready.enter_lruInsert
  refine ⟨{ ready.enter_ref with trimmed := fun exceeded => ?_ }, ready.handleRefs,
    fun fitting => { inserted with trimmed := fun exceeded => ?_ }⟩
  · change (s.erase (s.mem e).key).capacity <
      add64 (s.erase (s.mem e).key).usage ((s.erase (s.mem e).key).mem e).totalCharge at exceeded
    rw [handle, erases.capacity] at exceeded
    have empty := stops (exceeded.trans_le below)
    have sub := erases.lru
    rw [empty, subset_nil] at sub
    exact sub
  · rw [usage, capacity, handle, erases.capacity] at exceeded
    exact absurd (exceeded.trans_le below) (Nat.not_lt.mpr fitting)

private theorem insertItem_trimmed (wantsHandle : Bool) : Trimmed doubles (s.insertItem doubles e wantsHandle).2.2 := by
  obtain ⟨charge, same⟩ : ∃ charge, charge = (s.mem e).totalCharge := ⟨_, rfl⟩
  obtain ⟨evicted, evicts, stops⟩ := evictFromLRU_spec charge inv
  have handle := evicts.mem e unused
  have unused' : e ∉ (s.evictFromLRU charge).live := fun member => unused (evicts.live member)
  have fits' := (Nat.add_le_add_right evicts.usage (s.mem e).totalCharge).trans_lt fits
  rw [← evicts.fresh] at fresh
  rw [← evicts.capacity] at stops
  rw [insertItem, ← same]
  rw [← handle] at same fits' inCache refs
  generalize s.evictFromLRU charge = t at *
  subst same
  obtain ⟨referenced, unreferenced, inserted⟩ := admit_trimmed evicted unused' fresh inCache refs fits' stops
  split
  · next full =>
    exact { evicted.modify_unused _ unused' with trimmed := fun _ => stops full.1 }
  · next admitted =>
    cases wantsHandle with
    | true =>
      rw [if_pos rfl]
      dsimp only
      split
      · next hasRefs => exact absurd unreferenced (Nat.pos_iff_ne_zero.mp (of_decide_eq_true hasRefs))
      · exact referenced
    | false =>
      exact inserted (Nat.not_lt.mp fun full => admitted ⟨full, .inr rfl⟩)

end Enter

private theorem insert_trimmed [DecidableEq κ] (key : κ) (charge : Nat) (wantsHandle : Bool)
    (priority : Priority) (fits : s.usage + charge < 2 ^ 64) :
    Trimmed doubles (s.insert doubles key charge wantsHandle priority).2.2 := by
  have unused : s.fresh ∉ s.live := fun member => Nat.lt_irrefl _ (inv.old _ member)
  refine insertItem_trimmed (createHandle_inv inv _) unused (Nat.lt_succ_self _) ?_ ?_ ?_ wantsHandle
  all_goals simp only [createHandle, update_self]
  exact fits

/-- A referenced handle enters the shard outside of the table. -/
theorem Inv.enter_standalone (unused : e ∉ s.live) (fresh : e < s.fresh)
    (standalone : (s.mem e).inCache = false) (refs : 0 < (s.mem e).refs)
    (fits : s.usage + (s.mem e).totalCharge < 2 ^ 64) : Inv doubles (s.enter e s.table) := by
  have notIn : e ∉ s.lru := fun member => unused (inv.lruLive e member)
  have absent (k : κ) : s.table k ≠ some e := fun found => unused (((inv.settled e).tabled k).mp found).1
  have frame : Frame e s (s.enter e s.table) :=
    ⟨fun _ _ => Iff.rfl, fun p other => by simp [enter, other], fun _ _ _ => Iff.rfl, fun _ _ => rfl, fun _ _ => rfl,
      fun _ _ => rfl⟩
  refine inv.of_frame frame (inv.toAccounted.enter _ unused fresh fits) ⟨?_, fun k => ?_, fun _ => .inr refs⟩
  · exact ⟨fun member => absurd member notIn, fun settled => absurd settled.2.1 (by simp [enter, standalone])⟩
  · exact ⟨fun found => absurd found (absent k), fun settled => absurd settled.2.1 (by simp [enter, standalone])⟩

private theorem createStandalone_inv [DecidableEq κ] (key : κ) (charge : Nat) (allowUncharged : Bool)
    (fits : s.usage + charge < 2 ^ 64) : Inv doubles (s.createStandalone key charge allowUncharged).2 := by
  have unused : s.fresh ∉ s.live := fun member => Nat.lt_irrefl _ (inv.old _ member)
  obtain ⟨h, made⟩ : ∃ h : LRUHandle κ, h = ⟨key, charge, 1, false, false, false, false, false, false, true⟩ := ⟨_, rfl⟩
  obtain ⟨evicted, evicts, -⟩ := evictFromLRU_spec charge (createHandle_inv inv h)
  have handle := (evicts.mem s.fresh unused).trans (update_self ..)
  have unused' := fun member => unused (evicts.live member)
  have fresh : s.fresh < ((s.createHandle h).2.evictFromLRU charge).fresh := evicts.fresh ▸ Nat.lt_succ_self _
  have usage := evicts.usage
  rw [createStandalone, ← made, show s.createHandle h = (s.fresh, (s.createHandle h).2) from rfl]
  dsimp only
  generalize (s.createHandle h).2.evictFromLRU charge = t at *
  subst made
  split
  · split
    · have entered := (evicted.modify_unused ({ · with totalCharge := 0 }) unused').enter_standalone unused' fresh
        (by rw [modify_mem_same, handle]) (by rw [modify_mem_same, handle]; exact Nat.one_pos)
        (by rw [modify_mem_same]; exact evicted.small)
      rw [enter, modify_mem_same, show add64 (t.modify _ _).usage 0 = t.usage from add64_eq evicted.small] at entered
      exact entered
    · exact evicted
  · have entered := evicted.enter_standalone unused' fresh (by rw [handle]) (by rw [handle]; exact Nat.one_pos)
      (by rw [handle]; exact (Nat.add_le_add_right usage _).trans_lt fits)
    rw [enter, handle] at entered
    exact entered

/-- New capacities, as long as an empty pool fits. -/
theorem Inv.resize (capacity : Nat) (highPriPoolRatio lowPriPoolRatio : δ)
    {highPriPoolCapacity lowPriPoolCapacity : δ} (empty : doubles.exceeds 0 lowPriPoolCapacity = false) :
    Inv doubles { s with
      capacity, highPriPoolRatio, lowPriPoolRatio, highPriPoolCapacity, lowPriPoolCapacity } := by
  obtain ⟨bottom, low, high, segments⟩ := inv.segments
  exact
    { inv with
      segments := ⟨bottom, low, high, { segments with }⟩
      empty
      settled := fun p => { inv.settled p with } }

/-- Moving the borders between the pools. -/
theorem maintainPoolSize_inv : Inv doubles (maintainPoolSize doubles s) := by
  have small := inv.toAccounted.charges_lt
  obtain ⟨_, _, _, segments⟩ := inv.segments
  obtain ⟨bottom', low', high', segments', relinks⟩ := maintainPoolSize_spec segments small inv.empty
  exact
    { segments := ⟨bottom', low', high', segments'⟩
      lruUsage := by rw [relinks.lruUsage, relinks.charges, inv.lruUsage]
      lruLive := by
        rw [relinks.lru, relinks.live]
        exact inv.lruLive
      old := by
        rw [relinks.live, relinks.fresh]
        exact inv.old
      usage := by
        rw [relinks.usage, relinks.live, inv.usage]
        exact Finset.sum_congr rfl fun p _ => (relinks.totalCharge p).symm
      small := relinks.usage ▸ inv.small
      empty := relinks.lowPriPoolCapacity ▸ inv.empty
      settled := fun p =>
        { listed := by
            rw [relinks.lru, relinks.live, relinks.inCache, relinks.refs]
            exact (inv.settled p).listed
          tabled := fun k => by
            rw [relinks.table, relinks.live, relinks.inCache, relinks.key]
            exact (inv.settled p).tabled k
          held := by
            rw [relinks.live, relinks.inCache, relinks.refs]
            exact (inv.settled p).held } }

theorem setCapacity_trimmed [DecidableEq κ] (capacity : Nat) : Trimmed doubles (s.setCapacity doubles capacity) := by
  obtain ⟨evicted, evicts, stops⟩ := evictFromLRU_spec 0
    (inv.resize capacity s.highPriPoolRatio s.lowPriPoolRatio (doubles.exceeds_zero capacity _))
  have small := evicted.small
  refine { evicted with trimmed := fun exceeded => stops ?_ }
  rw [add64_eq small]
  rw [setCapacity, evicts.capacity] at exceeded
  exact exceeded

end Calls

/-! ## Runs -/

/-- No sum of charges leaves the range of `size_t`, and no count of references that of `uint32_t`. -/
def NoOverflow (s : LRUCacheShard κ δ) : Call κ δ → Prop
  | .insert _ charge _ _ | .createStandalone _ charge _ => ∑ p ∈ s.live, (s.mem p).totalCharge + charge < 2 ^ 64
  | .lookup key => ∀ p ∈ s.table key, (s.mem p).refs + 1 < 2 ^ 32
  | .ref e => (s.mem e).refs + 1 < 2 ^ 32
  | _ => True

/-- The calls that bring the usage below the capacity where they can. -/
def Call.evicts : Call κ δ → Bool
  | .insert .. | .setCapacity _ => true
  | _ => false

/-- The accounting of a shard. -/
structure Exact (s : LRUCacheShard κ δ) : Prop where
  /-- The handles in use are those in the table and those still referenced. -/
  live : ∀ p, p ∈ s.live ↔ (∃ k, s.table k = some p) ∨ p ∈ s.live ∧ 0 < (s.mem p).refs
  usage : s.usage = ∑ p ∈ s.live, (s.mem p).totalCharge
  lru : ∀ p, p ∈ s.lru ↔ (∃ k, s.table k = some p) ∧ (s.mem p).refs = 0
  lruUsage : s.lruUsage = charges s s.lru
  segments : ∃ bottom low high, Segments s bottom low high

theorem Inv.exact (inv : Inv doubles s) : Exact s where
  live p := by
    constructor
    · intro member
      rcases (inv.settled p).held member with inCache | refs
      · exact .inl ⟨_, inv.own_key member inCache⟩
      · exact .inr ⟨member, refs⟩
    · rintro (⟨k, found⟩ | ⟨member, -⟩)
      · exact (((inv.settled p).tabled k).mp found).1
      · exact member
  usage := inv.usage
  lru p := by
    constructor
    · intro listed
      obtain ⟨member, inCache, refs⟩ := (inv.settled p).listed.mp listed
      exact ⟨⟨_, inv.own_key member inCache⟩, refs⟩
    · rintro ⟨⟨k, found⟩, refs⟩
      obtain ⟨member, inCache, -⟩ := ((inv.settled p).tabled k).mp found
      exact (inv.settled p).listed.mpr ⟨member, inCache, refs⟩
  lruUsage := inv.lruUsage
  segments := inv.segments

section Runs
variable [DecidableEq κ]

/-- One call keeps the invariant. -/
theorem step_inv (inv : Inv doubles s) (call : Call κ δ) (legal : Legal s call) (fits : NoOverflow s call) :
    Inv doubles (s.step doubles call) ∧ (call.evicts = true → Trimmed doubles (s.step doubles call)) := by
  cases call with
  | insert key charge wantsHandle priority =>
    have trimmed := insert_trimmed inv key charge wantsHandle priority (by rw [inv.usage]; exact fits)
    exact ⟨trimmed.toInv, fun _ => trimmed⟩
  | createStandalone key charge allowUncharged =>
    exact ⟨createStandalone_inv inv key charge allowUncharged (by rw [inv.usage]; exact fits), nofun⟩
  | lookup key => exact ⟨lookup_inv inv key fits, nofun⟩
  | ref => exact ⟨ref_inv inv legal.2 fits, nofun⟩
  | release _ eraseIfLastRef => exact ⟨release_inv inv legal.1 legal.2 eraseIfLastRef, nofun⟩
  | erase key => exact ⟨erase_inv inv key, nofun⟩
  | eraseUnRefEntries => exact ⟨eraseUnRefLoop_inv _ inv, nofun⟩
  | setCapacity capacity =>
    have trimmed := setCapacity_trimmed inv capacity
    exact ⟨trimmed.toInv, fun _ => trimmed⟩
  | setHighPriorityPoolRatio ratio =>
    exact ⟨maintainPoolSize_inv (inv.resize s.capacity ratio s.lowPriPoolRatio inv.empty), nofun⟩
  | setLowPriorityPoolRatio ratio =>
    exact ⟨maintainPoolSize_inv (inv.resize s.capacity s.highPriPoolRatio ratio
      (doubles.exceeds_zero s.capacity ratio)), nofun⟩
  | setStrictCapacityLimit =>
    obtain ⟨bottom, low, high, segments⟩ := inv.segments
    exact ⟨{ inv with
      segments := ⟨bottom, low, high, { segments with }⟩
      settled := fun p => { inv.settled p with } }, nofun⟩

/-- The calls of a run are legal and nothing overflows. -/
def Sound (s : LRUCacheShard κ δ) (call : Call κ δ) : Prop := Legal s call ∧ NoOverflow s call

private theorem run_inv (calls : List (Call κ δ)) (inv : Inv doubles s)
    (sound : Lib.Cursor.LegalRun (step doubles) Sound s calls) :
    Inv doubles (calls.foldl (step doubles) s) ∧
      ∀ call ∈ calls.getLast?, call.evicts = true → Trimmed doubles (calls.foldl (step doubles) s) := by
  induction calls generalizing s with
  | nil => exact ⟨inv, nofun⟩
  | cons call calls ih =>
    obtain ⟨⟨legal, fits⟩, rest⟩ := sound
    obtain ⟨inv', trimmed⟩ := step_inv inv call legal fits
    obtain ⟨inv'', trimmed'⟩ := ih inv' rest
    refine ⟨inv'', fun last isLast evicts => ?_⟩
    cases calls with
    | nil =>
      obtain rfl : call = last := by simpa using isLast
      exact trimmed evicts
    | cons next calls => exact trimmed' last isLast evicts

private theorem new_inv [Inhabited κ] (capacity : Nat) (strictCapacityLimit : Bool)
    (highPriPoolRatio lowPriPoolRatio : δ) :
    Inv doubles (new (κ := κ) doubles capacity strictCapacityLimit highPriPoolRatio lowPriPoolRatio) := by
  refine (setCapacity_trimmed ?_ capacity).toInv
  exact
    { segments := ⟨[], [], [], rfl, nodup_nil, rfl, rfl, nofun, nofun, nofun, rfl, rfl⟩
      lruUsage := rfl
      lruLive := nofun
      old := nofun
      usage := rfl
      small := Nat.two_pow_pos 64
      empty := doubles.exceeds_zero ..
      settled := fun p => .of_unused nofun nofun nofun }

/-- **The accounting is exact** after every run of legal calls in which no sum overflows, and right after an
insertion or a change of capacity the list is empty while the usage exceeds the capacity. -/
theorem lru_accounting_is_exact [Inhabited κ] (doubles : Doubles δ) (capacity : Nat) (strictCapacityLimit : Bool)
    (highPriPoolRatio lowPriPoolRatio : δ) (calls : List (Call κ δ))
    (sound : Lib.Cursor.LegalRun (step doubles) Sound
      (new doubles capacity strictCapacityLimit highPriPoolRatio lowPriPoolRatio) calls) :
    let s := calls.foldl (step doubles) (new doubles capacity strictCapacityLimit highPriPoolRatio lowPriPoolRatio)
    Exact s ∧ ∀ call ∈ calls.getLast?, call.evicts = true → s.capacity < s.usage → s.lru = [] := by
  obtain ⟨inv, trimmed⟩ := run_inv calls (new_inv ..) sound
  exact ⟨inv.exact, fun call last evicts => (trimmed call last evicts).trimmed⟩

end Runs

section Instances

/-- A cache without priority pools. -/
def noPools : Doubles Unit := ⟨fun _ => false, fun _ _ => (), fun _ _ => false, fun _ _ => rfl⟩

instance (s : LRUCacheShard κ δ) (call : Call κ δ) : Decidable (Sound s call) := by
  unfold Sound
  cases call <;> unfold Legal NoOverflow <;> infer_instance

/-- Ratios in percent. -/
def percent : Doubles Nat :=
  ⟨(0 < ·), fun capacity ratio => capacity * ratio / 100, fun usage capacity => capacity < usage, by simp⟩

/-- Entries of each priority, one of which is looked up. The pools overflow, and the last insertion evicts an entry. -/
def insertLookupEvict : List (Call Nat Nat) :=
  [.insert 7 3 false .high, .insert 8 3 true .low, .insert 9 3 false .bottom, .lookup 8, .release 1 false,
    .release 1 false, .insert 10 4 false .high]

theorem lru_accounting_of_insertLookupEvict :
    let s := insertLookupEvict.foldl (step percent) (new percent 10 false 50 30)
    Exact s ∧ s.usage = 10 ∧ s.highPriPoolUsage = 4 ∧ s.lowPriPoolUsage = 3 ∧ s.lru = [0, 1, 3] := by
  refine ⟨(lru_accounting_is_exact percent 10 false 50 30 insertLookupEvict (by decide +kernel)).1, ?_⟩
  decide +kernel

/-- Two handles of charge `2 ^ 63` are held, and the usage is zero. -/
theorem usage_wraps_around :
    let s := [Call.insert 0 (2 ^ 63) true .low, .insert 1 (2 ^ 63) true .low].foldl (step noPools)
      (new noPools 0 false () ())
    s.usage = 0 ∧ ∑ p ∈ s.live, (s.mem p).totalCharge = 2 ^ 64 ∧ ¬Exact s := by
  intro s
  have sums : s.usage = 0 ∧ ∑ p ∈ s.live, (s.mem p).totalCharge = 2 ^ 64 := by decide +kernel
  exact ⟨sums.1, sums.2, fun exact => by simpa [sums.1, sums.2] using exact.usage⟩

end Instances

end LRUCacheShard
end Rocksdb.LruCache
