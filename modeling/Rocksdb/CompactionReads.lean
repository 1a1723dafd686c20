import Mathlib.Data.List.Chain
import Rocksdb.SnapshotStripes

/-! Compaction of point entries preserves every read. The pass of the iterator
is described by a relation between what it has written and what it has still
to read; each branch of the iterator is one of a few moves that keep it. -/
namespace Rocksdb.CompactionReads
open MergeHelper CompactionIterator SnapshotStripes InternalKey List

/-- A point entry as a reader finds it. -/
abbrev Point (κ V : Type) := InternalKey κ × V

def entryPoint (e : Entry κ V) : Point κ V := (e.key, e.value)

def outputPoint (o : Output κ V) : Point κ V := (o.ikey, o.value)

section Reading
variable {κ V : Type} [DecidableEq κ]

/-- The entry belongs to the user key and is seen at `s`. -/
def visibleAt (u : κ) (s : Nat) (p : Point κ V) : Bool := p.1.userKey = u && p.1.sequence ≤ s

/-- What a reader makes of the newest visible entry. -/
def answer (p : Point κ V) : Option V := if p.1.type = .kTypeValue then some p.2 else none

/-- Reading a run of entries, newest first for each user key, placed over
deeper levels that answer `deeper`. -/
def readAt (points : List (Point κ V)) (deeper : κ → Nat → Option V) (u : κ) (s : Nat) : Option V :=
  match points.find? (visibleAt u s) with
  | some p => answer p
  | none => deeper u s

variable {before after after' points : List (Point κ V)} {deeper deeper' : κ → Nat → Option V}
  {u : κ} {s : Nat} {p : Point κ V}

theorem visibleAt_iff : visibleAt u s p = true ↔ p.1.userKey = u ∧ p.1.sequence ≤ s := by
  simp [visibleAt]

theorem read_append (before after : List (Point κ V)) (deeper : κ → Nat → Option V) (u : κ) (s : Nat) :
    readAt (before ++ after) deeper u s = readAt before (readAt after deeper) u s := by
  unfold readAt
  rw [find?_append]
  cases before.find? (visibleAt u s) <;> rfl

theorem read_cons_visible (visible : visibleAt u s p) : readAt (p :: points) deeper u s = answer p := by
  simp [readAt, visible]

theorem read_cons_unseen (unseen : ¬visibleAt u s p) :
    readAt (p :: points) deeper u s = readAt points deeper u s := by
  simp [readAt, unseen]

/-- Only the entries of the user key that are seen at `s` matter. -/
theorem read_unseen (unseen : ∀ p ∈ points, ¬visibleAt u s p) : readAt points deeper u s = deeper u s := by
  rw [readAt, find?_eq_none.mpr unseen]

theorem read_append_unseen (unseen : ∀ p ∈ before, ¬visibleAt u s p) :
    readAt (before ++ after) deeper u s = readAt after deeper u s := by
  rw [read_append, read_unseen unseen]

/-- A run that shows the user key at `s` hides everything behind it. -/
theorem read_congr_of_visible (visible : ∃ p ∈ before, visibleAt u s p) :
    readAt (before ++ after) deeper u s = readAt (before ++ after') deeper' u s := by
  obtain ⟨p, member, seen⟩ := visible
  have found : (before.find? (visibleAt u s)).isSome := find?_isSome.mpr ⟨p, member, seen⟩
  obtain ⟨_, at_q⟩ := Option.isSome_iff_exists.mp found
  simp [readAt, find?_append, at_q]

theorem read_congr_after (before : List (Point κ V)) (same : readAt after deeper u s = readAt after' deeper u s) :
    readAt (before ++ after) deeper u s = readAt (before ++ after') deeper u s := by
  rw [read_append, read_append]
  unfold readAt at same ⊢
  cases before.find? (visibleAt u s) with
  | some => rfl
  | none => exact same

/-- Entries that are not seen at `s` can be filtered out. -/
theorem read_filter {input : List (Entry κ V)} (unseen : ∀ e ∈ input, q e = false → ¬visibleAt u s (entryPoint e)) :
    readAt ((input.filter q).map entryPoint) deeper u s = readAt (input.map entryPoint) deeper u s := by
  induction input with
  | nil => rfl
  | cons e _ ih =>
    have restSame := ih fun e member => unseen e (mem_cons_of_mem _ member)
    cases keep : q e with
    | false =>
      rw [filter_cons_of_neg (by simp [keep]), restSame, map_cons, read_cons_unseen (unseen e (by simp) keep)]
    | true =>
      rw [filter_cons_of_pos keep, map_cons, map_cons]
      exact read_congr_after [entryPoint e] restSame

end Reading

/-! ## The compaction -/

variable {κ V δ : Type} [LinearOrder κ]

/-- The entries of one user key, newest first. -/
def entriesOf (input : List (Entry κ V)) (u : κ) : List (Entry κ V) :=
  input.filter (·.key.userKey = u)

/-- `SingleDelete` by its contract: on its user key it alternates with `Put`
and is mixed with nothing else, and the oldest put of the input was made on a
key the deeper levels do not show. -/
structure SingleDeleteContract (entries : List (Entry κ V)) (deeper : Nat → Option V) : Prop where
  types : ∀ e ∈ entries, e.key.type = .kTypeValue ∨ e.key.type = .kTypeSingleDeletion
  alternates : entries.IsChain fun a b => b.key.sequence < a.key.sequence ∧ a.key.type ≠ b.key.type
  overNothing : ∀ e, entries.getLast? = some e → e.key.type = .kTypeValue → ∀ s, e.key.sequence ≤ s → deeper s = none

/-- A compaction of point entries, with `deeper` what a reader sees in the
levels below the output. -/
structure PointJob (κ V δ : Type) [LinearOrder κ] where
  cfg : Config κ V δ
  agg : δ
  input : List (Entry κ V)
  deeper : κ → Nat → Option V
  snapshots : SnapshotList cfg.snapshots
  notSentinel : ∀ e ∈ input, e.isDeleteRangeSentinelKey = false
  types : ∀ e ∈ input, e.key.type = .kTypeValue ∨ e.key.type = .kTypeDeletion ∨ e.key.type = .kTypeSingleDeletion
  bounded : ∀ e ∈ input, e.key.sequence ≤ kMaxSequenceNumber
  sorted : input.Pairwise (fun a b => a.key ≤ b.key)
  noRangeTombstones : ∀ agg key, (cfg.shouldDelete agg key).1 = false
  bottommostTruthful : cfg.bottommostLevel → ∀ e ∈ input, ∀ s, deeper e.key.userKey s = none
  keyTruthful : ∀ u, cfg.keyNotExistsBeyondOutputLevel u → ∀ s, deeper u s = none
  singleDeletes : ∀ e ∈ input, e.key.type = .kTypeSingleDeletion →
    SingleDeleteContract (entriesOf input e.key.userKey) (deeper e.key.userKey)

/-! ## The pass -/

/-- How far the pass has come: what it has written, what it has still to
read, and what it remembers of the current user key. -/
structure Pass (κ V : Type) where
  written : List (Point κ V)
  input : List (Entry κ V)
  current : Option κ
  snapshot : Nat
  clear : Bool
  zeroed : Bool

section Moves
variable (job : PointJob κ V δ)

def stripeOf (e : Entry κ V) : Nat := stripe job.cfg.snapshots e.key.sequence

/-- Entries rule (A) is going to drop: the stripe of the current user key has
been dealt with. -/
def shadowed (current : Option κ) (snapshot : Nat) (e : Entry κ V) : Bool :=
  current = some e.key.userKey && 0 < snapshot && stripeOf job e = snapshot && e.key.type ≠ .kTypeSingleDeletion

/-- The part of the input that still counts. -/
def live (current : Option κ) (snapshot : Nat) (input : List (Entry κ V)) : List (Point κ V) :=
  (input.filter fun e => !shadowed job current snapshot e).map entryPoint

/-- The invariant: what has been written, over what still counts, reads like
the whole input. -/
structure Keeps (p : Pass κ V) : Prop where
  suffix : p.input <:+ job.input
  ahead : ∀ k, p.current = some k → ∀ e ∈ p.input, k ≤ e.key.userKey
  below : ∀ e ∈ p.input, p.current = some e.key.userKey → 0 < p.snapshot → stripeOf job e ≤ p.snapshot
  clearing : p.clear → ∃ e rest, p.input = e :: rest ∧ p.current = some e.key.userKey ∧
    e.key.type = .kTypeValue ∧ 0 < p.snapshot ∧ stripeOf job e = p.snapshot ∧
    ∀ s, ReadPoint job.cfg.snapshots s → p.snapshot ≤ s → ∃ w ∈ p.written, visibleAt e.key.userKey s w
  zeroing : p.zeroed → ∀ k, p.current = some k → ∀ s, ∃ w ∈ p.written, visibleAt k s w
  reads : ∀ u s, ReadPoint job.cfg.snapshots s →
    readAt (p.written ++ live job p.current p.snapshot p.input) job.deeper u s =
      readAt (job.input.map entryPoint) job.deeper u s

variable {job} {p : Pass κ V} {e : Entry κ V} {rest : List (Entry κ V)}

theorem shadowed_iff : shadowed job current snapshot e ↔ current = some e.key.userKey ∧ 0 < snapshot ∧
      stripeOf job e = snapshot ∧ e.key.type ≠ .kTypeSingleDeletion := by
  simp [shadowed, and_assoc]

theorem Keeps.mem (keeps : Keeps job p) (member : e ∈ p.input) : e ∈ job.input := keeps.suffix.subset member

theorem Keeps.sorted (keeps : Keeps job p) : p.input.Pairwise (fun a b => a.key ≤ b.key) :=
  job.sorted.sublist keeps.suffix.sublist

/-- Older entries of a user key come later and lie in no higher stripe. -/
theorem stripeOf_le (member : a ∈ job.input) (le : a.key ≤ b.key) (same : a.key.userKey = b.key.userKey) :
    b.key.sequence ≤ a.key.sequence ∧ stripeOf job b ≤ stripeOf job a := by
  have seqs := sequence_le_of_le le same
  exact ⟨seqs, job.snapshots.stripe_mono (job.bounded a member) seqs⟩

theorem visibleAt_entry_iff (member : e ∈ job.input) (point : ReadPoint job.cfg.snapshots s) :
    visibleAt u s (entryPoint e) ↔ e.key.userKey = u ∧ stripeOf job e ≤ s := by
  rw [visibleAt_iff, stripeOf, job.snapshots.stripe_le_iff (job.bounded e member) point]
  rfl

/-- An entry that is not hidden itself hides what the state hides behind it. -/
theorem Keeps.reads_head (keeps : Keeps job p) (at_head : p.input = e :: rest)
    (counts : ¬shadowed job p.current p.snapshot e) (u : κ) (s : Nat)
    (point : ReadPoint job.cfg.snapshots s) :
    readAt (p.written ++ (e :: rest).map entryPoint) job.deeper u s =
      readAt (job.input.map entryPoint) job.deeper u s := by
  rw [← keeps.reads u s point]
  refine read_congr_after _ ?_
  have sorted := keeps.sorted
  rw [at_head] at sorted
  have member := keeps.mem (e := e) (by simp [at_head])
  rw [live, at_head, filter_cons_of_pos (by simpa using counts), map_cons, map_cons]
  by_cases visible : visibleAt u s (entryPoint e)
  · rw [read_cons_visible visible, read_cons_visible visible]
  · rw [read_cons_unseen visible, read_cons_unseen visible]
    refine (read_filter fun r later isShadowed => ?_).symm
    obtain ⟨current, positive, stripes, -⟩ := shadowed_iff.mp (by simpa using isShadowed)
    have le := (pairwise_cons.mp sorted).1 r later
    -- the user key of the hidden entry is the current one, so the head has it too
    have sameKey : e.key.userKey = r.key.userKey :=
      le_antisymm (userKey_le_of_le le) (keeps.ahead _ current e (by simp [at_head]))
    rw [visibleAt_entry_iff (keeps.mem (by simp [at_head, later])) point]
    rw [visibleAt_entry_iff member point] at visible
    exact fun seen => visible ⟨sameKey.trans seen.1, (keeps.below e (by simp [at_head])
      (by rw [current, sameKey]) positive).trans (stripes ▸ seen.2)⟩

variable {rest' : List (Entry κ V)} {zeroed : Bool}

/-- The move every branch makes: the head entry `e` and some entries of its
user key behind it are consumed and `outs` written for them. -/
theorem Keeps.move (keeps : Keeps job p) {dropped : List (Entry κ V)} (at_head : p.input = e :: (dropped ++ rest'))
    (counts : ¬shadowed job p.current p.snapshot e)
    (sameKey : ∀ r ∈ dropped, r.key.userKey = e.key.userKey) {outs : List (Point κ V)}
    (outsKey : ∀ w ∈ outs, w.1.userKey = e.key.userKey)
    (same : ∀ s, ReadPoint job.cfg.snapshots s → (∀ w ∈ p.written, ¬visibleAt e.key.userKey s w) →
      readAt (outs ++ live job (some e.key.userKey) (stripeOf job e) rest') job.deeper e.key.userKey s =
        readAt ((e :: (dropped ++ rest')).map entryPoint) job.deeper e.key.userKey s)
    {clear : Bool}
    (clearing : clear → ∃ next rest, rest' = next :: rest ∧ next.key.userKey = e.key.userKey ∧
      next.key.type = .kTypeValue ∧ stripeOf job next = stripeOf job e ∧
      ∀ s, ReadPoint job.cfg.snapshots s → stripeOf job e ≤ s → ∃ w ∈ outs, visibleAt e.key.userKey s w)
    (zeroing : zeroed → ∀ s, ∃ w ∈ p.written ++ outs, visibleAt e.key.userKey s w) :
    Keeps job ⟨p.written ++ outs, rest', some e.key.userKey, stripeOf job e, clear, zeroed⟩ := by
  have sorted := keeps.sorted
  rw [at_head] at sorted
  obtain ⟨first, _⟩ := pairwise_cons.mp sorted
  have member := keeps.mem (e := e) (by simp [at_head])
  refine ⟨?_, ?_, ?_, ?_, ?_, ?_⟩
  · refine List.IsSuffix.trans ⟨e :: dropped, ?_⟩ keeps.suffix
    simp [at_head]
  · rintro k ⟨⟩ r r_mem
    exact userKey_le_of_le (first r (by simp [r_mem]))
  · rintro r r_mem same_r -
    have sameKey_r := Option.some.inj same_r
    exact (stripeOf_le member (first r (by simp [r_mem])) sameKey_r).2
  · intro isClear
    obtain ⟨next, rest, shape, key, type, stripes, visible⟩ := clearing isClear
    refine ⟨next, rest, shape, by rw [key], type, job.snapshots.stripe_pos, stripes, ?_⟩
    intro s point le
    obtain ⟨w, w_mem, seen⟩ := visible s point le
    exact ⟨w, mem_append_right _ w_mem, by rwa [key]⟩
  · rintro isZeroed _ ⟨⟩ s
    exact zeroing isZeroed s
  · intro u s point
    rw [← keeps.reads_head at_head counts u s point, append_assoc]
    by_cases key : u = e.key.userKey
    · subst key
      by_cases visible : ∃ w ∈ p.written, visibleAt e.key.userKey s w
      · exact read_congr_of_visible visible
      · refine read_congr_after _ (same s point ?_)
        simpa using visible
    · -- another user key: nothing of it was consumed, written or hidden
      have otherKey {q : Point κ V} (q_key : q.1.userKey = e.key.userKey) : ¬visibleAt u s q :=
        fun seen => key ((visibleAt_iff.mp seen).1.symm.trans q_key)
      refine read_congr_after _ ?_
      rw [read_append_unseen fun w w_mem => otherKey (outsKey w w_mem), live, read_filter,
        map_cons, map_append, read_cons_unseen (otherKey rfl), read_append_unseen]
      · exact forall_mem_map.mpr fun r r_mem => otherKey (sameKey r r_mem)
      · intro _ _ isShadowed
        exact otherKey (Option.some.inj (shadowed_iff.mp (by simpa using isShadowed)).1).symm

/-- A reader that does not see the stripe of `e` misses nothing of it. -/
theorem Keeps.read_below_stripe (keeps : Keeps job p) (at_head : p.input = e :: (dropped ++ rest'))
    (sameStripe : ∀ r ∈ dropped, stripeOf job r = stripeOf job e)
    (point : ReadPoint job.cfg.snapshots s) (unseen : ¬stripeOf job e ≤ s) :
    readAt (live job (some e.key.userKey) (stripeOf job e) rest') job.deeper e.key.userKey s =
      readAt ((e :: (dropped ++ rest')).map entryPoint) job.deeper e.key.userKey s := by
  have unseenEntry {r : Entry κ V} (r_mem : r ∈ p.input) (stripes : stripeOf job r = stripeOf job e) :
      ¬visibleAt e.key.userKey s (entryPoint r) := by
    rw [visibleAt_entry_iff (keeps.mem r_mem) point, stripes]
    exact fun seen => unseen seen.2
  rw [live, read_filter, map_cons, read_cons_unseen (unseenEntry (by simp [at_head]) rfl),
    map_append, read_append_unseen]
  · exact forall_mem_map.mpr fun r r_mem => unseenEntry (by simp [at_head, r_mem]) (sameStripe r r_mem)
  · intro _ r_mem isShadowed
    exact unseenEntry (by simp [at_head, r_mem]) (shadowed_iff.mp (by simpa using isShadowed)).2.2.1

/-- The written entry stands for `e`: a reader at any read point finds it
exactly when it would find `e`, and makes the same of it. -/
structure Presents (job : PointJob κ V δ) (w : Point κ V) (e : Entry κ V) : Prop where
  key : w.1.userKey = e.key.userKey
  visible : ∀ s, ReadPoint job.cfg.snapshots s → (w.1.sequence ≤ s ↔ e.key.sequence ≤ s)
  answer : answer w = answer (entryPoint e)

section Visible
variable (keeps : Keeps job p) (dropped : List (Entry κ V)) (at_head : p.input = e :: (dropped ++ rest'))
  (counts : ¬shadowed job p.current p.snapshot e) (sameKey : ∀ r ∈ dropped, r.key.userKey = e.key.userKey)
include keeps at_head counts sameKey

/-- Writing out the head entry, after which its stripe is dealt with. -/
theorem Keeps.emit (sameStripe : ∀ r ∈ dropped, stripeOf job r = stripeOf job e)
    (presents : Presents job w e) {clear : Bool}
    (clearing : clear → ∃ next rest, rest' = next :: rest ∧ next.key.userKey = e.key.userKey ∧
      next.key.type = .kTypeValue ∧ stripeOf job next = stripeOf job e)
    (zeroing : zeroed → w.1.sequence = 0 ∨ p.zeroed ∧ p.current = some e.key.userKey) :
    Keeps job ⟨p.written ++ [w], rest', some e.key.userKey, stripeOf job e, clear, zeroed⟩ := by
  have member := keeps.mem (e := e) (by simp [at_head])
  have seen_iff (s : Nat) (point : ReadPoint job.cfg.snapshots s) :
      visibleAt e.key.userKey s w ↔ stripeOf job e ≤ s := by
    rw [visibleAt_iff, presents.visible s point, stripeOf, job.snapshots.stripe_le_iff (job.bounded e member) point]
    exact and_iff_right presents.key
  refine keeps.move at_head counts sameKey (by simpa using presents.key) ?_ ?_ ?_
  · intro s point _
    by_cases visible : stripeOf job e ≤ s
    · rw [singleton_append, read_cons_visible ((seen_iff s point).mpr visible), map_cons,
        read_cons_visible ((visibleAt_entry_iff member point).mpr ⟨rfl, visible⟩), presents.answer]
    · rw [singleton_append, read_cons_unseen (mt (seen_iff s point).mp visible)]
      exact keeps.read_below_stripe at_head sameStripe point visible
  · intro isClear
    obtain ⟨next, rest, shape, key, type, stripes⟩ := clearing isClear
    exact ⟨next, rest, shape, key, type, stripes, fun s point le =>
      ⟨w, by simp, (seen_iff s point).mpr le⟩⟩
  · intro isZeroed s
    rcases zeroing isZeroed with zero | ⟨before, current⟩
    · exact ⟨w, by simp, visibleAt_iff.mpr ⟨presents.key, by omega⟩⟩
    · obtain ⟨w', w'_mem, seen⟩ := keeps.zeroing before _ current s
      exact ⟨w', mem_append_left _ w'_mem, seen⟩

/-- Dropping the head entry with others of its stripe: where no newer entry
was written, the reader must find nothing before and after. -/
theorem Keeps.drop (sameStripe : ∀ r ∈ dropped, stripeOf job r = stripeOf job e) (deletes : e.key.type ≠ .kTypeValue)
    (gone : ∀ s, ReadPoint job.cfg.snapshots s → e.key.sequence ≤ s →
      readAt (live job (some e.key.userKey) (stripeOf job e) rest') job.deeper e.key.userKey s = none)
    (zeroing : zeroed → p.zeroed ∧ p.current = some e.key.userKey) :
    Keeps job ⟨p.written, rest', some e.key.userKey, stripeOf job e, false, zeroed⟩ := by
  have member := keeps.mem (e := e) (by simp [at_head])
  rw [← append_nil p.written]
  refine keeps.move at_head counts sameKey (by simp) ?_ (by simp) ?_
  · intro s point _
    rw [nil_append]
    by_cases visible : stripeOf job e ≤ s
    · have seen := (job.snapshots.stripe_le_iff (job.bounded e member) point).mp visible
      rw [gone s point seen, map_cons, read_cons_visible ((visibleAt_entry_iff member point).mpr ⟨rfl, visible⟩)]
      exact (if_neg deletes).symm
    · exact keeps.read_below_stripe at_head sameStripe point visible
  · intro isZeroed s
    obtain ⟨before, current⟩ := zeroing isZeroed
    rw [append_nil]
    exact keeps.zeroing before _ current s

/-- Behind an entry whose sequence number was zeroed, everything of the user
key may go. -/
theorem Keeps.dropZeroed (isZeroed : p.zeroed) (current : p.current = some e.key.userKey) :
    Keeps job ⟨p.written, rest', some e.key.userKey, stripeOf job e, false, true⟩ := by
  rw [← append_nil p.written]
  refine keeps.move at_head counts sameKey (by simp) ?_ (by simp) ?_
  · intro s _ unseen
    obtain ⟨w, w_mem, seen⟩ := keeps.zeroing isZeroed _ current s
    exact absurd seen (unseen w w_mem)
  · intro _ s
    rw [append_nil]
    exact keeps.zeroing isZeroed _ current s

end Visible

/-- Rule (A): a hidden entry is dropped. -/
theorem Keeps.hide (keeps : Keeps job p) (at_head : p.input = e :: rest) (notClear : p.clear = false)
    (isShadowed : shadowed job p.current p.snapshot e) : Keeps job { p with input := rest } := by
  have later {r : Entry κ V} (r_mem : r ∈ rest) : r ∈ p.input := by simp [at_head, r_mem]
  refine ⟨?_, fun k current r r_mem => keeps.ahead k current r (later r_mem),
    fun r r_mem => keeps.below r (later r_mem), by simp [notClear], keeps.zeroing, ?_⟩
  · exact List.IsSuffix.trans ⟨[e], by simp [at_head]⟩ keeps.suffix
  · intro u s point
    have reads := keeps.reads u s point
    rwa [live, at_head, filter_cons_of_neg (by simp [isShadowed])] at reads

/-- The put behind a kept `SingleDelete` is written without its value: the
`SingleDelete` hides it from every reader. -/
theorem Keeps.emitCleared (keeps : Keeps job p) (at_head : p.input = e :: rest) (isClear : p.clear)
    (key : w.1.userKey = e.key.userKey)
    (visible : ∀ s, ReadPoint job.cfg.snapshots s → (w.1.sequence ≤ s ↔ e.key.sequence ≤ s))
    (zeroed : Bool) (zeroing : zeroed → w.1.sequence = 0 ∨ p.zeroed) :
    Keeps job ⟨p.written ++ [w], rest, some e.key.userKey, stripeOf job e, false, zeroed⟩ := by
  obtain ⟨_, _, shape, current, type, positive, stripes, shown⟩ := keeps.clearing isClear
  cases at_head.symm.trans shape
  have isShadowed : shadowed job p.current p.snapshot e :=
    shadowed_iff.mpr ⟨current, positive, stripes, by simp [type]⟩
  have later {r : Entry κ V} (r_mem : r ∈ rest) : r ∈ p.input := by simp [at_head, r_mem]
  refine ⟨?_, ?_, ?_, by simp, ?_, ?_⟩
  · exact List.IsSuffix.trans ⟨[e], by simp [at_head]⟩ keeps.suffix
  · intro k current' r r_mem
    exact keeps.ahead k (current.trans current') r (later r_mem)
  · intro r r_mem current' _
    rw [stripes]
    exact keeps.below r (later r_mem) (current.trans current') positive
  · rintro isZeroed _ ⟨⟩ s
    rcases zeroing isZeroed with zero | before
    · exact ⟨w, by simp, visibleAt_iff.mpr ⟨key, by omega⟩⟩
    · obtain ⟨w', w'_mem, seen⟩ := keeps.zeroing before _ current s
      exact ⟨w', mem_append_left _ w'_mem, seen⟩
  · intro u s point
    have reads := keeps.reads u s point
    rw [live, at_head, filter_cons_of_neg (by simp [isShadowed])] at reads
    rw [← reads, append_assoc, stripes, ← current]
    by_cases seen : visibleAt u s w
    · -- the entry is seen, so the `SingleDelete` is seen before it
      obtain ⟨sameKey, le⟩ := visibleAt_iff.mp seen
      have shownHere := shown s point (by
        rw [← stripes]
        exact job.snapshots.stripe_le point ((visible s point).mp le))
      rw [← key, sameKey] at shownHere
      exact read_congr_of_visible shownHere
    · exact read_congr_after _ (by rw [singleton_append, read_cons_unseen seen]; rfl)

/-- Once no entry of the current user key is left, it may be forgotten. -/
theorem Keeps.forget (keeps : Keeps job p) (notClear : p.clear = false)
    (done : ∀ e ∈ p.input, p.current ≠ some e.key.userKey) (snapshot : Nat) (zeroed : Bool) :
    Keeps job { p with current := none, snapshot := snapshot, zeroed := zeroed } := by
  refine ⟨keeps.suffix, by simp, by simp, by simp [notClear], by simp, fun u s point => ?_⟩
  rw [← keeps.reads u s point]
  refine read_congr_after _ ?_
  have all (current : Option κ) (snapshot : Nat) (none : ∀ e ∈ p.input, current ≠ some e.key.userKey) :
      live job current snapshot p.input = p.input.map entryPoint := by
    rw [live, filter_eq_self.mpr]
    intro e member
    simp [shadowed, none e member]
  rw [all _ _ done, all _ _ (by simp)]

/-- The first entry of another user key. -/
theorem Keeps.enter (keeps : Keeps job p) (at_head : p.input = e :: rest) (other : p.current ≠ some e.key.userKey) :
    Keeps job { p with current := some e.key.userKey, snapshot := 0, zeroed := false } := by
  have notClear : p.clear = false := by
    by_contra isClear
    obtain ⟨_, _, shape, current, -⟩ := keeps.clearing (by simpa using isClear)
    cases at_head.symm.trans shape
    exact other current
  have sorted := keeps.sorted
  rw [at_head] at sorted
  have least {r : Entry κ V} (r_mem : r ∈ p.input) : e.key.userKey ≤ r.key.userKey := by
    rw [at_head] at r_mem
    rcases mem_cons.mp r_mem with rfl | later
    · exact le_rfl
    · exact userKey_le_of_le ((pairwise_cons.mp sorted).1 r later)
  have done : ∀ r ∈ p.input, p.current ≠ some r.key.userKey := by
    intro _ r_mem current
    have le := keeps.ahead _ current e (by simp [at_head])
    exact other (current.trans (congrArg some (le_antisymm le (least r_mem))))
  refine ⟨keeps.suffix, ?_, by simp, by simp [notClear], by simp, fun u s point => ?_⟩
  · rintro _ ⟨⟩ _ r_mem
    exact least r_mem
  · rw [← (keeps.forget notClear done 0 false).reads u s point]
    simp [live, shadowed]

/-! ## What may be dropped -/

omit [LinearOrder κ] in
theorem SingleDeleteContract.suffix (contract : SingleDeleteContract (newer ++ older) deeper) (nonempty : older ≠ []) :
    SingleDeleteContract older deeper where
  types e member := contract.types e (mem_append_right _ member)
  alternates := contract.alternates.suffix (suffix_append _ _)
  overNothing e last := contract.overNothing e (by
    rw [getLast?_append_of_ne_nil _ nonempty, last])

/-- The contract holds of what is left of the user key of a `SingleDelete`. -/
theorem Keeps.contract (keeps : Keeps job p) (at_head : p.input = e :: rest)
    (type : e.key.type = .kTypeSingleDeletion) :
    SingleDeleteContract (e :: entriesOf rest e.key.userKey) (job.deeper e.key.userKey) := by
  obtain ⟨newer, split⟩ := keeps.suffix
  have contract := job.singleDeletes e (keeps.mem (by simp [at_head])) type
  have entries : entriesOf job.input e.key.userKey =
      entriesOf newer e.key.userKey ++ (e :: entriesOf rest e.key.userKey) := by
    rw [← split, at_head]
    simp [entriesOf]
  rw [entries] at contract
  exact contract.suffix (by simp)

private theorem read_live_entriesOf (current : Option κ) (snapshot : Nat) (input : List (Entry κ V))
    (deeper : κ → Nat → Option V) (u : κ) (s : Nat) :
    readAt (live job current snapshot input) deeper u s =
      readAt (live job current snapshot (entriesOf input u)) deeper u s := by
  have comm : live job current snapshot (entriesOf input u) =
      ((input.filter fun e => !shadowed job current snapshot e).filter (·.key.userKey = u)).map entryPoint := by
    rw [live, entriesOf, filter_filter, filter_filter]
    simp only [Bool.and_comm]
  rw [comm, live]
  refine (read_filter fun _ _ otherKey seen => ?_).symm
  exact of_decide_eq_false otherKey (visibleAt_iff.mp seen).1

/-- Where no entry of the user key counts any more, the deeper levels answer. -/
theorem read_live_of_shadowed (all : ∀ r ∈ rest, r.key.userKey = u → shadowed job current snapshot r) :
    readAt (live job current snapshot rest) deeper u s = deeper u s := by
  refine read_unseen fun _ q_mem seen => ?_
  obtain ⟨r, r_mem, rfl⟩ := mem_map.mp q_mem
  obtain ⟨r_mem, counts⟩ := mem_filter.mp r_mem
  have isShadowed := all r r_mem (visibleAt_iff.mp seen).1
  simp [isShadowed] at counts

/-- Behind a `SingleDelete` and the put it deletes comes another
`SingleDelete`, or nothing. -/
theorem read_after_pair (contract : SingleDeleteContract (e :: put :: entriesOf rest u) (deeper u))
    (type : e.key.type = .kTypeSingleDeletion) (seen : e.key.sequence ≤ s) :
    readAt (live job current snapshot rest) deeper u s = none := by
  obtain ⟨⟨putOlder, differ⟩, chain⟩ := isChain_cons_cons.mp contract.alternates
  have putType : put.key.type = .kTypeValue :=
    (contract.types put (by simp)).resolve_right fun same => differ (type.trans same.symm)
  rw [read_live_entriesOf]
  cases entries : entriesOf rest u with
  | nil =>
    refine (read_unseen (by simp [live])).trans ?_
    rw [entries] at contract
    exact contract.overNothing put rfl putType s (putOlder.le.trans seen)
  | cons r =>
    rw [entries] at contract chain
    obtain ⟨⟨rOlder, rDiffers⟩, -⟩ := isChain_cons_cons.mp chain
    have rType : r.key.type = .kTypeSingleDeletion :=
      (contract.types r (by simp)).resolve_left fun same => rDiffers (putType.trans same.symm)
    have rKey : r.key.userKey = u := by
      have member : r ∈ entriesOf rest u := by simp [entries]
      simpa using (mem_filter.mp member).2
    have counts : ¬shadowed job current snapshot r := by simp [shadowed, rType]
    rw [live, filter_cons_of_pos (by simpa using counts), map_cons,
      read_cons_visible (visibleAt_iff.mpr ⟨rKey, (rOlder.le.trans putOlder.le).trans seen⟩)]
    simp [answer, entryPoint, rType]

end Moves

end Rocksdb.CompactionReads
