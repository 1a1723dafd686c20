import Rocksdb.MemTableList
import Mathlib.Data.List.Nodup
import Mathlib.Tactic.Ring

/-! The bookkeeping of flushes. The list is a row of chunks: memtables that are not being
flushed, and for each flush that is out, or completed and not yet committed, the run of
its memtables. Every step exchanges a few chunks for others over the same memtables,
but for a successful commit, which takes chunks off the old end. -/
namespace Rocksdb.MemTableLists
open MemTableList Function
open List hiding tail
open MemTableList (batch)

/-! ## Loops of the list -/

namespace MemTableList
variable {s s' : MemTableList} {mems : List Nat}

/-- What the loops leave alone. -/
structure Keeps (s s' : MemTableList) : Prop where
  memlist : s'.memlist = s.memlist
  commitInProgress : s'.commitInProgress = s.commitInProgress

theorem Keeps.rfl : Keeps s s := ⟨Eq.refl _, Eq.refl _⟩

theorem Keeps.trans (first : Keeps s s') (second : Keeps s' s'') : Keeps s s'' :=
  ⟨second.memlist.trans first.memlist, second.commitInProgress.trans first.commitInProgress⟩

/-- A loop that changes each of some memtables once. -/
structure Changes (f : MemTable → MemTable) (mems : List Nat) (s s' : MemTableList) : Prop extends Keeps s s' where
  inside : ∀ m ∈ mems, s'.mem m = f (s.mem m)
  outside : ∀ m, m ∉ mems → s'.mem m = s.mem m

theorem Changes.nil (f : MemTable → MemTable) : Changes f [] s s := ⟨.rfl, nofun, fun _ _ => rfl⟩

variable {m : Nat}

theorem modify_mem_same (f : MemTable → MemTable) : (s.modify m f).mem m = f (s.mem m) := update_self ..

theorem modify_mem_other (f : MemTable → MemTable) (other : p ≠ m) : (s.modify m f).mem p = s.mem p :=
  update_of_ne other _ _

/-- One more memtable in front. -/
theorem Changes.cons (changes : Changes f mems s' s'') (notIn : m ∉ mems) (keeps : Keeps s s')
    (same : s'.mem = (s.modify m f).mem) : Changes f (m :: mems) s s'' where
  toKeeps := keeps.trans changes.toKeeps
  inside p member := by
    rcases mem_cons.mp member with here | behind
    · rw [here, changes.outside m notIn, same, modify_mem_same]
    · rw [changes.inside p behind, same, modify_mem_other f (ne_of_mem_of_not_mem behind notIn)]
  outside p notMember := by
    obtain ⟨other, notBehind⟩ := not_or.mp (mem_cons.not.mp notMember)
    rw [changes.outside p notBehind, same, modify_mem_other f other]

/-- A memtable that can be flushed again. -/
def restored (m : MemTable) : MemTable :=
  { m with flushInProgress := false, flushCompleted := false, edit := none, fileNumber := 0 }

/-- Some memtables can be flushed again, and are counted. -/
structure Restores (mems : List Nat) (s s' : MemTableList) : Prop extends Changes restored mems s s' where
  count : s'.numFlushNotStarted = s.numFlushNotStarted + mems.length

theorem Restores.nil : Restores [] s s := ⟨.nil _, by simp⟩

theorem Restores.cons (restores : Restores mems s' s'') (notIn : m ∉ mems)
    (keeps : Keeps s s') (same : s'.mem = (s.restore m).mem)
    (count : s'.numFlushNotStarted = s.numFlushNotStarted + 1) : Restores (m :: mems) s s'' :=
  ⟨restores.toChanges.cons notIn keeps same, by rw [restores.count, count, length_cons]; push_cast; ring⟩

theorem Restores.append (first : Restores a s s') (second : Restores b s' s'')
    (disjoint : ∀ m ∈ a, m ∉ b) : Restores (b ++ a) s s'' where
  toKeeps := first.toKeeps.trans second.toKeeps
  inside m member := by
    rcases mem_append.mp member with inB | inA
    · rw [second.inside m inB, first.outside m fun inA => disjoint m inA inB]
    · rw [second.outside m (disjoint m inA), first.inside m inA]
  outside m notMember := by
    rw [second.outside m fun inB => notMember (mem_append_left a inB),
      first.outside m fun inA => notMember (mem_append_right b inA)]
  count := by rw [second.count, first.count, length_append]; push_cast; ring

private theorem rollbackSucceeding_restores (done : List Nat) (nodup : done.Nodup)
    (isCompleted : ∀ m ∈ done, (s.mem m).flushCompleted = true) (disjoint : ∀ m ∈ done, m ∉ tail)
    (stops : ∀ m ∈ tail.head?, (s.mem m).flushCompleted = false) :
    Restores done s (rollbackSucceeding (done ++ tail) s) := by
  induction done generalizing s with
  | nil =>
    cases tail with
    | nil => exact .nil
    | cons m =>
      rw [nil_append, rollbackSucceeding, if_neg (by simp [stops m rfl])]
      exact .nil
  | cons m _ ih =>
    obtain ⟨notIn, nodup⟩ := nodup_cons.mp nodup
    have other {p : Nat} (apart : p ≠ m) : (s.restore m).mem p = s.mem p := update_of_ne apart _ _
    rw [cons_append, rollbackSucceeding, if_pos (isCompleted m mem_cons_self)]
    refine (ih nodup (fun p member => ?_) (fun p member => disjoint p (mem_cons_of_mem _ member))
      fun p isHead => ?_).cons notIn ⟨rfl, rfl⟩ rfl rfl
    · rw [other (ne_of_mem_of_not_mem member notIn)]
      exact isCompleted p (mem_cons_of_mem _ member)
    · have inTail := mem_of_mem_head? isHead
      rw [other fun same => disjoint m mem_cons_self (same ▸ inTail)]
      exact stops p isHead

private theorem foldl_restores (mems : List Nat) (nodup : mems.Nodup)
    (inProgress : ∀ m ∈ mems, (s.mem m).flushInProgress = true) :
    Restores mems s (mems.foldl (fun s m => if (s.mem m).flushInProgress then s.restore m else s) s) := by
  induction mems generalizing s with
  | nil => exact .nil
  | cons m _ ih =>
    obtain ⟨notIn, nodup⟩ := nodup_cons.mp nodup
    rw [foldl_cons, if_pos (inProgress m mem_cons_self)]
    refine (ih nodup fun p member => ?_).cons notIn ⟨rfl, rfl⟩ rfl rfl
    rw [restore, modify_mem_other _ (ne_of_mem_of_not_mem member notIn)]
    exact inProgress p (mem_cons_of_mem _ member)

private theorem foldl_restoreFlags (mems : List Nat) (nodup : mems.Nodup) :
    Restores mems s (mems.foldl (fun s m => { s.restore m with immFlushNeeded := true }) s) := by
  induction mems generalizing s with
  | nil => exact .nil
  | cons _ _ ih =>
    obtain ⟨notIn, nodup⟩ := nodup_cons.mp nodup
    exact (ih nodup).cons notIn ⟨rfl, rfl⟩ rfl rfl

def completed (fileNumber : Nat) (m : MemTable) : MemTable := { m with flushCompleted := true, fileNumber }

theorem markCompleted_changes (fileNumber : Nat) (mems : List Nat) (nodup : mems.Nodup) :
    Changes (completed fileNumber) mems s (s.markCompleted mems fileNumber) ∧
      (s.markCompleted mems fileNumber).numFlushNotStarted = s.numFlushNotStarted := by
  induction mems generalizing s with
  | nil => exact ⟨.nil _, rfl⟩
  | cons _ _ ih =>
    obtain ⟨notIn, nodup⟩ := nodup_cons.mp nodup
    obtain ⟨changes, count⟩ := ih nodup
    exact ⟨changes.cons notIn ⟨rfl, rfl⟩ rfl, count⟩

def picked (m : MemTable) : MemTable := { m with flushInProgress := true }

/-- What a part of the walk of `PickMemtablesToFlush` adds to its result. -/
structure Picks (st st' : Picking) (ret : List Nat) : Prop extends Changes picked ret st.list st'.list where
  idle : ∀ m ∈ ret, (st.list.mem m).flushInProgress = false
  result : st'.ret = st.ret ++ ret
  count : st'.list.numFlushNotStarted = st.list.numFlushNotStarted - ret.length

theorem Picks.nil (list : st'.list = st.list) (ret : st'.ret = st.ret) : Picks st st' [] := by
  obtain ⟨_, _, _, _⟩ := st'
  cases list
  exact ⟨.nil _, nofun, by simpa using ret, by simp⟩

theorem Picks.cons (atomicFlush : Bool) (picks : Picks ({ st with atomicFlush }.take m) st' ret) (notIn : m ∉ ret)
    (idle : (st.list.mem m).flushInProgress = false) : Picks st st' (m :: ret) where
  toChanges := picks.toChanges.cons notIn ⟨rfl, rfl⟩ rfl
  idle := forall_mem_cons.mpr ⟨idle, fun p member => by
    rw [← picks.idle p member]
    exact congrArg MemTable.flushInProgress (update_of_ne (ne_of_mem_of_not_mem member notIn) _ _).symm⟩
  result := by
    rw [picks.result]
    simp [Picking.take]
  count := by
    rw [picks.count, length_cons]
    simp only [Picking.take]
    push_cast
    ring

/-- The picked memtables follow each other in the list, from the front on if there are some already, and are not being
flushed. -/
theorem pickLoop_picks (maxMemtableId : Nat) (rest : List Nat) (nodup : rest.Nodup) (st : Picking) :
    ∃ front ret tail, rest = front ++ ret ++ tail ∧ (st.ret ≠ [] → front = []) ∧
      Picks st (pickLoop maxMemtableId rest st) ret := by
  induction rest generalizing st with
  | nil => exact ⟨[], [], [], rfl, fun _ => rfl, .nil rfl rfl⟩
  | cons m rest ih =>
    obtain ⟨notIn, nodup⟩ := nodup_cons.mp nodup
    rw [pickLoop]
    split
    · exact ⟨[], [], m :: rest, rfl, fun _ => rfl, .nil rfl rfl⟩
    split
    · next idle =>
      obtain ⟨front, ret, tail, split, atFront, picks⟩ := ih nodup
        ({ st with atomicFlush := st.atomicFlush || (st.list.mem m).atomicFlush }.take m)
      obtain rfl := atFront (by simp [Picking.take])
      exact ⟨[], m :: ret, tail, by rw [split]; rfl, fun _ => rfl,
        picks.cons _ (fun member => notIn (split ▸ mem_append_left _ member)) (by simpa using idle)⟩
    · split
      · exact ⟨[], [], m :: rest, rfl, fun _ => rfl, .nil rfl rfl⟩
      · next none =>
        obtain ⟨front, ret, tail, split, -, picks⟩ :=
          ih nodup { st with atomicFlush := st.atomicFlush || (st.list.mem m).atomicFlush }
        exact ⟨m :: front, ret, tail, by rw [split]; rfl, fun some => absurd (by simpa using some) none,
          ⟨picks.toChanges, picks.idle, picks.result, picks.count⟩⟩

/-- `PickMemtablesToFlush` picks a run of memtables that are not being flushed. -/
theorem pickMemtablesToFlush_spec (s : MemTableList) (maxMemtableId : Nat) (nodup : s.memlist.Nodup) :
    let got := s.pickMemtablesToFlush maxMemtableId
    ∃ front tail, s.memlist = front ++ got.1 ++ tail ∧ Changes picked got.1 s got.2.2 ∧
      (∀ m ∈ got.1, (s.mem m).flushInProgress = false) ∧
      got.2.2.numFlushNotStarted = s.numFlushNotStarted - got.1.length := by
  obtain ⟨front, ret, tail, split, -, picks⟩ := pickLoop_picks maxMemtableId s.memlist nodup ⟨s, [], 0, false⟩
  have result : (s.pickMemtablesToFlush maxMemtableId).1 = ret := picks.result
  dsimp only
  rw [result, pickMemtablesToFlush]
  refine ⟨front, tail, split, ?_, picks.idle, ?_⟩
  · dsimp only
    split
    · exact ⟨⟨picks.memlist, picks.commitInProgress⟩, picks.inside, picks.outside⟩
    · exact picks.toChanges
  · dsimp only
    split <;> exact picks.count

end MemTableList

/-! ## Chunks -/

/-- A part of the list: one memtable that is not being flushed, or the memtables of a flush. -/
inductive Chunk where
  | idle (m : Nat)
  | running (job : FlushJob)
  | completed (job : FlushJob) (edit : VersionEdit)

variable {mem : Nat → MemTable}

namespace Chunk

def mems : Chunk → List Nat
  | idle m => [m]
  | running job | completed job _ => job.mems

/-- The number of the file of a flush. -/
def number? : Chunk → Option Nat
  | idle _ => none
  | running job | completed job _ => some job.fileNumber

def isIdle : Chunk → Bool
  | idle _ => true
  | _ => false

def isCompleted : Chunk → Bool
  | completed _ _ => true
  | _ => false

/-- The flags of the memtables say what kind of chunk they are in, and the edit of the flush is in the first one. -/
def Holds (mem : Nat → MemTable) : Chunk → Prop
  | idle m => (mem m).flushInProgress = false ∧ (mem m).flushCompleted = false
  | running job =>
    (∀ m ∈ job.mems, (mem m).flushInProgress = true ∧ (mem m).flushCompleted = false) ∧
      ∃ edit, (mem job.first).edit = some edit ∧ edit.flush = job.fileNumber
  | completed job edit =>
    (∀ m ∈ job.mems,
      (mem m).flushInProgress = true ∧ (mem m).flushCompleted = true ∧ (mem m).fileNumber = job.fileNumber) ∧
      (mem job.first).edit = some edit ∧ edit.flush = job.fileNumber

theorem mems_ne_nil (c : Chunk) : c.mems ≠ [] := by
  cases c with
  | idle m => exact cons_ne_nil m []
  | running job => exact job.nonempty
  | completed job => exact job.nonempty

variable {c : Chunk}

theorem Holds.congr (same : ∀ m ∈ c.mems, mem' m = mem m) (holds : c.Holds mem) : c.Holds mem' := by
  cases c with
  | idle m => simpa [Holds, same m mem_cons_self] using holds
  | running job | completed job edit =>
    refine ⟨fun m member => ?_, ?_⟩
    · rw [same m member]
      exact holds.1 m member
    · rw [same job.first (head_mem job.nonempty)]
      exact holds.2

theorem Holds.flushInProgress (holds : c.Holds mem) (member : m ∈ c.mems) : (mem m).flushInProgress = !c.isIdle := by
  cases c with
  | idle => rw [mem_singleton.mp member]; exact holds.1
  | running => exact (holds.1 m member).1
  | completed => exact (holds.1 m member).1

theorem Holds.flushCompleted (holds : c.Holds mem) (member : m ∈ c.mems) :
    (mem m).flushCompleted = c.isCompleted := by
  cases c with
  | idle => rw [mem_singleton.mp member]; exact holds.2
  | running => exact (holds.1 m member).2
  | completed => exact (holds.1 m member).2.1

theorem not_idle (isCompleted : c.isCompleted = true) : c.isIdle = false := by
  cases c with
  | completed => rfl
  | idle m | running job => cases isCompleted

end Chunk

open Chunk (mems number? isIdle idle running)
/-- The list as a row of chunks. -/
structure Row (s : MemTableList) (chunks : List Chunk) : Prop where
  memlist : s.memlist = chunks.flatMap Chunk.mems
  nodup : s.memlist.Nodup
  holds : ∀ c ∈ chunks, c.Holds s.mem
  numbers : (chunks.filterMap Chunk.number?).Nodup
  count : s.numFlushNotStarted = chunks.countP Chunk.isIdle

namespace Row
variable {s s' : MemTableList} {a b b' c : List Chunk}

variable {chunks : List Chunk}

private theorem countP_notInProgress (row : Row s chunks) :
    (s.memlist.countP fun m => !(s.mem m).flushInProgress) = chunks.countP isIdle := by
  rw [row.memlist]
  have holds := row.holds
  clear row
  induction chunks with
  | nil => rfl
  | cons chunk _ ih =>
    obtain ⟨here, behind⟩ := forall_mem_cons.mp holds
    rw [flatMap_cons, countP_append, ih behind, countP_cons, Nat.add_comm]
    congr 1
    cases chunk with
    | idle => simp [mems, here.1, isIdle]
    | running job | completed job edit =>
      rw [countP_eq_zero.mpr fun m member => by simp [(here.1 m member).1]]
      rfl

theorem nodup_flatMap (row : Row s chunks) : (chunks.flatMap mems).Nodup := row.memlist ▸ row.nodup

theorem nodup_mems (row : Row s (a ++ [.running job] ++ c)) : job.mems.Nodup := by
  have nodup := row.nodup_flatMap
  simp only [flatMap_append, flatMap_singleton] at nodup
  exact (nodup_append.mp (nodup_append.mp nodup).1).2.1

/-- Chunks in the middle are exchanged for others over the same memtables. -/
theorem exchange (row : Row s (a ++ b ++ c)) (keeps : s'.memlist = s.memlist)
    (outside : ∀ m, m ∉ b.flatMap mems → s'.mem m = s.mem m)
    (mems : b'.flatMap mems = b.flatMap mems) (holds : ∀ chunk ∈ b', chunk.Holds s'.mem)
    (numbers : ((a ++ b' ++ c).filterMap number?).Nodup)
    (count : s'.numFlushNotStarted + b.countP isIdle = s.numFlushNotStarted + b'.countP isIdle) :
    Row s' (a ++ b' ++ c) where
  memlist := by
    rw [keeps, row.memlist]
    simp only [flatMap_append, mems]
  nodup := keeps ▸ row.nodup
  holds chunk member := by
    have nodup := row.nodup_flatMap
    simp only [flatMap_append, append_assoc] at nodup
    rcases mem_append.mp member with inFront | behind
    · rcases mem_append.mp inFront with before | inside
      · refine (row.holds chunk (by simp [before])).congr fun m inChunk => outside m fun inB => ?_
        exact disjoint_of_nodup_append nodup (mem_flatMap.mpr ⟨chunk, before, inChunk⟩)
          (mem_append_left _ inB)
      · exact holds chunk inside
    · refine (row.holds chunk (by simp [behind])).congr fun m inChunk => outside m fun inB => ?_
      exact disjoint_of_nodup_append (nodup_append.mp nodup).2.1 inB
        (mem_flatMap.mpr ⟨chunk, behind, inChunk⟩)
  numbers := numbers
  count := by
    have before := row.count
    simp only [countP_append] at before ⊢
    omega

/-- A memtable that is not being flushed is a chunk of its own. -/
theorem split_idle (holds : ∀ chunk ∈ chunks, chunk.Holds mem)
    (front : List Nat) (split : chunks.flatMap mems = front ++ m :: tail)
    (idle : (mem m).flushInProgress = false) :
    ∃ a c, chunks = a ++ .idle m :: c ∧ a.flatMap mems = front ∧ c.flatMap mems = tail := by
  induction chunks generalizing front with
  | nil => simp at split
  | cons chunk chunks ih =>
    obtain ⟨here, behind⟩ := forall_mem_cons.mp holds
    rcases append_eq_append_iff.mp split with ⟨x, rfl, rest⟩ | ⟨x, own, rest⟩
    · obtain ⟨a, c, rfl, rfl, rfl⟩ := ih behind _ rest
      exact ⟨chunk :: a, c, rfl, rfl, rfl⟩
    · cases x with
      | nil =>
        obtain ⟨a, c, rfl, flat, rfl⟩ := ih behind [] rest.symm
        exact ⟨chunk :: a, c, rfl, by simpa [flat] using own, rfl⟩
      | cons p x =>
        cases rest
        have inChunk : m ∈ chunk.mems := by simp [own]
        cases chunk with
        | idle p =>
          obtain ⟨rfl, rfl, rfl⟩ : front = [] ∧ p = m ∧ x = [] := by
            cases front with
            | nil => simpa [mems] using own
            | cons => simp [mems] at own
          exact ⟨[], chunks, rfl, rfl, rfl⟩
        | running job | completed job edit => simp [here.flushInProgress inChunk, isIdle] at idle

private theorem eq_nil_of_flatMap (flat : chunks.flatMap mems = []) : chunks = [] := by
  cases chunks with
  | nil => rfl
  | cons chunk =>
    rw [flatMap_cons, append_eq_nil_iff] at flat
    exact absurd flat.1 chunk.mems_ne_nil

private theorem split_idles (holds : ∀ chunk ∈ chunks, chunk.Holds mem) (split : chunks.flatMap mems = ret ++ tail)
    (idle : ∀ m ∈ ret, (mem m).flushInProgress = false) : ∃ c, chunks = ret.map .idle ++ c := by
  induction ret generalizing chunks with
  | nil => exact ⟨chunks, rfl⟩
  | cons _ _ ih =>
    obtain ⟨here, behind⟩ := forall_mem_cons.mp idle
    obtain ⟨_, _, rfl, flat, rest⟩ := split_idle holds [] split here
    obtain rfl := eq_nil_of_flatMap flat
    obtain ⟨c', rfl⟩ := ih (fun chunk member => holds chunk (mem_cons_of_mem _ member)) rest behind
    exact ⟨c', rfl⟩

/-- A run of memtables that are not being flushed is a run of chunks. -/
theorem split_run (row : Row s chunks)
    (split : s.memlist = front ++ ret ++ tail) (idle : ∀ m ∈ ret, (s.mem m).flushInProgress = false) (some : ret ≠ []) :
    ∃ a c, chunks = a ++ ret.map .idle ++ c := by
  obtain ⟨_, _, rfl⟩ := exists_cons_of_ne_nil some
  obtain ⟨here, behind⟩ := forall_mem_cons.mp idle
  rw [row.memlist, append_assoc] at split
  obtain ⟨a, _, rfl, -, rest⟩ := split_idle row.holds _ split here
  obtain ⟨c', rfl⟩ := split_idles (fun chunk member => row.holds chunk (by simp [member])) rest behind
  exact ⟨a, c', by simp⟩

theorem flatMap_idle (mems : List Nat) : (mems.map idle).flatMap Chunk.mems = mems := by
  induction mems with
  | nil => rfl
  | cons _ _ ih => rw [map_cons, flatMap_cons, ih]; rfl

theorem countP_idle (mems : List Nat) : (mems.map idle).countP isIdle = mems.length := by
  induction mems with
  | nil => rfl
  | cons _ _ ih => rw [map_cons, countP_cons, ih]; rfl

theorem numbers_idle (mems : List Nat) : (mems.map idle).filterMap number? = [] := by
  induction mems with
  | nil => rfl
  | cons _ _ ih => rw [map_cons, filterMap_cons_none rfl, ih]

/-- Flushes are given up. -/
theorem restore (row : Row s (a ++ b ++ c)) (flushes : ∀ chunk ∈ b, chunk.isIdle = false)
    (restores : Restores (b.flatMap mems) s s') : Row s' (a ++ (b.flatMap mems).map idle ++ c) := by
  refine row.exchange restores.memlist restores.outside (flatMap_idle _) (fun chunk member => ?_) ?_ ?_
  · obtain ⟨m, inside, rfl⟩ := mem_map.mp member
    simp [Chunk.Holds, restores.inside m inside, restored]
  · have numbers := row.numbers
    simp only [filterMap_append, numbers_idle, append_nil] at numbers ⊢
    exact numbers.sublist ((sublist_append_left _ _).append_right _)
  · rw [countP_eq_zero.mpr fun chunk member => by simp [flushes chunk member], countP_idle, restores.count]
    simp

/-- Memtables are picked by a flush, which gets a new number. -/
theorem pick (job : FlushJob) (edit : VersionEdit) (row : Row s (a ++ job.mems.map idle ++ c))
    (changes : Changes picked job.mems s s')
    (count : s'.numFlushNotStarted = s.numFlushNotStarted - job.mems.length)
    (flush : edit.flush = job.fileNumber)
    (fresh : ∀ n ∈ (a ++ job.mems.map idle ++ c).filterMap number?, n < job.fileNumber) :
    Row (s'.modify job.first ({ · with edit := some edit })) (a ++ [.running job] ++ c) := by
  have first : job.first ∈ job.mems := head_mem job.nonempty
  have idle (m : Nat) (member : m ∈ job.mems) : (s.mem m).flushCompleted = false := by
    refine (row.holds (.idle m) ?_).2
    simp only [mem_append, mem_map]
    exact .inl (.inr ⟨m, member, rfl⟩)
  refine row.exchange changes.memlist (fun m notIn => ?_) ?_ (fun _ member => ?_) ?_ ?_
  · rw [flatMap_idle] at notIn
    rw [modify_mem_other _ (ne_of_mem_of_not_mem first notIn).symm]
    exact changes.outside m notIn
  · rw [flatMap_idle]
    exact append_nil _
  · obtain rfl := mem_singleton.mp member
    refine ⟨fun m inJob => ?_, edit, by rw [modify_mem_same], flush⟩
    by_cases same : m = job.first
    · rw [same, modify_mem_same, changes.inside _ first]
      exact ⟨rfl, idle _ first⟩
    · rw [modify_mem_other _ same, changes.inside m inJob]
      exact ⟨rfl, idle m inJob⟩
  · have numbers := row.numbers
    simp only [filterMap_append, numbers_idle, append_nil, mem_append] at numbers fresh ⊢
    rw [append_assoc]
    refine perm_middle.nodup_iff.mpr (nodup_cons.mpr ⟨fun member => ?_, numbers⟩)
    exact Nat.lt_irrefl _ (fresh _ (mem_append.mp member))
  · rw [countP_idle]
    change s'.numFlushNotStarted + job.mems.length = s.numFlushNotStarted + (0 : Nat)
    rw [count]
    simp

/-- A flush is completed. -/
theorem complete (row : Row s (a ++ [.running job] ++ c)) (edit : VersionEdit) (flush : edit.flush = job.fileNumber) :
    Row ((s.modify job.first ({ · with edit := some edit })).markCompleted job.mems job.fileNumber)
      (a ++ [.completed job edit] ++ c) := by
  have first : job.first ∈ job.mems := head_mem job.nonempty
  have holds : (running job).Holds s.mem := row.holds _ (by simp)
  obtain ⟨changes, count⟩ :=
    markCompleted_changes job.fileNumber job.mems row.nodup_mems
  refine row.exchange changes.memlist (fun m notIn => ?_) rfl (fun _ member => ?_) ?_ ?_
  · have notIn : m ∉ job.mems := by simpa [mems] using notIn
    rw [changes.outside m notIn, modify_mem_other _ (ne_of_mem_of_not_mem first notIn).symm]
  · obtain rfl := mem_singleton.mp member
    refine ⟨fun m inJob => ?_, ?_, flush⟩
    · rw [changes.inside m inJob]
      refine ⟨?_, rfl, rfl⟩
      by_cases same : m = job.first
      · rw [same, modify_mem_same]
        exact (holds.1 _ first).1
      · rw [modify_mem_other _ same]
        exact (holds.1 m inJob).1
    · rw [changes.inside _ first, modify_mem_same]
      rfl
  · have numbers := row.numbers
    simpa [filterMap_append, number?] using numbers
  · rw [count]
    rfl

/-- Completed flushes at the old end are committed. -/
theorem remove (row : Row s (b ++ c)) (flushes : ∀ chunk ∈ b, chunk.isIdle = false) :
    Row { s with memlist := s.memlist.drop (b.flatMap mems).length } c where
  memlist := by simp [row.memlist]
  nodup := row.nodup.sublist (drop_sublist ..)
  holds chunk member := row.holds chunk (mem_append_right _ member)
  numbers := by
    have numbers := row.numbers
    rw [filterMap_append] at numbers
    exact (nodup_append.mp numbers).2.1
  count := by
    have count := row.count
    rw [countP_append, countP_eq_zero.mpr fun chunk member => by simp [flushes chunk member]] at count
    simpa using count

/-- A memtable joins at the new end. -/
theorem add (row : Row s chunks) (m : Nat) (notIn : m ∉ s.memlist) (table : MemTable)
    (idle : table.flushInProgress = false ∧ table.flushCompleted = false) :
    Row ((s.modify m fun _ => table).add m) (chunks ++ [.idle m]) where
  memlist := by
    change s.memlist ++ [m] = _
    rw [row.memlist, flatMap_append]
    rfl
  nodup := by
    change (s.memlist ++ [m]).Nodup
    exact nodup_append_comm.mp (nodup_cons.mpr ⟨notIn, row.nodup⟩)
  holds chunk member := by
    rcases mem_append.mp member with before | here
    · refine (row.holds chunk before).congr fun _ inChunk => update_of_ne (fun same => notIn ?_) _ _
      rw [row.memlist, ← same]
      exact mem_flatMap.mpr ⟨chunk, before, inChunk⟩
    · obtain rfl := mem_singleton.mp here
      have same : ((s.modify m fun _ => table).add m).mem m = table := update_self ..
      rw [Chunk.Holds, same]
      exact idle
  numbers := by
    rw [filterMap_append, filterMap_cons_none rfl, filterMap_nil, append_nil]
    exact row.numbers
  count := by
    change s.numFlushNotStarted + 1 = _
    rw [row.count, countP_append]
    rfl

/-! ### The batch of a commit -/

/-- The completed flushes at the old end of some chunks, and the rest, which does not start with one. -/
theorem split_completed (chunks : List Chunk) (holds : ∀ chunk ∈ chunks, chunk.Holds mem) :
    ∃ b c, chunks = b ++ c ∧ (∀ chunk ∈ b, chunk.isCompleted = true) ∧
      (∀ m ∈ b.flatMap mems, (mem m).flushCompleted = true) ∧
      ∀ m ∈ (c.flatMap mems).head?, (mem m).flushCompleted = false := by
  induction chunks with
  | nil => exact ⟨[], [], rfl, nofun, nofun, nofun⟩
  | cons chunk chunks ih =>
    obtain ⟨here, behind⟩ := forall_mem_cons.mp holds
    cases completed : chunk.isCompleted with
    | true =>
      obtain ⟨b, c, rfl, isCompleted, flags, stops⟩ := ih behind
      exact ⟨chunk :: b, c, rfl, forall_mem_cons.mpr ⟨completed, isCompleted⟩,
        forall_mem_append.mpr ⟨fun m inChunk => (here.flushCompleted inChunk).trans completed, flags⟩, stops⟩
    | false =>
      refine ⟨[], chunk :: chunks, rfl, nofun, nofun, fun _ isHead => ?_⟩
      rw [flatMap_cons, head?_append_of_ne_nil _ chunk.mems_ne_nil] at isHead
      exact (here.flushCompleted (mem_of_mem_head? isHead)).trans completed

/-- The walk over the rest of a flush. -/
theorem batch_same (mems tail : List Nat)
    (holds : ∀ m ∈ mems, (mem m).flushCompleted = true ∧ (mem m).fileNumber = number) :
    batch mem (mems ++ tail) (some number) =
      ((batch mem tail (some number)).1 + mems.length, (batch mem tail (some number)).2) := by
  induction mems with
  | nil => rfl
  | cons _ _ ih =>
    obtain ⟨here, behind⟩ := forall_mem_cons.mp holds
    rw [cons_append, batch, if_neg (by simp [here.1]), here.2, ih behind]
    dsimp only
    rw [if_pos rfl, length_cons, Nat.add_assoc]

/-- The batch is all completed flushes at the old end, each with the memtable that has its edit. -/
theorem batch_eq (b : List Chunk) (tail : List Nat) (prev : Option Nat)
    (holds : ∀ chunk ∈ b, chunk.Holds mem) (isCompleted : ∀ chunk ∈ b, chunk.isCompleted = true)
    (numbers : (prev.toList ++ b.filterMap number?).Nodup)
    (stops : ∀ m ∈ tail.head?, (mem m).flushCompleted = false) :
    batch mem (b.flatMap mems ++ tail) prev =
      ((b.flatMap mems).length, b.map fun chunk => chunk.mems.head chunk.mems_ne_nil) := by
  induction b generalizing prev with
  | nil =>
    cases tail with
    | nil => rfl
    | cons m =>
      rw [flatMap_nil, nil_append, batch, if_pos (by simp [stops m rfl])]
      rfl
  | cons chunk b ih =>
    obtain ⟨here, behind⟩ := forall_mem_cons.mp holds
    obtain ⟨hereCompleted, behindCompleted⟩ := forall_mem_cons.mp isCompleted
    cases chunk with
    | idle => cases hereCompleted
    | running => cases hereCompleted
    | completed job =>
      obtain ⟨_, rest, mems⟩ := exists_cons_of_ne_nil job.nonempty
      have completed := here.1
      rw [mems] at completed
      obtain ⟨atFirst, atRest⟩ := forall_mem_cons.mp completed
      have fresh : prev ≠ some job.fileNumber := by
        rintro rfl
        simp [number?] at numbers
      have behindNumbers : ((some job.fileNumber).toList ++ b.filterMap number?).Nodup := by
        have behind := (nodup_append.mp numbers).2.1
        rwa [filterMap_cons_some (f := number?) rfl] at behind
      rw [flatMap_cons, Chunk.mems, mems, cons_append, cons_append, batch,
        if_neg (by simp [atFirst.2.1]), atFirst.2.2, append_assoc,
        batch_same rest _ fun m member => (atRest m member).2, ih _ behind behindCompleted behindNumbers]
      dsimp only
      rw [if_neg fresh]
      simp [Chunk.mems, mems]
      omega

end Row

/-! ## Steps -/

namespace Db
variable {d : Db} {chunks a b b' c : List Chunk}

/-- A batch that is being committed is at the old end. -/
def Committing (chunks : List Chunk) : Option Commit → Prop
  | some (.writing batchCount edits) =>
    ∃ batch rest, chunks = batch ++ rest ∧ (∀ chunk ∈ batch, chunk.isCompleted = true) ∧
      batchCount = (batch.flatMap Chunk.mems).length ∧
      edits = batch.map fun chunk => chunk.mems.head chunk.mems_ne_nil
  | _ => True

/-- The memtable has left after a write of the manifest with the edit of the flush that wrote it. -/
def Recorded (d : Db) (m : Nat) : Prop :=
  ∃ job edit, (job, edit) ∈ d.finished ∧ m ∈ job.mems ∧ (d.list.mem m).fileNumber = job.fileNumber ∧
    edit.flush = job.fileNumber ∧ ∃ write ∈ d.manifest, edit ∈ write

/-- The invariant. -/
structure Inv (d : Db) (chunks : List Chunk) : Prop where
  row : Row d.list chunks
  old : ∀ m ∈ d.added, m < d.allocated
  numbers : ∀ n ∈ chunks.filterMap Chunk.number?, n < d.nextFileNumber
  jobs : ∀ job, job ∈ d.jobs ↔ Chunk.running job ∈ chunks
  finished : ∀ job edit, Chunk.completed job edit ∈ chunks → (job, edit) ∈ d.finished
  committing : Committing chunks d.commit
  commitInProgress : d.list.commitInProgress = d.commit.isSome
  order : d.added = d.removed ++ d.list.memlist
  addedNodup : d.added.Nodup
  recorded : ∀ m ∈ d.removed, Recorded d m

/-- What is not completed is behind the batch that is being committed. -/
theorem Committing.exchange {commit : Option Commit} {chunk : Chunk} (committing : Committing (a ++ chunk :: c) commit)
    (open' : chunk.isCompleted = false) (rest : List Chunk) : Committing (a ++ rest) commit := by
  match commit, committing with
  | none, _ | some (.returned _), _ => trivial
  | some (.writing batchCount edits), ⟨batch, behind, split, isCompleted, count, heads⟩ =>
    rcases append_eq_append_iff.mp split with ⟨x, rfl, tail⟩ | ⟨x, rfl, tail⟩
    · cases x with
      | nil => exact ⟨a, rest, rfl, by simpa using isCompleted, by simpa using count, by simpa using heads⟩
      | cons =>
        obtain ⟨rfl, -⟩ := cons.inj tail
        have inBatch := isCompleted chunk (by simp)
        rw [open'] at inBatch
        cases inBatch
    · exact ⟨batch, x ++ rest, by simp, isCompleted, count, heads⟩

theorem Committing.append {commit : Option Commit} (committing : Committing chunks commit) (rest : List Chunk) :
    Committing (chunks ++ rest) commit := by
  match commit, committing with
  | none, _ | some (.returned _), _ => trivial
  | some (.writing batchCount edits), ⟨batch, behind, split, isCompleted, count, heads⟩ =>
    exact ⟨batch, behind ++ rest, by rw [split, append_assoc], isCompleted, count, heads⟩

variable {job : FlushJob}

/-- Dropping a job, by its number, leaves the others. -/
theorem mem_drop (inv : Inv d (a ++ [.running job] ++ c)) (job' : FlushJob) :
    job' ∈ (d.drop job).jobs ↔ running job' ∈ a ∨ running job' ∈ c := by
  have numbers := inv.row.numbers
  simp only [filterMap_append, append_assoc] at numbers
  have notOther := (nodup_cons.mp (perm_middle.nodup_iff.mp numbers)).1
  have apart (inside : running job' ∈ a ∨ running job' ∈ c) : job'.fileNumber ≠ job.fileNumber := by
    intro same
    refine notOther (mem_append.mpr ?_)
    rw [← same]
    exact inside.imp (fun member => mem_filterMap.mpr ⟨_, member, rfl⟩)
      fun member => mem_filterMap.mpr ⟨_, member, rfl⟩
  rw [drop, mem_filter, inv.jobs]
  simp only [mem_append, mem_singleton, running.injEq, ne_eq, decide_not, Bool.not_eq_eq_eq_not,
    Bool.not_true, decide_eq_false_iff_not]
  constructor
  · rintro ⟨(inA | rfl) | inC, other⟩
    · exact .inl inA
    · exact absurd rfl other
    · exact .inr inC
  · intro inside
    exact ⟨inside.elim (fun inA => .inl (.inl inA)) .inr, apart inside⟩

variable {m : Nat}

theorem Recorded.mono (recorded : Recorded d m) (finished : d.finished ⊆ d'.finished)
    (manifest : d.manifest ⊆ d'.manifest) (same : d'.list.mem m = d.list.mem m) : Recorded d' m := by
  obtain ⟨job, edit, isFinished, inJob, number, flush, write, inManifest, inWrite⟩ := recorded
  exact ⟨job, edit, finished isFinished, inJob, same ▸ number, flush, write, manifest inManifest, inWrite⟩

/-- What has left the list is not in it any more. -/
theorem Inv.not_listed (inv : Inv d chunks) (left : m ∈ d.removed) : m ∉ d.list.memlist :=
  disjoint_of_nodup_append (inv.order ▸ inv.addedNodup) left

theorem Inv.not_in_chunks (inv : Inv d (a ++ b ++ c)) (left : m ∈ d.removed) : m ∉ b.flatMap mems := by
  intro inside
  refine inv.not_listed left ?_
  rw [inv.row.memlist]
  simp only [flatMap_append, mem_append]
  exact .inl (.inr inside)

private theorem new_inv : Inv new [] where
  row := ⟨rfl, nodup_nil, nofun, nodup_nil, rfl⟩
  old := nofun
  numbers := nofun
  jobs _ := ⟨nofun, nofun⟩
  finished := nofun
  committing := trivial
  commitInProgress := rfl
  order := rfl
  addedNodup := nodup_nil
  recorded := nofun

private theorem add_inv (inv : Inv d chunks) (id nextLogNumber : Nat) :
    Inv (d.add id nextLogNumber) (chunks ++ [.idle d.allocated]) := by
  have fresh : d.allocated ∉ d.added := fun member => Nat.lt_irrefl _ (inv.old _ member)
  have notIn : d.allocated ∉ d.list.memlist := fun member => fresh (inv.order ▸ mem_append_right _ member)
  exact
    { row := inv.row.add d.allocated notIn _ ⟨rfl, rfl⟩
      old := fun m member => by
        rcases mem_append.mp member with before | here
        · exact Nat.lt_succ_of_lt (inv.old m before)
        · exact mem_singleton.mp here ▸ Nat.lt_succ_self _
      numbers := by
        rw [filterMap_append, filterMap_cons_none rfl, filterMap_nil, append_nil]
        exact inv.numbers
      jobs := fun job => (inv.jobs job).trans (by simp)
      finished := fun job edit member => inv.finished job edit (by simpa using member)
      committing := inv.committing.append _
      commitInProgress := inv.commitInProgress
      order := by
        change d.added ++ [d.allocated] = d.removed ++ (d.list.memlist ++ [d.allocated])
        rw [inv.order, append_assoc]
      addedNodup := nodup_append_comm.mp (nodup_cons.mpr ⟨fresh, inv.addedNodup⟩)
      recorded := fun m left => by
        have member : m ∈ d.added := inv.order ▸ mem_append_left _ left
        exact (inv.recorded m left).mono (List.Subset.refl _) (List.Subset.refl _)
          (update_of_ne (ne_of_mem_of_not_mem member fresh) _ _) }

/-- A step that exchanges chunks, the first of which is not completed, and does not touch the commit. -/
theorem Inv.exchange (inv : Inv d (a ++ (chunk :: b) ++ c))
    (open' : chunk.isCompleted = false) (row : Row d'.list (a ++ b' ++ c))
    (allocated : d'.allocated = d.allocated) (added : d'.added = d.added) (removed : d'.removed = d.removed)
    (commit : d'.commit = d.commit) (keeps : Keeps d.list d'.list)
    (outside : ∀ m, m ∉ (chunk :: b).flatMap mems → d'.list.mem m = d.list.mem m)
    (next : d.nextFileNumber ≤ d'.nextFileNumber) (numbers : ∀ n ∈ b'.filterMap number?, n < d'.nextFileNumber)
    (jobs : ∀ job, job ∈ d'.jobs ↔ running job ∈ a ++ b' ++ c)
    (finishes : ∀ job edit, Chunk.completed job edit ∈ b' → (job, edit) ∈ d'.finished)
    (finished : d.finished ⊆ d'.finished) (manifest : d.manifest ⊆ d'.manifest) : Inv d' (a ++ b' ++ c) where
  row := row
  old := by
    rw [added, allocated]
    exact inv.old
  numbers n member := by
    have before := inv.numbers
    simp only [filterMap_append, mem_append] at member before
    rcases member with (inA | inB) | inC
    · exact (before n (.inl (.inl inA))).trans_le next
    · exact numbers n inB
    · exact (before n (.inr inC)).trans_le next
  jobs := jobs
  finished job edit member := by
    rcases mem_append.mp member with inFront | inC
    · rcases mem_append.mp inFront with inA | inB
      · exact finished (inv.finished job edit (by simp [inA]))
      · exact finishes job edit inB
    · exact finished (inv.finished job edit (by simp [inC]))
  committing := by
    have committing := inv.committing
    rw [append_assoc, cons_append] at committing
    rw [commit, append_assoc]
    exact committing.exchange open' _
  commitInProgress := by rw [keeps.commitInProgress, commit, inv.commitInProgress]
  order := by rw [added, removed, keeps.memlist, inv.order]
  addedNodup := added ▸ inv.addedNodup
  recorded m left := by
    rw [removed] at left
    exact (inv.recorded m left).mono finished manifest (outside m (inv.not_in_chunks left))

/-- Only flags of the list change that the bookkeeping does not use. -/
theorem Inv.relist {list : MemTableList} (inv : Inv d chunks) (keeps : Keeps d.list list) (mem : list.mem = d.list.mem)
    (count : list.numFlushNotStarted = d.list.numFlushNotStarted) : Inv { d with list } chunks :=
  { inv with
    row :=
      { memlist := keeps.memlist.trans inv.row.memlist
        nodup := keeps.memlist ▸ inv.row.nodup
        holds := mem ▸ inv.row.holds
        numbers := inv.row.numbers
        count := count.trans inv.row.count }
    commitInProgress := keeps.commitInProgress.trans inv.commitInProgress
    order := keeps.memlist ▸ inv.order
    recorded := fun m left =>
      (inv.recorded m left).mono (List.Subset.refl _) (List.Subset.refl _) (congrFun mem m) }

private theorem pick_inv (inv : Inv d chunks) (maxMemtableId : Nat) : ∃ chunks', Inv (d.pick maxMemtableId) chunks' := by
  obtain ⟨_, _, split, changes, idle, count⟩ := pickMemtablesToFlush_spec d.list maxMemtableId inv.row.nodup
  rw [pick]
  generalize d.list.pickMemtablesToFlush maxMemtableId = result at *
  obtain ⟨mems, maxNextLogNumber, list⟩ := result
  dsimp only at split changes idle count ⊢
  split
  · next nonempty =>
    obtain ⟨a, c, rfl⟩ := inv.row.split_run split idle nonempty
    let job : FlushJob := ⟨mems, nonempty, d.nextFileNumber⟩
    have row := Row.pick job ⟨d.nextFileNumber, maxNextLogNumber, none⟩ inv.row changes count rfl inv.numbers
    obtain ⟨m, _, rfl⟩ := exists_cons_of_ne_nil nonempty
    refine ⟨a ++ [.running job] ++ c, inv.exchange rfl row rfl rfl rfl rfl ⟨changes.memlist, changes.commitInProgress⟩
      (fun p notIn => ?_) (Nat.le_succ _) ?_ (fun _ => ?_) (fun job _ member => ?_) (List.Subset.refl _)
      (List.Subset.refl _)⟩
    · rw [← map_cons, Row.flatMap_idle] at notIn
      have other : p ≠ m := fun same => notIn (same ▸ mem_cons_self)
      exact (update_of_ne other _ _).trans (changes.outside p notIn)
    · intro n member
      obtain rfl : n = d.nextFileNumber := by simpa [number?, job] using member
      exact Nat.lt_succ_self _
    · rw [mem_cons, inv.jobs]
      simp only [mem_append, running.injEq, map_cons, mem_cons, mem_map, not_mem_nil,
        reduceCtorEq, and_false, exists_false, or_false]
      exact or_left_comm.trans or_assoc.symm
    · simp at member
  · next empty =>
    obtain rfl := not_not.mp empty
    have same : list.mem = d.list.mem := funext fun m => changes.outside m not_mem_nil
    exact ⟨chunks, inv.relist changes.toKeeps same (by simpa using count)⟩

private theorem job?_eq_some (found : d.job? fileNumber = some job) : job ∈ d.jobs := mem_of_find?_eq_some found

/-- The row around a flush that is out. -/
theorem Inv.around (inv : Inv d chunks) (out : job ∈ d.jobs) : ∃ a c, chunks = a ++ [.running job] ++ c := by
  obtain ⟨a, c, split⟩ := append_of_mem ((inv.jobs job).mp out)
  exact ⟨a, c, by simpa using split⟩

/-- Flushes that are out are given up, with completed ones behind them. -/
theorem Inv.restore {list : MemTableList} (inv : Inv d (a ++ (.running job :: b) ++ c))
    (isCompleted : ∀ chunk ∈ b, chunk.isCompleted = true)
    (restores : Restores ((running job :: b).flatMap mems) d.list list) :
    ∃ chunks', Inv { d.drop job with list } chunks' := by
  have flushes : ∀ chunk ∈ running job :: b, chunk.isIdle = false :=
    forall_mem_cons.mpr ⟨rfl, fun chunk member => chunk.not_idle (isCompleted chunk member)⟩
  have notRunning (job' : FlushJob) : running job' ∉ b := fun member => by
    cases isCompleted _ member
  refine ⟨_, inv.exchange rfl (inv.row.restore flushes restores) rfl rfl rfl rfl restores.toKeeps restores.outside le_rfl
    ?_ (fun job' => ?_) (fun job _ member => ?_) (List.Subset.refl _) (List.Subset.refl _)⟩
  · rw [Row.numbers_idle]
    nofun
  · have inv' : Inv d (a ++ [.running job] ++ (b ++ c)) := by simpa using inv
    refine (mem_drop inv' job').trans ?_
    simp [notRunning job']
  · simp at member

/-- Which completed flushes are given up with one that fails: those behind it, if it has one memtable only. -/
theorem rollbackBehind_restores (row : Row d.list (a ++ [.running job] ++ c)) (succeeding : Bool) :
    ∃ b c', c = b ++ c' ∧ (∀ chunk ∈ b, chunk.isCompleted = true) ∧
      Restores (b.flatMap mems) d.list (d.list.rollbackBehind succeeding job.mems) := by
  have nodup := row.nodup_flatMap
  have memlist := row.memlist
  simp only [flatMap_append, flatMap_singleton] at nodup memlist
  obtain ⟨first, rest, isMems⟩ := exists_cons_of_ne_nil job.nonempty
  rw [mems, isMems] at nodup memlist
  rw [isMems, rollbackBehind]
  split
  case isFalse => exact ⟨[], c, rfl, nofun, .nil⟩
  have notBefore : first ∉ a.flatMap mems := fun member =>
    disjoint_of_nodup_append (nodup_append.mp nodup).1 member mem_cons_self
  have behind : (d.list.memlist.dropWhile (· ≠ first)).tail = rest ++ c.flatMap mems := by
    rw [memlist, append_assoc, dropWhile_append_of_pos fun m member => by
      simpa using ne_of_mem_of_not_mem member notBefore]
    simp
  rw [behind]
  cases rest with
  | nil =>
    obtain ⟨b, c', rfl, isCompleted, flags, stops⟩ :=
      Row.split_completed c fun chunk member => row.holds chunk (by simp [member])
    have nodupC := (nodup_append.mp nodup).2.1
    rw [flatMap_append] at nodupC
    rw [nil_append, flatMap_append]
    exact ⟨b, c', rfl, isCompleted, rollbackSucceeding_restores _ (nodup_append.mp nodupC).1 flags
      (fun _ inB inC => disjoint_of_nodup_append nodupC inB inC) stops⟩
  | cons next rest =>
    refine ⟨[], c, rfl, nofun, ?_⟩
    have inJob : next ∈ job.mems := by simp [isMems]
    have holds : (running job).Holds d.list.mem := row.holds _ (by simp)
    rw [cons_append, rollbackSucceeding, if_neg (by simp [(holds.1 next inJob).2])]
    exact .nil

private theorem rollback_inv (inv : Inv d chunks) (out : job ∈ d.jobs) (succeeding : Bool) :
    ∃ chunks', Inv (d.rollback job succeeding) chunks' := by
  obtain ⟨a, _, rfl⟩ := inv.around out
  -- The flushes behind the job are given up first, then the job.
  obtain ⟨b, c', rfl, isCompleted, restores⟩ := rollbackBehind_restores inv.row succeeding
  have nodup := inv.row.nodup_flatMap
  simp only [flatMap_append, flatMap_singleton] at nodup
  have holds : (running job).Holds d.list.mem := inv.row.holds _ (by simp)
  have disjoint (m : Nat) (inB : m ∈ b.flatMap mems) : m ∉ job.mems := fun inJob =>
    disjoint_of_nodup_append nodup (mem_append_right _ inJob) (mem_append_left _ inB)
  have own := foldl_restores job.mems inv.row.nodup_mems
    fun m inJob => by
      rw [restores.outside m fun inB => disjoint m inB inJob]
      exact (holds.1 m inJob).1
  have all := restores.append own disjoint
  have inv' : Inv d (a ++ (.running job :: b) ++ c') := by simpa using inv
  refine inv'.restore isCompleted ?_
  rw [rollbackMemtableFlush, if_neg (by simpa using job.nonempty)]
  exact ⟨⟨⟨all.memlist, all.commitInProgress⟩, all.inside, all.outside⟩, all.count⟩

/-! ### Commits -/

theorem Inv.withCommit (inv : Inv d chunks) (commit : Option Commit) (committing : Committing chunks commit) :
    Inv { d with list := { d.list with commitInProgress := commit.isSome }, commit } chunks :=
  { inv with
    row := { inv.row with }
    committing
    commitInProgress := rfl }

theorem commitLoop_inv (inv : Inv d chunks) (inProgress : d.list.commitInProgress = true) : Inv d.commitLoop chunks := by
  have stopped : Inv { d with list := { d.list with commitInProgress := false }, commit := none } chunks :=
    inv.withCommit none trivial
  obtain ⟨b, c, rfl, isCompleted, _, stops⟩ := Row.split_completed chunks inv.row.holds
  have memlist := inv.row.memlist
  rw [flatMap_append] at memlist
  have batch := Row.batch_eq b (c.flatMap mems) none
    (fun chunk member => inv.row.holds chunk (mem_append_left _ member)) isCompleted
    ((nodup_append.mp (filterMap_append ▸ inv.row.numbers)).1) stops
  rw [commitLoop]
  split
  · exact stopped
  · split
    · exact stopped
    · have started := inv.withCommit (some (.writing (b.flatMap mems).length
        (b.map fun chunk => chunk.mems.head chunk.mems_ne_nil))) ⟨b, c, rfl, isCompleted, rfl, rfl⟩
      rw [memlist, batch]
      rw [Option.isSome_some, ← inProgress] at started
      exact started

private theorem commitLoop_commit (commit : Option Commit) : { d with commit }.commitLoop = d.commitLoop := by
  rw [commitLoop, commitLoop]

private theorem install_inv (inv : Inv d chunks) (out : job ∈ d.jobs) (emptyFile : Bool) :
    ∃ chunks', Inv (d.install job emptyFile) chunks' := by
  obtain ⟨a, c, rfl⟩ := inv.around out
  have holds : (running job).Holds d.list.mem := inv.row.holds _ (by simp)
  obtain ⟨edit, kept, flush⟩ := holds.2
  rw [install, kept, Option.getD_some]
  generalize made : { edit with newFile := if emptyFile then none else some job.fileNumber } = edit'
  have row := inv.row.complete edit' (by rw [← made]; exact flush)
  obtain ⟨changes, -⟩ :=
    markCompleted_changes job.fileNumber job.mems
      inv.row.nodup_mems
  generalize (d.list.modify job.first ({ · with edit := some edit' })).markCompleted job.mems job.fileNumber = list
    at row changes ⊢
  have completed : Inv { d.drop job with list, finished := (job, edit') :: d.finished }
      (a ++ [.completed job edit'] ++ c) := by
    refine inv.exchange rfl row rfl rfl rfl rfl ⟨changes.memlist, changes.commitInProgress⟩ (fun m notIn => ?_) le_rfl
      (fun n member => ?_) (fun job' => ?_) (fun _ _ member => ?_) (subset_cons_self _ _) (List.Subset.refl _)
    · have notIn : m ∉ job.mems := by simpa [mems] using notIn
      rw [changes.outside m notIn]
      exact modify_mem_other _ (ne_of_mem_of_not_mem (head_mem job.nonempty) notIn).symm
    · refine inv.numbers n ?_
      simp only [filterMap_append, mem_append]
      exact .inl (.inr member)
    · refine (mem_drop inv job').trans ?_
      simp
    · cases mem_singleton.mp member
      exact mem_cons_self
  split
  · exact ⟨_, completed⟩
  · have started := completed.withCommit (some (.returned true)) trivial
    refine ⟨a ++ [.completed job edit'] ++ c, ?_⟩
    rw [← commitLoop_commit (some (.returned true))]
    exact commitLoop_inv started rfl

/-- The flushes of the batch are recorded by the write. -/
theorem recorded_of_batch {batch : List Chunk} (holds : ∀ chunk ∈ batch, chunk.Holds d.list.mem)
    (isCompleted : ∀ chunk ∈ batch, chunk.isCompleted = true)
    (finished : ∀ job edit, Chunk.completed job edit ∈ batch → (job, edit) ∈ d.finished)
    (inBatch : m ∈ batch.flatMap mems) :
    ∃ job edit, (job, edit) ∈ d.finished ∧ m ∈ job.mems ∧ (d.list.mem m).fileNumber = job.fileNumber ∧
      edit.flush = job.fileNumber ∧
      edit ∈ (batch.map fun chunk => chunk.mems.head chunk.mems_ne_nil).filterMap fun m => (d.list.mem m).edit := by
  obtain ⟨chunk, member, inChunk⟩ := mem_flatMap.mp inBatch
  have completed := isCompleted chunk member
  have flags := holds chunk member
  cases chunk with
  | idle => cases completed
  | running => cases completed
  | completed job edit =>
    refine ⟨job, edit, finished job edit member, inChunk, (flags.1 m inChunk).2.2, flags.2.2, ?_⟩
    rw [mem_filterMap]
    exact ⟨job.first, mem_map.mpr ⟨_, member, rfl⟩, flags.2.1⟩

private theorem written_inv (inv : Inv d chunks) (writing : d.commit = some (.writing batchCount edits)) (ok : Bool) :
    ∃ chunks', Inv (d.written ok batchCount edits) chunks' := by
  have committing := inv.committing
  rw [writing] at committing
  obtain ⟨batch, rest, rfl, isCompleted, rfl, rfl⟩ := committing
  have memlist := inv.row.memlist
  rw [flatMap_append] at memlist
  have flushes (chunk : Chunk) (member : chunk ∈ batch) := chunk.not_idle (isCompleted chunk member)
  have notRunning (job : FlushJob) : running job ∉ batch := fun member => by cases isCompleted _ member
  have take : d.list.memlist.take (batch.flatMap mems).length = batch.flatMap mems := by
    rw [memlist, take_left]
  have inProgress : d.list.commitInProgress = true := by rw [inv.commitInProgress, writing]; rfl
  cases ok with
  | true =>
    refine ⟨rest,
      { row := inv.row.remove flushes
        old := inv.old
        numbers := fun n member => inv.numbers n (by rw [filterMap_append]; exact mem_append_right _ member)
        jobs := fun job => (inv.jobs job).trans (by simp [notRunning job])
        finished := fun job edit member => inv.finished job edit (mem_append_right _ member)
        committing := trivial
        commitInProgress := inProgress
        order := ?_
        addedNodup := inv.addedNodup
        recorded := fun m left => ?_ }⟩
    · change d.added = (d.removed ++ d.list.memlist.take _) ++ d.list.memlist.drop _
      rw [append_assoc, take_append_drop, inv.order]
    · rcases mem_append.mp left with before | now
      · exact (inv.recorded m before).mono (List.Subset.refl _) (subset_append_left _ _) rfl
      · rw [take] at now
        obtain ⟨job, edit, isFinished, inJob, number, flush, inWrite⟩ :=
          recorded_of_batch (fun chunk member => inv.row.holds chunk (mem_append_left _ member)) isCompleted
            (fun job edit member => inv.finished job edit (mem_append_left _ member)) now
        exact ⟨job, edit, isFinished, inJob, number, flush, _, mem_append_right _ (mem_singleton_self _), inWrite⟩
  | false =>
    have restores := foldl_restoreFlags (s := d.list) (batch.flatMap mems)
      (nodup_append.mp (memlist ▸ inv.row.nodup)).1
    have row := inv.row.restore (a := []) flushes restores
    rw [nil_append] at row
    have memlist' : (d.list.removeMemTablesOrRestoreFlags false (batch.flatMap mems).length) =
        (batch.flatMap mems).foldl (fun s m => { s.restore m with immFlushNeeded := true }) d.list := by
      rw [removeMemTablesOrRestoreFlags, if_neg (by decide), take]
    refine ⟨_,
      { row := memlist' ▸ row
        old := inv.old
        numbers := fun n member => ?_
        jobs := fun job => (inv.jobs job).trans (by simp [notRunning job])
        finished := fun job edit member => inv.finished job edit (by simp_all)
        committing := trivial
        commitInProgress := ?_
        order := ?_
        addedNodup := inv.addedNodup
        recorded := fun m left => ?_ }⟩
    · rw [filterMap_append, Row.numbers_idle, nil_append] at member
      exact inv.numbers n (by rw [filterMap_append]; exact mem_append_right _ member)
    · exact (memlist' ▸ restores.commitInProgress).trans inProgress
    · exact inv.order.trans (congrArg _ (memlist' ▸ restores.memlist).symm)
    · refine (inv.recorded m left).mono (List.Subset.refl _) (List.Subset.refl _) ?_
      refine (congrFun (congrArg MemTableList.mem memlist') m).trans (restores.outside m fun inBatch => ?_)
      exact inv.not_listed left (memlist ▸ mem_append_left _ inBatch)

private theorem resume_inv (inv : Inv d chunks) (returned : d.commit = some (.returned ok)) :
    Inv (d.resume ok) chunks := by
  have inProgress : d.list.commitInProgress = true := by rw [inv.commitInProgress, returned]; rfl
  rw [resume]
  split
  · exact commitLoop_inv inv inProgress
  · exact inv.withCommit none trivial

/-- One step keeps the invariant. -/
theorem step_inv (inv : Inv d chunks) (stepped : d.step call = some d') : ∃ chunks', Inv d' chunks' := by
  cases call with
  | add id nextLogNumber =>
    cases stepped
    exact ⟨_, add_inv inv id nextLogNumber⟩
  | pick maxMemtableId =>
    cases stepped
    exact pick_inv inv maxMemtableId
  | rollback _ succeeding =>
    obtain ⟨job, found, rfl⟩ := Option.map_eq_some_iff.mp stepped
    exact rollback_inv inv (job?_eq_some found) succeeding
  | install _ emptyFile =>
    obtain ⟨job, found, rfl⟩ := Option.map_eq_some_iff.mp stepped
    exact install_inv inv (job?_eq_some found) emptyFile
  | written ok =>
    rw [step] at stepped
    split at stepped
    · next writing =>
      cases stepped
      exact written_inv inv writing ok
    · cases stepped
  | refused =>
    rw [step] at stepped
    split at stepped
    · next writing =>
      cases stepped
      have inProgress : d.list.commitInProgress = true := by rw [inv.commitInProgress, writing]; rfl
      exact ⟨chunks, { inv with committing := trivial, commitInProgress := inProgress }⟩
    · cases stepped
  | resume =>
    rw [step] at stepped
    split at stepped
    · next returned =>
      cases stepped
      exact ⟨chunks, resume_inv inv returned⟩
    · cases stepped

private theorem run_inv (calls : List Call) (inv : Inv d chunks) (ran : d.run calls = some d') :
    ∃ chunks', Inv d' chunks' := by
  induction calls generalizing d chunks with
  | nil =>
    cases ran
    exact ⟨chunks, inv⟩
  | cons _ _ ih =>
    obtain ⟨next, stepped, ran⟩ := Option.bind_eq_some_iff.mp ran
    obtain ⟨_, inv'⟩ := step_inv inv stepped
    exact ih inv' ran

/-- What the bookkeeping of flushes promises. -/
structure Consistent (d : Db) : Prop where
  /-- The count is that of the listed memtables that are not being flushed. -/
  notStarted : d.list.numFlushNotStarted = d.list.memlist.countP fun m => !(d.list.mem m).flushInProgress
  /-- What would be picked now is a run of memtables that are not being flushed. -/
  picks : ∀ maxMemtableId, (d.list.pickMemtablesToFlush maxMemtableId).1 <:+: d.list.memlist ∧
    ∀ m ∈ (d.list.pickMemtablesToFlush maxMemtableId).1, (d.list.mem m).flushInProgress = false
  /-- The memtables of every flush that is out still follow each other. -/
  jobs : ∀ job ∈ d.jobs, job.mems <:+: d.list.memlist
  /-- Memtables leave in the order in which they came. -/
  order : d.added = d.removed ++ d.list.memlist
  /-- Each left after a write of the manifest with the edit of the flush that wrote it. -/
  recorded : ∀ m ∈ d.removed, Recorded d m

theorem Inv.consistent (inv : Inv d chunks) : Consistent d where
  notStarted := by rw [inv.row.count, inv.row.countP_notInProgress]
  picks maxMemtableId := by
    obtain ⟨front, tail, split, -, idle, -⟩ := pickMemtablesToFlush_spec d.list maxMemtableId inv.row.nodup
    exact ⟨⟨front, tail, split.symm⟩, idle⟩
  jobs job out := by
    obtain ⟨a, c, rfl⟩ := inv.around out
    refine ⟨a.flatMap mems, c.flatMap mems, ?_⟩
    rw [inv.row.memlist]
    simp [mems]
  order := inv.order
  recorded := inv.recorded

/-- **The bookkeeping of flushes is consistent** after every run of additions, picks, rollbacks and installations, with
any number of flushes out and whatever becomes of the writes of the manifest. -/
theorem flush_bookkeeping_is_consistent (calls : List Call) (d : Db) (ran : new.run calls = some d) : Consistent d := by
  obtain ⟨_, inv⟩ := run_inv calls new_inv ran
  exact inv.consistent

/-- Two flushes are out; the newer one is completed first, the commit of both fails, and both are flushed again. -/
def flushTwice : List Call :=
  [.add 1 10, .add 2 11, .pick 1, .pick 2, .install 2 false, .install 1 false, .written false, .resume, .pick 2,
    .install 3 false, .written true, .resume]

theorem flush_bookkeeping_of_flushTwice : ∃ d, new.run flushTwice = some d ∧ d.removed = [0, 1] ∧ Consistent d := by
  have ran : ((new.run flushTwice).map fun d => d.removed) = some [0, 1] := by decide +kernel
  obtain ⟨d, result, removed⟩ := Option.map_eq_some_iff.mp ran
  exact ⟨d, result, removed, flush_bookkeeping_is_consistent flushTwice d result⟩

end Db

end Rocksdb.MemTableLists
