import Mathlib.Data.List.Infix

/-! The list of immutable memtables (`db/memtable_list.cc`) and what flush jobs do with
it (`db/flush_job.cc`). Memtables are addresses in a memory; the list is kept oldest
first, which is the order in which the source walks it from its back. Flushes are not
atomic over column families and memtables are not purged in memory. The mutex is held
during every step; a job that writes the manifest gives it up, so that a commit takes
several steps. -/
namespace Rocksdb.MemTableLists

/-- The edit of a flush: which flush it is, by the number of its file, and what it records. -/
structure VersionEdit where
  flush : Nat
  logNumber : Nat
  newFile : Option Nat
  deriving DecidableEq, Repr

/-- The fields of `MemTable` that flushes use. -/
structure MemTable where
  id : Nat
  nextLogNumber : Nat
  /-- `atomic_flush_seqno_` is set. -/
  atomicFlush : Bool
  flushInProgress : Bool
  flushCompleted : Bool
  fileNumber : Nat
  edit : Option VersionEdit

/-- `MemTableList`. -/
structure MemTableList where
  mem : Nat → MemTable
  memlist : List Nat
  numFlushNotStarted : Int
  commitInProgress : Bool
  flushRequested : Bool
  immFlushNeeded : Bool

namespace MemTableList

variable (s : MemTableList)

def modify (m : Nat) (f : MemTable → MemTable) : MemTableList :=
  { s with mem := Function.update s.mem m (f (s.mem m)) }

/-- `Add`. -/
def add (m : Nat) : MemTableList :=
  { s with
    memlist := s.memlist ++ [m]
    numFlushNotStarted := s.numFlushNotStarted + 1
    immFlushNeeded := if s.numFlushNotStarted + 1 = 1 then true else s.immFlushNeeded }

/-- The variables of `PickMemtablesToFlush`. -/
structure Picking where
  list : MemTableList
  ret : List Nat
  maxNextLogNumber : Nat
  atomicFlush : Bool

/-- A memtable is picked. -/
def Picking.take (st : Picking) (m : Nat) : Picking :=
  let numFlushNotStarted := st.list.numFlushNotStarted - 1
  { st with
    list := { st.list.modify m ({ · with flushInProgress := true }) with
      numFlushNotStarted
      immFlushNeeded := if numFlushNotStarted = 0 then false else st.list.immFlushNeeded }
    ret := st.ret ++ [m]
    maxNextLogNumber := max (st.list.mem m).nextLogNumber st.maxNextLogNumber }

/-- The loop of `PickMemtablesToFlush`. -/
def pickLoop (maxMemtableId : Nat) : List Nat → Picking → Picking
  | [], st => st
  | m :: rest, st =>
    let st := { st with atomicFlush := st.atomicFlush || (st.list.mem m).atomicFlush }
    if maxMemtableId < (st.list.mem m).id then st
    else if !(st.list.mem m).flushInProgress then pickLoop maxMemtableId rest (st.take m)
    else if !st.ret.isEmpty then st
    else pickLoop maxMemtableId rest st

/-- `PickMemtablesToFlush`: the memtables, and the largest of their next log numbers. -/
def pickMemtablesToFlush (maxMemtableId : Nat) : List Nat × Nat × MemTableList :=
  let st := pickLoop maxMemtableId s.memlist ⟨s, [], 0, false⟩
  (st.ret, st.maxNextLogNumber,
    if !st.atomicFlush || st.list.numFlushNotStarted = 0 then { st.list with flushRequested := false } else st.list)

/-- A memtable can be flushed again. -/
def restore (m : Nat) : MemTableList :=
  { s.modify m ({ · with flushInProgress := false, flushCompleted := false, edit := none, fileNumber := 0 }) with
    numFlushNotStarted := s.numFlushNotStarted + 1 }

/-- The loop of `RollbackMemtableFlush` over the memtables behind the first one that is rolled back. -/
def rollbackSucceeding : List Nat → MemTableList → MemTableList
  | [], s => s
  | m :: rest, s => if (s.mem m).flushCompleted then rollbackSucceeding rest (s.restore m) else s

/-- The first part of `RollbackMemtableFlush`. -/
def rollbackBehind (rollbackSucceedingMemtables : Bool) : List Nat → MemTableList
  | [] => s
  | first :: _ =>
    if rollbackSucceedingMemtables then rollbackSucceeding (s.memlist.dropWhile (· ≠ first)).tail s else s

/-- `RollbackMemtableFlush`. -/
def rollbackMemtableFlush (mems : List Nat) (rollbackSucceedingMemtables : Bool) : MemTableList :=
  let s := mems.foldl (fun s m => if (s.mem m).flushInProgress then s.restore m else s)
    (s.rollbackBehind rollbackSucceedingMemtables mems)
  if mems.isEmpty then s else { s with immFlushNeeded := true }

/-- The walk of `TryInstallMemtableFlushResults` over the completed memtables at the old end: how many there are, and
those whose edits are written, which are the first ones of each file number. -/
def batch (mem : Nat → MemTable) : List Nat → Option Nat → Nat × List Nat
  | [], _ => (0, [])
  | m :: rest, batchFileNumber =>
    if !(mem m).flushCompleted then (0, [])
    else
      let tail := batch mem rest (some (mem m).fileNumber)
      (tail.1 + 1, if batchFileNumber = some (mem m).fileNumber then tail.2 else m :: tail.2)

/-- What `TryInstallMemtableFlushResults` records first. -/
def markCompleted (mems : List Nat) (fileNumber : Nat) : MemTableList :=
  mems.foldl (fun s m => s.modify m ({ · with flushCompleted := true, fileNumber })) s

/-- `RemoveMemTablesOrRestoreFlags` of a column family that is not dropped. -/
def removeMemTablesOrRestoreFlags (ok : Bool) (batchCount : Nat) : MemTableList :=
  if ok then { s with memlist := s.memlist.drop batchCount }
  else (s.memlist.take batchCount).foldl (fun s m => { s.restore m with immFlushNeeded := true }) s

end MemTableList

/-! ## Flush jobs -/

/-- A `FlushJob` that has memtables to flush, and the number of its file. -/
structure FlushJob where
  mems : List Nat
  nonempty : mems ≠ []
  fileNumber : Nat

namespace FlushJob

/-- The memtable that keeps the edit of the flush. -/
def first (job : FlushJob) : Nat := job.mems.head job.nonempty

end FlushJob

/-- Where the job that commits stands: it waits for its write of the manifest, or the write is over. -/
inductive Commit where
  | writing (batchCount : Nat) (edits : List Nat)
  | returned (ok : Bool)

/-- The list with the jobs that are out, the commit that is under way, and what has been done. -/
structure Db where
  list : MemTableList
  allocated : Nat
  nextFileNumber : Nat
  jobs : List FlushJob
  commit : Option Commit
  /-- The edits of each successful write of the manifest. -/
  manifest : List (List VersionEdit)
  added : List Nat
  removed : List Nat
  /-- The flushes that were successful, with their edits. -/
  finished : List (FlushJob × VersionEdit)

namespace Db

def new : Db where
  list := ⟨fun _ => ⟨0, 0, false, false, false, 0, none⟩, [], 0, false, false, false⟩
  allocated := 0
  nextFileNumber := 1
  jobs := []
  commit := none
  manifest := []
  added := []
  removed := []
  finished := []

/-- A memtable becomes immutable. -/
def add (d : Db) (id nextLogNumber : Nat) : Db :=
  let list := d.list.modify d.allocated fun _ => ⟨id, nextLogNumber, false, false, false, 0, none⟩
  { d with list := list.add d.allocated, allocated := d.allocated + 1, added := d.added ++ [d.allocated] }

/-- `FlushJob::PickMemTable`. The edit is kept in the first memtable. -/
def pick (d : Db) (maxMemtableId : Nat) : Db :=
  let (mems, maxNextLogNumber, list) := d.list.pickMemtablesToFlush maxMemtableId
  if nonempty : mems ≠ [] then
    let job : FlushJob := ⟨mems, nonempty, d.nextFileNumber⟩
    { d with
      list := list.modify job.first ({ · with edit := some ⟨job.fileNumber, maxNextLogNumber, none⟩ })
      nextFileNumber := d.nextFileNumber + 1
      jobs := job :: d.jobs }
  else { d with list }

def job? (d : Db) (fileNumber : Nat) : Option FlushJob := d.jobs.find? (·.fileNumber = fileNumber)

/-- The job is over. -/
def drop (d : Db) (job : FlushJob) : Db := { d with jobs := d.jobs.filter (·.fileNumber ≠ job.fileNumber) }

/-- A flush fails. -/
def rollback (d : Db) (job : FlushJob) (rollbackSucceedingMemtables : Bool) : Db :=
  { d.drop job with list := d.list.rollbackMemtableFlush job.mems rollbackSucceedingMemtables }

/-- The head of the loop of `TryInstallMemtableFlushResults`. The oldest memtable is completed when the walk starts, so
that the batch is not empty. -/
def commitLoop (d : Db) : Db :=
  match d.list.memlist with
  | [] => { d with list := { d.list with commitInProgress := false }, commit := none }
  | oldest :: _ =>
    if !(d.list.mem oldest).flushCompleted then
      { d with list := { d.list with commitInProgress := false }, commit := none }
    else
      let (batchCount, edits) := MemTableList.batch d.list.mem d.list.memlist none
      { d with commit := some (.writing batchCount edits) }

/-- A flush is successful: its file, unless it is empty, goes to the edit, and `TryInstallMemtableFlushResults` runs
until it returns or writes the manifest. -/
def install (d : Db) (job : FlushJob) (emptyFile : Bool) : Db :=
  let edit :=
    { (d.list.mem job.first).edit.getD ⟨job.fileNumber, 0, none⟩ with
      newFile := if emptyFile then none else some job.fileNumber }
  let list := (d.list.modify job.first ({ · with edit := some edit })).markCompleted job.mems job.fileNumber
  let d := { d.drop job with list, finished := (job, edit) :: d.finished }
  if list.commitInProgress then d else commitLoop { d with list := { list with commitInProgress := true } }

/-- The manifest is written, or fails to be, and the callback of the write runs. -/
def written (d : Db) (ok : Bool) (batchCount : Nat) (edits : List Nat) : Db :=
  { d with
    list := d.list.removeMemTablesOrRestoreFlags ok batchCount
    manifest := if ok then d.manifest ++ [edits.filterMap fun m => (d.list.mem m).edit] else d.manifest
    removed := if ok then d.removed ++ d.list.memlist.take batchCount else d.removed
    commit := some (.returned ok) }

/-- The job that commits has the mutex again. -/
def resume (d : Db) (ok : Bool) : Db :=
  if ok then d.commitLoop else { d with list := { d.list with commitInProgress := false }, commit := none }

/-- The steps of the system. -/
inductive Call where
  | add (id nextLogNumber : Nat)
  | pick (maxMemtableId : Nat)
  | rollback (fileNumber : Nat) (rollbackSucceedingMemtables : Bool)
  | install (fileNumber : Nat) (emptyFile : Bool)
  | written (ok : Bool)
  /-- `LogAndApply` fails before it writes; its callback does not run. -/
  | refused
  | resume
  deriving DecidableEq, Repr

/-- One step, if it is possible. -/
def step (d : Db) : Call → Option Db
  | .add id nextLogNumber => some (d.add id nextLogNumber)
  | .pick maxMemtableId => some (d.pick maxMemtableId)
  | .rollback fileNumber succeeding => (d.job? fileNumber).map (d.rollback · succeeding)
  | .install fileNumber emptyFile => (d.job? fileNumber).map (d.install · emptyFile)
  | .written ok =>
    match d.commit with
    | some (.writing batchCount edits) => some (d.written ok batchCount edits)
    | _ => none
  | .refused =>
    match d.commit with
    | some (.writing _ _) => some { d with commit := some (.returned false) }
    | _ => none
  | .resume =>
    match d.commit with
    | some (.returned ok) => some (d.resume ok)
    | _ => none

/-- A run of steps. -/
def run : Db → List Call → Option Db
  | d, [] => some d
  | d, call :: calls => (d.step call).bind (run · calls)

end Db

end Rocksdb.MemTableLists
