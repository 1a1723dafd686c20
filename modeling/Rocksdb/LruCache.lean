import Mathlib.Algebra.GroupWithZero.Nat
import Mathlib.Data.Finset.Basic

/-! A shard of the LRU cache (`cache/lru_cache.h`, `cache/lru_cache.cc`). Handles are
addresses in a memory; the hash table is a map from keys to handles. The LRU list is
the list of its handles from the oldest to the newest, and a pointer to its dummy head
is `none`. Every operation runs under the mutex of the shard. Values, deleters and
eviction callbacks are left out. -/
namespace Rocksdb.LruCache

/-- What the cache does with floating point numbers. A pool without entries never
exceeds its capacity, since ratios are not negative. -/
structure Doubles (δ : Type) where
  /-- `ratio > 0` -/
  positive : δ → Bool
  /-- `capacity * ratio` -/
  mul : Nat → δ → δ
  /-- `usage > capacity` -/
  exceeds : Nat → δ → Bool
  exceeds_zero : ∀ capacity ratio, exceeds 0 (mul capacity ratio) = false

/-- `Cache::Priority`. -/
inductive Priority where
  | high
  | low
  | bottom
  deriving DecidableEq, Repr

/-- The statuses of an insertion. -/
inductive Status where
  | ok
  | okOverwritten
  | memoryLimit (message : String)
  deriving DecidableEq, Repr

/-- `LRUHandle`. -/
structure LRUHandle (κ : Type) where
  key : κ
  totalCharge : Nat
  refs : Nat
  inCache : Bool
  hasHit : Bool
  inHighPriPool : Bool
  inLowPriPool : Bool
  isHighPri : Bool
  isLowPri : Bool
  isStandalone : Bool

namespace LRUHandle
variable {κ : Type}

def hasRefs (h : LRUHandle κ) : Bool := 0 < h.refs

/-- `Ref`; references are counted in 32 bits. -/
def ref (h : LRUHandle κ) : LRUHandle κ := { h with refs := (h.refs + 1) % 2 ^ 32 }

/-- `Unref`, without the test for the last reference. -/
def unref (h : LRUHandle κ) : LRUHandle κ := { h with refs := h.refs - 1 }

def setPools (h : LRUHandle κ) (inHighPriPool inLowPriPool : Bool) : LRUHandle κ :=
  { h with inHighPriPool, inLowPriPool }

end LRUHandle

/-- Addition and subtraction of `size_t`. -/
def add64 (a b : Nat) : Nat := (a + b) % 2 ^ 64
def sub64 (a b : Nat) : Nat := (a + 2 ^ 64 - b) % 2 ^ 64

/-! ## The list -/

/-- The successor of a handle, or of the dummy head. -/
def nextOf (list : List Nat) : Option Nat → Option Nat
  | none => list.head?
  | some e => (list.dropWhile (· ≠ e)).tail.head?

/-- The predecessor of a handle. -/
def prevOf (list : List Nat) (e : Nat) : Option Nat := (list.takeWhile (· ≠ e)).getLast?

/-- The list with a handle behind another one, or in front. -/
def insertAfter (list : List Nat) (e : Nat) : Option Nat → List Nat
  | none => e :: list
  | some p => list.takeWhile (· ≠ p) ++ p :: e :: (list.dropWhile (· ≠ p)).tail

/-! ## The shard -/

/-- `LRUCacheShard`, with the memory of its handles and those of them that were given to
the table or to a caller and not freed. -/
structure LRUCacheShard (κ δ : Type) where
  fresh : Nat
  live : Finset Nat
  mem : Nat → LRUHandle κ
  table : κ → Option Nat
  lru : List Nat
  lruLowPri : Option Nat
  lruBottomPri : Option Nat
  capacity : Nat
  strictCapacityLimit : Bool
  highPriPoolRatio : δ
  highPriPoolCapacity : δ
  highPriPoolUsage : Nat
  lowPriPoolRatio : δ
  lowPriPoolCapacity : δ
  lowPriPoolUsage : Nat
  usage : Nat
  lruUsage : Nat

namespace LRUCacheShard
variable {κ δ : Type} [DecidableEq κ]

/-- One handle is changed. -/
def modify (s : LRUCacheShard κ δ) (e : Nat) (f : LRUHandle κ → LRUHandle κ) : LRUCacheShard κ δ :=
  { s with mem := Function.update s.mem e (f (s.mem e)) }

/-- `Free`. -/
def free (s : LRUCacheShard κ δ) (e : Nat) : LRUCacheShard κ δ := { s with live := s.live.erase e }

def tableRemove (s : LRUCacheShard κ δ) (key : κ) : LRUCacheShard κ δ :=
  { s with table := Function.update s.table key none }

/-- `LRU_Remove`. -/
def lruRemove (s : LRUCacheShard κ δ) (e : Nat) : LRUCacheShard κ δ :=
  let h := s.mem e
  { s with
    lruLowPri := if s.lruLowPri = some e then prevOf s.lru e else s.lruLowPri
    lruBottomPri := if s.lruBottomPri = some e then prevOf s.lru e else s.lruBottomPri
    lru := s.lru.erase e
    lruUsage := sub64 s.lruUsage h.totalCharge
    highPriPoolUsage := if h.inHighPriPool then sub64 s.highPriPoolUsage h.totalCharge else s.highPriPoolUsage
    lowPriPoolUsage :=
      if !h.inHighPriPool && h.inLowPriPool then sub64 s.lowPriPoolUsage h.totalCharge else s.lowPriPoolUsage }

section Doubles
variable (doubles : Doubles δ) (s : LRUCacheShard κ δ)

/-- The first loop of `MaintainPoolSize`. It ends at the latest when the high priority
pool is empty, which takes as many rounds as it has entries. -/
def overflowHigh : Nat → LRUCacheShard κ δ → LRUCacheShard κ δ
  | 0, s => s
  | rounds + 1, s =>
    if doubles.exceeds s.highPriPoolUsage s.highPriPoolCapacity then
      match nextOf s.lru s.lruLowPri with
      | none => s
      | some e =>
        let charge := (s.mem e).totalCharge
        overflowHigh rounds { s.modify e (·.setPools false true) with
          lruLowPri := some e
          highPriPoolUsage := sub64 s.highPriPoolUsage charge
          lowPriPoolUsage := add64 s.lowPriPoolUsage charge }
    else s

/-- The second loop of `MaintainPoolSize`. -/
def overflowLow : Nat → LRUCacheShard κ δ → LRUCacheShard κ δ
  | 0, s => s
  | rounds + 1, s =>
    if doubles.exceeds s.lowPriPoolUsage s.lowPriPoolCapacity then
      match nextOf s.lru s.lruBottomPri with
      | none => s
      | some e =>
        overflowLow rounds { s.modify e (·.setPools false false) with
          lruBottomPri := some e
          lowPriPoolUsage := sub64 s.lowPriPoolUsage (s.mem e).totalCharge }
    else s

/-- `MaintainPoolSize`. -/
def maintainPoolSize : LRUCacheShard κ δ :=
  overflowLow doubles s.lru.length (overflowHigh doubles s.lru.length s)

/-- `LRU_Insert`. -/
def lruInsert (e : Nat) : LRUCacheShard κ δ :=
  let h := s.mem e
  let s :=
    if doubles.positive s.highPriPoolRatio && (h.isHighPri || h.hasHit) then
      maintainPoolSize doubles { s.modify e (·.setPools true false) with
        lru := s.lru ++ [e]
        highPriPoolUsage := add64 s.highPriPoolUsage h.totalCharge }
    else if doubles.positive s.lowPriPoolRatio && (h.isHighPri || h.isLowPri || h.hasHit) then
      maintainPoolSize doubles { s.modify e (·.setPools false true) with
        lru := insertAfter s.lru e s.lruLowPri
        lowPriPoolUsage := add64 s.lowPriPoolUsage h.totalCharge
        lruLowPri := some e }
    else
      { s.modify e (·.setPools false false) with
        lru := insertAfter s.lru e s.lruBottomPri
        lruLowPri := if s.lruBottomPri = s.lruLowPri then some e else s.lruLowPri
        lruBottomPri := some e }
  { s with lruUsage := add64 s.lruUsage h.totalCharge }

/-- An entry of the LRU list leaves the cache and is freed. -/
def evict (old : Nat) : LRUCacheShard κ δ :=
  let h := s.mem old
  let s := ((s.lruRemove old).tableRemove h.key).modify old ({ · with inCache := false })
  { s with usage := sub64 s.usage h.totalCharge }.free old

/-- The loop of `EvictFromLRU`, which takes at most as many rounds as the list is long. -/
def evictLoop (charge : Nat) : Nat → LRUCacheShard κ δ → LRUCacheShard κ δ
  | 0, s => s
  | rounds + 1, s =>
    if s.capacity < add64 s.usage charge then
      match s.lru with
      | [] => s
      | old :: _ => evictLoop charge rounds (s.evict old)
    else s

/-- `EvictFromLRU`. What it evicts is freed later, outside of the mutex. -/
def evictFromLRU (charge : Nat) : LRUCacheShard κ δ := evictLoop charge s.lru.length s

/-- The loop of `EraseUnRefEntries`. -/
def eraseUnRefLoop : Nat → LRUCacheShard κ δ → LRUCacheShard κ δ
  | 0, s => s
  | rounds + 1, s =>
    match s.lru with
    | [] => s
    | old :: _ => eraseUnRefLoop rounds (s.evict old)

/-- `EraseUnRefEntries`. -/
def eraseUnRefEntries : LRUCacheShard κ δ := eraseUnRefLoop s.lru.length s

/-- `SetCapacity`. -/
def setCapacity (capacity : Nat) : LRUCacheShard κ δ :=
  { s with
    capacity
    highPriPoolCapacity := doubles.mul capacity s.highPriPoolRatio
    lowPriPoolCapacity := doubles.mul capacity s.lowPriPoolRatio }.evictFromLRU 0

/-- `LRUCacheShard::LRUCacheShard`. -/
def new [Inhabited κ] (capacity : Nat) (strictCapacityLimit : Bool) (highPriPoolRatio lowPriPoolRatio : δ) :
    LRUCacheShard κ δ :=
  setCapacity doubles
    { fresh := 0, live := ∅, mem := fun _ => ⟨default, 0, 0, false, false, false, false, false, false, false⟩
      table := fun _ => none, lru := [], lruLowPri := none, lruBottomPri := none, capacity := 0, strictCapacityLimit
      highPriPoolRatio, highPriPoolCapacity := doubles.mul 0 highPriPoolRatio, highPriPoolUsage := 0, lowPriPoolRatio
      lowPriPoolCapacity := doubles.mul 0 lowPriPoolRatio, lowPriPoolUsage := 0, usage := 0, lruUsage := 0 }
    capacity

/-- `SetHighPriorityPoolRatio`. -/
def setHighPriorityPoolRatio (ratio : δ) : LRUCacheShard κ δ :=
  maintainPoolSize doubles { s with highPriPoolRatio := ratio, highPriPoolCapacity := doubles.mul s.capacity ratio }

/-- `SetLowPriorityPoolRatio`. -/
def setLowPriorityPoolRatio (ratio : δ) : LRUCacheShard κ δ :=
  maintainPoolSize doubles { s with lowPriPoolRatio := ratio, lowPriPoolCapacity := doubles.mul s.capacity ratio }

/-- `SetStrictCapacityLimit`. -/
def setStrictCapacityLimit (strict : Bool) : LRUCacheShard κ δ :=
  { s with strictCapacityLimit := strict }

/-- `CreateHandle`; the charge includes that of the metadata. -/
def createHandle (h : LRUHandle κ) : Nat × LRUCacheShard κ δ :=
  (s.fresh, { s with fresh := s.fresh + 1, mem := Function.update s.mem s.fresh h })

/-- The entry of the same key, if any, leaves the table. It is freed unless it is referenced. -/
def replaceOld : Option Nat → LRUCacheShard κ δ
  | none => s
  | some old =>
    let h := s.mem old
    let s := s.modify old ({ · with inCache := false })
    if h.hasRefs then s
    else
      let s := s.lruRemove old
      { s with usage := sub64 s.usage h.totalCharge }.free old

/-- `InsertItem`, with the handle that is returned if the caller wants it. -/
def insertItem (e : Nat) (wantsHandle : Bool) : Status × Option Nat × LRUCacheShard κ δ :=
  let charge := (s.mem e).totalCharge
  let s := s.evictFromLRU charge
  if s.capacity < add64 s.usage charge ∧ (s.strictCapacityLimit ∨ !wantsHandle) then
    (if wantsHandle then .memoryLimit "Insert failed due to LRU cache being full." else .ok, none,
      s.modify e ({ · with inCache := false }))
  else
    let key := (s.mem e).key
    let old := s.table key
    let s :=
      { s with
        table := Function.update s.table key (some e)
        usage := add64 s.usage charge
        live := Insert.insert e s.live }.replaceOld old
    let status := if old.isSome then .okOverwritten else .ok
    if wantsHandle then (status, some e, if (s.mem e).hasRefs then s else s.modify e (·.ref))
    else (status, none, s.lruInsert doubles e)

/-- `Insert`. -/
def insert (key : κ) (charge : Nat) (wantsHandle : Bool) (priority : Priority) :
    Status × Option Nat × LRUCacheShard κ δ :=
  let (e, s) := s.createHandle ⟨key, charge, 0, true, false, false, false, priority = .high, priority = .low, false⟩
  s.insertItem doubles e wantsHandle

/-- `CreateStandalone`. -/
def createStandalone (key : κ) (charge : Nat) (allowUncharged : Bool) :
    Option Nat × LRUCacheShard κ δ :=
  let (e, s) := s.createHandle ⟨key, charge, 1, false, false, false, false, false, false, true⟩
  let s := s.evictFromLRU charge
  if s.strictCapacityLimit ∧ s.capacity < add64 s.usage charge then
    if allowUncharged then
      (some e, { s.modify e ({ · with totalCharge := 0 }) with live := Insert.insert e s.live })
    else (none, s)
  else (some e, { s with usage := add64 s.usage charge, live := Insert.insert e s.live })

/-- `Lookup`. -/
def lookup (key : κ) : Option Nat × LRUCacheShard κ δ :=
  match s.table key with
  | none => (none, s)
  | some e =>
    let s := if (s.mem e).hasRefs then s else s.lruRemove e
    (some e, s.modify e fun h => { h.ref with hasHit := true })

/-- `Ref`. -/
def ref (e : Nat) : LRUCacheShard κ δ := s.modify e (·.ref)

/-- `Release`: whether the entry was freed. -/
def release (e : Nat) (eraseIfLastRef : Bool) : Bool × LRUCacheShard κ δ :=
  let s := s.modify e (·.unref)
  let h := s.mem e
  let freed (s : LRUCacheShard κ δ) := { s with usage := sub64 s.usage h.totalCharge }.free e
  if h.hasRefs then (false, s)
  else if h.inCache then
    if s.capacity < s.usage ∨ eraseIfLastRef then
      (true, freed ((s.tableRemove h.key).modify e ({ · with inCache := false })))
    else (false, s.lruInsert doubles e)
  else (true, freed s)

/-- `Erase`. -/
def erase (key : κ) : LRUCacheShard κ δ :=
  let old := s.table key
  (s.tableRemove key).replaceOld old

/-! ## Runs -/

/-- The calls of a shard. -/
inductive Call (κ δ : Type) where
  | insert (key : κ) (charge : Nat) (wantsHandle : Bool) (priority : Priority)
  | createStandalone (key : κ) (charge : Nat) (allowUncharged : Bool)
  | lookup (key : κ)
  | ref (e : Nat)
  | release (e : Nat) (eraseIfLastRef : Bool)
  | erase (key : κ)
  | eraseUnRefEntries
  | setCapacity (capacity : Nat)
  | setHighPriorityPoolRatio (ratio : δ)
  | setLowPriorityPoolRatio (ratio : δ)
  | setStrictCapacityLimit (strict : Bool)

/-- One call. -/
def step : Call κ δ → LRUCacheShard κ δ
  | .insert key charge wantsHandle priority => (s.insert doubles key charge wantsHandle priority).2.2
  | .createStandalone key charge allowUncharged => (s.createStandalone key charge allowUncharged).2
  | .lookup key => (s.lookup key).2
  | .ref e => s.ref e
  | .release e eraseIfLastRef => (s.release doubles e eraseIfLastRef).2
  | .erase key => s.erase key
  | .eraseUnRefEntries => s.eraseUnRefEntries
  | .setCapacity capacity => s.setCapacity doubles capacity
  | .setHighPriorityPoolRatio ratio => s.setHighPriorityPoolRatio doubles ratio
  | .setLowPriorityPoolRatio ratio => s.setLowPriorityPoolRatio doubles ratio
  | .setStrictCapacityLimit strict => s.setStrictCapacityLimit strict

/-- References are taken and given back by those who hold one. -/
def Legal : Call κ δ → Prop
  | .ref e | .release e _ => e ∈ s.live ∧ 0 < (s.mem e).refs
  | _ => True

end Doubles

end LRUCacheShard

end Rocksdb.LruCache
