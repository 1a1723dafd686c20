import Rocksdb.Coding

/-! Data blocks of tables: how they are built (`table/block_based/block_builder.cc`,
`data_block_hash_index.cc`, `data_block_footer.cc`). Keys share a prefix with the
key before them, except at restart points. -/
namespace Rocksdb.Blocks
open Coding Lib Lib.LittleEndian

/-- `PutFixed32`. -/
def putFixed32 (v : Nat) : Bytes := LittleEndian.encode 4 v

/-- `Slice::difference_offset`: where two strings begin to differ. -/
def differenceOffset : Bytes → Bytes → Nat
  | a :: as, b :: bs => if a = b then differenceOffset as bs + 1 else 0
  | _, _ => 0

/-- What a builder is made with. Timestamps are not stripped. -/
structure Options where
  blockRestartInterval : Nat
  useDeltaEncoding : Bool
  useValueDeltaEncoding : Bool := false
  /-- `kDataBlockBinaryAndHash`. -/
  hashIndex : Bool := false
  /-- The integer part of `estimated_num_buckets_`, which is a floating point number, after so many keys. -/
  estimatedNumBuckets : Nat → Nat := fun keys => keys * 4 / 3
  getSliceHash : Bytes → Nat := fun _ => 0

/-! ## Hash index -/

def kNoEntry : Nat := 255

def kCollision : Nat := 254

def kMaxRestartSupportedByHashIndex : Nat := 253

def kMaxBlockSizeSupportedByHashIndex : Nat := 1 <<< 16

structure DataBlockHashIndexBuilder where
  valid : Bool
  hashAndRestartPairs : List (Nat × Nat) := []

namespace DataBlockHashIndexBuilder
variable (options : Options) (hash : DataBlockHashIndexBuilder)

def add (key : Bytes) (restartIndex : Nat) : DataBlockHashIndexBuilder :=
  if restartIndex > kMaxRestartSupportedByHashIndex then { hash with valid := false }
  else { hash with hashAndRestartPairs := hash.hashAndRestartPairs ++ [(options.getSliceHash key, restartIndex)] }

def estimatedNumBuckets : Nat :=
  options.estimatedNumBuckets hash.hashAndRestartPairs.length % 2 ^ 16

def estimateSize : Nat := 2 + (hash.estimatedNumBuckets options ||| 1)

def numBuckets : Nat :=
  let numBuckets := hash.estimatedNumBuckets options
  let numBuckets := if numBuckets = 0 then 1 else numBuckets
  numBuckets ||| 1

/-- One entry of `hash_and_restart_pairs_` goes to its bucket. -/
def fill (buckets : List Nat) (entry : Nat × Nat) : List Nat :=
  let index := entry.1 % buckets.length % 2 ^ 16
  let old := buckets.getD index 0
  if old = kNoEntry then buckets.set index entry.2
  else if old ≠ entry.2 then buckets.set index kCollision
  else buckets

/-- What `Finish` appends to the block. -/
def finish : Bytes :=
  let numBuckets := hash.numBuckets options
  let buckets := hash.hashAndRestartPairs.foldl fill (List.replicate numBuckets kNoEntry)
  buckets.map UInt8.ofNat ++ LittleEndian.encode 2 numBuckets

end DataBlockHashIndexBuilder

/-! ## Blocks -/

structure BlockBuilder where
  buffer : Bytes
  restarts : List Nat
  estimate : Nat
  counter : Nat
  lastKey : Bytes
  hash : DataBlockHashIndexBuilder

namespace BlockBuilder

/-- `ExtractUserKey`. -/
def extractUserKey (key : Bytes) : Bytes := key.take (key.length - 8)

variable (options : Options) (b : BlockBuilder)

/-- `BlockBuilder::BlockBuilder`. -/
def new : BlockBuilder :=
  { buffer := [], restarts := [0], estimate := 4 + 4, counter := 0, lastKey := []
    hash := { valid := options.hashIndex } }

/-- `Reset`. A hash index that was disabled is left as it is. -/
def reset : BlockBuilder :=
  { buffer := [], restarts := b.restarts.take 1, estimate := 4 + 4, counter := 0, lastKey := []
    hash := if b.hash.valid then { valid := true } else b.hash }

def currentSizeEstimate : Nat :=
  b.estimate + if b.hash.valid then b.hash.estimateSize options else 0

/-- A new restart point, if the last one is far enough behind, and the bytes shared with the key before. -/
def maybeRestart (key lastKey : Bytes) (bufferSize : Nat) : BlockBuilder × Nat :=
  if b.counter ≥ options.blockRestartInterval then
    ({ b with restarts := b.restarts ++ [bufferSize % 2 ^ 32], estimate := b.estimate + 4, counter := 0 }, 0)
  else (b, if options.useDeltaEncoding then differenceOffset key lastKey else 0)

/-- What is appended to the buffer for an entry. -/
def entryBytes (key value : Bytes) (deltaValue : Option Bytes) (shared : Nat) : Bytes :=
  let nonShared := key.length - shared
  (if options.useValueDeltaEncoding then putVarint32 (shared % 2 ^ 32) ++ putVarint32 (nonShared % 2 ^ 32)
    else putVarint32 (shared % 2 ^ 32) ++ (putVarint32 (nonShared % 2 ^ 32) ++ putVarint32 (value.length % 2 ^ 32))) ++
  (key.drop shared ++ if shared ≠ 0 ∧ options.useValueDeltaEncoding then deltaValue.getD [] else value)

def addWithLastKeyImpl (key value lastKey : Bytes) (deltaValue : Option Bytes)
    (bufferSize : Nat) : BlockBuilder :=
  let (b, shared) := b.maybeRestart options key lastKey bufferSize
  let buffer := b.buffer ++ entryBytes options key value deltaValue shared
  { b with
    buffer
    hash := if b.hash.valid then b.hash.add options (extractUserKey key) (b.restarts.length - 1) else b.hash
    counter := b.counter + 1
    estimate := b.estimate + (buffer.length - bufferSize) }

def add (key value : Bytes) (deltaValue : Option Bytes := none) : BlockBuilder :=
  let b := b.addWithLastKeyImpl options key value b.lastKey deltaValue b.buffer.length
  if options.useDeltaEncoding then { b with lastKey := key } else b

/-- The last key is ignored on the first call. -/
def addWithLastKey (key value lastKeyParam : Bytes) (deltaValue : Option Bytes := none) :
    BlockBuilder :=
  let bufferSize := b.buffer.length
  let lastKey := lastKeyParam.take (lastKeyParam.length * if bufferSize > 0 then 1 else 0)
  b.addWithLastKeyImpl options key value lastKey deltaValue bufferSize

/-- `PackIndexTypeAndNumRestarts`. -/
def packIndexTypeAndNumRestarts (hashIndex : Bool) (numRestarts : Nat) : Nat :=
  if hashIndex then numRestarts ||| 1 <<< 31 else numRestarts

/-- `Finish`, and the block it returns. -/
def finish : Bytes :=
  let buffer := b.buffer ++ b.restarts.flatMap putFixed32
  let numRestarts := b.restarts.length % 2 ^ 32
  let hashIndex : Bool := b.hash.valid && b.currentSizeEstimate options ≤ kMaxBlockSizeSupportedByHashIndex
  (if hashIndex then buffer ++ b.hash.finish options else buffer) ++
    putFixed32 (packIndexTypeAndNumRestarts hashIndex numRestarts)

end BlockBuilder

end Rocksdb.Blocks
