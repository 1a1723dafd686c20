import Rocksdb.Lib.LittleEndian
import Mathlib.Data.Nat.Bitwise
import Mathlib.Logic.Function.Iterate

/-! The format of write-ahead logs (`db/log_format.h`): blocks, the types of
physical records, and the masked checksum in front of each of them
(`util/crc32c.h`). -/
namespace Rocksdb.LogFormat
open Lib.LittleEndian

/-- `RecordType`. -/
inductive RecordType where
  | kZeroType
  | kFullType
  | kFirstType
  | kMiddleType
  | kLastType
  | kRecyclableFullType
  | kRecyclableFirstType
  | kRecyclableMiddleType
  | kRecyclableLastType
  | kSetCompressionType
  | kUserDefinedTimestampSizeType
  | kRecyclableUserDefinedTimestampSizeType
  deriving DecidableEq, Repr

def RecordType.toNat : RecordType → Nat
  | .kZeroType => 0
  | .kFullType => 1
  | .kFirstType => 2
  | .kMiddleType => 3
  | .kLastType => 4
  | .kRecyclableFullType => 5
  | .kRecyclableFirstType => 6
  | .kRecyclableMiddleType => 7
  | .kRecyclableLastType => 8
  | .kSetCompressionType => 9
  | .kUserDefinedTimestampSizeType => 10
  | .kRecyclableUserDefinedTimestampSizeType => 11

def kMaxRecordType : Nat := RecordType.kRecyclableUserDefinedTimestampSizeType.toNat

def kBlockSize : Nat := 32768

/-- Checksum, length and type. -/
def kHeaderSize : Nat := 4 + 2 + 1

/-- Checksum, length, type and log number. -/
def kRecyclableHeaderSize : Nat := 4 + 2 + 1 + 4

/-- `CompressionType`. -/
abbrev CompressionType : Type := UInt8

def kNoCompression : CompressionType := 0

def kZSTD : CompressionType := 7

/-- `crc32c`: the checksum of a string, and how checksums of parts are put
together. -/
structure Crc32c where
  value : Bytes → UInt32
  extend : UInt32 → Bytes → UInt32
  combine : UInt32 → UInt32 → Nat → UInt32
  extend_value : ∀ a b, extend (value a) b = value (a ++ b)
  combine_value : ∀ a b, combine (value a) (value b) b.length = value (a ++ b)

/-- One bit of the division by the Castagnoli polynomial. -/
def crcBit (crc : UInt32) : UInt32 := (crc >>> 1) ^^^ (if crc &&& 1 = 0 then 0 else 0x82f63b78)

/-- The register after more bytes. -/
def crcBytes (crc : UInt32) (bytes : Bytes) : UInt32 :=
  bytes.foldl (fun crc byte => crcBit^[8] (crc ^^^ byte.toUInt32)) crc

private theorem crcBit_xor (a b : UInt32) : crcBit (a ^^^ b) = crcBit a ^^^ crcBit b := by
  have parity (x : UInt32) : x &&& 1 = 0 ∨ x &&& 1 = 1 := by
    have := Nat.and_one_is_mod x.toNat
    simp only [← UInt32.toNat_inj, UInt32.toNat_and, UInt32.toNat_one, UInt32.toNat_zero]
    omega
  have low : (a ^^^ b) &&& 1 = (a &&& 1) ^^^ (b &&& 1) := by
    simp only [← UInt32.toNat_inj, UInt32.toNat_and, UInt32.toNat_xor, Nat.and_xor_distrib_right]
  have high : (a ^^^ b) >>> 1 = (a >>> 1) ^^^ (b >>> 1) := UInt32.shiftRight_xor
  unfold crcBit
  rw [low, high]
  rcases parity a with a_low | a_low <;> rcases parity b with b_low | b_low <;>
    simp [a_low, b_low, UInt32.xor_assoc, UInt32.xor_comm (b >>> 1), ← UInt32.xor_assoc 0x82f63b78]

private theorem iterate_crcBit_xor (n : Nat) (a b : UInt32) : crcBit^[n] (a ^^^ b) = crcBit^[n] a ^^^ crcBit^[n] b := by
  induction n generalizing a b with
  | zero => rfl
  | succ _ ih => rw [Function.iterate_succ_apply, crcBit_xor, ih]; rfl

/-- The register is linear: what stood in it before is only shifted. -/
theorem crcBytes_xor (a b : UInt32) (bytes : Bytes) :
    crcBytes (a ^^^ b) bytes = crcBit^[8 * bytes.length] a ^^^ crcBytes b bytes := by
  induction bytes generalizing a b with
  | nil => rfl
  | cons byte rest ih =>
    have shift : crcBit^[8] (a ^^^ b ^^^ byte.toUInt32) = crcBit^[8] a ^^^ crcBit^[8] (b ^^^ byte.toUInt32) := by
      rw [UInt32.xor_assoc, iterate_crcBit_xor]
    rw [List.length_cons, Nat.mul_succ, Function.iterate_add_apply]
    exact (congrArg (crcBytes · rest) shift).trans (ih _ _)

/-- `crc32c::Value`, `crc32c::Extend` and `crc32c::Crc32cCombine`. -/
def castagnoli : Crc32c where
  value bytes := ~~~crcBytes (-1) bytes
  extend crc bytes := ~~~crcBytes (~~~crc) bytes
  combine crc1 crc2 len2 := crcBit^[8 * len2] crc1 ^^^ crc2
  extend_value a b := by
    rw [UInt32.not_not, crcBytes, crcBytes, crcBytes, List.foldl_append]
  combine_value a b := by
    have split : crcBytes (-1) (a ++ b) = crcBytes (~~~crcBytes (-1) a ^^^ -1) b := by
      rw [UInt32.xor_neg_one, UInt32.not_not, crcBytes, List.foldl_append]
      rfl
    rw [split, crcBytes_xor, UInt32.xor_not]

/- The digits from 1 to 9. -/
example : castagnoli.value [49, 50, 51, 52, 53, 54, 55, 56, 57] = 0xe3069283 := by decide +kernel

def kMaskDelta : UInt32 := 0xa282ead8

/-- `crc32c::Mask`. -/
def mask (crc : UInt32) : UInt32 := ((crc >>> 15) ||| (crc <<< 17)) + kMaskDelta

/-- `crc32c::Unmask`. -/
def unmask (maskedCrc : UInt32) : UInt32 :=
  let rot := maskedCrc - kMaskDelta
  (rot >>> 17) ||| (rot <<< 15)

theorem unmask_mask (crc : UInt32) : unmask (mask crc) = crc := by
  have rotated : ((crc >>> 15 ||| crc <<< 17) >>> 17) ||| ((crc >>> 15 ||| crc <<< 17) <<< 15) = crc := by
    apply UInt32.toBitVec_inj.mp
    ext i inWord
    have past : crc.toBitVec.getLsbD (15 + (17 + i)) = false := BitVec.getLsbD_of_ge _ _ (by omega)
    by_cases low : i < 15
    · simp [low, past, show 17 + i < 32 by omega]
    · simp [low, past, show ¬ 17 + i < 32 by omega, show i - 15 < 17 by omega,
        show 15 + (i - 15) = i by omega, BitVec.getLsbD_eq_getElem inWord]
  simp only [unmask, mask, UInt32.add_sub_cancel, rotated]

end Rocksdb.LogFormat
