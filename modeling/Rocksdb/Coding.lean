import Rocksdb.Lib.Varint
import Mathlib.Data.Nat.Bitwise

/-! Numbers and strings in byte strings (`util/coding.h`, `util/coding.cc`). -/
namespace Rocksdb.Coding
open Lib.LittleEndian Lib List

/-- `EncodeVarint32`. -/
def putVarint32 (v : Nat) : Bytes :=
  let B := 128
  if v < 1 <<< 7 then [UInt8.ofNat v]
  else if v < 1 <<< 14 then [UInt8.ofNat (v ||| B), UInt8.ofNat (v >>> 7)]
  else if v < 1 <<< 21 then [UInt8.ofNat (v ||| B), UInt8.ofNat (v >>> 7 ||| B), UInt8.ofNat (v >>> 14)]
  else if v < 1 <<< 28 then
    [UInt8.ofNat (v ||| B), UInt8.ofNat (v >>> 7 ||| B), UInt8.ofNat (v >>> 14 ||| B), UInt8.ofNat (v >>> 21)]
  else
    [UInt8.ofNat (v ||| B), UInt8.ofNat (v >>> 7 ||| B), UInt8.ofNat (v >>> 14 ||| B),
      UInt8.ofNat (v >>> 21 ||| B), UInt8.ofNat (v >>> 28)]

/-- The loop of `GetVarint32PtrFallback`, with the rounds that are left. -/
def getVarint32Loop : Nat → Nat → Nat → Bytes → Option (Nat × Bytes)
  | 0, _, _, _ => none
  | _ + 1, _, _, [] => none
  | rounds + 1, shift, result, byte :: rest =>
    if byte.toNat &&& 128 ≠ 0 then
      getVarint32Loop rounds (shift + 7) (result ||| (byte.toNat &&& 127) <<< shift % 2 ^ 32) rest
    else some (result ||| byte.toNat <<< shift % 2 ^ 32, rest)

/-- `GetVarint32`, and what is left of the input. -/
def getVarint32 (input : Bytes) : Option (Nat × Bytes) := getVarint32Loop 5 0 0 input

/-- `PutLengthPrefixedSlice`. The length is stored in 32 bits. -/
def putLengthPrefixedSlice (value : Bytes) : Bytes := putVarint32 (value.length % 2 ^ 32) ++ value

/-- `GetLengthPrefixedSlice`, and what is left of the input. -/
def getLengthPrefixedSlice (input : Bytes) : Option (Bytes × Bytes) :=
  (getVarint32 input).bind fun (len, input) =>
    if len ≤ input.length then some (input.take len, input.drop len) else none

/-- `EncodeVarint64`. -/
def putVarint64 (v : Nat) : Bytes :=
  if v ≥ 128 then UInt8.ofNat (v &&& 127 ||| 128) :: putVarint64 (v >>> 7) else [UInt8.ofNat v]
termination_by v
decreasing_by
  rw [Nat.shiftRight_eq_div_pow]
  omega

/-- The loop of `GetVarint64Ptr`, with the rounds that are left. -/
def getVarint64Loop : Nat → Nat → Nat → Bytes → Option (Nat × Bytes)
  | 0, _, _, _ => none
  | _ + 1, _, _, [] => none
  | rounds + 1, shift, result, byte :: rest =>
    if byte.toNat &&& 128 ≠ 0 then
      getVarint64Loop rounds (shift + 7) (result ||| (byte.toNat &&& 127) <<< shift % 2 ^ 64) rest
    else some (result ||| byte.toNat <<< shift % 2 ^ 64, rest)

/-- `GetVarint64`, and what is left of the input. -/
def getVarint64 (input : Bytes) : Option (Nat × Bytes) := getVarint64Loop 10 0 0 input

/-- `PutFixed64`. -/
def putFixed64 (v : Nat) : Bytes := LittleEndian.encode 8 v

/-- `GetFixed64`, and what is left of the input. -/
def getFixed64 (input : Bytes) : Option (Nat × Bytes) :=
  if input.length < 8 then none else some (LittleEndian.decode (input.take 8), input.drop 8)

/-! ## Round trips -/

theorem byte_or (v : Nat) : UInt8.ofNat (v ||| 128) = UInt8.ofNat (v % 128 + 128) := by
  have low : ∀ x : Fin 256, x.val ||| 128 = x.val % 128 + 128 := by decide +kernel
  have here : v % 256 ||| 128 = v % 256 % 128 + 128 := low ⟨v % 256, Nat.mod_lt _ (by decide)⟩
  have mod : (v ||| 128) % 2 ^ 8 = v % 2 ^ 8 ||| 128 % 2 ^ 8 := Nat.or_mod_two_pow
  refine UInt8.toNat_inj.mp ?_
  rw [UInt8.toNat_ofNat', UInt8.toNat_ofNat', mod]
  exact here.trans (by omega)

private theorem putVarint32_eq (small : v < 2 ^ 32) : putVarint32 v = Varint.encode v := by
  unfold putVarint32
  simp only [byte_or, Nat.shiftRight_eq_div_pow, Nat.one_shiftLeft, Nat.reducePow]
  rw [Varint.encode, Varint.encode, Varint.encode, Varint.encode, Varint.encode]
  simp only [Nat.div_div_eq_div_mul, Nat.reduceMul]
  split_ifs <;> first | rfl | omega

/-- The next group of bits goes above those that are there. -/
theorem or_shiftLeft (below : result < 2 ^ s) (short : s ≤ width) :
    result ||| x <<< s % 2 ^ width = (result + x * 2 ^ s) % 2 ^ width := by
  have split : (2 : Nat) ^ width = 2 ^ (width - s) * 2 ^ s := by rw [← pow_add, Nat.sub_add_cancel short]
  have high : x * 2 ^ s % 2 ^ width = x % 2 ^ (width - s) * 2 ^ s := by rw [split, Nat.mul_mod_mul_right]
  have bound : x % 2 ^ (width - s) * 2 ^ s + 2 ^ s ≤ 2 ^ width := by
    rw [split, ← Nat.succ_mul]
    exact Nat.mul_le_mul_right _ (Nat.mod_lt _ (Nat.two_pow_pos _))
  have total : (result + x * 2 ^ s) % 2 ^ width = x % 2 ^ (width - s) * 2 ^ s + result := by
    rw [Nat.add_mod, high, Nat.mod_eq_of_lt (below.trans_le (Nat.pow_le_pow_right (by decide) short)), Nat.add_comm,
      Nat.mod_eq_of_lt (by omega)]
  rw [total, Nat.shiftLeft_eq, high, ← Nat.shiftLeft_eq, Nat.or_comm, Nat.shiftLeft_add_eq_or_of_lt below]

private theorem byte_bits (byte : UInt8) :
    (byte.toNat &&& 128 ≠ 0 ↔ ¬ byte.toNat < 128) ∧ byte.toNat &&& 127 = byte.toNat % 128 := by
  have all : ∀ x : Fin 256, (x.val &&& 128 ≠ 0 ↔ ¬ x.val < 128) ∧ x.val &&& 127 = x.val % 128 := by
    decide +kernel
  exact all ⟨byte.toNat, byte.toNat_lt⟩

/-- The bits read so far, with those of one more byte. -/
theorem bits_below (below : result < 2 ^ shift) (byte : UInt8) :
    (result + byte.toNat % 128 * 2 ^ shift) % 2 ^ width < 2 ^ (shift + 7) := by
  refine (Nat.mod_le _ _).trans_lt ?_
  rw [pow_add]
  have : byte.toNat % 128 * 2 ^ shift ≤ 127 * 2 ^ shift := Nat.mul_le_mul_right _ (by omega)
  omega

/-- A loop that reads a number of variable length into a fixed number of bits. -/
theorem varintLoop_eq (width : Nat) (loop : Nat → Nat → Nat → Bytes → Option (Nat × Bytes))
    (done : ∀ shift result input, loop 0 shift result input = none)
    (short : ∀ rounds shift result, loop (rounds + 1) shift result [] = none)
    (next : ∀ rounds shift result byte rest, loop (rounds + 1) shift result (byte :: rest) =
      if byte.toNat &&& 128 ≠ 0 then
        loop rounds (shift + 7) (result ||| (byte.toNat &&& 127) <<< shift % 2 ^ width) rest
      else some (result ||| byte.toNat <<< shift % 2 ^ width, rest))
    (below : result < 2 ^ shift) (fits : shift + 7 * rounds ≤ width + 6) (input : Bytes) :
    loop rounds shift result input =
      (Varint.decode rounds input).map fun (m, rest) => ((result + m * 2 ^ shift) % 2 ^ width, rest) := by
  induction rounds generalizing shift result input with
  | zero => exact done shift result input
  | succ rounds ih =>
    cases input with
    | nil => exact short rounds shift result
    | cons byte =>
      obtain ⟨more, bits⟩ := byte_bits byte
      rw [next, Varint.decode]
      by_cases low : byte.toNat < 128
      · rw [if_neg (fun high => more.mp high low), if_pos low, or_shiftLeft below (by omega)]
        rfl
      · rw [if_pos (more.mpr low), if_neg low, bits, or_shiftLeft below (by omega),
          ih (bits_below below byte) (by omega), Option.map_map]
        congr 1
        funext decoded
        have bound := byte.toNat_lt
        have high : byte.toNat - 128 = byte.toNat % 128 := by omega
        simp only [Function.comp_apply, Nat.mod_add_mod, high, pow_add]
        ring_nf

theorem getVarint32_eq (input : Bytes) :
    getVarint32 input = (Varint.decode 5 input).map fun (m, rest) => (m % 2 ^ 32, rest) := by
  rw [getVarint32, varintLoop_eq 32 getVarint32Loop (fun _ _ _ => by rw [getVarint32Loop])
    (fun _ _ _ => by rw [getVarint32Loop]) (fun _ _ _ _ _ => by rw [getVarint32Loop]) (by decide) (by decide)]
  simp

theorem getVarint32_putVarint32 (small : v < 2 ^ 32) (rest : Bytes) :
    getVarint32 (putVarint32 v ++ rest) = some (v, rest) := by
  rw [putVarint32_eq small, getVarint32_eq, Varint.decode_encode (small.trans_le (by decide))]
  exact congrArg (fun n => some (n, rest)) (Nat.mod_eq_of_lt small)

theorem getVarint32_length (got : getVarint32 input = some (v, rest)) : rest.length < input.length := by
  rw [getVarint32_eq] at got
  obtain ⟨⟨_, _⟩, decoded, same⟩ := Option.map_eq_some_iff.mp got
  cases same
  exact (Varint.decode_suffix decoded).2

private theorem putVarint64_eq (v : Nat) : putVarint64 v = Varint.encode v := by
  induction v using Nat.strongRecOn with
  | ind v ih =>
    have low : v &&& 127 = v % 128 := Nat.and_two_pow_sub_one_eq_mod v 7
    rw [putVarint64, Varint.encode]
    by_cases small : v < 128
    · rw [if_neg (by omega), if_pos small]
    · rw [if_pos (by omega), if_neg small, low, byte_or, Nat.mod_mod, Nat.shiftRight_eq_div_pow, ih _ (by omega)]

theorem getVarint64_eq (input : Bytes) :
    getVarint64 input = (Varint.decode 10 input).map fun (m, rest) => (m % 2 ^ 64, rest) := by
  rw [getVarint64, varintLoop_eq 64 getVarint64Loop (fun _ _ _ => by rw [getVarint64Loop])
    (fun _ _ _ => by rw [getVarint64Loop]) (fun _ _ _ _ _ => by rw [getVarint64Loop]) (by decide) (by decide)]
  simp

theorem getVarint64_putVarint64 (small : v < 2 ^ 64) (rest : Bytes) :
    getVarint64 (putVarint64 v ++ rest) = some (v, rest) := by
  rw [putVarint64_eq, getVarint64_eq, Varint.decode_encode (small.trans_le (by decide))]
  exact congrArg (fun n => some (n, rest)) (Nat.mod_eq_of_lt small)

theorem getVarint64_length (got : getVarint64 input = some (v, rest)) : rest.length < input.length := by
  rw [getVarint64_eq] at got
  obtain ⟨⟨_, _⟩, decoded, same⟩ := Option.map_eq_some_iff.mp got
  cases same
  exact (Varint.decode_suffix decoded).2

theorem getFixed64_putFixed64 (small : v < 2 ^ 64) (rest : Bytes) :
    getFixed64 (putFixed64 v ++ rest) = some (v, rest) := by
  have long : ¬ (putFixed64 v ++ rest).length < 8 := by simp [putFixed64]
  have width : (putFixed64 v).length = 8 := length_encode 8 v
  rw [getFixed64, if_neg long, take_left' width, drop_left' width, putFixed64, decode_encode_of_lt small]

theorem getLengthPrefixedSlice_length
    (got : getLengthPrefixedSlice input = some (value, rest)) : rest.length < input.length := by
  obtain ⟨⟨_, _⟩, length, sliced⟩ := Option.bind_eq_some_iff.mp got
  dsimp only at sliced
  split at sliced
  · cases sliced
    have shorter := getVarint32_length length
    rw [length_drop]
    omega
  · cases sliced

theorem getLengthPrefixedSlice_put (small : value.length < 2 ^ 32) (rest : Bytes) :
    getLengthPrefixedSlice (putLengthPrefixedSlice value ++ rest) = some (value, rest) := by
  rw [getLengthPrefixedSlice, putLengthPrefixedSlice, append_assoc, Nat.mod_eq_of_lt small,
    getVarint32_putVarint32 small, Option.bind_some]
  dsimp only
  rw [if_pos (by simp), take_left' rfl, drop_left' rfl]

end Rocksdb.Coding
