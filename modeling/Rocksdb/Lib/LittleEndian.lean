import Mathlib.Data.List.Basic
import Mathlib.Tactic.Ring

/-! Byte strings and numbers in little-endian order. -/
namespace Rocksdb.Lib.LittleEndian

abbrev Bytes : Type := List UInt8

/-- The lowest bytes of a number, lowest first. -/
def encode : Nat → Nat → Bytes
  | 0, _ => []
  | width + 1, value => UInt8.ofNat value :: encode width (value / 256)

def decode : Bytes → Nat
  | [] => 0
  | byte :: rest => byte.toNat + 256 * decode rest

@[simp] theorem length_encode (width value : Nat) : (encode width value).length = width := by
  induction width generalizing value with
  | zero => rfl
  | succ _ ih => simp [encode, ih]

theorem decode_lt (bytes : Bytes) : decode bytes < 256 ^ bytes.length := by
  induction bytes with
  | nil => decide
  | cons byte rest ih =>
    have := byte.toNat_lt
    rw [decode, List.length_cons, Nat.pow_succ]
    omega

theorem decode_encode (width value : Nat) : decode (encode width value) = value % 256 ^ width := by
  induction width generalizing value with
  | zero => simp [encode, decode, Nat.mod_one]
  | succ _ ih =>
    rw [encode, decode, ih, pow_succ', Nat.mod_mul]
    simp

theorem decode_encode_of_lt (small : value < 256 ^ width) : decode (encode width value) = value := by
  rw [decode_encode, Nat.mod_eq_of_lt small]

end Rocksdb.Lib.LittleEndian
