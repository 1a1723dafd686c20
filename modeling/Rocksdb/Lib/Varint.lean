import Rocksdb.Lib.LittleEndian

/-! Numbers of variable length: groups of seven bits, the lowest first, with the
high bit set in every byte but the last. -/
namespace Rocksdb.Lib.Varint
open Lib.LittleEndian

def encode (value : Nat) : Bytes :=
  if value < 128 then [UInt8.ofNat value] else UInt8.ofNat (value % 128 + 128) :: encode (value / 128)
termination_by value
decreasing_by omega

/-- A number of at most so many bytes, and what stands behind it. -/
def decode : Nat → Bytes → Option (Nat × Bytes)
  | 0, _ => none
  | _ + 1, [] => none
  | limit + 1, byte :: rest =>
    if byte.toNat < 128 then some (byte.toNat, rest)
    else (decode limit rest).map fun (high, rest) => (byte.toNat - 128 + 128 * high, rest)

theorem decode_encode (small : value < 128 ^ (limit + 1)) (rest : Bytes) :
    decode (limit + 1) (encode value ++ rest) = some (value, rest) := by
  induction limit generalizing value with
  | zero =>
    have byte : (UInt8.ofNat value).toNat = value := by simp; omega
    rw [encode, if_pos (by omega)]
    simp [decode, byte]
    omega
  | succ limit ih =>
    rw [encode]
    split
    · next low =>
      have byte : (UInt8.ofNat value).toNat = value := by simp; omega
      simp [decode, byte, low]
    · next high =>
      have byte : (UInt8.ofNat (value % 128 + 128)).toNat = value % 128 + 128 := by simp; omega
      have later : decode (limit + 1) (encode (value / 128) ++ rest) = _ := ih (by rw [pow_succ] at small; omega)
      rw [List.cons_append, decode, byte, if_neg (by omega), later]
      have whole : value % 128 + 128 - 128 + 128 * (value / 128) = value := by omega
      exact congrArg (fun n => some (n, rest)) whole

theorem decode_suffix (decoded : decode limit bytes = some (value, rest)) :
    rest <:+ bytes ∧ rest.length < bytes.length := by
  induction limit generalizing bytes value with
  | zero => cases decoded
  | succ _ ih =>
    cases bytes with
    | nil => cases decoded
    | cons =>
      rw [decode] at decoded
      split at decoded
      · cases decoded
        exact ⟨List.suffix_cons .., Nat.lt_succ_self _⟩
      · obtain ⟨⟨_, _⟩, decoded', same⟩ := Option.map_eq_some_iff.mp decoded
        cases same
        obtain ⟨suffix, shorter⟩ := ih decoded'
        exact ⟨suffix.trans (List.suffix_cons ..), shorter.trans (Nat.lt_succ_self _)⟩

end Rocksdb.Lib.Varint
