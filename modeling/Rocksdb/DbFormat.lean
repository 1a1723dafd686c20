import Mathlib.Algebra.Group.Int.Defs
import Mathlib.Algebra.GroupWithZero.Nat
import Mathlib.Data.Prod.Lex
import Mathlib.Tactic.DeriveFintype

/-! Internal keys, their order and range tombstones (`db/dbformat.h`). User
keys are any linear order: the user comparator. Sequence numbers are natural
numbers below `2^56`, as the packed eight byte footer stores them. -/
namespace Rocksdb

/-- Value types encoded as the last byte of an internal key. -/
inductive ValueType where
  | kTypeDeletion
  | kTypeValue
  | kTypeMerge
  | kTypeSingleDeletion
  | kTypeRangeDeletion
  | kTypeBlobIndex
  | kTypeDeletionWithTimestamp
  | kTypeWideColumnEntity
  | kTypeValuePreferredSeqno
  | kTypeMaxValid
  deriving DecidableEq, Repr

namespace ValueType

/-- The byte each type is stored as. -/
def toNat : ValueType → Nat
  | kTypeDeletion => 0x0
  | kTypeValue => 0x1
  | kTypeMerge => 0x2
  | kTypeSingleDeletion => 0x7
  | kTypeRangeDeletion => 0xF
  | kTypeBlobIndex => 0x11
  | kTypeDeletionWithTimestamp => 0x14
  | kTypeWideColumnEntity => 0x16
  | kTypeValuePreferredSeqno => 0x18
  | kTypeMaxValid => 0x1A

theorem toNat_lt (t : ValueType) : t.toNat < 256 := by
  cases t <;> decide

private theorem toNat_injective : Function.Injective toNat := by
  intro a b same
  cases a <;> cases b <;> first | rfl | exact absurd same (by decide)

end ValueType

/-- `kValueTypeForSeek`: with it a lookup key comes before every entry of its
user key and sequence number. -/
def kValueTypeForSeek : ValueType := .kTypeValuePreferredSeqno

/-- `Status` as the modelled functions return it. -/
inductive Status where
  | ok
  | notFound
  | mergeInProgress
  | mergeOperatorFailed
  | corruption (message : String)
  | invalidArgument (message : String)
  deriving DecidableEq, Repr

/-- A status that stops a read: neither an answer nor a merge to go on with. -/
def Status.isError : Status → Bool
  | ok | notFound | mergeInProgress => false
  | _ => true

/-- What a failing helper returns. -/
abbrev ErrorStatus : Type := { status : Status // status.isError }

/-- The largest sequence number the footer can hold. -/
def kMaxSequenceNumber : Nat := 2 ^ 56 - 1

/-- `PackSequenceAndType`: the footer compared between keys of one user key. -/
def packSequenceAndType (seq : Nat) (t : ValueType) : Nat := seq * 256 + t.toNat

theorem pack_lt_iff : packSequenceAndType s t < packSequenceAndType s' t' ↔
      s < s' ∨ (s = s' ∧ t.toNat < t'.toNat) := by
  have bound := t.toNat_lt
  have bound' := t'.toNat_lt
  unfold packSequenceAndType
  omega

private theorem pack_injective (same : packSequenceAndType s t = packSequenceAndType s' t') : s = s' ∧ t = t' := by
  have bound := t.toNat_lt
  have bound' := t'.toNat_lt
  unfold packSequenceAndType at same
  have seqs : s = s' := by omega
  exact ⟨seqs, ValueType.toNat_injective (by omega)⟩

/-- `ParsedInternalKey`: the parts of an internal key. -/
structure InternalKey (κ : Type) where
  userKey : κ
  sequence : Nat
  type : ValueType
  deriving DecidableEq, Repr

namespace InternalKey
variable {κ : Type}

/-- The footer of the key. -/
def footer (k : InternalKey κ) : Nat := packSequenceAndType k.sequence k.type

/-- What the internal key comparator orders by: increasing user key, then
decreasing footer. -/
def orderKey (k : InternalKey κ) : κ ×ₗ Natᵒᵈ := toLex (k.userKey, OrderDual.toDual k.footer)

private theorem orderKey_injective : Function.Injective (orderKey (κ := κ)) := by
  intro a b same
  have parts : a.userKey = b.userKey ∧ a.footer = b.footer := by
    simpa [orderKey] using same
  obtain ⟨_, _⟩ := pack_injective parts.2
  cases a
  cases b
  simp_all

variable [LinearOrder κ] {a b : InternalKey κ}

/-- `InternalKeyComparator::Compare`. -/
instance : LinearOrder (InternalKey κ) := LinearOrder.lift' orderKey orderKey_injective

theorem lt_iff : a < b ↔ a.userKey < b.userKey ∨ (a.userKey = b.userKey ∧ b.footer < a.footer) := Prod.Lex.lt_iff

theorem le_iff : a ≤ b ↔ a.userKey < b.userKey ∨ (a.userKey = b.userKey ∧ b.footer ≤ a.footer) := Prod.Lex.le_iff

theorem userKey_le_of_le (le : a ≤ b) : a.userKey ≤ b.userKey := by
  rcases le_iff.mp le with lt | ⟨same, -⟩
  · exact lt.le
  · exact same.le

/-- Of two versions of a user key the newer one comes first. -/
theorem sequence_le_of_le (le : a ≤ b) (same : a.userKey = b.userKey) : b.sequence ≤ a.sequence := by
  rcases le_iff.mp le with lt | ⟨-, footers⟩
  · exact absurd same lt.ne
  · by_contra later
    exact footers.not_gt (pack_lt_iff.mpr (.inl (not_le.mp later)))

end InternalKey

/-- `RangeTombstone`: the user keys from `startKey` up to but without `endKey`
are deleted at `seq`. The write paths refuse an end that comes before its
start (`DeleteRange` answers `InvalidArgument`), so no such value exists. -/
structure RangeTombstone (κ : Type) [LinearOrder κ] where
  startKey : κ
  endKey : κ
  seq : Nat
  ordered : startKey ≤ endKey
  deriving DecidableEq

namespace RangeTombstone
variable {κ : Type} [LinearOrder κ]

/-- `SerializeKey`: the key under which the tombstone is stored. -/
def serializeKey (t : RangeTombstone κ) : InternalKey κ :=
  ⟨t.startKey, t.seq, .kTypeRangeDeletion⟩

/-- The user keys inside the range. -/
def Covers (t : RangeTombstone κ) (key : κ) : Prop := t.startKey ≤ key ∧ key < t.endKey

instance (t : RangeTombstone κ) (key : κ) : Decidable (t.Covers key) := inferInstanceAs (Decidable (_ ∧ _))

end RangeTombstone

end Rocksdb
