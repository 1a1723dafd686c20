import Rocksdb.VersionEdit

/-! What the decoder of version edits does with what the encoder wrote. Each
field, at the top level and inside a new file, changes one part of the edit;
`AppliesAll` follows a sequence of fields. -/
namespace Rocksdb.Manifest
open Coding Lib.LittleEndian Lib.Parsing CustomField
open List hiding head

/-! ## Numbers, strings and keys -/

variable (e : Corruption)

theorem parses_varint32 (v : UInt32) : Parses (varint32 e) (putVarint32 v.toNat) v := by
  have read : Parses (orFail e getVarint32) (putVarint32 v.toNat) v.toNat :=
    Parses.orFail (getVarint32_putVarint32 v.toNat_lt)
  refine read.last ?_
  rw [UInt32.ofNat_toNat]
  exact Parses.pure v

theorem parses_varint64 (v : UInt64) : Parses (varint64 e) (putNumber v) v := by
  have read : Parses (orFail e getVarint64) (putVarint64 v.toNat) v.toNat :=
    Parses.orFail (getVarint64_putVarint64 v.toNat_lt)
  refine read.last ?_
  rw [UInt64.ofNat_toNat]
  exact Parses.pure v

variable {value : Bytes}

theorem parses_slice (short : value.length < 2 ^ 32) : Parses (slice e) (putLengthPrefixedSlice value) value :=
  Parses.orFail (getLengthPrefixedSlice_put short)

theorem parses_level (level : Int32) : Parses (getLevel e) (putLevel level) level := by
  refine (parses_varint32 e level.toUInt32).last ?_
  exact Parses.pure level

theorem parses_internalKey (short : key.length < 2 ^ 32)
    (valid : validInternalKey key = true) : Parses (getInternalKey e) (putLengthPrefixedSlice key) key := by
  refine (parses_slice e short).last ?_
  rw [if_pos valid]
  exact Parses.pure key

variable {α : Type}

theorem within_of_parses (read : Parses decoder value a) : within value decoder = .ok a := by
  have whole := read []
  rw [append_nil] at whole
  rw [within, whole]
  rfl

theorem within_number (v : UInt64) : within (putNumber v) (varint64 e) = .ok v :=
  within_of_parses (parses_varint64 e v)

private theorem putVarint64_length (small : n < 128 ^ (rounds + 1)) : (putVarint64 n).length ≤ rounds + 1 := by
  induction rounds generalizing n with
  | zero =>
    rw [putVarint64, if_neg (by omega)]
    exact le_rfl
  | succ _ ih =>
    rw [putVarint64]
    split
    · rw [pow_succ] at small
      have shorter := ih (n := n >>> 7) (by rw [Nat.shiftRight_eq_div_pow]; omega)
      rw [length_cons]
      omega
    · exact Nat.succ_le_succ (Nat.zero_le _)

theorem putNumber_length_le (v : UInt64) : (putNumber v).length ≤ 10 :=
  putVarint64_length (v.toNat_lt.trans_le (by decide))

theorem putNumber_length (v : UInt64) : (putNumber v).length < 2 ^ 32 :=
  (putNumber_length_le v).trans_lt (by decide)

/-! ## Tags -/

@[simp] theorem ofNumber_number (tag : Tag) : Tag.ofNumber tag.number = some tag := by
  cases tag <;> rfl

@[simp] theorem ofNumber_customNumber (tag : CustomTag) : CustomTag.ofNumber tag.number = some tag := by
  cases tag <;> rfl

theorem tag_lt (tag : Tag) : tag.number < 2 ^ 32 := by
  cases tag <;> decide

private theorem customTag_lt (tag : CustomTag) : tag.number < 2 ^ 32 := by
  cases tag <;> decide

private theorem customTag_ne_terminate {tag : CustomTag} (other : tag ≠ .kTerminate) :
    tag.number ≠ CustomTag.kTerminate.number := by
  intro same
  have := congrArg CustomTag.ofNumber same
  rw [ofNumber_customNumber, ofNumber_customNumber] at this
  exact other (Option.some.inj this)

/-! ## Custom fields of new files -/

/-- What a custom field must be to be read back whole. -/
structure CustomField.WellFormed (custom : CustomField) : Prop where
  tag : custom.tag < 2 ^ 32
  notLast : custom.tag ≠ CustomTag.kTerminate.number
  value : custom.value.length < 2 ^ 32

variable {tag : Nat}

theorem parses_customTag (small : tag < 2 ^ 32) (e : Corruption) :
    Parses (orFail e getVarint32) (putVarint32 tag) tag :=
  Parses.orFail (getVarint32_putVarint32 small)

variable {s : CustomState} {custom : CustomField}

private theorem customFieldRound_reads (wellFormed : custom.WellFormed)
    (decoded : decodeCustomField s custom = .ok s') : Parses (customFieldRound s) custom.bytes (.inl s') := by
  refine (parses_customTag wellFormed.tag _).bind ?_
  rw [if_neg wellFormed.notLast]
  refine (parses_slice _ wellFormed.value).last ?_
  rw [decoded]
  exact (Parses.lift s').last (Parses.pure _)

variable {e : Corruption}

private theorem customFieldRound_refuses (wellFormed : custom.WellFormed)
    (failed : decodeCustomField s custom = .error e) : Rejects (customFieldRound s) custom.bytes e := by
  refine (parses_customTag wellFormed.tag _).rejects ?_
  rw [if_neg wellFormed.notLast, ← append_nil (putLengthPrefixedSlice _)]
  refine (parses_slice _ wellFormed.value).rejects ?_
  rw [failed]
  exact fun _ => rfl

private theorem customFieldRound_ends (s : CustomState) :
    Parses (customFieldRound s) (putVarint32 CustomTag.kTerminate.number) (.inr s) := by
  refine (parses_customTag (by decide) _).last ?_
  exact Parses.pure _

theorem customFieldRounds_read {custom : List CustomField} (wellFormed : ∀ c ∈ custom, c.WellFormed) :
    ∀ c ∈ custom, ∀ s s', decodeCustomField s c = .ok s' → Parses (customFieldRound s) c.bytes (.inl s') :=
  fun c member _ _ => customFieldRound_reads (wellFormed c member)

/-- The fields are read one after the other, up to the terminating tag. -/
theorem decodeCustomFields_reads {custom : List CustomField} (wellFormed : ∀ c ∈ custom, c.WellFormed)
    (decoded : custom.foldlM decodeCustomField s = .ok s') :
    Parses (decodeCustomFields s) (custom.flatMap bytes ++ putVarint32 CustomTag.kTerminate.number) s' := by
  intro rest
  rw [append_assoc, decodeCustomFields, loop_items (customFieldRounds_read wellFormed) decoded]
  exact loop_leave (customFieldRound_ends s' rest)

theorem decodeCustomFields_refuses {custom : List CustomField}
    (wellFormed : ∀ c ∈ custom, c.WellFormed) (failed : custom.foldlM decodeCustomField s = .error e) :
    Rejects (decodeCustomFields s) (custom.flatMap bytes ++ putVarint32 CustomTag.kTerminate.number) e := by
  intro _
  have refuses : ∀ c ∈ custom, ∀ s e, decodeCustomField s c = .error e → Rejects (customFieldRound s) c.bytes e :=
    fun c member _ _ => customFieldRound_refuses (wellFormed c member)
  rw [append_assoc, decodeCustomFields, loop_items_error (customFieldRounds_read wellFormed) refuses failed]

/-- A sequence of custom fields takes one state to another. -/
structure Collects (s : CustomState) (custom : List CustomField) (s' : CustomState) : Prop where
  wellFormed : ∀ c ∈ custom, c.WellFormed
  decoded : custom.foldlM decodeCustomField s = .ok s'

namespace Collects
variable {s s' s'' : CustomState} {custom custom' : List CustomField}

theorem nil : Collects s [] s := ⟨by simp, rfl⟩

theorem append (first : Collects s custom s') (second : Collects s' custom' s'') :
    Collects s (custom ++ custom') s'' := by
  refine ⟨forall_mem_append.mpr ⟨first.wellFormed, second.wellFormed⟩, ?_⟩
  rw [foldlM_append, first.decoded]
  exact second.decoded

theorem field {tag : CustomTag} (other : tag ≠ .kTerminate) (short : value.length < 2 ^ 32)
    (decoded : decodeKnownCustomField s value tag = .ok s') : Collects s [customField tag value] s' := by
  refine ⟨?_, ?_⟩
  · intro _ member
    rw [mem_singleton.mp member]
    exact ⟨customTag_lt tag, customTag_ne_terminate other, short⟩
  · simp [decodeCustomField, customField, decoded]

theorem fieldIf {tag : CustomTag} (other : tag ≠ .kTerminate) (short : value.length < 2 ^ 32)
    (decoded : condition = true → decodeKnownCustomField s value tag = .ok s')
    (unchanged : condition = false → s' = s) : Collects s (customFieldIf condition tag value) s' := by
  cases condition with
  | true => exact field other short (decoded rfl)
  | false =>
    rw [unchanged rfl]
    exact nil

end Collects

/-! ## Custom fields of blob files -/

/-- A custom field that is skipped in a blob file. -/
structure CustomField.SkippedInBlobFile (custom : CustomField) : Prop where
  tag : custom.tag < 2 ^ 32
  notLast : custom.tag ≠ kEndMarker
  compatible : custom.tag &&& kForwardIncompatibleMask = 0
  value : custom.value.length < 2 ^ 32

variable (className : String)

theorem blobCustomFieldRound_reads (skipped : custom.SkippedInBlobFile) :
    Parses (blobCustomFieldRound className ()) custom.bytes (.inl ()) := by
  refine (parses_customTag skipped.tag _).bind ?_
  rw [if_neg skipped.notLast, if_neg (not_not_intro skipped.compatible)]
  exact (parses_slice _ skipped.value).last (Parses.pure _)

private theorem blobCustomFieldRound_ends :
    Parses (blobCustomFieldRound className ()) (putVarint32 kEndMarker) (.inr ()) := by
  refine (parses_customTag (by decide) _).last ?_
  exact Parses.pure _

private theorem skipBlobCustomFields_reads {custom : List CustomField} (skipped : ∀ c ∈ custom, c.SkippedInBlobFile) :
    Parses (skipBlobCustomFields className) (custom.flatMap bytes ++ putVarint32 kEndMarker) () := by
  intro rest
  have nothing : custom.foldlM (fun _ _ => Except.ok ()) () = (Except.ok () : Except Corruption Unit) := by
    clear skipped
    induction custom with
    | nil => rfl
    | cons _ _ ih => exact ih
  have reads : ∀ c ∈ custom, ∀ s s' : Unit, (Except.ok () : Except Corruption Unit) = .ok s' →
      Parses (blobCustomFieldRound className s) c.bytes (.inl s') :=
    fun c member _ _ _ => blobCustomFieldRound_reads className (skipped c member)
  rw [append_assoc, skipBlobCustomFields, loop_items reads nothing]
  exact loop_leave (blobCustomFieldRound_ends className rest)

/-! ## Fields of edits -/

/-- A field takes one edit to another. What stands before the custom fields of a
file is only known by how the decoder goes on behind it. -/
inductive Applies (edit : VersionEdit) : Field → VersionEdit → Prop where
  | plain {tag : Nat} {body : Bytes} {edit' : VersionEdit} (small : tag < 2 ^ 32)
    (read : Parses (edit.decodeField tag) body edit') : Applies edit (.plain tag body) edit'
  | newFile4 {head : Bytes} {custom : List CustomField} {s s' : CustomState} (finish : CustomState → VersionEdit)
    (read : ∀ rest, decodeNewFile4From edit (head ++ rest) =
      (decodeCustomFields s >>= fun s => pure (finish s) : Decoder VersionEdit) rest)
    (collected : Collects s custom s') : Applies edit (.newFile4 head custom) (finish s')
  | blobFile {tag : Tag} {head : Bytes} {custom : List CustomField} (className : String) {edit' : VersionEdit}
    (read : ∀ rest, edit.decodeKnownField tag (head ++ rest) =
      (skipBlobCustomFields className >>= fun _ => pure edit' : Decoder VersionEdit) rest)
    (skipped : ∀ c ∈ custom, c.SkippedInBlobFile) : Applies edit (.blobFile tag head custom) edit'

theorem decodeField_number (edit : VersionEdit) (tag : Tag) :
    edit.decodeField tag.number = edit.decodeKnownField tag := by
  simp [VersionEdit.decodeField]

theorem decodeRound_of_tag (edit : VersionEdit) (small : tag < 2 ^ 32) (rest : Bytes) :
    edit.decodeRound (putVarint32 tag ++ rest) = (edit.decodeField tag >>= fun edit => pure (.inl edit)) rest := by
  rw [VersionEdit.decodeRound, getVarint32_putVarint32 small]

variable {edit : VersionEdit}

private theorem decodeRound_reads (small : tag < 2 ^ 32) (read : Parses (edit.decodeField tag) body edit') :
    Parses edit.decodeRound (putVarint32 tag ++ body) (.inl edit') := by
  intro rest
  rw [append_assoc, decodeRound_of_tag edit small]
  exact read.map Sum.inl rest

theorem decodeRound_refuses (small : tag < 2 ^ 32)
    (failed : Rejects (edit.decodeField tag) body e) : Rejects edit.decodeRound (putVarint32 tag ++ body) e := by
  intro rest
  rw [append_assoc, decodeRound_of_tag edit small]
  exact bind_of_error (failed rest)

/-- Behind its head a file is read by its custom fields. -/
theorem parses_behind {β : Type} {p : Decoder β} {q : Decoder α} {f : α → β} {head text : Bytes} {a : α}
    (read : ∀ rest, p (head ++ rest) = (q >>= fun a => pure (f a) : Decoder β) rest) (custom : Parses q text a) :
    Parses p (head ++ text) (f a) := by
  intro rest
  rw [append_assoc, read]
  exact custom.map f rest

theorem rejects_behind {β : Type} {p : Decoder β} {f : α → β}
    (read : ∀ rest, p (head ++ rest) = (q >>= fun a => pure (f a) : Decoder β) rest) (custom : Rejects q text e) :
    Rejects p (head ++ text) e := by
  intro rest
  rw [append_assoc, read]
  exact bind_of_error (custom rest)

theorem Applies.reads {field : Field} (applies : Applies edit field edit') :
    Parses edit.decodeRound field.bytes (.inl edit') := by
  cases applies with
  | plain small read => exact decodeRound_reads small read
  | newFile4 _ read collected =>
    refine decodeRound_reads (tag_lt .kNewFile4) ?_
    exact parses_behind read (decodeCustomFields_reads collected.wellFormed collected.decoded)
  | blobFile className read skipped =>
    refine decodeRound_reads (tag_lt _) ?_
    rw [decodeField_number]
    exact parses_behind read (skipBlobCustomFields_reads className skipped)

/-- A sequence of fields takes one edit to another. -/
inductive AppliesAll : VersionEdit → List Field → VersionEdit → Prop where
  | nil {edit : VersionEdit} : AppliesAll edit [] edit
  | cons {edit edit' edit'' : VersionEdit} {field : Field} {fields : List Field} (first : Applies edit field edit')
    (rest : AppliesAll edit' fields edit'') : AppliesAll edit (field :: fields) edit''

/-- `DecodeFrom`, from an edit that is partly read. -/
def VersionEdit.decodeRest (edit : VersionEdit) (input : Bytes) : Except Corruption (VersionEdit × Bytes) :=
  loop VersionEdit.decodeRound VersionEdit.progress_decodeRound edit input

namespace AppliesAll
variable {fields fields' : List Field}

theorem append (first : AppliesAll edit fields edit') (second : AppliesAll edit' fields' edit'') :
    AppliesAll edit (fields ++ fields') edit'' := by
  induction first with
  | nil => exact second
  | cons applies _ ih => exact .cons applies (ih second)

theorem one {field : Field} (applies : Applies edit field edit') : AppliesAll edit [field] edit' := .cons applies .nil

theorem option {α : Type} {value : Option α} {f : α → Field}
    (present : ∀ a, value = some a → Applies edit (f a) edit') (absent : value = none → edit' = edit) :
    AppliesAll edit (value.toList.map f) edit' := by
  cases value with
  | none =>
    rw [absent rfl]
    exact nil
  | some a => exact one (present a rfl)

theorem ite {condition : Prop} [Decidable condition] {field : Field} (present : condition → Applies edit field edit')
    (absent : ¬ condition → edit' = edit) : AppliesAll edit (if condition then [field] else []) edit' := by
  split
  · next holds => exact one (present holds)
  · next fails =>
    rw [absent fails]
    exact nil

/-- A list of fields that each extend the edit by one item. -/
theorem map {α : Type} {f : α → Field} (extend : VersionEdit → List α → VersionEdit) {items : List α}
    (none : ∀ edit, extend edit [] = edit)
    (more : ∀ edit x rest, extend (extend edit [x]) rest = extend edit (x :: rest))
    (step : ∀ x ∈ items, ∀ edit, Applies edit (f x) (extend edit [x])) :
    AppliesAll edit (items.map f) (extend edit items) := by
  induction items generalizing edit with
  | nil =>
    rw [none]
    exact nil
  | cons _ _ ih =>
    obtain ⟨first, step⟩ := forall_mem_cons.mp step
    rw [map_cons, ← more]
    exact cons (first edit) (ih step)

private theorem decodeRest (all : AppliesAll edit fields edit') (rest : Bytes) :
    edit.decodeRest (bytesOf fields ++ rest) = edit'.decodeRest rest := by
  induction all with
  | nil => rfl
  | cons applies _ ih =>
    rw [bytesOf, flatMap_cons, append_assoc, VersionEdit.decodeRest, loop_again (applies.reads _)]
    exact ih

/-- The fields are all there is. -/
theorem decodeFrom (all : AppliesAll {} fields edit) : VersionEdit.decodeFrom (bytesOf fields) = .ok edit := by
  have read := all.decodeRest []
  have last : edit.decodeRest [] = .ok (edit, []) := loop_leave rfl
  rw [append_nil, last] at read
  exact congrArg (Except.map Prod.fst) read

end AppliesAll

end Rocksdb.Manifest
