import Rocksdb.VersionEditRoundTrip
import Rocksdb.Lib.Loop

/-! Version edits with fields that are not known to this version. Such fields may
stand anywhere among the fields of an edit and among the custom fields of the
files it adds. The tag says whether a reader that does not know it may go on. -/
namespace Rocksdb.Manifest
open Coding Lib Lib.LittleEndian Lib.Parsing List

/-- A list with new items put in anywhere, and what became of the old ones. -/
inductive Woven {α : Type} (new : α → Prop) (kept : α → α → Prop) : List α → List α → Prop where
  | nil : Woven new kept [] []
  | keep {x y : α} {l l' : List α} (same : kept x y) (rest : Woven new kept l l') : Woven new kept (x :: l) (y :: l')
  | insert {y : α} {l l' : List α} (fresh : new y) (rest : Woven new kept l l') : Woven new kept l (y :: l')

/-- A well-formed custom field of a new file that this version does not know. -/
structure CustomField.Unknown (custom : CustomField) : Prop where
  tag : custom.tag < 2 ^ 32
  unknown : CustomTag.ofNumber custom.tag = none
  value : custom.value.length < 2 ^ 32

/-- No custom field of a blob file is known, besides the end marker. -/
structure CustomField.UnknownInBlobFile (custom : CustomField) : Prop where
  tag : custom.tag < 2 ^ 32
  notLast : custom.tag ≠ kEndMarker
  value : custom.value.length < 2 ^ 32

/-- A well-formed field of an edit that this version does not know. -/
inductive Field.Unknown : Field → Prop where
  | field {tag : Nat} {value : Bytes} (small : tag < 2 ^ 32) (unknown : Tag.ofNumber tag = none)
    (short : value.length < 2 ^ 32) : Unknown (.plain tag (putLengthPrefixedSlice value))

/-- A field with unknown custom fields put in, if it is a file. -/
inductive Field.Extended : Field → Field → Prop where
  | plain (tag : Nat) (body : Bytes) : Extended (.plain tag body) (.plain tag body)
  | newFile4 (head : Bytes) {custom custom' : List CustomField} (woven : Woven CustomField.Unknown Eq custom custom') :
    Extended (.newFile4 head custom) (.newFile4 head custom')
  | blobFile (tag : Tag) (head : Bytes) {custom custom' : List CustomField}
    (woven : Woven CustomField.UnknownInBlobFile Eq custom custom') :
    Extended (.blobFile tag head custom) (.blobFile tag head custom')

/-- The field is unknown and its tag says that a reader must know it, or one of its custom fields is. -/
def Field.NotIgnorable : Field → Prop
  | .plain tag _ => Tag.ofNumber tag = none ∧ tag &&& kTagSafeIgnoreMask = 0
  | .newFile4 _ custom =>
    ∃ c ∈ custom, CustomTag.ofNumber c.tag = none ∧ c.tag &&& kCustomTagNonSafeIgnoreMask ≠ 0
  | .blobFile _ _ custom => ∃ c ∈ custom, c.tag &&& kForwardIncompatibleMask ≠ 0

/-! ## Custom fields of new files -/

theorem CustomField.Unknown.wellFormed {custom : CustomField} (unknown : custom.Unknown) : custom.WellFormed where
  tag := unknown.tag
  notLast := by
    intro last
    have := unknown.unknown
    rw [last, ofNumber_customNumber] at this
    cases this
  value := unknown.value

theorem decodeCustomField_unknown (unknown : CustomTag.ofNumber custom.tag = none) (s : CustomState) :
    decodeCustomField s custom =
      if custom.tag &&& kCustomTagNonSafeIgnoreMask ≠ 0 then .error (corrupt "new-file4 custom field not supported")
      else .ok s := by
  rw [decodeCustomField, unknown]
  rfl

section Custom
variable {custom custom' : List CustomField} {s s' : CustomState}

theorem wellFormed_woven (woven : Woven CustomField.Unknown Eq custom custom')
    (wellFormed : ∀ c ∈ custom, c.WellFormed) : ∀ c ∈ custom', c.WellFormed := by
  induction woven with
  | nil => exact wellFormed
  | keep same _ ih =>
    subst same
    obtain ⟨first, rest⟩ := forall_mem_cons.mp wellFormed
    exact forall_mem_cons.mpr ⟨first, ih rest⟩
  | insert fresh _ ih => exact forall_mem_cons.mpr ⟨fresh.wellFormed, ih wellFormed⟩

/-- Unknown fields that can be ignored change nothing. -/
theorem foldlM_woven (woven : Woven CustomField.Unknown Eq custom custom')
    (ignorable : ∀ c ∈ custom', CustomTag.ofNumber c.tag = none → c.tag &&& kCustomTagNonSafeIgnoreMask = 0)
    (decoded : custom.foldlM decodeCustomField s = .ok s') : custom'.foldlM decodeCustomField s = .ok s' := by
  induction woven generalizing s with
  | nil => exact decoded
  | @keep _ _ _ _ same _ ih =>
    subst same
    obtain ⟨next, stepped, decoded⟩ := Loop.ok_of_bind decoded
    rw [foldlM_cons, stepped]
    exact ih (forall_mem_cons.mp ignorable).2 decoded
  | @insert _ _ _ fresh _ ih =>
    obtain ⟨first, ignorable⟩ := forall_mem_cons.mp ignorable
    rw [foldlM_cons, decodeCustomField_unknown fresh.unknown, if_neg (not_not_intro (first fresh.unknown))]
    exact ih ignorable decoded

theorem Collects.woven (collected : Collects s custom s') (woven : Woven CustomField.Unknown Eq custom custom')
    (ignorable : ∀ c ∈ custom', CustomTag.ofNumber c.tag = none → c.tag &&& kCustomTagNonSafeIgnoreMask = 0) :
    Collects s custom' s' :=
  ⟨wellFormed_woven woven collected.wellFormed, foldlM_woven woven ignorable collected.decoded⟩

/-- A custom field that must be known ends the decoding. -/
theorem decodeCustomFields_fails (wellFormed : ∀ c ∈ custom, c.WellFormed) (member : c ∈ custom)
    (unknown : CustomTag.ofNumber c.tag = none) (must : c.tag &&& kCustomTagNonSafeIgnoreMask ≠ 0) (s : CustomState) :
    ∃ e, Rejects (decodeCustomFields s)
      (custom.flatMap CustomField.bytes ++ putVarint32 CustomTag.kTerminate.number) e := by
  have refused (s : CustomState) : ∃ e, decodeCustomField s c = .error e :=
    ⟨_, (decodeCustomField_unknown unknown s).trans (if_pos must)⟩
  obtain ⟨e, failed⟩ := Loop.foldlM_fails member refused s
  exact ⟨e, decodeCustomFields_refuses wellFormed failed⟩

end Custom

/-! ## Custom fields of blob files -/

section Blob
variable {custom custom' : List CustomField}

theorem unknown_woven (woven : Woven CustomField.UnknownInBlobFile Eq custom custom')
    (skipped : ∀ c ∈ custom, c.SkippedInBlobFile) : ∀ c ∈ custom', c.UnknownInBlobFile := by
  induction woven with
  | nil => exact fun _ member => nomatch member
  | keep same _ ih =>
    subst same
    obtain ⟨first, rest⟩ := forall_mem_cons.mp skipped
    exact forall_mem_cons.mpr ⟨⟨first.tag, first.notLast, first.value⟩, ih rest⟩
  | insert fresh _ ih => exact forall_mem_cons.mpr ⟨fresh, ih skipped⟩

/-- What a round does with a custom field of a blob file. -/
def passBlobCustomField (className : String) (_ : Unit) (c : CustomField) : Except Corruption Unit :=
  if c.tag &&& kForwardIncompatibleMask ≠ 0 then .error ⟨className, "Forward incompatible custom field encountered"⟩
  else .ok ()

private theorem blobCustomFieldRound_refuses (unknown : c.UnknownInBlobFile)
    (failed : passBlobCustomField className () c = .error e) :
    Rejects (blobCustomFieldRound className ()) c.bytes e := by
  refine (parses_customTag unknown.tag _).rejects ?_
  unfold passBlobCustomField at failed
  split at failed
  · next must =>
    cases failed
    rw [if_neg unknown.notLast, if_pos must]
    exact fun _ => rfl
  · cases failed

private theorem skipBlobCustomFields_fails (className : String) (unknown : ∀ c ∈ custom, c.UnknownInBlobFile)
    (member : c ∈ custom) (must : c.tag &&& kForwardIncompatibleMask ≠ 0) :
    ∃ e, Rejects (skipBlobCustomFields className) (custom.flatMap CustomField.bytes ++ putVarint32 kEndMarker) e := by
  have refused (s : Unit) : ∃ e, passBlobCustomField className s c = .error e := ⟨_, if_pos must⟩
  obtain ⟨e, failed⟩ := Loop.foldlM_fails member refused ()
  have reads : ∀ c ∈ custom, ∀ s s', passBlobCustomField className s c = .ok s' →
      Parses (blobCustomFieldRound className s) c.bytes (.inl s') := by
    intro c member s _ passed
    unfold passBlobCustomField at passed
    split at passed
    · cases passed
    · next compatible =>
      have known := unknown c member
      exact blobCustomFieldRound_reads className ⟨known.tag, known.notLast, not_not.mp compatible, known.value⟩
  have refuses : ∀ c ∈ custom, ∀ s e, passBlobCustomField className s c = .error e →
      Rejects (blobCustomFieldRound className s) c.bytes e :=
    fun c member _ _ => blobCustomFieldRound_refuses (unknown c member)
  refine ⟨e, fun _ => ?_⟩
  rw [append_assoc, skipBlobCustomFields, loop_items_error reads refuses failed]

end Blob

/-! ## Fields of edits -/

variable {edit edit' : VersionEdit} {fields fields' : List Field}

theorem decodeField_unknown (edit : VersionEdit) (unknown : Tag.ofNumber tag = none) : edit.decodeField tag =
      if tag &&& kTagSafeIgnoreMask ≠ 0 then do
        let _ ← slice (corrupt "safely ignoreable tag length error")
        return edit
      else throw (corrupt "unknown tag") := by
  rw [VersionEdit.decodeField, unknown]

theorem Field.Unknown.applies {field : Field} (unknown : field.Unknown) (ignorable : ¬ field.NotIgnorable)
    (edit : VersionEdit) : Applies edit field edit := by
  cases unknown with
  | field small unknown short =>
    have marked : ¬ _ = 0 := fun none => ignorable ⟨unknown, none⟩
    refine .plain small ?_
    rw [decodeField_unknown edit unknown, if_pos marked]
    exact (parses_slice _ short).last (Parses.pure _)

theorem plain_fails (small : tag < 2 ^ 32) (must : (Field.plain tag body).NotIgnorable)
    (edit : VersionEdit) : ∃ e, Rejects edit.decodeRound (Field.plain tag body).bytes e := by
  refine ⟨corrupt "unknown tag", decodeRound_refuses small ?_⟩
  rw [decodeField_unknown edit must.1, if_neg (not_not_intro must.2)]
  exact fun _ => rfl

theorem Field.Unknown.fails {field : Field} (unknown : field.Unknown) (must : field.NotIgnorable)
    (edit : VersionEdit) : ∃ e, Rejects edit.decodeRound field.bytes e := by
  cases unknown with
  | field small => exact plain_fails small must edit

/-- A field that can be ignored in part has the effect of what is known of it. -/
theorem Applies.extended (applies : Applies edit f edit') (extended : f.Extended g)
    (ignorable : ¬ g.NotIgnorable) : Applies edit g edit' := by
  cases extended with
  | plain => exact applies
  | newFile4 _ woven =>
    cases applies with
    | newFile4 finish read collected =>
      refine .newFile4 finish read (collected.woven woven fun c member unknown => ?_)
      exact not_not.mp fun must => ignorable ⟨c, member, unknown, must⟩
  | blobFile tag _ woven =>
    cases applies with
    | blobFile className read skipped =>
      refine .blobFile className read fun c member => ?_
      have unknown := unknown_woven woven skipped c member
      exact ⟨unknown.tag, unknown.notLast, not_not.mp fun must => ignorable ⟨c, member, must⟩, unknown.value⟩

theorem Applies.extended_fails (applies : Applies edit f edit') (extended : f.Extended g)
    (must : g.NotIgnorable) : ∃ e, Rejects edit.decodeRound g.bytes e := by
  cases extended with
  | plain =>
    cases applies with
    | plain small => exact plain_fails small must edit
  | newFile4 _ woven =>
    cases applies with
    | newFile4 _ read collected =>
      obtain ⟨c, member, unknown, marked⟩ := must
      obtain ⟨e, failed⟩ :=
        decodeCustomFields_fails (wellFormed_woven woven collected.wellFormed) member unknown marked _
      refine ⟨e, decodeRound_refuses (tag_lt .kNewFile4) ?_⟩
      exact rejects_behind read failed
  | blobFile tag _ woven =>
    cases applies with
    | blobFile className read skipped =>
      obtain ⟨_, member, marked⟩ := must
      obtain ⟨e, failed⟩ := skipBlobCustomFields_fails className (unknown_woven woven skipped) member marked
      refine ⟨e, decodeRound_refuses (tag_lt tag) ?_⟩
      rw [decodeField_number]
      exact rejects_behind read failed

theorem AppliesAll.woven (all : AppliesAll edit fields edit')
    (woven : Woven Field.Unknown Field.Extended fields fields') (ignorable : ∀ f ∈ fields', ¬ f.NotIgnorable) :
    AppliesAll edit fields' edit' := by
  induction woven generalizing edit with
  | nil => exact all
  | keep extended _ ih =>
    obtain ⟨first, ignorable⟩ := forall_mem_cons.mp ignorable
    cases all with
    | cons applies rest => exact .cons (applies.extended extended first) (ih rest ignorable)
  | insert unknown _ ih =>
    obtain ⟨first, ignorable⟩ := forall_mem_cons.mp ignorable
    exact .cons (unknown.applies first edit) (ih all ignorable)

/-- The decoding stops at the first field that must be known. -/
theorem AppliesAll.woven_fails (all : AppliesAll edit fields edit')
    (woven : Woven Field.Unknown Field.Extended fields fields') (must : ∃ f ∈ fields', f.NotIgnorable) :
    ∃ e, edit.decodeRest (bytesOf fields') = .error e := by
  have stops {edit : VersionEdit} {f : Field} {rest : List Field} (failed : ∃ e, Rejects edit.decodeRound f.bytes e) :
      ∃ e, edit.decodeRest (bytesOf (f :: rest)) = .error e :=
    failed.imp fun e rejects => loop_error (rejects _)
  have continues {edit next : VersionEdit} {f : Field} {rest : List Field} (applies : Applies edit f next)
      (later : ∃ e, next.decodeRest (bytesOf rest) = .error e) : ∃ e, edit.decodeRest (bytesOf (f :: rest)) = .error e :=
    later.imp fun _ failed => (loop_again (applies.reads _)).trans failed
  induction woven generalizing edit with
  | nil =>
    obtain ⟨_, member, -⟩ := must
    cases member
  | @keep _ g _ _ extended _ ih =>
    cases all with
    | cons applies all =>
      by_cases here : g.NotIgnorable
      · exact stops (applies.extended_fails extended here)
      · obtain ⟨f', member, bad⟩ := must
        refine continues (applies.extended extended here) (ih all ⟨f', ?_, bad⟩)
        exact (mem_cons.mp member).resolve_left fun same => here (same ▸ bad)
  | @insert g _ _ unknown _ ih =>
    by_cases here : g.NotIgnorable
    · exact stops (unknown.fails here edit)
    · obtain ⟨f', member, bad⟩ := must
      refine continues (unknown.applies here edit) (ih all ⟨f', ?_, bad⟩)
      exact (mem_cons.mp member).resolve_left fun same => here (same ▸ bad)

theorem Woven.refl {α : Type} {new : α → Prop} {kept : α → α → Prop} (same : ∀ x, kept x x) (l : List α) :
    Woven new kept l l := by
  induction l with
  | nil => exact .nil
  | cons x _ ih => exact .keep (same x) ih

theorem Field.Extended.refl (f : Field) : f.Extended f := by
  cases f with
  | plain tag body => exact .plain tag body
  | newFile4 head custom => exact .newFile4 head (Woven.refl (fun _ => rfl) custom)
  | blobFile tag head custom => exact .blobFile tag head (Woven.refl (fun _ => rfl) custom)

/-- Every field that is read can be. -/
theorem AppliesAll.ignorable (all : AppliesAll edit fields edit') : ∀ f ∈ fields, ¬ f.NotIgnorable := by
  induction all with
  | nil => exact fun _ member => nomatch member
  | cons applies _ ih =>
    refine forall_mem_cons.mpr ⟨fun must => ?_, ih⟩
    obtain ⟨_, failed⟩ := applies.extended_fails (Field.Extended.refl _) must
    have read := applies.reads []
    rw [failed] at read
    cases read

/-- **Unknown fields that can be ignored do not change what is decoded, and one that must be
known makes the decoding fail**, wherever they stand among the fields of an encoded edit and
among the custom fields of its files. -/
theorem decodes_with_unknown_fields {edit : VersionEdit} (inRange : edit.InRange) {tsSz : Option Nat}
    {fields fields' : List Field} (encoded : edit.fields tsSz = some fields)
    (woven : Woven Field.Unknown Field.Extended fields fields') :
    edit.encodeTo tsSz = some (bytesOf fields) ∧ ((∀ f ∈ fields', ¬ f.NotIgnorable) →
        VersionEdit.decodeFrom (bytesOf fields) = .ok (edit.written tsSz) ∧
          VersionEdit.decodeFrom (bytesOf fields') = VersionEdit.decodeFrom (bytesOf fields)) ∧
      ((∃ f ∈ fields', f.NotIgnorable) → ∃ e, VersionEdit.decodeFrom (bytesOf fields') = .error e) := by
  have all := fields_apply inRange encoded
  refine ⟨by rw [VersionEdit.encodeTo, encoded]; rfl, fun ignorable => ?_, fun must => ?_⟩
  · have decoded := all.decodeFrom
    exact ⟨decoded, (all.woven woven ignorable).decodeFrom.trans decoded.symm⟩
  · obtain ⟨e, failed⟩ := all.woven_fails woven must
    exact ⟨e, congrArg (Except.map Prod.fst) failed⟩

/-- One field that can be ignored in front of an edit, and one that must be known. -/
theorem timestampedEdit_with_unknown_field : ∃ fields, timestampedEdit.fields (some 8) = some fields ∧
    VersionEdit.decodeFrom (bytesOf (.plain 8300 (putLengthPrefixedSlice [1, 2]) :: fields)) =
      .ok (timestampedEdit.written (some 8)) ∧
    ∃ e, VersionEdit.decodeFrom (bytesOf (.plain 8000 (putLengthPrefixedSlice [1, 2]) :: fields)) = .error e := by
  obtain ⟨fields, encoded⟩ : ∃ fields, timestampedEdit.fields (some 8) = some fields := Option.isSome_iff_exists.mp rfl
  have ignorable := (fields_apply timestampedEdit_inRange encoded).ignorable
  have kept : Woven Field.Unknown Field.Extended fields fields := Woven.refl Field.Extended.refl fields
  obtain ⟨-, safe, -⟩ := decodes_with_unknown_fields timestampedEdit_inRange encoded
    (.insert (.field (by decide) (by decide) (by decide) :
      (Field.plain 8300 (putLengthPrefixedSlice [1, 2])).Unknown) kept)
  obtain ⟨-, -, mustKnow⟩ := decodes_with_unknown_fields timestampedEdit_inRange encoded
    (.insert (.field (by decide) (by decide) (by decide) :
      (Field.plain 8000 (putLengthPrefixedSlice [1, 2])).Unknown) kept)
  obtain ⟨decoded, same⟩ := safe (forall_mem_cons.mpr ⟨fun must => absurd must.2 (by decide), ignorable⟩)
  exact ⟨fields, encoded, same.trans decoded, mustKnow ⟨_, mem_cons_self, by decide, by decide⟩⟩

end Rocksdb.Manifest
