import OpenSoundControl.Codec
import OpenSoundControl.Proofs.Fields
import Mathlib.Data.List.Forall2

/-!
The grammar of packets, and that a codec reads a message from a packet exactly when the grammar
gives the packet for this message.
-/

namespace OpenSoundControl

theorem utf8EncodeChar_tag (tag : Tag) :
    String.utf8EncodeChar (Char.ofNat tag.byte.toNat) = [tag.byte] := by
  cases tag <;> decide

theorem Message.encode_typeTags (message : Message) :
    Utf8.encode message.typeTags = message.arguments.map (·.tag.byte) := by
  have each (arguments : List Argument) :
      (arguments.map fun argument => Char.ofNat argument.tag.byte.toNat).flatMap
        String.utf8EncodeChar = arguments.map (·.tag.byte) := by
    induction arguments with
    | nil => rfl
    | cons argument rest ih =>
        rw [List.map_cons, List.flatMap_cons, ih, utf8EncodeChar_tag]
        rfl
  rw [Utf8.encode, Message.typeTags, String.toList_ofList, each]

namespace Codec

/-- The tags of the arguments with the comma in front, which a lenient codec does without. -/
def TagField (codec : Codec) (arguments : List Argument) (field : Bytes) : Prop :=
  ∃ text, Wire.StringField text field ∧
    (Utf8.encode text = commaByte :: arguments.map (·.tag.byte) ∨
      codec.strict = false ∧ Utf8.encode text = arguments.map (·.tag.byte))

/-- A lenient codec also takes a packet that ends behind the address, and bytes behind the last
payload. -/
inductive Packet (codec : Codec) (message : Message) : Bytes → Prop
  | bare {address} : codec.strict = false → message.arguments = [] →
      Wire.StringField message.address address → Packet codec message address
  | tagged {address tags rest : Bytes} {payloads : List Bytes} :
      Wire.StringField message.address address → codec.TagField message.arguments tags →
      List.Forall₂ Argument.PayloadField message.arguments payloads →
      (codec.strict = true → rest = []) →
      Packet codec message (address ++ tags ++ payloads.flatten ++ rest)

theorem Cursor.step_eq_ok_iff (cursor next : Cursor) (byte : UInt8) :
    cursor.step byte = .ok next ↔ ∃ argument field rest, byte = argument.tag.byte ∧
      cursor.rest = field ++ rest ∧ argument.PayloadField field ∧
      next = ⟨cursor.tagPosition + 1, cursor.position + field.length, rest,
        argument :: cursor.found⟩ := by
  constructor
  · intro stepped
    unfold Cursor.step at stepped
    split at stepped
    · contradiction
    · rename_i tag known
      rw [Tag.ofByte?_eq_some_iff] at known
      subst byte
      split at stepped
      · contradiction
      · rename_i argument consumed read
        obtain ⟨rfl, field, rest, split, holds, rfl⟩ := (Tag.read_eq_ok_iff _ _ _ _).mp read
        rw [split, List.drop_left] at stepped
        exact ⟨argument, field, rest, rfl, split, holds, (Except.ok.inj stepped).symm⟩
  · rintro ⟨argument, field, rest, rfl, split, holds, rfl⟩
    have read := (Tag.read_eq_ok_iff argument.tag cursor.rest argument field.length).mpr
      ⟨rfl, field, rest, split, holds, rfl⟩
    simp only [Cursor.step, Tag.ofByte?_byte, read]
    rw [split, List.drop_left]

theorem foldlM_step_eq_ok_iff (cursor last : Cursor) (tags : Bytes) :
    tags.foldlM Cursor.step cursor = .ok last ↔ ∃ arguments payloads rest,
      tags = arguments.map (·.tag.byte) ∧ cursor.rest = payloads.flatten ++ rest ∧
      List.Forall₂ Argument.PayloadField arguments payloads ∧
      last = ⟨cursor.tagPosition + arguments.length, cursor.position + payloads.flatten.length,
        rest, arguments.reverse ++ cursor.found⟩ := by
  induction tags generalizing cursor with
  | nil =>
      constructor
      · intro done
        have same := Except.ok.inj done
        exact ⟨[], [], cursor.rest, rfl, rfl, .nil, by rw [← same]; rfl⟩
      · rintro ⟨arguments, payloads, rest, tags, split, fields, rfl⟩
        obtain rfl := List.map_eq_nil_iff.mp tags.symm
        cases fields
        simp only [List.flatten_nil, List.nil_append] at split
        subst rest
        rfl
  | cons tag tags ih =>
      rw [List.foldlM_cons]
      constructor
      · intro done
        obtain ⟨next, stepped, later⟩ := bind_eq_ok_iff.mp done
        obtain ⟨argument, field, rest, rfl, split, holds, rfl⟩ :=
          (cursor.step_eq_ok_iff next tag).mp stepped
        obtain ⟨arguments, payloads, behind, rfl, splitLater, fields, rfl⟩ := (ih _).mp later
        dsimp only at splitLater
        refine ⟨argument :: arguments, field :: payloads, behind, rfl, ?_, .cons holds fields, ?_⟩
        · rw [split, splitLater, List.flatten_cons, List.append_assoc]
        · simp only [List.length_cons, List.flatten_cons, List.length_append, List.reverse_cons,
            List.append_assoc, List.singleton_append, Cursor.mk.injEq, and_true]
          omega
      · rintro ⟨arguments, payloads, rest, same, split, fields, rfl⟩
        cases fields with
        | nil => contradiction
        | cons holds fields =>
            rename_i argument field arguments payloads
            obtain ⟨rfl, rfl⟩ := List.cons.inj same
            refine bind_eq_ok_iff.mpr ⟨⟨cursor.tagPosition + 1, cursor.position + field.length,
              payloads.flatten ++ rest, argument :: cursor.found⟩, ?_, ?_⟩
            · rw [cursor.step_eq_ok_iff]
              rw [List.flatten_cons, List.append_assoc] at split
              exact ⟨argument, field, _, rfl, split, holds, rfl⟩
            · refine (ih _).mpr ⟨arguments, payloads, rest, rfl, rfl, fields, ?_⟩
              simp only [List.length_cons, List.flatten_cons, List.length_append,
                List.reverse_cons, List.append_assoc, List.singleton_append, Cursor.mk.injEq,
                and_true]
              omega

theorem splitTags_eq_ok_iff (codec : Codec) (position first : Nat) (content tags : Bytes) :
    codec.splitTags position content = .ok (tags, first) ↔
      (content = commaByte :: tags ∧ first = position + 1) ∨
        (content.head? ≠ some commaByte ∧ codec.strict = false ∧ content = tags ∧
          first = position) := by
  unfold splitTags
  split
  · rename_i comma
    obtain ⟨rest, rfl⟩ := List.head?_eq_some_iff.mp comma
    constructor
    · intro same
      obtain ⟨rfl, rfl⟩ := Prod.mk.inj (Except.ok.inj same)
      exact .inl ⟨rfl, rfl⟩
    · rintro (⟨same, rfl⟩ | ⟨noComma, -⟩)
      · obtain ⟨-, rfl⟩ := List.cons.inj same
        rfl
      · contradiction
  · rename_i noComma
    constructor
    · intro same
      split at same
      · contradiction
      · rename_i lenient
        obtain ⟨rfl, rfl⟩ := Prod.mk.inj (Except.ok.inj same)
        exact .inr ⟨noComma, Bool.eq_false_iff.mpr lenient, rfl, rfl⟩
    · rintro (⟨rfl, -⟩ | ⟨-, lenient, rfl, rfl⟩)
      · exact absurd rfl noComma
      · simp [lenient]

theorem head_tags_ne_comma (arguments : List Argument) :
    (arguments.map (·.tag.byte)).head? ≠ some commaByte := by
  cases arguments with
  | nil => simp
  | cons argument rest =>
      rw [List.map_cons, List.head?_cons]
      cases argument.tag <;> decide

theorem decodeArguments_tagField {codec : Codec} {arguments : List Argument} {tags : Bytes}
    (tagged : codec.TagField arguments tags) (position : Nat) (bytes : Bytes) :
    ∃ first, codec.decodeArguments position (tags ++ bytes) =
      ((arguments.map (·.tag.byte)).foldlM Cursor.step
        ⟨first, position + tags.length, bytes, []⟩).bind fun last =>
          if codec.strict && !last.rest.isEmpty then
            .error (.parse last.position (.trailingBytes last.rest.length))
          else .ok last.found.reverse := by
  obtain ⟨text, holds, content⟩ := tagged
  have isText := (Wire.readString_eq_ok_iff (tags ++ bytes) text _).mpr
    ⟨tags, bytes, rfl, holds, rfl⟩
  have isTags : ∃ first, codec.splitTags position (Utf8.encode text) =
      .ok (arguments.map (·.tag.byte), first) := by
    rcases content with content | ⟨lenient, content⟩
    · exact ⟨position + 1, (splitTags_eq_ok_iff ..).mpr (.inl ⟨content, rfl⟩)⟩
    · refine ⟨position, (splitTags_eq_ok_iff ..).mpr (.inr ⟨?_, lenient, content, rfl⟩)⟩
      rw [content]
      exact head_tags_ne_comma arguments
  obtain ⟨first, isTags⟩ := isTags
  refine ⟨first, ?_⟩
  simp only [decodeArguments, isText, isTags, Except.mapError, List.drop_left, bind, Except.bind]

theorem decodeArguments_eq_ok_iff (codec : Codec) (position : Nat) (bytes : Bytes)
    (arguments : List Argument) :
    codec.decodeArguments position bytes = .ok arguments ↔
      ∃ tags payloads rest, bytes = tags ++ payloads.flatten ++ rest ∧
        codec.TagField arguments tags ∧ List.Forall₂ Argument.PayloadField arguments payloads ∧
        (codec.strict = true → rest = []) := by
  constructor
  · intro decoded
    obtain ⟨⟨text, consumed⟩, isText, decoded⟩ := bind_eq_ok_iff.mp decoded
    obtain ⟨⟨tags, first⟩, isTags, decoded⟩ := bind_eq_ok_iff.mp decoded
    obtain ⟨last, run, decoded⟩ := bind_eq_ok_iff.mp decoded
    obtain ⟨field, behind, rfl, holds, rfl⟩ :=
      (Wire.readString_eq_ok_iff _ _ _).mp (mapError_eq_ok_iff.mp isText)
    obtain ⟨found, payloads, rest, rfl, split, fields, rfl⟩ :=
      (foldlM_step_eq_ok_iff _ _ _).mp run
    rw [List.drop_left] at split
    dsimp only at split
    subst behind
    split at decoded
    · contradiction
    · rename_i complete
      have same := Except.ok.inj decoded
      simp only [List.append_nil, List.reverse_reverse] at same
      subst found
      refine ⟨field, payloads, rest, by rw [List.append_assoc], ⟨text, holds, ?_⟩, fields, ?_⟩
      · rcases (splitTags_eq_ok_iff _ _ _ _ _).mp isTags with
          ⟨content, -⟩ | ⟨-, lenient, content, -⟩
        · exact .inl content
        · exact .inr ⟨lenient, content⟩
      · intro strict
        simpa [strict] using complete
  · rintro ⟨tags, payloads, rest, rfl, tagged, fields, complete⟩
    obtain ⟨first, behind⟩ := decodeArguments_tagField tagged position (payloads.flatten ++ rest)
    have run := (foldlM_step_eq_ok_iff ⟨first, position + tags.length, payloads.flatten ++ rest, []⟩
      _ (arguments.map (·.tag.byte))).mpr ⟨arguments, payloads, rest, rfl, rfl, fields, rfl⟩
    rw [List.append_assoc, behind]
    refine bind_eq_ok_iff.mpr ⟨_, run, ?_⟩
    rw [if_neg]
    · rw [List.append_nil, List.reverse_reverse]
    · intro trailing
      simp only [Bool.and_eq_true, Bool.not_eq_true', List.isEmpty_eq_false_iff] at trailing
      exact trailing.2 (complete trailing.1)

theorem decodeAddress_eq_ok_iff (packet : Bytes) (address : String) (consumed : Nat) :
    decodeAddress packet = .ok (address, consumed) ↔ address ≠ "" ∧ address ≠ bundleAddress ∧
      ∃ field rest, packet = field ++ rest ∧ Wire.StringField address field ∧
        consumed = field.length := by
  rw [← Wire.readString_eq_ok_iff]
  constructor
  · intro decoded
    obtain ⟨⟨text, size⟩, read, named⟩ := bind_eq_ok_iff.mp decoded
    dsimp only at named
    split at named
    · contradiction
    · rename_i nonempty
      split at named
      · contradiction
      · rename_i noBundle
        obtain ⟨rfl, rfl⟩ := Prod.mk.inj (Except.ok.inj named)
        exact ⟨nonempty, noBundle, read⟩
  · rintro ⟨nonempty, noBundle, read⟩
    refine bind_eq_ok_iff.mpr ⟨(address, consumed), read, ?_⟩
    dsimp only
    rw [if_neg nonempty, if_neg noBundle]

theorem decode_bare {codec : Codec} {address : String} {field : Bytes}
    (holds : Wire.StringField address field) (nonempty : address ≠ "")
    (noBundle : address ≠ bundleAddress) (fits : field.length ≤ codec.limit)
    (sender : Option String) :
    codec.decode field sender = if codec.strict then .error (.parse field.length .missingTags)
      else .ok ⟨address, [], sender⟩ := by
  have isAddress := (decodeAddress_eq_ok_iff field address field.length).mpr
    ⟨nonempty, noBundle, field, [], (List.append_nil _).symm, holds, rfl⟩
  simp only [decode, if_neg (Nat.not_lt.mpr fits), isAddress, List.drop_length, bind, Except.bind]

theorem decode_tagged {codec : Codec} {address : String} {field bytes : Bytes}
    (holds : Wire.StringField address field) (nonempty : address ≠ "")
    (noBundle : address ≠ bundleAddress) (fits : (field ++ bytes).length ≤ codec.limit)
    (more : bytes ≠ []) (sender : Option String) :
    codec.decode (field ++ bytes) sender =
      (codec.decodeArguments field.length bytes).map fun arguments =>
        ⟨address, arguments, sender⟩ := by
  have isAddress := (decodeAddress_eq_ok_iff (field ++ bytes) address field.length).mpr
    ⟨nonempty, noBundle, field, bytes, rfl, holds, rfl⟩
  obtain ⟨byte, behind, rfl⟩ := List.exists_cons_of_ne_nil more
  simp only [decode, if_neg (Nat.not_lt.mpr fits), isAddress, List.drop_left, bind, Except.bind]
  cases codec.decodeArguments field.length (byte :: behind) <;> rfl

theorem decode_eq_ok_iff (codec : Codec) (packet : Bytes) (sender : Option String)
    (message : Message) :
    codec.decode packet sender = .ok message ↔
      packet.length ≤ codec.limit ∧ message.sender = sender ∧ message.address ≠ "" ∧
        message.address ≠ bundleAddress ∧ codec.Packet message packet := by
  constructor
  · intro decoded
    unfold decode at decoded
    split at decoded
    · contradiction
    · rename_i fits
      obtain ⟨⟨address, consumed⟩, isAddress, decoded⟩ := bind_eq_ok_iff.mp decoded
      obtain ⟨nonempty, noBundle, field, rest, rfl, holds, rfl⟩ :=
        (decodeAddress_eq_ok_iff ..).mp isAddress
      dsimp only at decoded
      rw [List.drop_left] at decoded
      cases rest with
      | nil =>
          dsimp only at decoded
          split at decoded
          · contradiction
          · rename_i lenient
            obtain rfl := Except.ok.inj decoded
            rw [List.append_nil] at fits ⊢
            exact ⟨by omega, rfl, nonempty, noBundle,
              .bare (Bool.eq_false_iff.mpr lenient) rfl holds⟩
      | cons byte rest =>
          obtain ⟨arguments, isArguments, same⟩ := bind_eq_ok_iff.mp decoded
          obtain rfl := Except.ok.inj same
          obtain ⟨tags, payloads, behind, split, tagged, fields, complete⟩ :=
            (decodeArguments_eq_ok_iff ..).mp isArguments
          rw [split, ← List.append_assoc, ← List.append_assoc] at fits ⊢
          exact ⟨by omega, rfl, nonempty, noBundle, .tagged holds tagged fields complete⟩
  · rintro ⟨fits, rfl, nonempty, noBundle, grammar⟩
    cases grammar with
    | bare lenient noArguments holds =>
        rw [decode_bare holds nonempty noBundle fits, if_neg (by simp [lenient]), ← noArguments]
    | tagged holds tagged fields complete =>
        rename_i address tags rest payloads
        have isArguments := (decodeArguments_eq_ok_iff codec address.length
          (tags ++ payloads.flatten ++ rest) message.arguments).mpr
          ⟨tags, payloads, rest, rfl, tagged, fields, complete⟩
        have more : tags ++ payloads.flatten ++ rest ≠ [] := by
          obtain ⟨text, ⟨-, padding, rfl, -⟩, -⟩ := tagged
          simp
        rw [List.append_assoc, List.append_assoc, ← List.append_assoc tags] at fits ⊢
        rw [decode_tagged holds nonempty noBundle fits more, isArguments]
        rfl

/-- A packet is read as a message exactly when it splits into the fields of this message. -/
theorem decode_ok_iff_fields (codec : Codec) (packet : Bytes) (sender : Option String)
    (message : Message) :
    codec.decode packet sender = .ok message ↔
      packet.length ≤ codec.limit ∧ message.sender = sender ∧
        ∃ address tags payloads rest, packet = address ++ tags ++ payloads ++ rest ∧
          Wire.StringField message.address address ∧ message.address ≠ "" ∧
          message.address ≠ bundleAddress ∧
          ((tags = [] ∧ payloads = [] ∧ rest = [] ∧ message.arguments = [] ∧
              codec.strict = false) ∨
            (codec.TagField message.arguments tags ∧
              (∃ fields, payloads = fields.flatten ∧
                List.Forall₂ Argument.PayloadField message.arguments fields) ∧
              (codec.strict = true → rest = []))) := by
  rw [decode_eq_ok_iff]
  constructor
  · rintro ⟨fits, origin, nonempty, noBundle, grammar⟩
    refine ⟨fits, origin, ?_⟩
    cases grammar with
    | bare lenient noArguments holds =>
        exact ⟨packet, [], [], [], by simp, holds, nonempty, noBundle,
          .inl ⟨rfl, rfl, rfl, noArguments, lenient⟩⟩
    | tagged holds tagged fields complete =>
        exact ⟨_, _, _, _, rfl, holds, nonempty, noBundle,
          .inr ⟨tagged, ⟨_, rfl, fields⟩, complete⟩⟩
  · rintro ⟨fits, origin, address, tags, payloads, rest, rfl, holds, nonempty, noBundle, shape⟩
    refine ⟨fits, origin, nonempty, noBundle, ?_⟩
    rcases shape with
      ⟨rfl, rfl, rfl, noArguments, lenient⟩ | ⟨tagged, ⟨fields, rfl, held⟩, complete⟩
    · simp only [List.append_nil]
      exact .bare lenient noArguments holds
    · exact .tagged holds tagged held complete

end Codec

end OpenSoundControl
