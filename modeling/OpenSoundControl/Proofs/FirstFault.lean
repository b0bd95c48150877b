import OpenSoundControl.Proofs.FieldFaults
import OpenSoundControl.Proofs.Strictness

/-!
The first thing that is wrong with a packet, in the order of reading: the address, the text of the
tags, each tag before its payload, and what a strict codec asks of the end. A packet without such a
fault is read, and from one with a fault the codec reports exactly this.
-/

namespace OpenSoundControl

namespace Codec

structure AddressField (name : String) (field : Bytes) : Prop where
  holds : Wire.StringField name field
  named : name ≠ ""
  noBundle : name ≠ bundleAddress

/-- A packet as far as it is read: the address, the text of the tags, and the payloads of the first
arguments. The tags `later` and the bytes `rest` are still to be read. -/
structure Progress (codec : Codec) (packet : Bytes) where
  name : String
  text : String
  mark : Bytes
  arguments : List Argument
  later : Bytes
  address : Bytes
  tags : Bytes
  payloads : List Bytes
  rest : Bytes
  split : packet = address ++ (tags ++ (payloads.flatten ++ rest))
  addressHolds : AddressField name address
  tagsHold : Wire.StringField text tags
  content : Utf8.encode text = mark ++ (arguments.map (·.tag.byte) ++ later)
  marked : mark = [commaByte] ∨
    mark = [] ∧ codec.strict = false ∧ (Utf8.encode text).head? ≠ some commaByte
  fields : List.Forall₂ Argument.PayloadField arguments payloads

namespace Progress

variable {codec : Codec} {packet : Bytes}

def tagPosition (front : codec.Progress packet) : Nat :=
  front.address.length + front.mark.length + front.arguments.length

def position (front : codec.Progress packet) : Nat :=
  front.address.length + front.tags.length + front.payloads.flatten.length

end Progress

/-- What is to be read next: a text for the address, a text for the tags, or a payload. -/
inductive Next (codec : Codec) (packet : Bytes) : Nat → Tag → Bytes → Prop
  | address : Next codec packet 0 .string packet
  | tags {name : String} {address rest : Bytes} : packet = address ++ rest →
      AddressField name address → rest ≠ [] → Next codec packet address.length .string rest
  | payload (front : codec.Progress packet) {tag : Tag} {later : Bytes} :
      front.later = tag.byte :: later → Next codec packet front.position tag front.rest

inductive FirstFault (codec : Codec) (packet : Bytes) : Nat → ParseCause → Prop
  | cut {position : Nat} {tag : Tag} {rest : Bytes} {cause : ParseCause} :
      codec.Next packet position tag rest → tag.Cut rest cause →
      FirstFault codec packet packet.length cause
  | refused {position offset : Nat} {tag : Tag} {rest : Bytes} {cause : ParseCause} :
      codec.Next packet position tag rest → tag.Refused rest offset cause →
      FirstFault codec packet (position + offset) cause
  | emptyAddress {address rest : Bytes} : packet = address ++ rest →
      Wire.StringField "" address → FirstFault codec packet 0 .emptyAddress
  | bundle {address rest : Bytes} : packet = address ++ rest →
      Wire.StringField bundleAddress address → FirstFault codec packet 0 .bundle
  | noTags {name : String} : codec.strict = true → AddressField name packet →
      FirstFault codec packet packet.length .missingTags
  | noComma {name text : String} {address tags rest : Bytes} : codec.strict = true →
      packet = address ++ (tags ++ rest) → AddressField name address →
      Wire.StringField text tags → (Utf8.encode text).head? ≠ some commaByte →
      FirstFault codec packet address.length .missingComma
  | unknownTag (front : codec.Progress packet) {byte : UInt8} {later : Bytes} :
      front.later = byte :: later → (∀ tag : Tag, byte ≠ tag.byte) →
      FirstFault codec packet front.tagPosition (.unknownTag byte)
  | trailing (front : codec.Progress packet) : codec.strict = true → front.later = [] →
      front.rest ≠ [] →
      FirstFault codec packet front.position (.trailingBytes front.rest.length)

variable {codec : Codec} {packet : Bytes}

theorem Progress.decode_eq (front : codec.Progress packet) (fits : packet.length ≤ codec.limit)
    (sender : Option String) :
    codec.decode packet sender =
      ((front.later.foldlM Cursor.step
        ⟨front.tagPosition, front.position, front.rest, front.arguments.reverse⟩).bind fun last =>
          if codec.strict && !last.rest.isEmpty then
            .error (.parse last.position (.trailingBytes last.rest.length))
          else .ok last.found.reverse).map fun arguments => ⟨front.name, arguments, sender⟩ := by
  obtain ⟨name, text, mark, arguments, later, address, tags, payloads, rest, rfl,
    ⟨addressHolds, named, noBundle⟩, tagsHold, content, marked, fields⟩ := front
  have more : tags ++ (payloads.flatten ++ rest) ≠ [] := by
    obtain ⟨-, padding, rfl, -⟩ := tagsHold
    simp
  have isText := (Wire.readString_eq_ok_iff (tags ++ (payloads.flatten ++ rest)) text _).mpr
    ⟨tags, payloads.flatten ++ rest, rfl, tagsHold, rfl⟩
  have isTags : codec.splitTags address.length (Utf8.encode text) =
      .ok (arguments.map (·.tag.byte) ++ later, address.length + mark.length) := by
    rw [splitTags_eq_ok_iff]
    rcases marked with rfl | ⟨rfl, lenient, noComma⟩
    · exact .inl ⟨content, rfl⟩
    · exact .inr ⟨noComma, lenient, content, rfl⟩
  have run := (foldlM_step_eq_ok_iff
    ⟨address.length + mark.length, address.length + tags.length, payloads.flatten ++ rest, []⟩
    _ (arguments.map (·.tag.byte))).mpr ⟨arguments, payloads, rest, rfl, rfl, fields, rfl⟩
  rw [List.append_nil] at run
  rw [decode_tagged addressHolds named noBundle fits more]
  simp only [decodeArguments, isText, isTags, Except.mapError, List.drop_left, bind,
    List.foldlM_append, Except.bind, run]
  rfl

theorem Next.decode_eq {position offset : Nat} {tag : Tag} {rest : Bytes} {cause : ParseCause}
    (next : codec.Next packet position tag rest)
    (failed : tag.read rest = .error (.parse offset cause)) (fits : packet.length ≤ codec.limit)
    (sender : Option String) :
    codec.decode packet sender = .error (.parse (position + offset) cause) := by
  cases next with
  | address =>
      have noText := map_eq_error_iff.mp failed
      simp only [decode, if_neg (Nat.not_lt.mpr fits), decodeAddress, noText, bind, Except.bind,
        Nat.zero_add]
  | tags split addressHolds more =>
      subst split
      have noText := map_eq_error_iff.mp failed
      rw [decode_tagged addressHolds.holds addressHolds.named addressHolds.noBundle fits more]
      simp only [decodeArguments, noText, Except.mapError, Error.shift_parse, bind, Except.bind,
        Except.map]
  | payload front more =>
      rw [front.decode_eq fits, more, List.foldlM_cons]
      simp only [Cursor.step, Tag.ofByte?_byte, failed, Error.shift_parse, bind, Except.bind,
        Except.map]

theorem Progress.position_add (front : codec.Progress packet) :
    front.position + front.rest.length = packet.length := by
  have size := congrArg List.length front.split
  simp only [List.length_append] at size
  rw [position]
  omega

theorem Next.position_add {position : Nat} {tag : Tag} {rest : Bytes}
    (next : codec.Next packet position tag rest) : position + rest.length = packet.length := by
  cases next with
  | address => exact Nat.zero_add _
  | tags split _ _ => rw [split, List.length_append]
  | payload front _ => exact front.position_add

theorem FirstFault.decode_eq {offset : Nat} {cause : ParseCause}
    (fault : codec.FirstFault packet offset cause) (fits : packet.length ≤ codec.limit)
    (sender : Option String) :
    codec.decode packet sender = .error (.parse offset cause) := by
  have within : ¬codec.limit < packet.length := Nat.not_lt.mpr fits
  cases fault with
  | cut next isCut => rw [next.decode_eq isCut.read fits, next.position_add]
  | refused next isRefused => exact next.decode_eq isRefused.read fits sender
  | @emptyAddress address rest split holds =>
      have isText := (Wire.readString_eq_ok_iff packet _ _).mpr ⟨address, rest, split, holds, rfl⟩
      simp [decode, within, decodeAddress, isText, bind, Except.bind]
  | @bundle address rest split holds =>
      have isText := (Wire.readString_eq_ok_iff packet _ _).mpr ⟨address, rest, split, holds, rfl⟩
      have named : bundleAddress ≠ "" := by decide
      simp [decode, within, decodeAddress, isText, named, bind, Except.bind]
  | noTags strict holds =>
      rw [decode_bare holds.holds holds.named holds.noBundle fits, if_pos strict]
  | @noComma name text address tags rest strict split holds textHolds noComma =>
      subst split
      rw [decode_tagged holds.holds holds.named holds.noBundle fits
        (textHolds.append_ne_nil rest), decodeArguments_noComma strict textHolds noComma]
      rfl
  | @unknownTag front byte later more unknown =>
      have noTag : Tag.ofByte? byte = none := by
        rw [Option.eq_none_iff_forall_ne_some]
        intro tag known
        exact unknown tag ((Tag.ofByte?_eq_some_iff _ _).mp known)
      rw [front.decode_eq fits, more, List.foldlM_cons]
      simp only [Cursor.step, noTag, bind, Except.bind, Except.map]
  | trailing front strict done more =>
      rw [front.decode_eq fits, done]
      simp [pure, Except.pure, Except.bind, Except.map, strict, more]

theorem Progress.tagPosition_le (front : codec.Progress packet) :
    front.tagPosition ≤ packet.length := by
  have size := front.position_add
  have content := congrArg List.length front.content
  have terminated := (Wire.StringField.length_eq front.tagsHold).ge
  have padded := Wire.le_paddedLength ((Utf8.encode front.text).length + 1)
  simp only [List.length_append, List.length_map, Wire.stringSize, position] at *
  rw [tagPosition]
  omega

theorem FirstFault.offset_le {offset : Nat} {cause : ParseCause}
    (fault : codec.FirstFault packet offset cause) : offset ≤ packet.length := by
  cases fault with
  | cut _ _ => exact Nat.le_refl _
  | refused next isRefused =>
      have size := next.position_add
      have inside := isRefused.offset_le
      omega
  | emptyAddress _ _ => exact Nat.zero_le _
  | bundle _ _ => exact Nat.zero_le _
  | noTags _ _ => exact Nat.le_refl _
  | noComma _ split _ _ _ =>
      rw [split, List.length_append]
      exact Nat.le_add_right _ _
  | unknownTag front _ _ => exact front.tagPosition_le
  | trailing front _ _ _ =>
      have size := front.position_add
      omega

def Progress.read (front : codec.Progress packet) {argument : Argument} {later field rest : Bytes}
    (more : front.later = argument.tag.byte :: later) (split : front.rest = field ++ rest)
    (holds : argument.PayloadField field) : codec.Progress packet :=
  { front with
    arguments := front.arguments ++ [argument]
    later := later
    payloads := front.payloads ++ [field]
    rest := rest
    split := by
      have whole := front.split
      rw [split] at whole
      simpa using whole
    content := by
      have whole := front.content
      rw [more] at whole
      simpa using whole
    fields := List.rel_append front.fields (.cons holds .nil) }

theorem Progress.step_cases (front : codec.Progress packet) {byte : UInt8} {later : Bytes}
    (more : front.later = byte :: later) :
    (∃ next : codec.Progress packet, next.later = later) ∨
      ∃ offset cause, codec.FirstFault packet offset cause := by
  by_cases known : ∃ tag : Tag, byte = tag.byte
  · obtain ⟨tag, rfl⟩ := known
    rcases tag.read_cases front.rest with ⟨argument, consumed, read⟩ | ⟨cause, isCut⟩ |
      ⟨offset, cause, isRefused⟩
    · obtain ⟨rfl, field, rest, split, holds, -⟩ := (Tag.read_eq_ok_iff ..).mp read
      exact .inl ⟨front.read more split holds, rfl⟩
    · exact .inr ⟨_, _, .cut (.payload front more) isCut⟩
    · exact .inr ⟨_, _, .refused (.payload front more) isRefused⟩
  · exact .inr ⟨_, _, .unknownTag front more fun tag same => known ⟨tag, same⟩⟩

theorem Progress.run_cases (front : codec.Progress packet) :
    (∃ last : codec.Progress packet, last.later = []) ∨
      ∃ offset cause, codec.FirstFault packet offset cause := by
  generalize more : front.later = later
  induction later generalizing front with
  | nil => exact .inl ⟨front, more⟩
  | cons byte later ih =>
      -- With one more argument read, this is again a front of the same packet.
      rcases front.step_cases more with ⟨next, fewer⟩ | fault
      · exact ih next fewer
      · exact .inr fault

theorem progress_cases {name text : String} {address tags rest : Bytes}
    (split : packet = address ++ (tags ++ rest)) (addressHolds : AddressField name address)
    (tagsHold : Wire.StringField text tags) :
    Nonempty (codec.Progress packet) ∨ ∃ offset cause, codec.FirstFault packet offset cause := by
  by_cases comma : (Utf8.encode text).head? = some commaByte
  · obtain ⟨later, content⟩ := List.head?_eq_some_iff.mp comma
    exact .inl ⟨⟨name, text, [commaByte], [], later, address, tags, [], rest, split, addressHolds,
      tagsHold, content, .inl rfl, .nil⟩⟩
  · by_cases strict : codec.strict = true
    · exact .inr ⟨_, _, .noComma strict split addressHolds tagsHold comma⟩
    · have lenient := Bool.eq_false_iff.mpr strict
      exact .inl ⟨⟨name, text, [], [], Utf8.encode text, address, tags, [], rest, split,
        addressHolds, tagsHold, rfl, .inr ⟨rfl, lenient, comma⟩, .nil⟩⟩

theorem Progress.decode_cases (front : codec.Progress packet) (fits : packet.length ≤ codec.limit)
    (sender : Option String) :
    (∃ message, codec.decode packet sender = .ok message) ∨
      ∃ offset cause, codec.FirstFault packet offset cause := by
  rcases front.run_cases with ⟨last, done⟩ | fault
  · by_cases trailing : codec.strict = true ∧ last.rest ≠ []
    · exact .inr ⟨_, _, .trailing last trailing.1 done trailing.2⟩
    · have complete : (codec.strict && !last.rest.isEmpty) = false := by
        simpa using trailing
      refine .inl ⟨⟨last.name, last.arguments, sender⟩, ?_⟩
      rw [last.decode_eq fits, done]
      simp [pure, Except.pure, Except.bind, Except.map, complete]
  · exact .inr fault

theorem AddressField.decode_cases {name : String} {address rest : Bytes}
    (addressHolds : AddressField name address) (split : packet = address ++ rest)
    (fits : packet.length ≤ codec.limit) (sender : Option String) :
    (∃ message, codec.decode packet sender = .ok message) ∨
      ∃ offset cause, codec.FirstFault packet offset cause := by
  by_cases bare : rest = []
  · rw [bare, List.append_nil] at split
    subst split
    rw [decode_bare addressHolds.holds addressHolds.named addressHolds.noBundle fits]
    by_cases strict : codec.strict = true
    · exact .inr ⟨_, _, .noTags strict addressHolds⟩
    · exact .inl ⟨_, if_neg strict⟩
  · have next : codec.Next packet address.length .string rest := .tags split addressHolds bare
    rcases Tag.text_cases rest with ⟨text, tags, behind, rfl, tagsHold⟩ | ⟨cause, isCut⟩ |
      ⟨offset, cause, isRefused⟩
    · rcases progress_cases split addressHolds tagsHold with ⟨⟨front⟩⟩ | fault
      · exact front.decode_cases fits sender
      · exact .inr fault
    · exact .inr ⟨_, _, .cut next isCut⟩
    · exact .inr ⟨_, _, .refused next isRefused⟩

theorem decode_cases (codec : Codec) (packet : Bytes) (fits : packet.length ≤ codec.limit)
    (sender : Option String) :
    (∃ message, codec.decode packet sender = .ok message) ∨
      ∃ offset cause, codec.FirstFault packet offset cause := by
  rcases Tag.text_cases packet with ⟨name, address, rest, split, holds⟩ | ⟨cause, isCut⟩ |
    ⟨offset, cause, isRefused⟩
  · by_cases empty : name = ""
    · exact .inr ⟨_, _, .emptyAddress split (empty ▸ holds)⟩
    · by_cases isBundle : name = bundleAddress
      · exact .inr ⟨_, _, .bundle split (isBundle ▸ holds)⟩
      · exact AddressField.decode_cases ⟨holds, empty, isBundle⟩ split fits sender
  · exact .inr ⟨_, _, .cut .address isCut⟩
  · exact .inr ⟨_, _, .refused .address isRefused⟩

theorem firstFault_of_error {sender : Option String} {error : Error}
    (fits : packet.length ≤ codec.limit) (failed : codec.decode packet sender = .error error) :
    ∃ offset cause, error = .parse offset cause ∧ codec.FirstFault packet offset cause := by
  rcases codec.decode_cases packet fits sender with ⟨message, decoded⟩ | ⟨offset, cause, fault⟩
  · rw [decoded] at failed
    contradiction
  · rw [fault.decode_eq fits] at failed
    exact ⟨offset, cause, (Except.error.inj failed).symm, fault⟩

/-- A packet within the limit is refused for its first fault, at the place of this fault. -/
theorem decode_eq_error_iff_firstFault (codec : Codec) (packet : Bytes) (sender : Option String)
    (fits : packet.length ≤ codec.limit) (error : Error) :
    codec.decode packet sender = .error error ↔
      ∃ offset cause, error = .parse offset cause ∧ codec.FirstFault packet offset cause := by
  constructor
  · exact firstFault_of_error fits
  · rintro ⟨offset, cause, rfl, fault⟩
    exact fault.decode_eq fits sender

theorem decode_eq_error_iff_firstFault_sample :
    let packet : Bytes := [47, 97, 0, 0, 44, 84, 115, 113, 0, 0, 0, 0, 195, 169, 255, 0]
    packet.length ≤ Codec.default.limit ∧
      Codec.default.decode packet none = .error (.parse 14 (.malformedText ⟨2, some 1⟩)) ∧
      Codec.default.FirstFault packet 14 (.malformedText ⟨2, some 1⟩) := by
  have failed : Codec.default.decode
      [47, 97, 0, 0, 44, 84, 115, 113, 0, 0, 0, 0, 195, 169, 255, 0] none =
      .error (.parse 14 (.malformedText ⟨2, some 1⟩)) := by decide
  obtain ⟨offset, cause, same, fault⟩ :=
    (decode_eq_error_iff_firstFault _ _ none (by decide) _).mp failed
  obtain ⟨rfl, rfl⟩ := Error.parse.inj same
  exact ⟨by decide, failed, fault⟩

end Codec

end OpenSoundControl
