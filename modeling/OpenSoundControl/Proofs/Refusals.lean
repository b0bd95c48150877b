import OpenSoundControl.Proofs.Transcoding

/-!
What an encoder refuses. A message without an address is refused first, then one that is too large,
and then one with a NUL in a text, which would end the text in the packet. Nothing else stands
against a message whose blobs have a length that can be written.
-/

namespace OpenSoundControl

namespace Wire

/-- The first NUL of the text is the byte at this position of its encoding. -/
def NulAt (text : String) (position : Nat) : Prop :=
  ∃ front back, text.toList = front ++ '\x00' :: back ∧ '\x00' ∉ front ∧
    position = (Utf8.encode (String.ofList front)).length

theorem exists_nulAt {text : String} (member : '\x00' ∈ text.toList) :
    ∃ position, NulAt text position := by
  obtain ⟨front, back, split, clean⟩ := List.eq_append_cons_of_mem member
  exact ⟨_, front, back, split, clean, rfl⟩

theorem NulAt.mem {text : String} {position : Nat} (nul : NulAt text position) :
    '\x00' ∈ text.toList := by
  obtain ⟨front, back, split, -⟩ := nul
  rw [split]
  exact List.mem_append_right _ List.mem_cons_self

theorem stringField_of_nulAt {text : String} {position : Nat} (nul : NulAt text position) :
    stringField text = .error (.encode (.containsNul position text)) := by
  obtain ⟨front, back, split, clean, rfl⟩ := nul
  have bytes : Utf8.encode text =
      Utf8.encode (String.ofList front) ++ 0 :: Utf8.encode (String.ofList back) := by
    have whole : text = String.ofList front ++ (String.ofList ['\x00'] ++ String.ofList back) := by
      rw [← String.toList_inj, split]
      simp
    rw [whole, Utf8.encode_append, Utf8.encode_append]
    rfl
  have before : 0 ∉ Utf8.encode (String.ofList front) := by
    rwa [Utf8.nul_mem_encode_iff, String.toList_ofList]
  have found := findIdx?_append_cons (Utf8.encode (String.ofList back)) before
  unfold stringField
  simp only [bytes, found]

theorem failure?_stringField_eq_none_iff (text : String) :
    failure? (stringField text) = none ↔ '\x00' ∉ text.toList := by
  rw [failure?_eq_none_iff]
  constructor
  · rintro ⟨field, written⟩
    exact ((stringField_eq_ok_iff text field).mp written).1
  · intro clean
    exact ⟨_, (stringField_eq_ok_iff text _).mpr ⟨clean, rfl⟩⟩

theorem failure?_stringField_eq_some_iff (text : String) (error : Error) :
    failure? (stringField text) = some error ↔
      ∃ position, NulAt text position ∧ error = .encode (.containsNul position text) := by
  rw [failure?_eq_some_iff]
  constructor
  · intro refused
    have dirty : '\x00' ∈ text.toList := by
      by_contra clean
      obtain ⟨field, written⟩ :=
        failure?_eq_none_iff.mp ((failure?_stringField_eq_none_iff text).mpr clean)
      rw [refused] at written
      contradiction
    obtain ⟨position, nul⟩ := exists_nulAt dirty
    rw [stringField_of_nulAt nul] at refused
    exact ⟨position, nul, (Except.error.inj refused).symm⟩
  · rintro ⟨position, nul, rfl⟩
    exact stringField_of_nulAt nul

end Wire

def Argument.texts : Argument → List String
  | .string value => [value]
  | _ => []

/-- The texts of a message, in the order that a packet has them in. -/
def Message.texts (message : Message) : List String :=
  message.address :: message.arguments.flatMap Argument.texts

def FirstNul (texts : List String) (text : String) (position : Nat) : Prop :=
  ∃ before after, texts = before ++ text :: after ∧
    (∀ other ∈ before, '\x00' ∉ other.toList) ∧ Wire.NulAt text position

def textFailure? (texts : List String) : Option Error :=
  texts.findSome? fun text => failure? (Wire.stringField text)

theorem FirstNul.exists_mem {texts : List String} {text : String} {position : Nat}
    (first : FirstNul texts text position) : ∃ text ∈ texts, '\x00' ∈ text.toList := by
  obtain ⟨before, after, rfl, -, nul⟩ := first
  exact ⟨text, List.mem_append_right _ List.mem_cons_self, nul.mem⟩

theorem textFailure?_eq_none_iff (texts : List String) :
    textFailure? texts = none ↔ ∀ text ∈ texts, '\x00' ∉ text.toList := by
  simp only [textFailure?, List.findSome?_eq_none_iff, Wire.failure?_stringField_eq_none_iff]

theorem textFailure?_eq_some_iff (texts : List String) (error : Error) :
    textFailure? texts = some error ↔ ∃ text position, FirstNul texts text position ∧
      error = .encode (.containsNul position text) := by
  simp only [textFailure?, List.findSome?_eq_some_iff, Wire.failure?_stringField_eq_none_iff,
    Wire.failure?_stringField_eq_some_iff, FirstNul]
  constructor
  · rintro ⟨before, text, after, split, ⟨position, nul, rfl⟩, clean⟩
    exact ⟨text, position, ⟨before, after, split, clean, nul⟩, rfl⟩
  · rintro ⟨text, position, ⟨before, after, split, clean, nul⟩, rfl⟩
    exact ⟨before, text, after, split, ⟨position, nul, rfl⟩, clean⟩

namespace Argument

theorem failure?_payload (argument : Argument)
    (small : ∀ data, argument = .blob data → data.length ≤ greatestBlob) :
    failure? argument.payload = textFailure? argument.texts := by
  cases argument with
  | string value =>
      rw [texts, textFailure?, List.findSome?_cons, payload]
      cases failure? (Wire.stringField value) <;> rfl
  | blob data =>
      rw [payload, Wire.blobField, if_neg (Nat.not_lt.mpr (small data rfl))]
      rfl
  | _ => rfl

theorem failure?_payloads (arguments : List Argument)
    (small : ∀ data, .blob data ∈ arguments → data.length ≤ greatestBlob) :
    failure? (arguments.mapM payload) = textFailure? (arguments.flatMap texts) := by
  rw [failure?_mapM]
  induction arguments with
  | nil => rfl
  | cons argument rest ih =>
      have own := failure?_payload argument fun data same =>
        small data (List.mem_cons.mpr (.inl same.symm))
      have later := ih fun data member => small data (List.mem_cons_of_mem _ member)
      have both : textFailure? ((argument :: rest).flatMap texts) =
          (textFailure? argument.texts).or (textFailure? (rest.flatMap texts)) := by
        rw [List.flatMap_cons, textFailure?, List.findSome?_append]
        rfl
      rw [both, List.findSome?_cons, own, later]
      cases textFailure? argument.texts <;> rfl

end Argument

namespace Codec

theorem failure?_encodeFields (codec : Codec) (message : Message)
    (small : ∀ data, .blob data ∈ message.arguments → data.length ≤ greatestBlob) :
    failure? (codec.encodeFields message) = textFailure? message.texts := by
  have tags := (Wire.failure?_stringField_eq_none_iff _).mpr (nul_not_mem_tagText codec message)
  have payloads := Argument.failure?_payloads message.arguments small
  have split : textFailure? message.texts =
      (failure? (Wire.stringField message.address)).or
        (textFailure? (message.arguments.flatMap Argument.texts)) := by
    rw [Message.texts, textFailure?, List.findSome?_cons]
    cases failure? (Wire.stringField message.address) <;> rfl
  rw [split, ← payloads]
  refine failure?_bind fun address _ => ?_
  -- The tags are never at fault.
  rw [← Option.none_or (o := failure? (message.arguments.mapM Argument.payload)), ← tags]
  refine failure?_bind fun tagBytes _ => ?_
  rw [← Option.or_none (o := failure? (message.arguments.mapM Argument.payload))]
  exact failure?_bind fun payloadBytes _ => rfl

theorem encode_cases (codec : Codec) (message : Message)
    (small : ∀ data, .blob data ∈ message.arguments → data.length ≤ greatestBlob) :
    (message.address = "" ∧ codec.encode message = .error (.invalidAddress .empty)) ∨
      message.address ≠ "" ∧
        ((codec.limit < codec.encodedSize message ∧ codec.encode message =
            .error (.packetTooLarge (codec.encodedSize message) codec.limit)) ∨
          codec.encodedSize message ≤ codec.limit ∧
            ((∃ text position, FirstNul message.texts text position ∧
                codec.encode message = .error (.encode (.containsNul position text))) ∨
              (∀ text ∈ message.texts, '\x00' ∉ text.toList) ∧
                ∃ packet, codec.encode message = .ok packet)) := by
  by_cases named : message.address = ""
  · exact .inl ⟨named, if_pos named⟩
  refine .inr ⟨named, ?_⟩
  rw [encode, if_neg named]
  by_cases large : codec.limit < codec.encodedSize message
  · exact .inl ⟨large, if_pos large⟩
  refine .inr ⟨Nat.le_of_not_lt large, ?_⟩
  rw [if_neg large]
  have failure := codec.failure?_encodeFields message small
  cases fault : textFailure? message.texts with
  | none =>
      rw [fault, failure?_eq_none_iff] at failure
      exact .inr ⟨(textFailure?_eq_none_iff _).mp fault, failure⟩
  | some error =>
      rw [fault, failure?_eq_some_iff] at failure
      obtain ⟨text, position, first, rfl⟩ := (textFailure?_eq_some_iff ..).mp fault
      exact .inl ⟨text, position, first, failure⟩

/-- A message is refused for one defect at a time: first for the lack of an address, then for its
size, then for the first NUL of the first text that has any. -/
theorem encode_outcome (codec : Codec) (message : Message)
    (small : ∀ data, .blob data ∈ message.arguments → data.length ≤ greatestBlob) :
    (∀ cause, codec.encode message = .error (.invalidAddress cause) ↔
        message.address = "" ∧ cause = .empty) ∧
      (∀ size limit, codec.encode message = .error (.packetTooLarge size limit) ↔
        message.address ≠ "" ∧ codec.limit < codec.encodedSize message ∧
          size = codec.encodedSize message ∧ limit = codec.limit) ∧
      ((∃ cause, codec.encode message = .error (.encode cause)) ↔
        message.address ≠ "" ∧ codec.encodedSize message ≤ codec.limit ∧
          ∃ text ∈ message.texts, '\x00' ∈ text.toList) ∧
      (∀ cause, codec.encode message = .error (.encode cause) →
        ∃ text position, FirstNul message.texts text position ∧
          cause = .containsNul position text) ∧
      ((∃ packet, codec.encode message = .ok packet) ↔
        message.address ≠ "" ∧ codec.encodedSize message ≤ codec.limit ∧
          ∀ text ∈ message.texts, '\x00' ∉ text.toList) := by
  rcases codec.encode_cases message small with ⟨unnamed, refused⟩ | ⟨named, ⟨large, refused⟩ |
    ⟨fits, ⟨text, position, first, refused⟩ | ⟨clean, packet, encoded⟩⟩⟩
  · simp [refused, unnamed, eq_comm]
  · simp [refused, named, large, Nat.not_le.mpr large, eq_comm]
  · have dirty := first.exists_mem
    have notClean : ¬∀ text ∈ message.texts, '\x00' ∉ text.toList := by
      obtain ⟨other, member, nul⟩ := dirty
      exact fun clean => clean other member nul
    rw [refused]
    refine ⟨by simp [named], by simp [Nat.not_lt.mpr fits], ?_, ?_, by simp [notClean]⟩
    · exact ⟨fun _ => ⟨named, fits, dirty⟩, fun _ => ⟨_, rfl⟩⟩
    · rintro cause same
      exact ⟨text, position, first, (Error.encode.inj (Except.error.inj same)).symm⟩
  · have notDirty : ¬∃ text ∈ message.texts, '\x00' ∈ text.toList := by
      rintro ⟨text, member, nul⟩
      exact clean text member nul
    rw [encoded]
    refine ⟨by simp [named], by simp [Nat.not_lt.mpr fits], by simp [notDirty], nofun, ?_⟩
    exact ⟨fun _ => ⟨named, fits, clean⟩, fun _ => ⟨packet, rfl⟩⟩

theorem encode_outcome_sample :
    let message : Message := ⟨"/é", [.blob [0], .string "→\x00\x00", .string "\x00"], none⟩
    (∀ data, .blob data ∈ message.arguments → data.length ≤ greatestBlob) ∧
      Codec.default.encode message = .error (.encode (.containsNul 3 "→\x00\x00")) ∧
      FirstNul message.texts "→\x00\x00" 3 ∧
      Codec.encode ⟨true, false, 31⟩ message = .error (.packetTooLarge 32 31) := by
  intro message
  have small : ∀ data, .blob data ∈ message.arguments → data.length ≤ greatestBlob := by
    intro data member
    have same : data = [0] := by simpa [message] using member
    rw [same]
    decide
  have refused : Codec.default.encode message =
      .error (.encode (.containsNul 3 "→\x00\x00")) := by decide
  obtain ⟨-, -, -, described, -⟩ := encode_outcome Codec.default message small
  obtain ⟨-, tooLarge, -⟩ := encode_outcome ⟨true, false, 31⟩ message small
  obtain ⟨text, position, first, same⟩ := described _ refused
  obtain ⟨rfl, rfl⟩ := EncodeCause.containsNul.inj same
  exact ⟨small, refused, first, (tooLarge 32 31).mpr ⟨by decide, by decide, by decide, rfl⟩⟩

end Codec

end OpenSoundControl
