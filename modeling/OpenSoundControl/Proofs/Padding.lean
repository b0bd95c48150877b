import OpenSoundControl.Proofs.Fields

/-!
Fields cut where their padding starts. Writing a value gives the field that holds it with zeros for
padding, whatever padding the field came with, and padding is all that a reader leaves out.
-/

namespace OpenSoundControl

namespace Wire

/-- A field: what is read of it, and the bytes behind that are passed over. -/
structure PaddedField where
  content : Bytes
  padding : Bytes
  deriving DecidableEq, Repr

namespace PaddedField

def bytes (field : PaddedField) : Bytes :=
  field.content ++ field.padding

def cleared (field : PaddedField) : Bytes :=
  field.content ++ zeros field.padding.length

def Aligned (field : PaddedField) : Prop :=
  field.padding.length < alignment ∧ field.bytes.length % alignment = 0

/-- The padding of a text starts behind its first NUL. -/
structure HoldsText (field : PaddedField) (text : String) : Prop where
  clean : '\x00' ∉ text.toList
  content : field.content = Utf8.encode text ++ [0]
  aligned : field.Aligned

/-- The padding of a blob starts behind its data. -/
structure HoldsBlob (field : PaddedField) (data : Bytes) : Prop where
  small : data.length ≤ greatestBlob
  content : field.content = bigEndian (UInt32.ofNat data.length) ++ data
  aligned : field.Aligned

theorem length_cleared (field : PaddedField) : field.cleared.length = field.bytes.length := by
  simp [cleared, bytes, length_zeros]

theorem cleared_eq_bytes_iff (field : PaddedField) :
    field.cleared = field.bytes ↔ ∀ byte ∈ field.padding, byte = 0 := by
  rw [cleared, bytes, List.append_cancel_left_eq, zeros, eq_comm, List.eq_replicate_iff]
  simp

theorem flatten_cleared_eq_iff (fields : List PaddedField) :
    (fields.map cleared).flatten = (fields.map bytes).flatten ↔
      ∀ field ∈ fields, ∀ byte ∈ field.padding, byte = 0 := by
  induction fields with
  | nil => simp
  | cons field rest ih =>
      rw [List.forall_mem_cons, ← cleared_eq_bytes_iff, ← ih]
      constructor
      · exact fun same => List.append_inj same field.length_cleared
      · rintro ⟨first, later⟩
        simp only [List.map_cons, List.flatten_cons, first, later]

theorem length_flatten_cleared (fields : List PaddedField) :
    (fields.map cleared).flatten.length = (fields.map bytes).flatten.length := by
  induction fields with
  | nil => rfl
  | cons field rest ih => simp [ih, length_cleared]

theorem Aligned.length_padding {field : PaddedField} (aligned : field.Aligned) :
    field.padding.length = paddedLength field.content.length - field.content.length := by
  obtain ⟨short, whole⟩ := aligned
  simp only [bytes, List.length_append, alignment] at short whole
  rw [paddedLength_eq]
  omega

end PaddedField

theorem stringField_iff_padded (text : String) (bytes : Bytes) :
    StringField text bytes ↔ ∃ field : PaddedField, field.HoldsText text ∧ field.bytes = bytes := by
  constructor
  · rintro ⟨clean, padding, rfl, short, whole⟩
    have joined : (Utf8.encode text ++ [0]) ++ padding = Utf8.encode text ++ 0 :: padding := by
      simp
    refine ⟨⟨Utf8.encode text ++ [0], padding⟩, ⟨clean, rfl, short, ?_⟩, joined⟩
    rw [← joined] at whole
    exact whole
  · rintro ⟨⟨content, padding⟩, ⟨clean, rfl, short, whole⟩, rfl⟩
    exact ⟨clean, padding, by simp [PaddedField.bytes], short, whole⟩

theorem blobField_iff_padded (data bytes : Bytes) :
    BlobField data bytes ↔ ∃ field : PaddedField, field.HoldsBlob data ∧ field.bytes = bytes := by
  constructor
  · rintro ⟨small, padding, rfl, short, whole⟩
    exact ⟨⟨_, padding⟩, ⟨small, rfl, short, whole⟩, rfl⟩
  · rintro ⟨⟨content, padding⟩, ⟨small, rfl, short, whole⟩, rfl⟩
    exact ⟨small, padding, rfl, short, whole⟩

theorem PaddedField.HoldsText.written {field : PaddedField} {text : String}
    (holds : field.HoldsText text) : stringField text = .ok field.cleared := by
  have padding := holds.aligned.length_padding
  have close := le_paddedLength ((Utf8.encode text).length + 1)
  rw [holds.content, List.length_append, List.length_singleton] at padding
  rw [stringField_eq_ok_iff]
  refine ⟨holds.clean, ?_⟩
  have terminated : stringSize text - (Utf8.encode text).length = field.padding.length + 1 := by
    rw [stringSize]
    omega
  rw [terminated, cleared, holds.content, List.append_assoc]
  rfl

theorem PaddedField.HoldsBlob.written {field : PaddedField} {data : Bytes}
    (holds : field.HoldsBlob data) : blobField data = .ok field.cleared := by
  have padding := holds.aligned.length_padding
  rw [holds.content, List.length_append, length_bigEndian, paddedLength_eq] at padding
  have small : ¬greatestBlob < data.length := Nat.not_lt.mpr holds.small
  have behind : paddedLength data.length - data.length = field.padding.length := by
    rw [paddedLength_eq]
    omega
  rw [blobField, if_neg small, cleared, holds.content, pad, behind, List.append_assoc]

end Wire

namespace Argument

inductive HeldBy : Argument → Wire.PaddedField → Prop
  | int32 (value : Int32) : HeldBy (.int32 value) ⟨bigEndian value.toUInt32, []⟩
  | float32 (value : Single) : HeldBy (.float32 value) ⟨bigEndian value.bits, []⟩
  | bool (value : Bool) : HeldBy (.bool value) ⟨[], []⟩
  | string {text field} : Wire.PaddedField.HoldsText field text → HeldBy (.string text) field
  | blob {data field} : Wire.PaddedField.HoldsBlob field data → HeldBy (.blob data) field

theorem payloadField_iff_padded (argument : Argument) (bytes : Bytes) :
    argument.PayloadField bytes ↔ ∃ field, argument.HeldBy field ∧ field.bytes = bytes := by
  constructor
  · intro holds
    cases holds with
    | int32 value => exact ⟨_, .int32 value, List.append_nil _⟩
    | float32 value => exact ⟨_, .float32 value, List.append_nil _⟩
    | bool value => exact ⟨_, .bool value, rfl⟩
    | string inside =>
        obtain ⟨field, held, rfl⟩ := (Wire.stringField_iff_padded _ _).mp inside
        exact ⟨field, .string held, rfl⟩
    | blob inside =>
        obtain ⟨field, held, rfl⟩ := (Wire.blobField_iff_padded _ _).mp inside
        exact ⟨field, .blob held, rfl⟩
  · rintro ⟨field, held, rfl⟩
    cases held with
    | int32 value => exact .int32 value
    | float32 value => exact .float32 value
    | bool value => exact .bool value
    | string inside => exact .string ((Wire.stringField_iff_padded _ _).mpr ⟨_, inside, rfl⟩)
    | blob inside => exact .blob ((Wire.blobField_iff_padded _ _).mpr ⟨_, inside, rfl⟩)

theorem HeldBy.written {argument : Argument} {field : Wire.PaddedField}
    (held : argument.HeldBy field) : argument.payload = .ok field.cleared := by
  cases held with
  | int32 value => rfl
  | float32 value => rfl
  | bool value => rfl
  | string inside => exact inside.written
  | blob inside => exact inside.written

theorem payloadFields_iff_padded (arguments : List Argument) (payloads : List Bytes) :
    List.Forall₂ PayloadField arguments payloads ↔
      ∃ fields, List.Forall₂ HeldBy arguments fields ∧
        fields.map Wire.PaddedField.bytes = payloads := by
  constructor
  · intro all
    induction all with
    | nil => exact ⟨[], .nil, rfl⟩
    | cons first _ ih =>
        obtain ⟨field, held, rfl⟩ := (payloadField_iff_padded _ _).mp first
        obtain ⟨fields, later, rfl⟩ := ih
        exact ⟨field :: fields, .cons held later, rfl⟩
  · rintro ⟨fields, all, rfl⟩
    induction all with
    | nil => exact .nil
    | cons held _ ih => exact .cons ((payloadField_iff_padded _ _).mpr ⟨_, held, rfl⟩) ih

theorem mapM_payload_written {arguments : List Argument} {fields : List Wire.PaddedField}
    (all : List.Forall₂ HeldBy arguments fields) :
    arguments.mapM payload = .ok (fields.map Wire.PaddedField.cleared) := by
  rw [mapM_eq_ok_iff, List.forall₂_map_right_iff]
  exact all.imp fun _ _ held => held.written

end Argument

end OpenSoundControl
