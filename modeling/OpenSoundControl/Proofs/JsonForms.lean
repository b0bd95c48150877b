import OpenSoundControl.Message.Json
import OpenSoundControl.Proofs.Documents
import OpenSoundControl.Proofs.FloatText

/-!
Arguments and messages through their JSON text. Every value but a float that is not finite comes
back as it was, and a message comes back without its sender.
-/

namespace OpenSoundControl

open Json

namespace Argument

def isFinite : Argument → Bool
  | .float32 value => value.isFinite
  | _ => true

def byteJson (byte : UInt8) : Json :=
  .integer byte.toNat

theorem distinct_byteJson (byte : UInt8) : (byteJson byte).Distinct :=
  trivial

theorem readable_byteJson (byte : UInt8) : (byteJson byte).Readable := by
  have bound := byte.toNat_lt
  exact ⟨by omega, by omega⟩

theorem readable_valueJson (argument : Argument) : argument.valueJson.Readable := by
  cases argument with
  | int32 value =>
      have low := value.le_toInt
      have high := value.toInt_lt
      exact ⟨by omega, by omega⟩
  | float32 value =>
      rw [valueJson, floatJson]
      split
      · rename_i finite
        exact legible_shortest finite
      · trivial
  | bool value => trivial
  | string value => trivial
  | blob value => exact readableItems_map readable_byteJson value

theorem readable_toJson (argument : Argument) : argument.toJson.Readable :=
  ⟨trivial, argument.readable_valueJson, trivial⟩

theorem distinct_toJson (argument : Argument) : argument.toJson.Distinct := by
  refine ⟨by simp, trivial, ?_, trivial⟩
  cases argument with
  | int32 value => trivial
  | float32 value =>
      rw [valueJson, floatJson]
      split <;> trivial
  | bool value => trivial
  | string value => trivial
  | blob value => exact distinctItems_map distinct_byteJson value

theorem expectByte_byteJson (byte : UInt8) : expectByte (byteJson byte) = .ok byte := by
  have bound := byte.toNat_lt
  have range : (0 : Int) ≤ byte.toNat ∧ (byte.toNat : Int) ≤ 255 := ⟨by omega, by omega⟩
  simp [byteJson, expectByte, expectInteger, range, Except.map]

theorem expectBytes_array (value : Bytes) :
    expectBytes (.array (value.map byteJson)) = .ok value := by
  have items : (value.map byteJson).mapM expectByte = .ok value := by
    induction value with
    | nil => rfl
    | cons byte rest ih =>
        rw [List.map_cons, List.mapM_cons, expectByte_byteJson, ih]
        rfl
  exact items

theorem read_floatJson (toDouble : Numeric.Decimal → Nat) {value : Single}
    (finite : value.isFinite = true) :
    Kind.float32.read toDouble (floatJson value).reread =
      .ok (.float32 (Single.ofDecimal toDouble value.isNegative (rewritten value.shortest))) := by
  rw [floatJson, if_pos finite]
  rfl

theorem read_valueJson (argument : Argument) :
    argument.kind.read Numeric.Double.ofDecimal argument.valueJson.reread =
      if argument.isFinite then .ok argument else .error (.wrongType .null .float32) := by
  cases argument with
  | int32 value =>
      have low := value.le_toInt
      have high := value.toInt_lt
      have range : -2147483648 ≤ value.toInt ∧ value.toInt ≤ 2147483647 :=
        ⟨by omega, by omega⟩
      simp [valueJson, reread, rereadScalar, kind, Kind.read, expectInteger, range, isFinite,
        Except.map]
  | float32 value =>
      rw [valueJson, isFinite, kind]
      by_cases finite : value.isFinite = true
      · rw [read_floatJson _ finite, ofDecimal_rewritten finite, if_pos finite]
      · simp only [floatJson, finite]
        rfl
  | bool value => rfl
  | string value => rfl
  | blob value =>
      have same : (blob value).valueJson.reread = .array (value.map byteJson) :=
        congrArg Json.array (rereadItems_map value)
      rw [same, kind, Kind.read, expectBytes_array]
      rfl

theorem ofName_name (kind : Kind) : Kind.ofName kind.name = .ok kind := by
  cases kind <;> rfl

theorem ofJsonBy_fields (toDouble : Numeric.Decimal → Nat) (kind : Kind) (json : Json) :
    ofJsonBy toDouble (.object [("type", .string kind.name), ("value", json)]) =
      kind.read toDouble json := by
  have first : List.lookup "type" [("type", Json.string kind.name), ("value", json)] =
      some (.string kind.name) := rfl
  have second : List.lookup "value" [("type", Json.string kind.name), ("value", json)] =
      some json := rfl
  rw [ofJsonBy, ofFields, first, second]
  simp only [Kind.ofJson, ofName_name]
  rfl

theorem ofJson_reread (argument : Argument) :
    ofJson argument.toJson.reread =
      if argument.isFinite then .ok argument else .error (.wrongType .null .float32) := by
  rw [← read_valueJson]
  exact ofJsonBy_fields _ argument.kind argument.valueJson.reread

theorem parse?_render_toJson (argument : Argument) :
    parse? (render argument.toJson) = some argument.toJson.reread :=
  parse?_render (readable_toJson argument) (distinct_toJson argument)

theorem map_ofJsonBy_float32 (toDouble : Numeric.Decimal → Nat) {value : Single}
    (finite : value.isFinite = true) :
    (parse? (render (float32 value).toJson)).map (ofJsonBy toDouble) =
      some (.ok (.float32
        (Single.ofDecimal toDouble value.isNegative (rewritten value.shortest)))) := by
  rw [parse?_render_toJson, Option.map_some, ← read_floatJson toDouble finite]
  exact congrArg some (ofJsonBy_fields toDouble .float32 (floatJson value).reread)

/-- A finite single that is written as text and read again. With every decimal read as the nearest
double, one magnitude becomes its neighbour and all other singles keep their bits; with the digits
and the power of ten rounded apart, every single does. -/
theorem parse?_render_float32 {value : Single} (finite : value.isFinite = true) :
    (parse? (render (float32 value).toJson)).map (ofJsonBy Numeric.Double.nearestTo) =
        some (.ok (.float32
          (if value.ordinal = 0x15AE43FD then Single.ofOrdinal value.isNegative 0x15AE43FE
          else value))) ∧
      (parse? (render (float32 value).toJson)).map ofJson = some (.ok (.float32 value)) := by
  constructor
  · rw [map_ofJsonBy_float32 _ finite, ofDecimal_nearestTo_rewritten finite]
  · have read := map_ofJsonBy_float32 Numeric.Double.ofDecimal finite
    rw [ofDecimal_rewritten finite] at read
    exact read

theorem parse?_render_float32_kept :
    (Single.mk 0x3DCCCCCD).isFinite = true ∧
      (parse? (render (float32 ⟨0x3DCCCCCD⟩).toJson)).map (ofJsonBy Numeric.Double.nearestTo) =
        some (.ok (.float32 ⟨0x3DCCCCCD⟩)) ∧
      (parse? (render (float32 ⟨0x15AE43FD⟩).toJson)).map ofJson =
        some (.ok (.float32 ⟨0x15AE43FD⟩)) :=
  ⟨by decide, (parse?_render_float32 (by decide)).1, (parse?_render_float32 (by decide)).2⟩

theorem nearestTo_loses_elusive :
    (parse? (render (float32 ⟨0x15AE43FD⟩).toJson)).map (ofJsonBy Numeric.Double.nearestTo) =
        some (.ok (.float32 ⟨0x15AE43FE⟩)) ∧
      ¬∀ value : Single, value.isFinite = true →
        (parse? (render (float32 value).toJson)).map (ofJsonBy Numeric.Double.nearestTo) =
          some (.ok (.float32 value)) := by
  have finite : (Single.mk 0x15AE43FD).isFinite = true := by decide
  have moved : Single.ofDecimal Numeric.Double.nearestTo (Single.mk 0x15AE43FD).isNegative
      (rewritten (Single.mk 0x15AE43FD).shortest) = ⟨0x15AE43FE⟩ := by
    decide +kernel
  have lost := map_ofJsonBy_float32 Numeric.Double.nearestTo finite
  rw [moved] at lost
  refine ⟨lost, ?_⟩
  intro keeps
  rw [keeps _ finite] at lost
  simp at lost

end Argument

namespace Message

theorem readable_toJson (message : Message) : message.toJson.Readable :=
  ⟨trivial, readableItems_map Argument.readable_toJson message.arguments, trivial⟩

theorem distinct_toJson (message : Message) : message.toJson.Distinct :=
  ⟨by simp, trivial, distinctItems_map Argument.distinct_toJson message.arguments, trivial⟩

theorem mapM_arguments (arguments : List Argument) :
    (rereadItems (arguments.map Argument.toJson)).mapM Argument.ofJson =
      if arguments.all Argument.isFinite then .ok arguments
      else .error (.wrongType .null .float32) := by
  induction arguments with
  | nil => rfl
  | cons argument rest ih =>
      rw [List.map_cons, rereadItems, List.mapM_cons, Argument.ofJson_reread, ih, List.all_cons]
      by_cases finite : argument.isFinite = true
      · by_cases later : rest.all Argument.isFinite = true
        · simp only [finite, later]
          rfl
        · simp only [finite, later]
          rfl
      · simp only [finite]
        rfl

theorem ofJson_fields (address : String) (items : List Json) :
    ofJson (.object [("address", .string address), ("arguments", .array items)]) =
      (items.mapM Argument.ofJson).map fun arguments => ⟨address, arguments, none⟩ := by
  have first : List.lookup "address" [("address", Json.string address),
      ("arguments", Json.array items)] = some (.string address) := rfl
  have second : List.lookup "arguments" [("address", Json.string address),
      ("arguments", Json.array items)] = some (.array items) := rfl
  have list : optionalArguments (some (.array items)) = items.mapM Argument.ofJson := rfl
  rw [ofJson, ofFields, first, second, list]
  generalize items.mapM Argument.ofJson = outcome
  cases outcome with
  | ok arguments => rfl
  | error fault => rfl

theorem ofJson_reread (message : Message) :
    ofJson message.toJson.reread =
      if message.arguments.all Argument.isFinite then .ok { message with sender := none }
      else .error (.wrongType .null .float32) := by
  have read := ofJson_fields message.address (rereadItems (message.arguments.map Argument.toJson))
  rw [mapM_arguments] at read
  refine read.trans ?_
  by_cases finite : message.arguments.all Argument.isFinite = true
  · rw [if_pos finite, if_pos finite]
    rfl
  · rw [if_neg finite, if_neg finite]
    rfl

theorem all_isFinite_iff (arguments : List Argument) :
    arguments.all Argument.isFinite = true ↔
      ∀ value, .float32 value ∈ arguments → value.isFinite = true := by
  rw [List.all_eq_true]
  constructor
  · intro finite value member
    exact finite _ member
  · intro finite argument member
    cases argument with
    | float32 value => exact finite value member
    | int32 value => rfl
    | bool value => rfl
    | string value => rfl
    | blob value => rfl

/-- A message comes back from its text without its sender. A float that is not finite is written
as null, and then nothing comes back. -/
theorem parse?_render_message (message : Message) :
    ((∀ value, .float32 value ∈ message.arguments → value.isFinite = true) →
      (parse? (render message.toJson)).map ofJson = some (.ok { message with sender := none })) ∧
    ((∃ value, .float32 value ∈ message.arguments ∧ value.isFinite = false) →
      (parse? (render message.toJson)).map ofJson =
        some (.error (.wrongType .null .float32))) := by
  rw [parse?_render (readable_toJson message) (distinct_toJson message), Option.map_some,
    ofJson_reread]
  constructor
  · intro finite
    rw [if_pos ((all_isFinite_iff _).mpr finite)]
  · intro infinite
    obtain ⟨value, member, notFinite⟩ := infinite
    have some : ¬message.arguments.all Argument.isFinite = true := by
      intro finite
      have every := (all_isFinite_iff _).mp finite value member
      rw [notFinite] at every
      contradiction
    rw [if_neg some]

theorem parse?_render_message_sample :
    (parse? (render (Message.mk "" [.int32 (-5), .string "a\"\\\x00", .blob [0, 255]]
      (some "here")).toJson)).map ofJson =
        some (.ok ⟨"", [.int32 (-5), .string "a\"\\\x00", .blob [0, 255]], none⟩) ∧
    (parse? (render (Message.mk "/level" [.bool true, .float32 ⟨0x7FC00000⟩] none).toJson)).map
      ofJson = some (.error (.wrongType .null .float32)) :=
  ⟨(parse?_render_message _).1 (by simp),
    (parse?_render_message _).2 ⟨⟨0x7FC00000⟩, by simp, by decide⟩⟩

end Message

end OpenSoundControl
