import OpenSoundControl.Proofs.Canonical

/-!
Payloads one after the other in a stream of bytes. A reader that is given the tags stops at exactly
the byte that the writer stopped at, whatever follows, and the bytes that a reader has taken are
all that it depends on; written again, they differ in their padding alone.
-/

namespace OpenSoundControl

theorem parseArgument_eq_ok_iff (byte : UInt8) (bytes : Bytes) (argument : Argument)
    (consumed : Nat) :
    parseArgument byte bytes = .ok (argument, consumed) ↔ argument.tag.byte = byte ∧
      ∃ field rest, bytes = field ++ rest ∧ argument.PayloadField field ∧
        consumed = field.length := by
  unfold parseArgument
  split
  · rename_i tag known
    obtain rfl := (Tag.ofByte?_eq_some_iff ..).mp known
    rw [Tag.read_eq_ok_iff]
    refine and_congr_left' ⟨congrArg Tag.byte, fun same => ?_⟩
    have found := Tag.ofByte?_byte argument.tag
    rw [same, known] at found
    exact (Option.some.inj found).symm
  · rename_i unknown
    constructor
    · intro parsed
      contradiction
    · rintro ⟨rfl, -⟩
      rw [Tag.ofByte?_byte] at unknown
      contradiction

/-- Reads a payload for each tag, each at the offset behind the one before. Gives the arguments with
the number of bytes that each has taken, and the offset behind the last of them. -/
def readStream (data : Bytes) : List UInt8 → Nat → Except Error (List (Argument × Nat) × Nat)
  | [], offset => .ok ([], offset)
  | tag :: tags, offset =>
      (parseArgument tag (data.drop offset)).bind fun (argument, consumed) =>
        (readStream data tags (offset + consumed)).map fun (later, last) =>
          ((argument, consumed) :: later, last)

theorem readStream_fields {arguments : List Argument} {payloads : List Bytes}
    (fields : List.Forall₂ Argument.PayloadField arguments payloads) (front rest : Bytes) :
    readStream (front ++ (payloads.flatten ++ rest)) (arguments.map (·.tag.byte)) front.length =
      .ok (arguments.map fun argument => (argument, argument.encodedSize),
        front.length + payloads.flatten.length) := by
  induction fields generalizing front with
  | nil => rfl
  | @cons argument payload arguments payloads first _ ih =>
      have behind : (front ++ (payload ++ (payloads.flatten ++ rest))).drop front.length =
          payload ++ (payloads.flatten ++ rest) := List.drop_left
      have parsed := (parseArgument_eq_ok_iff ..).mpr
        ⟨rfl, payload, payloads.flatten ++ rest, behind, first, rfl⟩
      have later := ih (front ++ payload)
      rw [List.append_assoc, List.length_append] at later
      rw [List.flatten_cons, List.append_assoc]
      refine bind_eq_ok_iff.mpr ⟨_, parsed, map_eq_ok_iff.mpr ⟨_, later, ?_⟩⟩
      simp only [List.map_cons, first.length_eq, List.length_append, Nat.add_assoc]

theorem parseArgument_of_take_eq {byte : UInt8} {bytes other : Bytes} {argument : Argument}
    {consumed : Nat} (parsed : parseArgument byte bytes = .ok (argument, consumed))
    (same : other.take consumed = bytes.take consumed) :
    parseArgument byte other = .ok (argument, consumed) := by
  obtain ⟨tagged, field, rest, rfl, holds, rfl⟩ := (parseArgument_eq_ok_iff ..).mp parsed
  rw [List.take_left] at same
  have split : other = field ++ other.drop field.length := by
    calc
      other = other.take field.length ++ other.drop field.length :=
        (List.take_append_drop ..).symm
      _ = field ++ other.drop field.length := by rw [same]
  exact (parseArgument_eq_ok_iff ..).mpr ⟨tagged, field, _, split, holds, rfl⟩

/-- A row of payloads in front of any bytes gives the arguments back and stops in front of those
bytes; and what has been read of any bytes is written as it stood there, but for the padding. -/
theorem payload_stream_inverse :
    (∀ (arguments : List Argument) (payloads : List Bytes) (rest : Bytes),
      arguments.mapM Argument.payload = .ok payloads →
      readStream (payloads.flatten ++ rest) (arguments.map (·.tag.byte)) 0 =
          .ok (arguments.map fun argument => (argument, argument.encodedSize),
            payloads.flatten.length) ∧
        (payloads.flatten ++ rest).drop payloads.flatten.length = rest) ∧
      ∀ (byte : UInt8) (bytes : Bytes) (argument : Argument) (consumed : Nat),
        parseArgument byte bytes = .ok (argument, consumed) →
        argument.tag.byte = byte ∧ consumed = argument.encodedSize ∧ consumed ≤ bytes.length ∧
          (∀ other, other.take consumed = bytes.take consumed →
            parseArgument byte other = .ok (argument, consumed)) ∧
          ∃ field, argument.HeldBy field ∧ field.bytes = bytes.take consumed ∧
            argument.payload = .ok field.cleared := by
  constructor
  · intro arguments payloads rest written
    have fields := mapM_payload_fields arguments payloads written
    have read := readStream_fields fields [] rest
    rw [List.nil_append, List.length_nil, Nat.zero_add] at read
    exact ⟨read, List.drop_left⟩
  · intro byte bytes argument consumed parsed
    obtain ⟨tagged, field, rest, rfl, holds, rfl⟩ := (parseArgument_eq_ok_iff ..).mp parsed
    obtain ⟨padded, held, same⟩ := (Argument.payloadField_iff_padded ..).mp holds
    refine ⟨tagged, holds.length_eq, by simp, ?_, padded, held, ?_, held.written⟩
    · exact fun other agrees => parseArgument_of_take_eq parsed agrees
    · rw [same, List.take_left]

def sampleArguments : List Argument :=
  [.string "abc", .bool true, .blob [], .float32 ⟨0x7FC00001⟩]

def samplePayloads : List Bytes :=
  [[97, 98, 99, 0], [], [0, 0, 0, 0], [127, 192, 0, 1]]

theorem payload_stream_inverse_sample :
    sampleArguments.mapM Argument.payload = .ok samplePayloads ∧
      (readStream (samplePayloads.flatten ++ [0, 0, 7]) [115, 84, 98, 102] 0 =
        .ok ([(.string "abc", 4), (.bool true, 0), (.blob [], 4), (.float32 ⟨0x7FC00001⟩, 4)],
          samplePayloads.flatten.length) ∧
        (samplePayloads.flatten ++ [0, 0, 7]).drop samplePayloads.flatten.length = [0, 0, 7]) ∧
      parseArgument 98 [0, 0, 0, 1, 5, 8, 8, 8, 9] = .ok (.blob [5], 8) ∧
      ∃ field, (Argument.blob [5]).HeldBy field ∧ field.bytes = [0, 0, 0, 1, 5, 8, 8, 8] ∧
        (Argument.blob [5]).payload = .ok field.cleared := by
  have written : sampleArguments.mapM Argument.payload = .ok samplePayloads := by decide
  have tags : sampleArguments.map (·.tag.byte) = [115, 84, 98, 102] := by decide
  have sizes : sampleArguments.map (fun argument => (argument, argument.encodedSize)) =
      [(.string "abc", 4), (.bool true, 0), (.blob [], 4), (.float32 ⟨0x7FC00001⟩, 4)] := by
    decide
  have reads := payload_stream_inverse.1 _ _ [0, 0, 7] written
  rw [sizes, tags] at reads
  have parsed : parseArgument 98 [0, 0, 0, 1, 5, 8, 8, 8, 9] = .ok (.blob [5], 8) := by decide
  obtain ⟨-, -, -, -, field, held, same, cleared⟩ := payload_stream_inverse.2 _ _ _ _ parsed
  exact ⟨written, reads, parsed, field, held, same, cleared⟩

end OpenSoundControl
