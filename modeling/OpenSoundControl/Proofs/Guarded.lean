import OpenSoundControl.Guarded
import OpenSoundControl.Proofs.FirstFault

/-!
The guarded decoder never breaks down, and answers as the decoder does: wherever a field is cut out,
what has been read before keeps the slice, the report and the cursor within the packet.
-/

namespace OpenSoundControl

namespace Guarded

variable {α β : Type}

def Answers (guarded : Guarded α) (outcome : Except Error α) : Prop :=
  guarded.run = some outcome

theorem Answers.bind_cases {guarded : Guarded α} {outcome : Except Error α} {next : α → Guarded β}
    {result : Except Error β} (answers : Answers guarded outcome)
    (fails : ∀ error, outcome = .error error → result = .error error)
    (goesOn : ∀ value, outcome = .ok value → Answers (next value) result) :
    Answers (guarded >>= next) result := by
  unfold Answers at *
  rw [ExceptT.run_bind, answers]
  cases outcome with
  | error error =>
      rw [fails error rfl]
      rfl
  | ok value => exact goesOn value rfl

theorem Answers.bind {guarded : Guarded α} {outcome : Except Error α} {next : α → Guarded β}
    {after : α → Except Error β} (answers : Answers guarded outcome)
    (goesOn : ∀ value, outcome = .ok value → Answers (next value) (after value)) :
    Answers (guarded >>= next) (outcome >>= after) := by
  refine answers.bind_cases ?_ ?_
  · rintro error rfl
    rfl
  · rintro value rfl
    exact goesOn value rfl

theorem answers_unchecked (outcome : Except Error α) : Answers (unchecked outcome) outcome := rfl

theorem Answers.shift {guarded : Guarded α} {outcome : Except Error α}
    (answers : Answers guarded outcome) (base : Nat) :
    Answers (shift base guarded) (outcome.mapError (Error.shift base)) := by
  unfold Answers at *
  unfold Guarded.shift
  rw [ExceptT.run_adapt, answers]
  rfl

theorem check_eq {condition : Prop} [Decidable condition] (holds : condition) :
    check condition = pure () :=
  if_pos holds

theorem sliceFrom_eq {bytes : Bytes} {start : Nat} (inside : start ≤ bytes.length) :
    sliceFrom bytes start = pure (bytes.drop start) := by
  rw [sliceFrom, check_eq inside, pure_bind]

theorem sliceTo_eq {bytes : Bytes} {stop : Nat} (inside : stop ≤ bytes.length) :
    sliceTo bytes stop = pure (bytes.take stop) := by
  rw [sliceTo, check_eq inside, pure_bind]

theorem report_eq {bytes : Bytes} {consumed : Nat} (value : α)
    (whole : consumed % Wire.alignment = 0) (inside : consumed ≤ bytes.length) :
    report bytes value consumed = pure (value, consumed) := by
  rw [report, check_eq whole, check_eq inside, pure_bind, pure_bind]

theorem advance_eq {packet : Bytes} {cursor consumed : Nat}
    (aligned : (cursor + consumed) % Wire.alignment = 0)
    (inside : cursor + consumed ≤ packet.length) :
    advance packet cursor consumed = pure (cursor + consumed) := by
  rw [advance, check_eq aligned, check_eq inside, pure_bind, pure_bind]

theorem answers_readString (bytes : Bytes) :
    Answers (readString bytes) (Wire.readString bytes) := by
  unfold readString Wire.readString
  cases bytes.findIdx? (· = 0) with
  | none => rfl
  | some position =>
      dsimp only
      by_cases short : bytes.length < Wire.paddedLength (position + 1)
      · rw [if_pos short, if_pos short]
        rfl
      · have inside : position ≤ bytes.length := by
          have padded := Wire.le_paddedLength (position + 1)
          omega
        rw [if_neg short, if_neg short, sliceTo_eq inside, pure_bind]
        cases Utf8.decode (bytes.take position) with
        | error fault => rfl
        | ok text =>
            dsimp only
            rw [report_eq text (Wire.paddedLength_mod _) (Nat.le_of_not_lt short)]
            rfl

theorem answers_readBlob (declared : Nat) (bytes : Bytes) :
    Answers (readBlob declared bytes) (Wire.readBlob declared bytes) := by
  unfold readBlob Wire.readBlob
  dsimp only
  by_cases short : bytes.length < Wire.paddedLength declared
  · rw [if_pos short, if_pos short]
    rfl
  · have inside : declared ≤ bytes.length := by
      have padded := Wire.le_paddedLength declared
      omega
    rw [if_neg short, if_neg short, sliceTo_eq inside, pure_bind,
      report_eq _ (Wire.paddedLength_mod _) (Nat.le_of_not_lt short)]
    rfl

theorem answers_readWord (field : WordField) (bytes : Bytes) :
    Answers (readWord field bytes) (Wire.readWord field bytes) := by
  unfold readWord
  by_cases short : bytes.length < 4
  · rw [if_pos short, Wire.readWord_short field short]
    rfl
  · rw [if_neg short, sliceTo_eq (Nat.le_of_not_lt short), pure_bind]
    obtain ⟨word, rest, rfl⟩ := Wire.exists_word (Nat.le_of_not_lt short)
    rfl

theorem answers_readBlobField (bytes : Bytes) :
    Answers (readBlobField bytes) (Wire.readBlobField bytes) := by
  refine (answers_readWord .blobLength bytes).bind_cases ?_ ?_
  · intro error failed
    simp only [Wire.readBlobField, failed]
  · intro word isWord
    unfold Wire.readBlobField
    simp only [isWord]
    by_cases negative : word.toInt32 < 0
    · rw [if_pos negative, if_pos negative]
      rfl
    · obtain ⟨rest, rfl⟩ := (Wire.readWord_eq_ok_iff _ _ _).mp isWord
      have prefixed := length_bigEndian word
      have inside : 4 ≤ (bigEndian word ++ rest).length := by
        rw [List.length_append, prefixed]
        omega
      rw [if_neg negative, if_neg negative, sliceFrom_eq inside, pure_bind,
        List.drop_left' prefixed]
      refine ((answers_readBlob word.toNat rest).shift 4).bind_cases ?_ ?_
      · intro error failed
        obtain ⟨inner, isInner, rfl⟩ := mapError_eq_error_iff.mp failed
        rw [isInner]
      · rintro ⟨data, consumed⟩ read
        have isBlob := mapError_eq_ok_iff.mp read
        obtain ⟨-, rfl, padding, behind, rfl, -, size⟩ := (Wire.readBlob_eq_ok_iff ..).mp isBlob
        have padded := Wire.paddedLength_mod word.toNat
        have whole : (4 + Wire.paddedLength word.toNat) % Wire.alignment = 0 := by
          rw [Wire.alignment]
          omega
        have fits : 4 + Wire.paddedLength word.toNat ≤
            (bigEndian word ++ (data ++ padding ++ behind)).length := by
          simp only [List.length_append, prefixed]
          omega
        dsimp only
        rw [isBlob, report_eq data whole fits]
        rfl

theorem answers_payload {tag : Tag} {bytes : Bytes} {guarded : Guarded α}
    {outcome : Except Error α} {size : α → Nat} {make : α → Argument}
    (answers : Answers guarded outcome)
    (reads : tag.read bytes = outcome.map fun value => (make value, size value)) :
    Answers (guarded >>= fun value => report bytes (make value) (size value)) (tag.read bytes) := by
  refine answers.bind_cases ?_ ?_
  · rintro error rfl
    exact reads
  · rintro value rfl
    obtain ⟨-, field, rest, rfl, holds, consumed⟩ := (Tag.read_eq_ok_iff ..).mp reads
    have whole := holds.aligned
    rw [← consumed] at whole
    rw [reads, report_eq _ whole (by simp [consumed])]
    rfl

theorem answers_readPayload (tag : Tag) (bytes : Bytes) :
    Answers (readPayload tag bytes) (tag.read bytes) := by
  cases tag with
  | int32 =>
      refine answers_payload (answers_readWord .int32 bytes) ?_
      rw [Tag.read, Wire.readInt32]
      cases Wire.readWord .int32 bytes <;> rfl
  | float32 =>
      refine answers_payload (answers_readWord .float32 bytes) ?_
      rw [Tag.read, Wire.readSingle]
      cases Wire.readWord .float32 bytes <;> rfl
  | true =>
      rw [readPayload, report_eq _ rfl (Nat.zero_le _)]
      rfl
  | false =>
      rw [readPayload, report_eq _ rfl (Nat.zero_le _)]
      rfl
  | string => exact answers_payload (answers_readString bytes) rfl
  | blob => exact answers_payload (answers_readBlobField bytes) rfl

theorem answers_parseArgument (byte : UInt8) (bytes : Bytes) :
    Answers (parseArgument byte bytes) (OpenSoundControl.parseArgument byte bytes) := by
  unfold parseArgument OpenSoundControl.parseArgument
  cases Tag.ofByte? byte with
  | none => rfl
  | some known => exact answers_readPayload known bytes

structure Within (packet : Bytes) (position : Nat) (rest : Bytes) : Prop where
  split : packet.drop position = rest
  inside : position ≤ packet.length
  aligned : position % Wire.alignment = 0

theorem Within.start (packet : Bytes) : Within packet 0 packet :=
  ⟨rfl, Nat.zero_le _, rfl⟩

theorem Within.behind {packet field rest : Bytes} {position : Nat}
    (within : Within packet position (field ++ rest)) (whole : field.length % Wire.alignment = 0) :
    Within packet (position + field.length) rest := by
  obtain ⟨split, inside, aligned⟩ := within
  have size := congrArg List.length split
  rw [List.length_drop, List.length_append] at size
  refine ⟨?_, ?_, ?_⟩
  · rw [← List.drop_drop, split, List.drop_left]
  · omega
  · rw [Wire.alignment] at *
    omega

theorem Within.step {packet : Bytes} {cursor next : Codec.Cursor}
    (within : Within packet cursor.position cursor.rest) {byte : UInt8}
    (stepped : cursor.step byte = .ok next) : Within packet next.position next.rest := by
  obtain ⟨argument, field, rest, -, split, holds, rfl⟩ :=
    (cursor.step_eq_ok_iff next byte).mp stepped
  rw [split] at within
  exact within.behind holds.aligned

def place (cursor : Codec.Cursor) : Place :=
  ⟨cursor.tagPosition, cursor.position, cursor.found⟩

theorem answers_step {packet : Bytes} {cursor : Codec.Cursor}
    (within : Within packet cursor.position cursor.rest) (byte : UInt8) :
    Answers ((place cursor).step packet byte) ((cursor.step byte).map place) := by
  unfold Place.step
  rw [Tag.isSupported_eq]
  cases known : Tag.ofByte? byte with
  | none =>
      simp only [Codec.Cursor.step, known]
      rfl
  | some tag =>
      have parses := (answers_parseArgument byte cursor.rest).shift cursor.position
      have same : OpenSoundControl.parseArgument byte cursor.rest = tag.read cursor.rest := by
        simp only [OpenSoundControl.parseArgument, known]
      rw [same] at parses
      rw [if_pos Option.isSome_some, place, sliceFrom_eq within.inside, pure_bind, within.split]
      refine parses.bind_cases ?_ ?_
      · intro error failed
        obtain ⟨inner, isInner, rfl⟩ := mapError_eq_error_iff.mp failed
        simp only [Codec.Cursor.step, known, isInner]
        rfl
      · rintro ⟨argument, consumed⟩ read
        have stepped : cursor.step byte = .ok ⟨cursor.tagPosition + 1,
            cursor.position + consumed, cursor.rest.drop consumed,
            argument :: cursor.found⟩ := by
          simp only [Codec.Cursor.step, known, mapError_eq_ok_iff.mp read]
        have after := within.step stepped
        dsimp only
        rw [stepped, advance_eq after.aligned after.inside]
        rfl

theorem answers_run {packet : Bytes} (cursor : Codec.Cursor)
    (within : Within packet cursor.position cursor.rest) (tags : Bytes) :
    Answers (tags.foldlM (Place.step packet) (place cursor))
        ((tags.foldlM Codec.Cursor.step cursor).map place) ∧
      ∀ last, tags.foldlM Codec.Cursor.step cursor = .ok last →
        Within packet last.position last.rest := by
  induction tags generalizing cursor with
  | nil =>
      refine ⟨rfl, ?_⟩
      intro last same
      obtain rfl := Except.ok.inj same
      exact within
  | cons byte later ih =>
      -- A tag that fails ends both runs; one that is read leaves the cursor within the packet.
      rw [List.foldlM_cons, List.foldlM_cons]
      constructor
      · refine (answers_step within byte).bind_cases ?_ ?_
        · intro error failed
          rw [map_eq_error_iff.mp failed]
          rfl
        · intro start isStart
          obtain ⟨next, stepped, rfl⟩ := map_eq_ok_iff.mp isStart
          rw [stepped]
          exact (ih next (within.step stepped)).1
      · intro last run
        obtain ⟨next, stepped, goesOn⟩ := bind_eq_ok_iff.mp run
        exact (ih next (within.step stepped)).2 last goesOn

theorem answers_decodeAddress (packet : Bytes) :
    Answers (decodeAddress packet) (Codec.decodeAddress packet) := by
  refine (answers_readString packet).bind ?_
  rintro ⟨address, consumed⟩ read
  obtain ⟨field, rest, rfl, holds, rfl⟩ := (Wire.readString_eq_ok_iff _ _ _).mp read
  have after := (Within.start (field ++ rest)).behind (Argument.PayloadField.string holds).aligned
  dsimp only
  rw [advance_eq after.aligned after.inside, pure_bind, Nat.zero_add]
  split
  · rfl
  · split <;> rfl

theorem answers_decodeArguments (codec : Codec) {packet rest : Bytes} {position : Nat}
    (within : Within packet position rest) :
    Answers (decodeArguments codec packet position) (codec.decodeArguments position rest) := by
  unfold decodeArguments
  rw [sliceFrom_eq within.inside, pure_bind, within.split]
  refine ((answers_readString _).shift position).bind ?_
  rintro ⟨text, consumed⟩ read
  obtain ⟨field, behind, rfl, holds, rfl⟩ :=
    (Wire.readString_eq_ok_iff _ _ _).mp (mapError_eq_ok_iff.mp read)
  have after := within.behind (Argument.PayloadField.string holds).aligned
  dsimp only
  rw [advance_eq after.aligned after.inside, pure_bind]
  refine (answers_unchecked (codec.splitTags position (Utf8.encode text))).bind ?_
  rintro ⟨tags, first⟩ -
  dsimp only
  rw [List.drop_left]
  obtain ⟨runs, remains⟩ :=
    answers_run ⟨first, position + field.length, behind, []⟩ after tags
  refine runs.bind_cases ?_ ?_
  · intro error failed
    rw [map_eq_error_iff.mp failed]
    rfl
  · intro ending isEnding
    obtain ⟨last, run, rfl⟩ := map_eq_ok_iff.mp isEnding
    obtain ⟨split, inside, -⟩ := remains last run
    have ends : last.position = packet.length ↔ last.rest = [] := by
      rw [← split, List.drop_eq_nil_iff]
      omega
    have size : last.rest.length = packet.length - last.position := by
      rw [← split, List.length_drop]
    rw [run]
    simp only [place, ne_eq, ends, ← size]
    obtain ⟨tagPosition, position, rest, found⟩ := last
    cases codec.strict <;> cases rest <;> rfl

theorem answers_decode (codec : Codec) (packet : Bytes) (sender : Option String) :
    Answers (decode codec packet sender) (codec.decode packet sender) := by
  unfold decode Codec.decode
  by_cases above : codec.limit < packet.length
  · rw [if_pos above, if_pos above]
    rfl
  · rw [if_neg above, if_neg above]
    refine (answers_decodeAddress packet).bind ?_
    rintro ⟨address, consumed⟩ isAddress
    obtain ⟨-, -, field, rest, rfl, holds, rfl⟩ :=
      (Codec.decodeAddress_eq_ok_iff ..).mp isAddress
    have after := (Within.start (field ++ rest)).behind (Argument.PayloadField.string holds).aligned
    rw [Nat.zero_add] at after
    dsimp only
    rw [List.drop_left, List.length_append]
    cases rest with
    | nil =>
        rw [List.length_nil, Nat.add_zero, if_pos rfl]
        cases codec.strict <;> rfl
    | cons byte rest =>
        rw [List.length_cons, if_neg (by omega)]
        refine (answers_decodeArguments codec after).bind ?_
        intro arguments _
        rfl

end Guarded

theorem parseArgument_invalidTypeTag_iff (byte : UInt8) (bytes : Bytes) :
    (∃ expected found, parseArgument byte bytes = .error (.invalidTypeTag expected found)) ↔
      Tag.isSupported byte = false := by
  rw [Tag.isSupported_eq, parseArgument]
  cases Tag.ofByte? byte with
  | none => exact ⟨fun _ => rfl, fun _ => ⟨none, byte, rfl⟩⟩
  | some tag =>
      refine ⟨?_, nofun⟩
      rintro ⟨expected, found, failed⟩
      dsimp only at failed
      rcases tag.read_cases bytes with ⟨argument, consumed, read⟩ | ⟨cause, isCut⟩ |
        ⟨offset, cause, isRefused⟩
      · rw [read] at failed
        contradiction
      · rw [isCut.read] at failed
        cases failed
      · rw [isRefused.read] at failed
        cases failed

/-- Decoding keeps to its packet, and fails in two ways only. -/
theorem Codec.decode_guarded (codec : Codec) (packet : Bytes) (sender : Option String) :
    (Guarded.decode codec packet sender).run = some (codec.decode packet sender) ∧
      ((∃ message, codec.decode packet sender = .ok message) ∨
        codec.decode packet sender = .error (.packetTooLarge packet.length codec.limit) ∨
        ∃ offset ≤ packet.length, FailsAt (codec.decode packet sender) offset) ∧
      ((∃ size limit, codec.decode packet sender = .error (.packetTooLarge size limit)) ↔
        codec.limit < packet.length) ∧
      (∀ expected found, codec.decode packet sender ≠ .error (.invalidTypeTag expected found)) ∧
      ∀ byte bytes, Tag.isSupported byte = false ↔
        ∃ expected found, parseArgument byte bytes = .error (.invalidTypeTag expected found) := by
  refine ⟨Guarded.answers_decode codec packet sender, ?_⟩
  have agree (byte : UInt8) (bytes : Bytes) := (parseArgument_invalidTypeTag_iff byte bytes).symm
  by_cases above : codec.limit < packet.length
  · have refused : codec.decode packet sender =
        .error (.packetTooLarge packet.length codec.limit) := if_pos above
    rw [refused]
    exact ⟨.inr (.inl rfl), ⟨fun _ => above, fun _ => ⟨_, _, rfl⟩⟩, nofun, agree⟩
  · have fits := Nat.le_of_not_lt above
    rcases codec.decode_cases packet fits sender with ⟨message, decoded⟩ | ⟨offset, cause, fault⟩
    · rw [decoded]
      exact ⟨.inl ⟨_, rfl⟩, ⟨nofun, fun large => absurd large above⟩, nofun, agree⟩
    · rw [fault.decode_eq fits]
      exact ⟨.inr (.inr ⟨offset, fault.offset_le, cause, rfl⟩),
        ⟨nofun, fun large => absurd large above⟩, nofun, agree⟩

end OpenSoundControl
