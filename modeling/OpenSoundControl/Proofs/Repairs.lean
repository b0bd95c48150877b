import OpenSoundControl.Proofs.MalformedText

/-!
Reading with repairs. What is at fault is replaced up to the first byte that cannot belong to it, so
a character that stands somewhere in the bytes is found whatever stands in front of it, and the
bytes on its two sides are repaired apart.
-/

namespace OpenSoundControl.Utf8

def Pending.Continues (pending : Pending) : Prop :=
  0x80 ≤ pending.low.toNat ∧ pending.high.toNat ≤ 0xBF

theorem lead_continues {byte : UInt8} {pending : Pending} (waits : lead byte = .waiting pending) :
    pending.Continues := by
  rcases lead_cases byte with ⟨value, small, rfl⟩ | ⟨value, lower, upper, rfl⟩ |
    ⟨value, upper, rfl⟩ | ⟨value, upper, rfl⟩ | stray
  · rw [lead_one small] at waits
    contradiction
  · rw [lead_two lower upper] at waits
    obtain rfl := Advance.waiting.inj waits
    simp [Pending.Continues]
  · obtain ⟨low, high, leads, above, below, -⟩ := lead_three upper
    rw [leads] at waits
    obtain rfl := Advance.waiting.inj waits
    exact ⟨above, below⟩
  · obtain ⟨low, high, leads, above, below, -⟩ := lead_four upper
    rw [leads] at waits
    obtain rfl := Advance.waiting.inj waits
    exact ⟨above, below⟩
  · rw [stray] at waits
    contradiction

theorem extend_continues {before after : Pending} {byte : UInt8}
    (waits : before.extend byte = .waiting after) : after.Continues := by
  unfold Pending.extend at waits
  dsimp only at waits
  split at waits
  · contradiction
  · obtain rfl := Advance.waiting.inj waits
    simp [Pending.Continues]

def Reading.Continues (reading : Reading) : Prop :=
  ∀ pending, reading.pending = some pending → pending.Continues

theorem continues_after {advance : Advance} (found : List Piece)
    (continues : ∀ pending, advance = .waiting pending → pending.Continues) :
    (Reading.after found advance).Continues := by
  cases advance with
  | complete piece => exact nofun
  | waiting pending =>
      rintro _ ⟨⟩
      exact continues pending rfl

theorem Reading.continues_step (reading : Reading) (byte : UInt8) :
    (reading.step byte).Continues := by
  unfold Reading.step
  split
  · exact continues_after _ fun _ => lead_continues
  · split
    · exact continues_after _ fun _ => extend_continues
    · exact continues_after _ fun _ => lead_continues

theorem Reading.Continues.run {reading : Reading} (continues : reading.Continues) (bytes : Bytes) :
    (bytes.foldl Reading.step reading).Continues := by
  induction bytes generalizing reading with
  | nil => exact continues
  | cons byte rest ih => exact ih (reading.continues_step byte)

theorem exists_first (character : Char) : ∃ first more,
    String.utf8EncodeChar character = first :: more ∧
      (first.toNat < 0x80 ∨ 0xBF < first.toNat) := by
  have valid : character.val.toNat < 0xD800 ∨
      0xDFFF < character.val.toNat ∧ character.val.toNat < 0x110000 := character.valid
  fun_cases String.utf8EncodeChar character with
  | case1 value one =>
      refine ⟨_, _, rfl, .inl ?_⟩
      rw [UInt8.toNat_ofNat']
      omega
  | case2 value above two =>
      refine ⟨_, _, rfl, .inr ?_⟩
      rw [UInt8.toNat_ofNat']
      omega
  | case3 value above three four =>
      refine ⟨_, _, rfl, .inr ?_⟩
      rw [UInt8.toNat_ofNat']
      omega
  | case4 value above three four =>
      refine ⟨_, _, rfl, .inr ?_⟩
      rw [UInt8.toNat_ofNat']
      omega

def Reading.closed (reading : Reading) : List Piece :=
  match reading.pending with
  | none => reading.found
  | some pending => .illFormed pending.seen :: reading.found

theorem repaired_finish (reading : Reading) :
    reading.finish.map Piece.repaired = reading.closed.reverse.map Piece.repaired := by
  unfold Reading.finish Reading.closed
  cases reading.pending with
  | none => rfl
  | some pending => simp [Piece.repaired, Piece.character?]

theorem step_closed {reading : Reading} {byte : UInt8} (continues : reading.Continues)
    (starts : byte.toNat < 0x80 ∨ 0xBF < byte.toNat) :
    reading.step byte = Reading.step ⟨reading.closed, none⟩ byte := by
  rcases reading with ⟨found, pending⟩
  cases pending with
  | none => rfl
  | some pending =>
      have range := continues pending rfl
      have refused : ¬pending.accepts byte = true := by
        unfold Pending.Continues at range
        simp only [Pending.accepts, Bool.and_eq_true, decide_eq_true_eq, UInt8.le_iff_toNat_le]
        omega
      exact step_refused found refused

theorem foldl_step_character {reading : Reading} (continues : reading.Continues)
    (character : Char) : (String.utf8EncodeChar character).foldl Reading.step reading =
      ⟨.character character :: reading.closed, none⟩ := by
  obtain ⟨first, more, whole, starts⟩ := exists_first character
  have read := foldl_step_utf8EncodeChar character reading.closed
  rw [whole, List.foldl_cons] at read ⊢
  rw [step_closed continues starts, read]

theorem pieces_append_character (front rest : Bytes) (character : Char) :
    pieces (front ++ String.utf8EncodeChar character ++ rest) =
      (front.foldl Reading.step ⟨[], none⟩).closed.reverse ++
        .character character :: pieces rest := by
  have start : Reading.Continues ⟨[], none⟩ := nofun
  have read := foldl_step_character (start.run front) character
  rw [pieces, List.foldl_append, List.foldl_append, read, finish_foldl, List.reverse_cons,
    List.append_assoc, List.singleton_append]

theorem repair_append_character (front rest : Bytes) (character : Char) :
    repair (front ++ String.utf8EncodeChar character ++ rest) =
      repair front ++ String.singleton character ++ repair rest := by
  rw [repair, pieces_append_character, List.map_append, ← repaired_finish, ← pieces, List.map_cons,
    ← List.singleton_append, String.ofList_append, String.ofList_append, ← String.append_assoc]
  rfl

theorem closed_characters {reading : Reading}
    (characters : ∀ piece ∈ reading.closed, piece.isCharacter = true) :
    reading.finish = reading.closed.reverse := by
  unfold Reading.finish
  unfold Reading.closed at characters ⊢
  cases pending : reading.pending with
  | none => rfl
  | some waiting =>
      rw [pending] at characters
      have faulty := characters _ List.mem_cons_self
      contradiction

theorem encoded_append_character_iff (front rest : Bytes) (character : Char) :
    (∃ text, front ++ String.utf8EncodeChar character ++ rest = encode text) ↔
      (∃ text, front = encode text) ∧ ∃ text, rest = encode text := by
  constructor
  · rintro ⟨text, whole⟩
    have characters : ∀ piece ∈ pieces (encode text), piece.isCharacter = true := by
      rw [pieces_encode]
      simp [Piece.isCharacter]
    rw [← whole, pieces_append_character] at characters
    have closed : ∀ piece ∈ (front.foldl Reading.step ⟨[], none⟩).closed,
        piece.isCharacter = true := by
      intro piece member
      exact characters piece (List.mem_append_left _ (List.mem_reverse.mpr member))
    constructor
    · apply exists_encode_of_pieces front
      intro piece member
      rw [pieces, closed_characters closed, List.mem_reverse] at member
      exact closed piece member
    · apply exists_encode_of_pieces rest
      intro piece member
      exact characters piece (List.mem_append_right _ (List.mem_cons_of_mem _ member))
  · rintro ⟨⟨left, rfl⟩, right, rfl⟩
    refine ⟨left ++ String.singleton character ++ right, ?_⟩
    simp [encode]

theorem repair_encode_append (text : String) (rest : Bytes) :
    repair (encode text ++ rest) = text ++ repair rest := by
  rw [repair, encode, pieces_flatMap_append, List.map_append, String.ofList_append, repair]
  congr 1
  rw [List.map_map]
  exact (congrArg String.ofList (List.map_id _)).trans String.ofList_toList

theorem repair_encode (text : String) : repair (encode text) = text := by
  have whole := repair_encode_append text []
  rw [List.append_nil] at whole
  rw [whole]
  exact String.append_empty

theorem eq_encode_repair_iff {bytes : Bytes} {text : String} (repaired : repair bytes = text) :
    bytes = encode text ↔ ∃ text, bytes = encode text := by
  constructor
  · intro same
    exact ⟨text, same⟩
  · rintro ⟨other, rfl⟩
    rw [← repaired, repair_encode]

def Fault.behind (fault : Fault) (bytes : Bytes) : Bytes :=
  match fault.length with
  | some length => bytes.drop (fault.offset + length)
  | none => []

/-- Bytes are read as they are where they are a text. Elsewhere, one replacement character stands
for what is at fault at the end of the longest text in front, and reading starts again behind it. -/
inductive Repairs : Bytes → String → Prop
  | text (text : String) : Repairs (encode text) text
  | fault {bytes : Bytes} {fault : Fault} {text rest : String} : Malformed bytes fault →
      encode text = bytes.take fault.offset → Repairs (fault.behind bytes) rest →
      Repairs bytes (text ++ "\uFFFD" ++ rest)

theorem Malformed.no_character {bytes : Bytes} {fault : Fault} (malformed : Malformed bytes fault)
    (character : Char) : ¬String.utf8EncodeChar character <+: bytes.drop fault.offset := by
  rintro ⟨rest, starts⟩
  obtain ⟨text, front⟩ := malformed.front
  have size : (encode text).length = fault.offset := by
    rw [front, List.length_take_of_le (Nat.le_of_lt malformed.inside)]
  have whole : encode text ++ String.utf8EncodeChar character ++ rest = bytes := by
    rw [List.append_assoc, starts, front, List.take_append_drop]
  have longer : encode (text.push character) = encode text ++ String.utf8EncodeChar character := by
    simp [encode]
  have within := malformed.longest (text.push character) (longer ▸ ⟨rest, whole⟩)
  rw [longer, List.length_append, String.length_utf8EncodeChar, size] at within
  have positive := character.utf8Size_pos
  omega

theorem repair_of_malformed {bytes : Bytes} {fault : Fault} {text : String}
    (malformed : Malformed bytes fault) (front : encode text = bytes.take fault.offset) :
    repair bytes = text ++ "\uFFFD" ++ repair (fault.behind bytes) := by
  have inside := malformed.inside
  have more : bytes.drop fault.offset ≠ [] := by
    rw [Ne, List.drop_eq_nil_iff]
    omega
  have rest : repair (bytes.drop fault.offset) = "\uFFFD" ++ repair (fault.behind bytes) := by
    obtain ⟨piece, split, first⟩ := cutsFirst more
    have replaced : piece.repaired = '\uFFFD' ∧
        (bytes.drop fault.offset).drop piece.size = fault.behind bytes := by
      unfold Fault.behind
      cases first with
      | character starts => exact absurd starts (malformed.no_character _)
      | illFormed span =>
          rw [malformed.span.unique span]
          exact ⟨rfl, List.drop_drop⟩
      | truncated span =>
          rw [malformed.span.unique span]
          exact ⟨rfl, List.drop_length⟩
    rw [repair, split, List.map_cons, replaced.1, replaced.2, ← List.singleton_append,
      String.ofList_append, repair]
  rw [← List.take_append_drop fault.offset bytes, ← front, repair_encode_append, front,
    List.take_append_drop, rest, String.append_assoc]

theorem Malformed.behind_shorter {bytes : Bytes} {fault : Fault}
    (malformed : Malformed bytes fault) : (fault.behind bytes).length < bytes.length := by
  have inside := malformed.inside
  unfold Fault.behind
  cases length : fault.length with
  | none =>
      dsimp only
      rw [List.length_nil]
      omega
  | some size =>
      have span := malformed.span
      rw [length] at span
      cases span with
      | run positive _ _ =>
          dsimp only
          rw [List.length_drop]
          omega

theorem repairs_repair (bytes : Bytes) : Repairs bytes (repair bytes) := by
  generalize size : bytes.length = length
  induction length using Nat.strongRecOn generalizing bytes with
  | ind length ih =>
      cases decoded : decode bytes with
      | ok text =>
          rw [(decode_eq_ok_iff _ _).mp decoded, repair_encode]
          exact .text text
      | error fault =>
          have malformed := malformed_of_decode decoded
          obtain ⟨text, front⟩ := malformed.front
          have shorter := malformed.behind_shorter
          rw [size] at shorter
          rw [repair_of_malformed malformed front]
          exact .fault malformed front (ih _ shorter _ rfl)

theorem repairs_iff (bytes : Bytes) (text : String) : Repairs bytes text ↔ text = repair bytes := by
  constructor
  · intro repairs
    induction repairs with
    | text text => exact (repair_encode text).symm
    | fault malformed front _ ih => rw [repair_of_malformed malformed front, ih]
  · rintro rfl
    exact repairs_repair bytes

end OpenSoundControl.Utf8
