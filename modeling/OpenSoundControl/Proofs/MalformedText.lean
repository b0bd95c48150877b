import OpenSoundControl.Proofs.Utf8

/-!
Bytes that are no text. Reading stops behind the longest start of the bytes that is a text. What is
at fault there is the longest run that could still have begun a character, a single byte where none
begins, or nothing but the end of the bytes.
-/

namespace OpenSoundControl.Utf8

def Begins (bytes : Bytes) : Prop :=
  ∃ character, bytes <+: String.utf8EncodeChar character

/-- How many bytes are at fault where no character starts. -/
inductive FaultSpan (tail : Bytes) : Option Nat → Prop
  | cutShort : Begins tail → FaultSpan tail none
  | run {length : Nat} : 0 < length → (length = 1 ∨ Begins (tail.take length)) →
      ¬Begins (tail.take (length + 1)) → FaultSpan tail (some length)

/-- Bytes that are no text, with the end of the longest text in front of them and what is at fault
there. -/
structure Malformed (bytes : Bytes) (fault : Fault) : Prop where
  inside : fault.offset < bytes.length
  front : ∃ text, encode text = bytes.take fault.offset
  longest : ∀ text, encode text <+: bytes → (encode text).length ≤ fault.offset
  span : FaultSpan (bytes.drop fault.offset) fault.length

theorem Begins.of_prefix {short long : Bytes} (begins : Begins long) (front : short <+: long) :
    Begins short := by
  obtain ⟨character, whole⟩ := begins
  exact ⟨character, front.trans whole⟩

theorem FaultSpan.unique {tail : Bytes} {left right : Option Nat} (leftSpan : FaultSpan tail left)
    (rightSpan : FaultSpan tail right) : left = right := by
  have shorter {short long : Nat} (less : short < long) (positive : 0 < short)
      (begins : long = 1 ∨ Begins (tail.take long)) : Begins (tail.take (short + 1)) := by
    rcases begins with rfl | begins
    · omega
    · exact begins.of_prefix (List.take_prefix_take_left less)
  cases leftSpan with
  | cutShort begins =>
      cases rightSpan with
      | cutShort _ => rfl
      | run _ _ ends => exact absurd (begins.of_prefix (List.take_prefix _ _)) ends
  | @run length positive begins ends =>
      cases rightSpan with
      | cutShort whole => exact absurd (whole.of_prefix (List.take_prefix _ _)) ends
      | @run other otherPositive otherBegins otherEnds =>
          rcases Nat.lt_trichotomy length other with less | rfl | more
          · exact absurd (shorter less positive otherBegins) ends
          · rfl
          · exact absurd (shorter more otherPositive begins) otherEnds

theorem Malformed.unique {bytes : Bytes} {left right : Fault} (leftFault : Malformed bytes left)
    (rightFault : Malformed bytes right) : left = right := by
  have below {first second : Fault} (firstFault : Malformed bytes first)
      (secondFault : Malformed bytes second) : first.offset ≤ second.offset := by
    obtain ⟨text, front⟩ := firstFault.front
    have within := secondFault.longest text (front ▸ List.take_prefix _ _)
    rwa [front, List.length_take_of_le (Nat.le_of_lt firstFault.inside)] at within
  have offsets := Nat.le_antisymm (below leftFault rightFault) (below rightFault leftFault)
  have span := leftFault.span
  rw [offsets] at span
  have lengths := span.unique rightFault.span
  cases left
  cases right
  exact congrArg₂ Fault.mk offsets lengths

def Pending.Open (pending : Pending) : Prop :=
  0 < pending.missing ∧ pending.low ≤ pending.high

theorem lead_outcome (byte : UInt8) :
    (∃ character, lead byte = .complete (.character character)) ∨
      lead byte = .complete (.illFormed 1) ∨
      ∃ pending, lead byte = .waiting pending ∧ pending.Open ∧ pending.seen = 1 := by
  unfold lead
  split
  · exact .inl ⟨_, rfl⟩
  · split
    · exact .inr (.inl rfl)
    · split
      · exact .inr (.inr ⟨_, rfl, by simp [Pending.Open], rfl⟩)
      · split
        · refine .inr (.inr ⟨_, rfl, ⟨by simp, ?_⟩, rfl⟩)
          dsimp only
          split <;> split <;> simp_all
        · split
          · refine .inr (.inr ⟨_, rfl, ⟨by simp, ?_⟩, rfl⟩)
            dsimp only
            split <;> split <;> simp_all
          · exact .inr (.inl rfl)

theorem Pending.Open.extend {pending : Pending} (isOpen : pending.Open) (byte : UInt8) :
    (∃ character, pending.extend byte = .complete (.character character)) ∨
      ∃ next, pending.extend byte = .waiting next ∧ next.Open ∧
        next.seen = pending.seen + 1 ∧ next.missing + 1 = pending.missing := by
  unfold Pending.extend
  dsimp only
  split
  · exact .inl ⟨_, rfl⟩
  · rename_i several
    obtain ⟨positive, -⟩ := isOpen
    refine .inr ⟨_, rfl, ⟨?_, by simp⟩, rfl, ?_⟩
    all_goals
      dsimp only
      omega

theorem step_accepted (found : List Piece) {pending : Pending} {byte : UInt8}
    (accepted : pending.accepts byte = true) :
    Reading.step ⟨found, some pending⟩ byte = .after found (pending.extend byte) := by
  simp [Reading.step, accepted]

theorem step_refused (found : List Piece) {pending : Pending} {byte : UInt8}
    (refused : ¬pending.accepts byte = true) :
    Reading.step ⟨found, some pending⟩ byte =
      .after (.illFormed pending.seen :: found) (lead byte) := by
  simp [Reading.step, refused]

theorem Pending.Open.completion {pending : Pending} (isOpen : pending.Open) :
    ∃ (rest : Bytes) (character : Char), rest.foldl Reading.step ⟨[], some pending⟩ =
      ⟨[.character character], none⟩ := by
  generalize count : pending.missing = missing
  induction missing generalizing pending with
  | zero =>
      obtain ⟨positive, -⟩ := isOpen
      omega
  | succ missing ih =>
      -- The least byte that is awaited is accepted, and fewer are awaited behind it.
      have accepted : pending.accepts pending.low = true := by
        simp [Pending.accepts, isOpen.2]
      rcases isOpen.extend pending.low with ⟨character, done⟩ | ⟨next, waits, nextOpen, -, fewer⟩
      · refine ⟨[pending.low], character, ?_⟩
        rw [List.foldl_cons, step_accepted [] accepted, done]
        rfl
      · obtain ⟨rest, character, completed⟩ := ih nextOpen (by omega)
        refine ⟨pending.low :: rest, character, ?_⟩
        rw [List.foldl_cons, step_accepted [] accepted, waits]
        exact completed

theorem eq_utf8EncodeChar_of_read (bytes : Bytes) {character : Char}
    (read : bytes.foldl Reading.step ⟨[], none⟩ = ⟨[.character character], none⟩) :
    bytes = String.utf8EncodeChar character := by
  have all : pieces bytes = [.character character] := by
    rw [pieces, read]
    rfl
  have decoded : decode bytes = .ok (String.ofList [character]) := by
    simp [decode, all, List.dropWhile, Piece.isCharacter, Piece.character?]
  rw [(decode_eq_ok_iff _ _).mp decoded]
  simp [encode]

theorem begins_of_pending {front : Bytes} {pending : Pending} (isOpen : pending.Open)
    (read : front.foldl Reading.step ⟨[], none⟩ = ⟨[], some pending⟩) : Begins front := by
  obtain ⟨rest, character, completed⟩ := isOpen.completion
  have whole : (front ++ rest).foldl Reading.step ⟨[], none⟩ = ⟨[.character character], none⟩ := by
    rw [List.foldl_append, read, completed]
  exact ⟨character, rest, eq_utf8EncodeChar_of_read _ whole⟩

theorem not_begins_of_found {front : Bytes} {piece : Piece}
    (member : piece ∈ (front.foldl Reading.step ⟨[], none⟩).found)
    (faulty : piece.isCharacter = false) : ¬Begins front := by
  rintro ⟨character, rest, same⟩
  have read := foldl_step_utf8EncodeChar character []
  rw [← same, List.foldl_append] at read
  have broken := broken_foldl rest faulty member
  rw [read] at broken
  obtain ⟨other, member, faulty⟩ := broken
  simp only [Reading.finish, List.reverse_singleton, List.mem_singleton] at member
  rw [member] at faulty
  contradiction

inductive StartsWith (bytes : Bytes) : Piece → Prop
  | character {character : Char} : String.utf8EncodeChar character <+: bytes →
      StartsWith bytes (.character character)
  | illFormed {length : Nat} : FaultSpan bytes (some length) → StartsWith bytes (.illFormed length)
  | truncated : FaultSpan bytes none → StartsWith bytes (.truncated bytes.length)

def CutsFirst (bytes : Bytes) : Prop :=
  ∃ piece, pieces bytes = piece :: pieces (bytes.drop piece.size) ∧ StartsWith bytes piece

theorem cutsFirst_character (character : Char) (rest : Bytes) :
    CutsFirst (String.utf8EncodeChar character ++ rest) := by
  refine ⟨.character character, ?_, .character (List.prefix_append _ _)⟩
  have size : (String.utf8EncodeChar character).length = (Piece.character character).size :=
    String.length_utf8EncodeChar character
  rw [pieces_utf8EncodeChar_append, ← size, List.drop_left]

theorem not_begins_of_refused {front : Bytes} {new : List Piece} {length : Nat}
    {pending : Option Pending}
    (read : front.foldl Reading.step ⟨[], none⟩ = ⟨new ++ [.illFormed length], pending⟩) :
    ¬Begins front := by
  have member : Piece.illFormed length ∈ (front.foldl Reading.step ⟨[], none⟩).found := by
    rw [read]
    exact List.mem_append_right _ (List.mem_singleton_self _)
  exact not_begins_of_found member rfl

theorem cutsFirst_stray {byte : UInt8} (stray : lead byte = .complete (.illFormed 1))
    (rest : Bytes) : CutsFirst (byte :: rest) := by
  have read : [byte].foldl Reading.step ⟨[], none⟩ = ⟨[] ++ [.illFormed 1], none⟩ := by
    simp [Reading.step, Reading.after, stray]
  refine ⟨.illFormed 1, ?_, .illFormed (.run Nat.one_pos (.inl rfl) fun begins => ?_)⟩
  · rw [pieces, ← List.singleton_append, List.foldl_append, read, List.nil_append, finish_foldl]
    rfl
  · exact not_begins_of_refused read (begins.of_prefix ⟨rest.take 1, rfl⟩)

theorem cutsFirst_refused {front rest : Bytes} {byte : UInt8} {pending : Pending}
    (isOpen : pending.Open) (seen : pending.seen = front.length) (started : front ≠ [])
    (read : front.foldl Reading.step ⟨[], none⟩ = ⟨[], some pending⟩)
    (refused : ¬pending.accepts byte = true) : CutsFirst (front ++ byte :: rest) := by
  have readOn : Reading.step (front.foldl Reading.step ⟨[], none⟩) byte =
      Reading.step ⟨[.illFormed front.length], none⟩ byte := by
    rw [read, step_refused [] refused, seen]
    rfl
  refine ⟨.illFormed front.length, ?_, .illFormed (.run (List.length_pos_iff.mpr started) ?_ ?_)⟩
  · rw [Piece.size, List.drop_left, pieces, List.foldl_append, List.foldl_cons, readOn,
      ← List.foldl_cons, finish_foldl]
    rfl
  · rw [List.take_left]
    exact .inr (begins_of_pending isOpen read)
  · have longer : (front ++ [byte]).foldl Reading.step ⟨[], none⟩ =
        .after ([] ++ [.illFormed front.length]) (lead byte) := by
      rw [List.foldl_append, List.foldl_cons, readOn]
      rfl
    rw [after_append] at longer
    rw [List.append_cons, List.take_left' (by simp)]
    exact not_begins_of_refused longer

theorem cutsFirst_of_pending {front rest : Bytes} {pending : Pending} (isOpen : pending.Open)
    (seen : pending.seen = front.length) (started : front ≠ [])
    (read : front.foldl Reading.step ⟨[], none⟩ = ⟨[], some pending⟩) :
    CutsFirst (front ++ rest) := by
  induction rest generalizing front pending with
  | nil =>
      rw [List.append_nil]
      refine ⟨.truncated front.length, ?_, .truncated (.cutShort (begins_of_pending isOpen read))⟩
      rw [Piece.size, List.drop_length, pieces, read, ← seen]
      rfl
  | cons byte rest ih =>
      by_cases accepted : pending.accepts byte = true
      · -- A byte that is accepted completes the character or leaves it pending.
        have readOn : (front ++ [byte]).foldl Reading.step ⟨[], none⟩ =
            .after [] (pending.extend byte) := by
          rw [List.foldl_append, read, List.foldl_cons, step_accepted [] accepted]
          rfl
        rw [List.append_cons]
        rcases isOpen.extend byte with ⟨character, done⟩ | ⟨next, waits, nextOpen, nextSeen, -⟩
        · rw [done] at readOn
          rw [eq_utf8EncodeChar_of_read _ readOn]
          exact cutsFirst_character character rest
        · rw [waits] at readOn
          exact ih nextOpen (by simp [nextSeen, seen]) (by simp) readOn
      · exact cutsFirst_refused isOpen seen started read accepted

theorem cutsFirst {bytes : Bytes} (more : bytes ≠ []) : CutsFirst bytes := by
  obtain ⟨byte, rest, rfl⟩ := List.exists_cons_of_ne_nil more
  rcases lead_outcome byte with ⟨character, leads⟩ | stray | ⟨pending, waits, isOpen, seen⟩
  · have read : [byte].foldl Reading.step ⟨[], none⟩ = ⟨[.character character], none⟩ :=
      step_character [] leads
    have first := cutsFirst_character character rest
    rwa [← eq_utf8EncodeChar_of_read [byte] read] at first
  · exact cutsFirst_stray stray rest
  · have read : [byte].foldl Reading.step ⟨[], none⟩ = ⟨[], some pending⟩ := step_waiting [] waits
    have size : pending.seen = [byte].length := seen
    exact cutsFirst_of_pending isOpen size (List.cons_ne_nil _ _) read

def FaultFirst (tail : Bytes) : Prop :=
  ∃ piece more, pieces tail = piece :: more ∧ piece.isCharacter = false ∧
    FaultSpan tail (piece.fault 0).length

theorem faultFirst {tail : Bytes} (more : tail ≠ [])
    (noCharacter : ∀ character, ¬String.utf8EncodeChar character <+: tail) : FaultFirst tail := by
  obtain ⟨piece, split, first⟩ := cutsFirst more
  cases first with
  | character starts => exact absurd starts (noCharacter _)
  | illFormed span => exact ⟨_, _, split, rfl, span⟩
  | truncated span => exact ⟨_, _, split, rfl, span⟩

theorem exists_text_append (bytes : Bytes) :
    ∃ text tail, bytes = encode text ++ tail ∧
      ∀ character, ¬String.utf8EncodeChar character <+: tail := by
  generalize size : bytes.length = length
  induction length using Nat.strongRecOn generalizing bytes with
  | ind length ih =>
      by_cases starts : ∃ character, String.utf8EncodeChar character <+: bytes
      · obtain ⟨character, rest, rfl⟩ := starts
        have shorter : rest.length < length := by
          rw [← size, List.length_append, String.length_utf8EncodeChar]
          have positive := character.utf8Size_pos
          omega
        obtain ⟨text, tail, rfl, noCharacter⟩ := ih rest.length shorter rest rfl
        refine ⟨String.ofList (character :: text.toList), tail, ?_, noCharacter⟩
        simp [encode]
      · exact ⟨"", bytes, rfl, fun character starting => starts ⟨character, starting⟩⟩

theorem totalSize_characters (text : List Char) :
    totalSize (text.map .character) = (text.flatMap String.utf8EncodeChar).length := by
  induction text with
  | nil => rfl
  | cons character rest ih =>
      rw [List.flatMap_cons, List.length_append, String.length_utf8EncodeChar, ← ih]
      rfl

theorem decode_append (text : String) {tail : Bytes} (first : FaultFirst tail) :
    ∃ length, decode (encode text ++ tail) = .error ⟨(encode text).length, length⟩ ∧
      FaultSpan tail length := by
  obtain ⟨piece, more, split, faulty, span⟩ := first
  refine ⟨_, ?_, span⟩
  have characters : ∀ piece ∈ text.toList.map Piece.character, piece.isCharacter = true := by
    simp [Piece.isCharacter]
  have whole : pieces (encode text ++ tail) = text.toList.map .character ++ piece :: more := by
    rw [encode, pieces_flatMap_append, split]
  have dropped : (pieces (encode text ++ tail)).dropWhile Piece.isCharacter = piece :: more := by
    rw [whole, List.dropWhile_append_of_pos characters,
      List.dropWhile_cons_of_neg (by simp [faulty])]
  have taken : (pieces (encode text ++ tail)).takeWhile Piece.isCharacter =
      text.toList.map .character := by
    rw [whole, List.takeWhile_append_of_pos characters,
      List.takeWhile_cons_of_neg (by simp [faulty]), List.append_nil]
  simp only [decode, dropped, taken, totalSize_characters]
  cases piece <;> rfl

theorem longest_of_append {text : String} {tail : Bytes}
    (noCharacter : ∀ character, ¬String.utf8EncodeChar character <+: tail) {other : String}
    (front : encode other <+: encode text ++ tail) :
    (encode other).length ≤ (encode text).length := by
  rcases List.prefix_or_prefix_of_prefix front (List.prefix_append (encode text) tail) with
    shorter | ⟨rest, longer⟩
  · exact shorter.length_le
  · rw [← longer, List.prefix_append_right_inj] at front
    have whole := pieces_flatMap_append text.toList rest
    rw [← encode, longer, pieces_encode] at whole
    have characters : ∀ piece ∈ pieces rest, piece.isCharacter = true := by
      intro piece member
      have among : piece ∈ other.toList.map .character := whole ▸ List.mem_append_right _ member
      obtain ⟨character, -, rfl⟩ := List.mem_map.mp among
      rfl
    obtain ⟨added, rfl⟩ := exists_encode_of_pieces rest characters
    cases characters : added.toList with
    | nil =>
        have nothing : encode added = [] := by rw [encode, characters]; rfl
        rw [← longer, nothing, List.append_nil]
    | cons character later =>
        have starts : String.utf8EncodeChar character <+: encode added := by
          rw [encode, characters, List.flatMap_cons]
          exact List.prefix_append _ _
        exact absurd (starts.trans front) (noCharacter character)

theorem malformed_of_decode {bytes : Bytes} {fault : Fault} (failed : decode bytes = .error fault) :
    Malformed bytes fault := by
  obtain ⟨text, tail, rfl, noCharacter⟩ := exists_text_append bytes
  have more : tail ≠ [] := by
    rintro rfl
    rw [List.append_nil, decode_encode] at failed
    cases failed
  obtain ⟨length, stopped, span⟩ := decode_append text (faultFirst more noCharacter)
  rw [stopped] at failed
  obtain rfl := Except.error.inj failed
  have positive := List.length_pos_iff.mpr more
  refine ⟨?_, ⟨text, ?_⟩, fun other front => longest_of_append noCharacter front, ?_⟩
  · dsimp only
    rw [List.length_append]
    omega
  · exact List.take_left.symm
  · rwa [List.drop_left]

theorem decode_eq_error_iff (bytes : Bytes) (fault : Fault) :
    decode bytes = .error fault ↔ Malformed bytes fault := by
  constructor
  · exact malformed_of_decode
  · intro malformed
    cases decoded : decode bytes with
    | ok text =>
        have inside := malformed.inside
        rw [(decode_eq_ok_iff _ _).mp decoded] at malformed inside
        have whole := malformed.longest text (List.prefix_rfl)
        omega
    | error other => rw [(malformed_of_decode decoded).unique malformed]

end OpenSoundControl.Utf8
