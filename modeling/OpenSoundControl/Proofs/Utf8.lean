import OpenSoundControl.Text.Utf8
import Mathlib.Data.List.TakeWhile

/-!
Reading undoes writing: the bytes of a text are cut into its characters, and bytes that are cut
into characters only are the bytes of a text.
-/

namespace OpenSoundControl.Utf8

def continuation (value : Nat) : UInt8 :=
  UInt8.ofNat (value % 64 + 0x80)

theorem toNat_continuation (value : Nat) : (continuation value).toNat = value % 64 + 0x80 := by
  simp only [continuation, UInt8.toNat_ofNat']
  omega

theorem continuation_range (value : Nat) :
    UInt8.toNat 0x80 ≤ value % 64 + 0x80 ∧ value % 64 + 0x80 ≤ UInt8.toNat 0xBF := by
  simp only [UInt8.reduceToNat]
  omega

theorem lead_one {value : Nat} (small : value < 0x80) :
    lead (UInt8.ofNat value) = .complete (.character (Char.ofNat value)) := by
  have toNat : (UInt8.ofNat value).toNat = value := by
    rw [UInt8.toNat_ofNat']
    omega
  simp [lead, UInt8.lt_iff_toNat_lt, toNat, small]

theorem lead_two {value : Nat} (lower : 2 ≤ value) (upper : value < 32) :
    lead (UInt8.ofNat (value + 0xC0)) = .waiting ⟨value, 1, 0x80, 0xBF, 1⟩ := by
  have toNat : (UInt8.ofNat (value + 0xC0)).toNat = value + 0xC0 := by
    rw [UInt8.toNat_ofNat']
    omega
  simp only [lead, UInt8.lt_iff_toNat_lt, toNat, UInt8.reduceToNat, Nat.add_sub_cancel]
  rw [if_neg (by omega), if_neg (by omega), if_pos (by omega)]

theorem lead_three {value : Nat} (upper : value < 16) :
    ∃ low high : UInt8, lead (UInt8.ofNat (value + 0xE0)) = .waiting ⟨value, 2, low, high, 1⟩ ∧
      0x80 ≤ low.toNat ∧ high.toNat ≤ 0xBF ∧
      ∀ tail, low.toNat ≤ tail + 0x80 ∧ tail + 0x80 ≤ high.toNat ↔
        tail < 64 ∧ (value = 0 → 32 ≤ tail) ∧ (value = 13 → tail < 32) := by
  have toNat : (UInt8.ofNat (value + 0xE0)).toNat = value + 0xE0 := by
    rw [UInt8.toNat_ofNat']
    omega
  refine ⟨if value = 0 then 0xA0 else 0x80, if value = 13 then 0x9F else 0xBF, ?_, ?_, ?_, ?_⟩
  · simp only [lead, UInt8.lt_iff_toNat_lt, ← UInt8.toNat_inj, toNat, UInt8.reduceToNat,
      Nat.add_sub_cancel]
    rw [if_neg (by omega), if_neg (by omega), if_neg (by omega), if_pos (by omega)]
    simp
  · split <;> simp
  · split <;> simp
  · intro tail
    split <;> split <;> simp <;> omega

theorem lead_four {value : Nat} (upper : value < 5) :
    ∃ low high : UInt8, lead (UInt8.ofNat (value + 0xF0)) = .waiting ⟨value, 3, low, high, 1⟩ ∧
      0x80 ≤ low.toNat ∧ high.toNat ≤ 0xBF ∧
      ∀ tail, low.toNat ≤ tail + 0x80 ∧ tail + 0x80 ≤ high.toNat ↔
        tail < 64 ∧ (value = 0 → 16 ≤ tail) ∧ (value = 4 → tail < 16) := by
  have toNat : (UInt8.ofNat (value + 0xF0)).toNat = value + 0xF0 := by
    rw [UInt8.toNat_ofNat']
    omega
  refine ⟨if value = 0 then 0x90 else 0x80, if value = 4 then 0x8F else 0xBF, ?_, ?_, ?_, ?_⟩
  · simp only [lead, UInt8.lt_iff_toNat_lt, ← UInt8.toNat_inj, toNat, UInt8.reduceToNat,
      Nat.add_sub_cancel]
    rw [if_neg (by omega), if_neg (by omega), if_neg (by omega), if_neg (by omega),
      if_pos (by omega)]
    simp
  · split <;> simp
  · split <;> simp
  · intro tail
    split <;> split <;> simp <;> omega

theorem lead_cases (byte : UInt8) :
    (∃ value < 0x80, byte = UInt8.ofNat value) ∨
      (∃ value, 2 ≤ value ∧ value < 32 ∧ byte = UInt8.ofNat (value + 0xC0)) ∨
      (∃ value < 16, byte = UInt8.ofNat (value + 0xE0)) ∨
      (∃ value < 5, byte = UInt8.ofNat (value + 0xF0)) ∨
      lead byte = .complete (.illFormed 1) := by
  have bound : byte.toNat < 256 := byte.toNat_lt
  have own (base : Nat) (above : base ≤ byte.toNat) :
      byte = UInt8.ofNat (byte.toNat - base + base) := by
    rw [Nat.sub_add_cancel above, UInt8.ofNat_toNat]
  by_cases one : byte.toNat < 0x80
  · exact .inl ⟨byte.toNat, one, own 0 (Nat.zero_le _)⟩
  · by_cases stray : byte.toNat < 0xC2
    · refine .inr (.inr (.inr (.inr ?_)))
      simp [lead, UInt8.lt_iff_toNat_lt, one, stray]
    · by_cases two : byte.toNat < 0xE0
      · exact .inr (.inl ⟨byte.toNat - 0xC0, by omega, by omega, own _ (by omega)⟩)
      · by_cases three : byte.toNat < 0xF0
        · exact .inr (.inr (.inl ⟨byte.toNat - 0xE0, by omega, own _ (by omega)⟩))
        · by_cases four : byte.toNat < 0xF5
          · exact .inr (.inr (.inr (.inl ⟨byte.toNat - 0xF0, by omega, own _ (by omega)⟩)))
          · refine .inr (.inr (.inr (.inr ?_)))
            simp [lead, UInt8.lt_iff_toNat_lt, one, stray, two, three, four]

theorem step_character {byte : UInt8} {character : Char} (found : List Piece)
    (leads : lead byte = .complete (.character character)) :
    Reading.step ⟨found, none⟩ byte = ⟨.character character :: found, none⟩ := by
  simp [Reading.step, Reading.after, leads]

theorem step_waiting {byte : UInt8} {pending : Pending} (found : List Piece)
    (leads : lead byte = .waiting pending) :
    Reading.step ⟨found, none⟩ byte = ⟨found, some pending⟩ := by
  simp [Reading.step, Reading.after, leads]

theorem step_inner (found : List Piece) {total missing seen value : Nat} {low high : UInt8}
    (within : low.toNat ≤ value % 64 + 0x80 ∧ value % 64 + 0x80 ≤ high.toNat) :
    Reading.step ⟨found, some ⟨total, missing + 2, low, high, seen⟩⟩ (continuation value) =
      ⟨found, some ⟨total * 64 + value % 64, missing + 1, 0x80, 0xBF, seen + 1⟩⟩ := by
  simp [Reading.step, Reading.after, Pending.accepts, Pending.extend, UInt8.le_iff_toNat_le,
    toNat_continuation, within]

theorem step_last (found : List Piece) {total seen value : Nat} :
    Reading.step ⟨found, some ⟨total, 1, 0x80, 0xBF, seen⟩⟩ (continuation value) =
      ⟨.character (Char.ofNat (total * 64 + value % 64)) :: found, none⟩ := by
  have within := continuation_range value
  simp only [UInt8.reduceToNat] at within
  simp [Reading.step, Reading.after, Pending.accepts, Pending.extend, UInt8.le_iff_toNat_le,
    toNat_continuation, within]

theorem foldl_step_utf8EncodeChar (character : Char) (found : List Piece) :
    (String.utf8EncodeChar character).foldl Reading.step ⟨found, none⟩ =
      ⟨.character character :: found, none⟩ := by
  have valid : character.val.toNat < 0xD800 ∨
      0xDFFF < character.val.toNat ∧ character.val.toNat < 0x110000 := character.valid
  have same : Char.ofNat character.val.toNat = character := Char.ofNat_toNat character
  fun_cases String.utf8EncodeChar character with
  | case1 value one =>
      simp only [List.foldl_cons, List.foldl_nil]
      rw [step_character found (lead_one (by omega)), same]
  | case2 value above two =>
      have small : value / 64 % 32 = value / 64 := by omega
      have whole : value / 64 * 64 + value % 64 = value := by omega
      simp only [List.foldl_cons, List.foldl_nil, small]
      rw [step_waiting found (lead_two (by omega) (by omega)), ← continuation, step_last, whole,
        same]
  | case3 value above three four =>
      have small : value / 4096 % 16 = value / 4096 := by omega
      have whole : (value / 4096 * 64 + value / 64 % 64) * 64 + value % 64 = value := by omega
      have bound : value / 4096 < 16 := by omega
      obtain ⟨low, high, leads, -, -, range⟩ := lead_three bound
      have within := (range (value / 64 % 64)).mpr ⟨by omega, by omega, by omega⟩
      simp only [List.foldl_cons, List.foldl_nil, small]
      rw [step_waiting found leads, ← continuation, ← continuation, step_inner found within,
        step_last, whole, same]
  | case4 value above three four =>
      have small : value / 262144 % 8 = value / 262144 := by omega
      have whole : ((value / 262144 * 64 + value / 4096 % 64) * 64 + value / 64 % 64) * 64 +
          value % 64 = value := by omega
      have bound : value / 262144 < 5 := by omega
      obtain ⟨low, high, leads, -, -, range⟩ := lead_four bound
      have within := (range (value / 4096 % 64)).mpr ⟨by omega, by omega, by omega⟩
      simp only [List.foldl_cons, List.foldl_nil, small]
      rw [step_waiting found leads, ← continuation, ← continuation, ← continuation,
        step_inner found within, step_inner found (continuation_range (value / 64)), step_last,
        whole,
        same]

theorem val_ofNat {value : Nat} (valid : value.isValidChar) :
    (Char.ofNat value).val.toNat = value := by
  rw [Char.ofNat, dif_pos valid]
  rfl

theorem utf8EncodeChar_one {value : Nat} (small : value < 0x80) :
    String.utf8EncodeChar (Char.ofNat value) = [UInt8.ofNat value] := by
  have same : (Char.ofNat value).val.toNat = value := val_ofNat (Or.inl (by omega))
  simp only [String.utf8EncodeChar, same]
  rw [if_pos (by omega)]

theorem utf8EncodeChar_two {high low : Nat} (lower : 2 ≤ high) (upper : high < 32)
    (small : low < 64) :
    String.utf8EncodeChar (Char.ofNat (high * 64 + low)) =
      [UInt8.ofNat (high + 0xC0), continuation low] := by
  have value : (Char.ofNat (high * 64 + low)).val.toNat = high * 64 + low :=
    val_ofNat (Or.inl (by omega))
  have first : (high * 64 + low) / 64 % 32 = high := by omega
  have second : (high * 64 + low) % 64 = low % 64 := by omega
  simp only [String.utf8EncodeChar, value, first, second, continuation]
  rw [if_neg (by omega), if_pos (by omega)]

theorem utf8EncodeChar_three {high middle low : Nat} (upper : high < 16)
    (overlong : high = 0 → 32 ≤ middle) (surrogate : high = 13 → middle < 32)
    (middleSmall : middle < 64) (lowSmall : low < 64) :
    String.utf8EncodeChar (Char.ofNat ((high * 64 + middle) * 64 + low)) =
      [UInt8.ofNat (high + 0xE0), continuation middle, continuation low] := by
  have value : (Char.ofNat ((high * 64 + middle) * 64 + low)).val.toNat =
      (high * 64 + middle) * 64 + low := by
    apply val_ofNat
    unfold Nat.isValidChar
    omega
  have first : ((high * 64 + middle) * 64 + low) / 4096 % 16 = high := by omega
  have second : ((high * 64 + middle) * 64 + low) / 64 % 64 = middle % 64 := by omega
  have third : ((high * 64 + middle) * 64 + low) % 64 = low % 64 := by omega
  simp only [String.utf8EncodeChar, value, first, second, third, continuation]
  rw [if_neg (by omega), if_neg (by omega), if_pos (by omega)]

theorem utf8EncodeChar_four {top high middle low : Nat} (upper : top < 5)
    (overlong : top = 0 → 16 ≤ high) (beyond : top = 4 → high < 16)
    (highSmall : high < 64) (middleSmall : middle < 64) (lowSmall : low < 64) :
    String.utf8EncodeChar (Char.ofNat (((top * 64 + high) * 64 + middle) * 64 + low)) =
      [UInt8.ofNat (top + 0xF0), continuation high, continuation middle, continuation low] := by
  have value : (Char.ofNat (((top * 64 + high) * 64 + middle) * 64 + low)).val.toNat =
      ((top * 64 + high) * 64 + middle) * 64 + low := by
    apply val_ofNat
    unfold Nat.isValidChar
    omega
  have first : (((top * 64 + high) * 64 + middle) * 64 + low) / 262144 % 8 = top := by omega
  have second : (((top * 64 + high) * 64 + middle) * 64 + low) / 4096 % 64 = high % 64 := by omega
  have third : (((top * 64 + high) * 64 + middle) * 64 + low) / 64 % 64 = middle % 64 := by omega
  have fourth : (((top * 64 + high) * 64 + middle) * 64 + low) % 64 = low % 64 := by omega
  simp only [String.utf8EncodeChar, value, first, second, third, fourth, continuation]
  rw [if_neg (by omega), if_neg (by omega), if_neg (by omega)]

def Reading.Broken (reading : Reading) : Prop :=
  ∃ piece ∈ reading.finish, piece.isCharacter = false

theorem mem_finish {reading : Reading} {piece : Piece} (member : piece ∈ reading.found) :
    piece ∈ reading.finish := by
  unfold Reading.finish
  split <;> simp [member]

theorem mem_found_after {found : List Piece} {piece : Piece} (advance : Advance)
    (member : piece ∈ found) : piece ∈ (Reading.after found advance).found := by
  cases advance <;> simp [Reading.after, member]

theorem mem_found_step {reading : Reading} {piece : Piece} (byte : UInt8)
    (member : piece ∈ reading.found) : piece ∈ (reading.step byte).found := by
  unfold Reading.step
  split
  · exact mem_found_after _ member
  · split
    · exact mem_found_after _ member
    · exact mem_found_after _ (by simp [member])

theorem broken_foldl {reading : Reading} {piece : Piece} (bytes : Bytes)
    (faulty : piece.isCharacter = false) (member : piece ∈ reading.found) :
    (bytes.foldl Reading.step reading).Broken := by
  induction bytes generalizing reading with
  | nil => exact ⟨piece, mem_finish member, faulty⟩
  | cons byte rest ih => exact ih (mem_found_step byte member)

theorem tail_or_broken (found : List Piece) (pending : Pending) (bytes : Bytes)
    (low : 0x80 ≤ pending.low.toNat) (high : pending.high.toNat ≤ 0xBF) :
    (∃ value rest, value < 64 ∧ bytes = continuation value :: rest ∧
        pending.low.toNat ≤ value + 0x80 ∧ value + 0x80 ≤ pending.high.toNat) ∨
      (bytes.foldl Reading.step ⟨found, some pending⟩).Broken := by
  cases bytes with
  | nil => exact .inr ⟨.truncated pending.seen, by simp [Reading.finish], rfl⟩
  | cons byte rest =>
      by_cases accepted : pending.accepts byte = true
      · simp only [Pending.accepts, Bool.and_eq_true, decide_eq_true_eq,
          UInt8.le_iff_toNat_le] at accepted
        have same : byte = continuation (byte.toNat - 0x80) := by
          apply UInt8.toNat_inj.mp
          rw [toNat_continuation]
          omega
        exact .inl ⟨byte.toNat - 0x80, rest, by omega, by rw [← same], by omega, by omega⟩
      · have faulty : (Piece.illFormed pending.seen).isCharacter = false := rfl
        refine .inr (broken_foldl rest faulty ?_)
        simp only [Reading.step, accepted]
        exact mem_found_after _ (List.mem_cons_self ..)

theorem character_or_broken (found : List Piece) (first : UInt8) (rest : Bytes) :
    (∃ character tail, first :: rest = String.utf8EncodeChar character ++ tail) ∨
      ((first :: rest).foldl Reading.step ⟨found, none⟩).Broken := by
  rcases lead_cases first with ⟨value, small, rfl⟩ | ⟨value, lower, upper, rfl⟩ |
    ⟨value, upper, rfl⟩ | ⟨value, upper, rfl⟩ | stray
  · refine .inl ⟨Char.ofNat value, rest, ?_⟩
    rw [utf8EncodeChar_one small]
    rfl
  · rw [List.foldl_cons, step_waiting found (lead_two lower upper)]
    rcases tail_or_broken found ⟨value, 1, 0x80, 0xBF, 1⟩ rest (by simp) (by simp) with
      ⟨low, tail, lowSmall, rfl, -, -⟩ | broken
    · refine .inl ⟨Char.ofNat (value * 64 + low), tail, ?_⟩
      rw [utf8EncodeChar_two lower upper lowSmall]
      rfl
    · exact .inr broken
  · obtain ⟨least, greatest, leads, above, below, range⟩ := lead_three upper
    rw [List.foldl_cons, step_waiting found leads]
    rcases tail_or_broken found ⟨value, 2, least, greatest, 1⟩ rest above below with
      ⟨middle, tail, middleSmall, rfl, lower, higher⟩ | broken
    · have narrow := (range middle).mp ⟨lower, higher⟩
      have within : least.toNat ≤ middle % 64 + 0x80 ∧ middle % 64 + 0x80 ≤ greatest.toNat := by
        rw [Nat.mod_eq_of_lt middleSmall]
        exact ⟨lower, higher⟩
      rw [List.foldl_cons, step_inner found within]
      rcases tail_or_broken found ⟨_, _, 0x80, 0xBF, _⟩ tail (by simp) (by simp) with
        ⟨low, tail, lowSmall, rfl, -, -⟩ | broken
      · refine .inl ⟨Char.ofNat ((value * 64 + middle) * 64 + low), tail, ?_⟩
        rw [utf8EncodeChar_three upper narrow.2.1 narrow.2.2 middleSmall lowSmall]
        rfl
      · exact .inr broken
    · exact .inr broken
  · obtain ⟨least, greatest, leads, above, below, range⟩ := lead_four upper
    rw [List.foldl_cons, step_waiting found leads]
    rcases tail_or_broken found ⟨value, 3, least, greatest, 1⟩ rest above below with
      ⟨high, tail, highSmall, rfl, lower, higher⟩ | broken
    · have narrow := (range high).mp ⟨lower, higher⟩
      have within : least.toNat ≤ high % 64 + 0x80 ∧ high % 64 + 0x80 ≤ greatest.toNat := by
        rw [Nat.mod_eq_of_lt highSmall]
        exact ⟨lower, higher⟩
      rw [List.foldl_cons, step_inner found within]
      rcases tail_or_broken found ⟨_, _, 0x80, 0xBF, _⟩ tail (by simp) (by simp) with
        ⟨middle, tail, middleSmall, rfl, -, -⟩ | broken
      · rw [List.foldl_cons, step_inner found (continuation_range middle)]
        rcases tail_or_broken found ⟨_, _, 0x80, 0xBF, _⟩ tail (by simp) (by simp) with
          ⟨low, tail, lowSmall, rfl, -, -⟩ | broken
        · refine .inl ⟨Char.ofNat (((value * 64 + high) * 64 + middle) * 64 + low), tail, ?_⟩
          rw [utf8EncodeChar_four upper narrow.2.1 narrow.2.2 highSmall middleSmall lowSmall]
          rfl
        · exact .inr broken
      · exact .inr broken
    · exact .inr broken
  · have faulty : (Piece.illFormed 1).isCharacter = false := rfl
    refine .inr (broken_foldl rest faulty ?_)
    simp [Reading.step, stray, Reading.after]

theorem after_append (new old : List Piece) (advance : Advance) :
    Reading.after (new ++ old) advance =
      ⟨(Reading.after new advance).found ++ old, (Reading.after new advance).pending⟩ := by
  cases advance <;> rfl

theorem step_append (new old : List Piece) (pending : Option Pending) (byte : UInt8) :
    Reading.step ⟨new ++ old, pending⟩ byte =
      ⟨(Reading.step ⟨new, pending⟩ byte).found ++ old,
        (Reading.step ⟨new, pending⟩ byte).pending⟩ := by
  cases pending with
  | none => exact after_append new old _
  | some pending =>
      simp only [Reading.step]
      split
      · exact after_append new old _
      · exact after_append (.illFormed pending.seen :: new) old _

theorem foldl_step_append (new old : List Piece) (pending : Option Pending) (bytes : Bytes) :
    bytes.foldl Reading.step ⟨new ++ old, pending⟩ =
      ⟨(bytes.foldl Reading.step ⟨new, pending⟩).found ++ old,
        (bytes.foldl Reading.step ⟨new, pending⟩).pending⟩ := by
  induction bytes generalizing new pending with
  | nil => rfl
  | cons byte rest ih => rw [List.foldl_cons, step_append, ih, List.foldl_cons]

theorem finish_foldl (found : List Piece) (bytes : Bytes) :
    (bytes.foldl Reading.step ⟨found, none⟩).finish = found.reverse ++ pieces bytes := by
  have whole := foldl_step_append [] found none bytes
  rw [List.nil_append] at whole
  rw [whole]
  simp only [pieces, Reading.finish]
  split <;> simp_all

theorem pieces_utf8EncodeChar_append (character : Char) (rest : Bytes) :
    pieces (String.utf8EncodeChar character ++ rest) = .character character :: pieces rest := by
  unfold pieces
  rw [List.foldl_append, foldl_step_utf8EncodeChar, finish_foldl]
  rfl

theorem pieces_flatMap_append (text : List Char) (rest : Bytes) :
    pieces (text.flatMap String.utf8EncodeChar ++ rest) =
      text.map .character ++ pieces rest := by
  induction text with
  | nil => rfl
  | cons character text ih =>
      rw [List.flatMap_cons, List.append_assoc, pieces_utf8EncodeChar_append, ih]
      rfl

theorem exists_encode_of_pieces (bytes : Bytes)
    (wellFormed : ∀ piece ∈ pieces bytes, piece.isCharacter = true) :
    ∃ text : String, bytes = encode text := by
  generalize size : bytes.length = length
  induction length using Nat.strongRecOn generalizing bytes with
  | ind length ih =>
      cases bytes with
      | nil => exact ⟨"", rfl⟩
      | cons first rest =>
          rcases character_or_broken [] first rest with ⟨character, tail, split⟩ | broken
          · rw [split, pieces_utf8EncodeChar_append] at wellFormed
            have shorter : tail.length < length := by
              rw [← size, split, List.length_append, String.length_utf8EncodeChar]
              have positive := character.utf8Size_pos
              omega
            obtain ⟨text, rfl⟩ := ih tail.length shorter tail
              (fun piece member => wellFormed piece (List.mem_cons_of_mem _ member)) rfl
            refine ⟨String.ofList (character :: text.toList), ?_⟩
            rw [split]
            simp [encode]
          · obtain ⟨piece, member, faulty⟩ := broken
            rw [wellFormed piece member] at faulty
            contradiction

theorem pieces_encode (text : String) : pieces (encode text) = text.toList.map .character := by
  have whole := pieces_flatMap_append text.toList []
  rw [List.append_nil] at whole
  rw [encode, whole]
  exact List.append_nil _

theorem decode_encode (text : String) : decode (encode text) = .ok text := by
  have all := pieces_encode text
  have noFault : (pieces (encode text)).dropWhile Piece.isCharacter = [] := by
    rw [all]
    simp [List.dropWhile_eq_nil_iff, Piece.isCharacter]
  have characters : (pieces (encode text)).filterMap Piece.character? = text.toList := by
    rw [all, List.filterMap_map]
    exact List.filterMap_some
  simp only [decode, noFault, characters, String.ofList_toList]

theorem encode_injective {left right : String} (same : encode left = encode right) :
    left = right := by
  have decoded := decode_encode left
  rw [same, decode_encode] at decoded
  exact (Except.ok.inj decoded).symm

theorem decode_eq_ok_iff (bytes : Bytes) (text : String) :
    decode bytes = .ok text ↔ bytes = encode text := by
  constructor
  · intro decoded
    have wellFormed : ∀ piece ∈ pieces bytes, piece.isCharacter = true := by
      rw [← List.dropWhile_eq_nil_iff]
      unfold decode at decoded
      dsimp only at decoded
      split at decoded
      · assumption
      · simp at decoded
    obtain ⟨found, rfl⟩ := exists_encode_of_pieces bytes wellFormed
    rw [decode_encode] at decoded
    rw [Except.ok.inj decoded]
  · rintro rfl
    exact decode_encode text

theorem encode_append (left right : String) :
    encode (left ++ right) = encode left ++ encode right := by
  simp [encode]

theorem ofNat_eq_zero_iff {value : Nat} (bound : value < 256) :
    0 = UInt8.ofNat value ↔ value = 0 := by
  rw [← UInt8.toNat_inj, UInt8.toNat_ofNat']
  simp only [UInt8.toNat_zero]
  omega

theorem nul_mem_utf8EncodeChar_iff (character : Char) :
    0 ∈ String.utf8EncodeChar character ↔ character = '\x00' := by
  constructor
  · have same : Char.ofNat character.val.toNat = character := Char.ofNat_toNat character
    fun_cases String.utf8EncodeChar character with
    | case1 value one =>
        intro member
        simp only [List.mem_singleton] at member
        rw [ofNat_eq_zero_iff (by omega)] at member
        rw [← same, show character.val.toNat = 0 from member]
    | case2 value above two =>
        intro member
        simp only [List.mem_cons, List.not_mem_nil, or_false] at member
        rw [ofNat_eq_zero_iff (by omega), ofNat_eq_zero_iff (by omega)] at member
        omega
    | case3 value above three four =>
        intro member
        simp only [List.mem_cons, List.not_mem_nil, or_false] at member
        rw [ofNat_eq_zero_iff (by omega), ofNat_eq_zero_iff (by omega),
          ofNat_eq_zero_iff (by omega)] at member
        omega
    | case4 value above three four =>
        intro member
        simp only [List.mem_cons, List.not_mem_nil, or_false] at member
        rw [ofNat_eq_zero_iff (by omega), ofNat_eq_zero_iff (by omega),
          ofNat_eq_zero_iff (by omega), ofNat_eq_zero_iff (by omega)] at member
        omega
  · rintro rfl
    decide

theorem nul_mem_encode_iff (text : String) : 0 ∈ encode text ↔ '\x00' ∈ text.toList := by
  simp [encode, List.mem_flatMap, nul_mem_utf8EncodeChar_iff]

end OpenSoundControl.Utf8
