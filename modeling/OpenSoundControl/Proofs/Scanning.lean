import OpenSoundControl.Json.Printing
import OpenSoundControl.Proofs.Numerals

/-!
Scanning the text of JSON values. The scanner gives back the tokens that a value was laid out as:
strings character by character, words when the next token or the end shows that they are complete.
-/

namespace OpenSoundControl.Json

open Numeric

theorem foldlM_append_of_eq {α β : Type} {step : β → α → Option β} {state middle : β}
    {front : List α} (reached : front.foldlM step state = some middle) (back : List α) :
    (front ++ back).foldlM step state = back.foldlM step middle := by
  rw [List.foldlM_append, reached]
  rfl

inductive Scan.Behind (tokens : List Token) : Scan → Prop
  | between : Behind tokens ⟨.between, tokens⟩
  | word {text found} : finishWord found text = some tokens → Behind tokens ⟨.bare text, found⟩

theorem Scan.Behind.finish {tokens : List Token} {scan : Scan} (behind : scan.Behind tokens) :
    scan.finish = some tokens.reverse := by
  cases behind with
  | between => simp [Scan.finish]
  | word complete => simp [Scan.finish, complete]

theorem Scan.Behind.step {tokens : List Token} {scan : Scan} (behind : scan.Behind tokens)
    {character : Char} (noWord : isBare character = false) :
    scan.step character = Scan.between tokens character := by
  cases behind with
  | between => simp [Scan.step]
  | word complete => simp [Scan.step, noWord, complete]

theorem between_bare {character : Char} (bare : isBare character = true) (found : List Token) :
    Scan.between found character = some ⟨.bare [character], found⟩ := by
  have noQuote : character ≠ '"' := by
    rintro rfl
    exact absurd bare (by decide)
  have noBlank : isBlank character = false := by
    rw [Bool.eq_false_iff]
    intro blank
    simp only [isBlank, Bool.or_eq_true, beq_iff_eq] at blank
    rcases blank with ((rfl | rfl) | rfl) | rfl
    all_goals exact absurd bare (by decide)
  simp [Scan.between, noBlank, noQuote, bare]

theorem foldlM_bare {text : List Char} (bare : ∀ character ∈ text, isBare character = true)
    (word : List Char) (found : List Token) :
    text.foldlM Scan.step ⟨.bare word, found⟩ = some ⟨.bare (text.reverse ++ word), found⟩ := by
  induction text generalizing word with
  | nil => simp
  | cons character rest ih =>
      rw [List.foldlM_cons]
      simp only [Scan.step, bare character (by simp), if_true, Option.bind_eq_bind,
        Option.bind_some]
      rw [ih fun next member => bare next (by simp [member])]
      simp

theorem scan_word {text : List Char} {value : Scalar}
    (bare : ∀ character ∈ text, isBare character = true) (isWord : word? text = some value)
    (tokens : List Token) :
    ∃ next : Scan, text.foldlM Scan.step ⟨.between, tokens⟩ = some next ∧
      next.Behind (.scalar value :: tokens) := by
  cases text with
  | nil => simp [word?, number?] at isWord
  | cons character rest =>
      have later : rest.foldlM Scan.step ⟨.bare [character], tokens⟩ =
          some ⟨.bare (rest.reverse ++ [character]), tokens⟩ :=
        foldlM_bare (fun next member => bare next (by simp [member])) _ _
      refine ⟨⟨.bare (rest.reverse ++ [character]), tokens⟩, ?_, .word ?_⟩
      · rw [List.foldlM_cons]
        simp only [Scan.step, between_bare (bare character (by simp)), Option.bind_eq_bind,
          Option.bind_some]
        exact later
      · simp [finishWord, isWord]

theorem isBare_of_isDigit {character : Char} (digit : isDigit character = true) :
    isBare character = true := by
  rw [isDigit_eq] at digit
  simp [isBare, Char.isAlphanum, digit]

theorem isBare_signed (negative : Bool) {text : List Char}
    (bare : ∀ character ∈ text, isBare character = true) :
    ∀ character ∈ signed negative text, isBare character = true := by
  cases negative with
  | false => exact bare
  | true => simpa [signed, isBare] using bare

theorem isBare_digitsOf {value : Nat} :
    ∀ character ∈ digitsOf value, isBare character = true :=
  fun _ member => isBare_of_isDigit (isDigit_of_mem_digitsOf member)

theorem isBare_zeroDigits {count : Nat} :
    ∀ character ∈ zeroDigits count, isBare character = true :=
  fun _ member => isBare_of_isDigit (isDigit_of_mem_zeroDigits member)

theorem isBare_write (layout : Layout) (decimal : Decimal) :
    ∀ character ∈ layout.write decimal, isBare character = true := by
  intro character member
  have digit : ∀ character ∈ digitsOf decimal.digits, isBare character = true := isBare_digitsOf
  unfold Layout.write at member
  dsimp only at member
  split at member
  · simp only [List.mem_append, List.mem_cons, List.not_mem_nil, or_false] at member
    rcases member with ((rfl | rfl) | zero) | written
    · rfl
    · rfl
    · exact isBare_zeroDigits character zero
    · exact digit character written
  · split at member
    · split at member
      · simp only [List.mem_append, List.mem_cons, List.not_mem_nil, or_false] at member
        rcases member with (written | zero) | rfl | rfl
        · exact digit character written
        · exact isBare_zeroDigits character zero
        · rfl
        · rfl
      · simp only [List.mem_append, List.mem_singleton] at member
        rcases member with (written | rfl) | written
        · exact digit character (List.mem_of_mem_take written)
        · rfl
        · exact digit character (List.mem_of_mem_drop written)
    · simp only [List.mem_append, List.mem_cons, List.not_mem_nil, or_false] at member
      rcases member with (mantissa | rfl | rfl) | exponent
      · split at mantissa
        · rename_i split
          rw [split] at digit
          simp only [List.mem_cons] at mantissa digit
          rcases mantissa with rfl | rfl | rfl | later
          · exact digit _ (.inl rfl)
          · rfl
          · exact digit _ (.inr (.inl rfl))
          · exact digit _ (.inr (.inr later))
        · exact digit character mantissa
      · rfl
      · split <;> rfl
      · exact isBare_digitsOf character exponent

theorem word?_integer {value : Int} (lower : -9223372036854775808 ≤ value)
    (upper : value < 18446744073709551616) :
    word? (signed (value < 0) (digitsOf value.natAbs)) = some (.integer value) := by
  have starts := whole_digitsOf value.natAbs
  have whole := word?_of_whole (decide (value < 0)) starts []
  rw [List.append_nil] at whole
  have below : digitValue (digitsOf value.natAbs) < significandLimit := by
    rw [digitValue_digitsOf, significandLimit]
    omega
  rw [whole, number?_whole _ starts]
  simp only [integerOf, takeDigits_below below]
  rw [show Nat.ofDigitChars 10 (digitsOf value.natAbs) 0 = value.natAbs from
    digitValue_digitsOf _, if_neg]
  · by_cases negative : value < 0
    · simp only [negative, decide_true, if_true]
      congr 2
      omega
    · simp only [negative, decide_false, Bool.false_eq_true, if_false]
      congr 2
      omega
  · simp only [decide_eq_true_eq]
    omega

theorem hexadecimal?_digitChar :
    ∀ value < 16, hexadecimal? value.digitChar = some value := by
  decide

theorem hexadecimal_single {value : Nat} (small : value < 16) :
    Quoted.hexadecimal value = [value.digitChar] :=
  Nat.toDigits_of_lt_base small

theorem foldlM_control (text : List Char) (found : List Token) {character : Char}
    (small : character.toNat < 32) :
    (['\\', 'u', '0', '0'] ++ Quoted.twoDigits character.toNat).foldlM Scan.step
      ⟨.quoted text none, found⟩ = some ⟨.quoted (character :: text) none, found⟩ := by
  have high : character.toNat / 16 < 16 := by omega
  have low : character.toNat % 16 < 16 := Nat.mod_lt _ (by decide)
  have same : Char.ofNat (character.toNat / 16 * 16 + character.toNat % 16) = character := by
    rw [Nat.div_add_mod']
    exact Char.ofNat_toNat character
  have unit : unit? text none (character.toNat / 16 * 16 + character.toNat % 16) =
      some (.quoted (character :: text) none) := by
    rw [unit?]
    simp only [same]
    rw [if_neg (by omega), if_neg (by omega)]
  have zero : hexadecimal? '0' = some 0 := rfl
  rw [Quoted.twoDigits, hexadecimal_single high, hexadecimal_single low]
  simp [Scan.step, zero, hexadecimal?_digitChar _ high, hexadecimal?_digitChar _ low, unit]

theorem foldlM_escaped (text : List Char) (found : List Token) (character : Char) :
    (escaped character).foldlM Scan.step ⟨.quoted text none, found⟩ =
      some ⟨.quoted (character :: text) none, found⟩ := by
  unfold escaped
  -- Seven characters have a letter of their own.
  iterate 7
    split
    · rename_i same
      simp [Scan.step, escape?, same]
  split
  · rename_i control
    exact foldlM_control text found control
  · rename_i noQuote noBackslash _ _ _ _ _ noControl
    simp [Scan.step, noQuote, noBackslash, noControl]

theorem foldlM_quoted (characters text : List Char) (found : List Token) :
    (characters.flatMap escaped).foldlM Scan.step ⟨.quoted text none, found⟩ =
      some ⟨.quoted (characters.reverse ++ text) none, found⟩ := by
  induction characters generalizing text with
  | nil => simp
  | cons character rest ih =>
      rw [List.flatMap_cons, foldlM_append_of_eq (foldlM_escaped text found character), ih]
      simp

theorem scan_string {tokens : List Token} {scan : Scan} (behind : scan.Behind tokens)
    (value : String) :
    (scalarText (.string value)).foldlM Scan.step scan =
      some ⟨.between, .scalar (.string value) :: tokens⟩ := by
  have opened : scan.step '"' = some ⟨.quoted [] none, tokens⟩ := by
    rw [behind.step (by decide)]
    rfl
  have closed : Scan.step ⟨.quoted value.toList.reverse none, tokens⟩ '"' =
      some ⟨.between, .scalar (.string value) :: tokens⟩ := by
    simp [Scan.step]
  rw [scalarText, List.append_assoc, List.singleton_append, List.foldlM_cons, opened,
    Option.bind_eq_bind, Option.bind_some,
    foldlM_append_of_eq (foldlM_quoted value.toList [] tokens)]
  simp [closed]

theorem scan_punctuation {tokens : List Token} {scan : Scan} (behind : scan.Behind tokens)
    {token : Token} {character : Char} (isText : token.text = [character])
    (mark : punctuation? character = some token) :
    token.text.foldlM Scan.step scan = some ⟨.between, token :: tokens⟩ := by
  have special : character ∈ ['[', ']', '\x7b', '\x7d', ',', ':'] := by
    unfold punctuation? at mark
    grind
  have apart : isBlank character = false ∧ character ≠ '"' ∧ isBare character = false := by
    simp only [List.mem_cons, List.not_mem_nil, or_false] at special
    rcases special with rfl | rfl | rfl | rfl | rfl | rfl <;> decide
  obtain ⟨noBlank, noQuote, noWord⟩ := apart
  have between : Scan.between tokens character = some ⟨.between, token :: tokens⟩ := by
    simp [Scan.between, noBlank, noQuote, noWord, mark]
  rw [isText]
  simp [behind.step noWord, between]

theorem isBare_of_letters {word : List Char}
    (letters : ∀ character ∈ word, character ∈ ['n', 'u', 'l', 't', 'r', 'e', 'f', 'a', 's']) :
    ∀ character ∈ word, isBare character = true := by
  intro character member
  have letter := letters character member
  simp only [List.mem_cons, List.not_mem_nil, or_false] at letter
  rcases letter with rfl | rfl | rfl | rfl | rfl | rfl | rfl | rfl | rfl <;> rfl

def rereadScalar : Scalar → Scalar
  | .decimal negative magnitude => .decimal negative (rewritten magnitude)
  | value => value

def LegibleScalar : Scalar → Prop
  | .integer value => -9223372036854775808 ≤ value ∧ value < 18446744073709551616
  | .decimal _ magnitude => Legible magnitude
  | _ => True

theorem scan_scalar {value : Scalar} (legible : LegibleScalar value) (tokens : List Token) :
    ∃ next : Scan, (scalarText value).foldlM Scan.step ⟨.between, tokens⟩ = some next ∧
      next.Behind (.scalar (rereadScalar value) :: tokens) := by
  cases value with
  | null => exact scan_word (isBare_of_letters (by simp [scalarText])) (by
      simp [word?, scalarText, rereadScalar]) tokens
  | bool value =>
      cases value with
      | true => exact scan_word (isBare_of_letters (by simp [scalarText])) (by
          simp [word?, scalarText, rereadScalar]) tokens
      | false => exact scan_word (isBare_of_letters (by simp [scalarText])) (by
          simp [word?, scalarText, rereadScalar]) tokens
  | integer value =>
      exact scan_word (isBare_signed _ isBare_digitsOf) (word?_integer legible.1 legible.2) tokens
  | decimal negative magnitude =>
      exact scan_word (isBare_signed _ (isBare_write _ _)) (word?_write negative legible) tokens
  | string value => exact ⟨_, scan_string .between value, .between⟩

end OpenSoundControl.Json
