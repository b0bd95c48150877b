import OpenSoundControl.Json.Token
import OpenSoundControl.Numeric.Double

/-!
From JSON text to tokens, one character at a time. Numbers and words run up to the next character
that cannot belong to one and are read as a whole.
-/

namespace OpenSoundControl.Json

/-- In a string, the characters read so far have the latest first, and the first half of a
surrogate pair waits for the second. -/
inductive Mode where
  | between
  | bare (word : List Char)
  | quoted (text : List Char) (half : Option Nat)
  | escape (text : List Char) (half : Option Nat)
  | unicode (text : List Char) (half : Option Nat) (digits value : Nat)
  deriving DecidableEq, Repr

structure Scan where
  mode : Mode
  found : List Token
  deriving DecidableEq, Repr

def isDigit (character : Char) : Bool :=
  '0' ≤ character && character ≤ '9'

def natural (digits : List Char) : Nat :=
  digits.foldl (fun value digit => value * 10 + (digit.toNat - 48)) 0

def significandLimit : Nat := 18446744073709551616

/-- Takes digits into a significand until one would lead beyond the limit; that digit and those
after it are only counted. -/
def takeDigits : Nat → List Char → Nat × Nat
  | significand, [] => (significand, 0)
  | significand, digit :: rest =>
      let next := significand * 10 + (digit.toNat - 48)
      if next < significandLimit then takeDigits next rest else (significand, rest.length + 1)

/-- Fraction digits that the significand takes lower the exponent; whole digits that it does not
take raise it. A decimal that overflows double precision is no number. -/
def decimalOf (negative : Bool) (whole fraction : List Char) (exponent : Int) : Option Scalar :=
  let (value, raised) := takeDigits 0 whole
  let (value, dropped) := takeDigits value fraction
  let decimal : Numeric.Decimal := ⟨value, exponent + raised - (fraction.length - dropped : Nat)⟩
  if Numeric.Double.isFinite (Numeric.Double.ofDecimal decimal) then
    some (.decimal negative decimal)
  else none

/-- Integers from `-2 ^ 63` on and below `2 ^ 64` stay integers, but for a negative zero; others
become decimals. -/
def integerOf (negative : Bool) (whole : List Char) : Option Scalar :=
  let (value, dropped) := takeDigits 0 whole
  if dropped ≠ 0 ∨ negative ∧ (value = 0 ∨ 9223372036854775808 < value) then
    decimalOf negative whole [] 0
  else some (.integer (if negative then -value else value))

def exponent? : List Char → Option Int
  | [] => some 0
  | mark :: rest =>
      let negative := rest.head? == some '-'
      let digits := if negative || rest.head? == some '+' then rest.drop 1 else rest
      if (mark == 'e' || mark == 'E') && !digits.isEmpty && digits.all isDigit then
        some (if negative then -(natural digits : Int) else natural digits)
      else none

def number? (word : List Char) : Option Scalar :=
  let negative := word.head? == some '-'
  let word := if negative then word.drop 1 else word
  let whole := word.takeWhile isDigit
  let rest := word.drop whole.length
  let hasPoint := rest.head? == some '.'
  let fraction := if hasPoint then (rest.drop 1).takeWhile isDigit else []
  let tail := if hasPoint then (rest.drop 1).drop fraction.length else rest
  if whole.isEmpty || whole.head? == some '0' && whole.length != 1 then none
  else if hasPoint && fraction.isEmpty then none
  else if rest.isEmpty then integerOf negative whole
  else (exponent? tail).bind (decimalOf negative whole fraction)

def word? (word : List Char) : Option Scalar :=
  if word = ['n', 'u', 'l', 'l'] then some .null
  else if word = ['t', 'r', 'u', 'e'] then some (.bool true)
  else if word = ['f', 'a', 'l', 's', 'e'] then some (.bool false)
  else number? word

def isBare (character : Char) : Bool :=
  character.isAlphanum || character == '+' || character == '-' || character == '.'

def isBlank (character : Char) : Bool :=
  character == ' ' || character == '\t' || character == '\n' || character == '\r'

def punctuation? (character : Char) : Option Token :=
  if character = '[' then some .openArray
  else if character = ']' then some .closeArray
  else if character = '\x7b' then some .openObject
  else if character = '\x7d' then some .closeObject
  else if character = ',' then some .comma
  else if character = ':' then some .colon
  else none

def Scan.between (found : List Token) (character : Char) : Option Scan :=
  if isBlank character then some ⟨.between, found⟩
  else if character = '"' then some ⟨.quoted [] none, found⟩
  else if isBare character then some ⟨.bare [character], found⟩
  else (punctuation? character).map fun token => ⟨.between, token :: found⟩

def finishWord (found : List Token) (word : List Char) : Option (List Token) :=
  (word? word.reverse).map fun value => .scalar value :: found

def escape? (character : Char) : Option Char :=
  if character = '"' ∨ character = '\\' ∨ character = '/' then some character
  else if character = 'b' then some '\x08'
  else if character = 't' then some '\t'
  else if character = 'n' then some '\n'
  else if character = 'f' then some '\x0c'
  else if character = 'r' then some '\r'
  else none

def hexadecimal? (character : Char) : Option Nat :=
  if isDigit character then some (character.toNat - 48)
  else if 'a' ≤ character ∧ character ≤ 'f' then some (character.toNat - 87)
  else if 'A' ≤ character ∧ character ≤ 'F' then some (character.toNat - 55)
  else none

def unit? (text : List Char) (half : Option Nat) (value : Nat) : Option Mode :=
  match half with
  | some first =>
      if 0xDC00 ≤ value ∧ value < 0xE000 then
        some (.quoted
          (Char.ofNat (0x10000 + (first - 0xD800) * 0x400 + (value - 0xDC00)) :: text) none)
      else none
  | none =>
      if 0xD800 ≤ value ∧ value < 0xDC00 then some (.quoted text (some value))
      else if 0xDC00 ≤ value ∧ value < 0xE000 then none
      else some (.quoted (Char.ofNat value :: text) none)

def Scan.step (scan : Scan) (character : Char) : Option Scan :=
  match scan.mode with
  | .between => Scan.between scan.found character
  | .bare word =>
      if isBare character then some ⟨.bare (character :: word), scan.found⟩
      else (finishWord scan.found word).bind fun found => Scan.between found character
  | .quoted text half =>
      if character = '\\' then some ⟨.escape text half, scan.found⟩
      else if half.isSome || character < ' ' then none
      else if character = '"' then
        some ⟨.between, .scalar (.string (String.ofList text.reverse)) :: scan.found⟩
      else some ⟨.quoted (character :: text) none, scan.found⟩
  | .escape text half =>
      if character = 'u' then some ⟨.unicode text half 0 0, scan.found⟩
      else if half.isSome then none
      else (escape? character).map fun value => ⟨.quoted (value :: text) none, scan.found⟩
  | .unicode text half digits value =>
      (hexadecimal? character).bind fun digit =>
        if digits < 3 then
          some ⟨.unicode text half (digits + 1) (value * 16 + digit), scan.found⟩
        else (unit? text half (value * 16 + digit)).map fun mode => ⟨mode, scan.found⟩

def Scan.finish (scan : Scan) : Option (List Token) :=
  match scan.mode with
  | .between => some scan.found.reverse
  | .bare word => (finishWord scan.found word).map List.reverse
  | _ => none

def tokens? (text : List Char) : Option (List Token) :=
  (text.foldlM Scan.step ⟨.between, []⟩).bind Scan.finish

end OpenSoundControl.Json
