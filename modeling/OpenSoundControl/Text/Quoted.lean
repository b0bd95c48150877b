import OpenSoundControl.Text.Printable

/-!
Text between double quotes, as diagnostics show it, and single bytes shown in ASCII.
-/

namespace OpenSoundControl.Quoted

def hexadecimal (value : Nat) : List Char :=
  Nat.toDigits 16 value

def twoDigits (value : Nat) : List Char :=
  hexadecimal (value / 16) ++ hexadecimal (value % 16)

def character (value : Char) : List Char :=
  if value = '\x00' then ['\\', '0']
  else if value = '\t' then ['\\', 't']
  else if value = '\n' then ['\\', 'n']
  else if value = '\r' then ['\\', 'r']
  else if value = '"' then ['\\', '"']
  else if value = '\\' then ['\\', '\\']
  else if Printable.isHidden value then
    ['\\', 'u', '\x7b'] ++ hexadecimal value.toNat ++ ['\x7d']
  else [value]

def text (value : String) : String :=
  String.ofList (['"'] ++ value.toList.flatMap character ++ ['"'])

def byte (value : UInt8) : String :=
  String.ofList <|
    if value = 9 then ['\\', 't']
    else if value = 10 then ['\\', 'n']
    else if value = 13 then ['\\', 'r']
    else if value = 34 ∨ value = 39 ∨ value = 92 then ['\\', Char.ofNat value.toNat]
    else if 32 ≤ value ∧ value ≤ 126 then [Char.ofNat value.toNat]
    else ['\\', 'x'] ++ twoDigits value.toNat

end OpenSoundControl.Quoted
