import OpenSoundControl.Bytes

/-!
UTF-8 text as bytes. A reader takes the bytes one at a time and cuts them into pieces: characters,
runs that no character can start with, and a character that the end of the bytes cuts short.
Strict reading accepts characters only; lossy reading puts one replacement character in place of
every other piece.
-/

namespace OpenSoundControl.Utf8

def encode (text : String) : Bytes :=
  text.toList.flatMap String.utf8EncodeChar

inductive Piece where
  | character (value : Char)
  | illFormed (length : Nat)
  | truncated (length : Nat)
  deriving DecidableEq, Repr

/-- A character whose first `seen` bytes are read: `missing` bytes are still to come, and the next
one lies between `low` and `high`. -/
structure Pending where
  value : Nat
  missing : Nat
  low : UInt8
  high : UInt8
  seen : Nat
  deriving DecidableEq, Repr

inductive Advance where
  | complete (piece : Piece)
  | waiting (pending : Pending)
  deriving DecidableEq, Repr

/-- The lead bytes `C0`, `C1` and those above `F4` start no character. After `E0`, `ED`, `F0` and
`F4` the second byte is narrowed, which rules out overlong forms, surrogates and values above
`10FFFF`. -/
def lead (byte : UInt8) : Advance :=
  if byte < 0x80 then .complete (.character (Char.ofNat byte.toNat))
  else if byte < 0xC2 then .complete (.illFormed 1)
  else if byte < 0xE0 then .waiting ⟨byte.toNat - 0xC0, 1, 0x80, 0xBF, 1⟩
  else if byte < 0xF0 then
    .waiting ⟨byte.toNat - 0xE0, 2, if byte = 0xE0 then 0xA0 else 0x80,
      if byte = 0xED then 0x9F else 0xBF, 1⟩
  else if byte < 0xF5 then
    .waiting ⟨byte.toNat - 0xF0, 3, if byte = 0xF0 then 0x90 else 0x80,
      if byte = 0xF4 then 0x8F else 0xBF, 1⟩
  else .complete (.illFormed 1)

def Pending.accepts (pending : Pending) (byte : UInt8) : Bool :=
  pending.low ≤ byte && byte ≤ pending.high

def Pending.extend (pending : Pending) (byte : UInt8) : Advance :=
  let value := pending.value * 64 + (byte.toNat - 0x80)
  if pending.missing = 1 then .complete (.character (Char.ofNat value))
  else .waiting ⟨value, pending.missing - 1, 0x80, 0xBF, pending.seen + 1⟩

structure Reading where
  found : List Piece
  pending : Option Pending

def Reading.after (found : List Piece) : Advance → Reading
  | .complete piece => ⟨piece :: found, none⟩
  | .waiting pending => ⟨found, some pending⟩

def Reading.step (reading : Reading) (byte : UInt8) : Reading :=
  match reading.pending with
  | none => .after reading.found (lead byte)
  | some pending =>
      if pending.accepts byte then .after reading.found (pending.extend byte)
      else .after (.illFormed pending.seen :: reading.found) (lead byte)

def Reading.finish (reading : Reading) : List Piece :=
  match reading.pending with
  | none => reading.found.reverse
  | some pending => (.truncated pending.seen :: reading.found).reverse

def pieces (bytes : Bytes) : List Piece :=
  (bytes.foldl Reading.step ⟨[], none⟩).finish

def Piece.isCharacter : Piece → Bool
  | .character _ => true
  | _ => false

def Piece.character? : Piece → Option Char
  | .character value => some value
  | _ => none

def Piece.size : Piece → Nat
  | .character value => value.utf8Size
  | .illFormed length => length
  | .truncated length => length

def replacement : Char := '\uFFFD'

def Piece.repaired (piece : Piece) : Char :=
  piece.character?.getD replacement

def repair (bytes : Bytes) : String :=
  String.ofList ((pieces bytes).map Piece.repaired)

/-- Where the text stops being well formed, and the length of the run that is at fault there;
there is no length where the bytes end inside a character. -/
structure Fault where
  offset : Nat
  length : Option Nat
  deriving DecidableEq, Repr

def Piece.fault (offset : Nat) : Piece → Fault
  | .illFormed length => ⟨offset, some length⟩
  | _ => ⟨offset, none⟩

def totalSize (pieces : List Piece) : Nat :=
  pieces.foldr (fun piece total => piece.size + total) 0

def decode (bytes : Bytes) : Except Fault String :=
  let all := pieces bytes
  match all.dropWhile Piece.isCharacter with
  | [] => .ok (String.ofList (all.filterMap Piece.character?))
  | piece :: _ => .error (piece.fault (totalSize (all.takeWhile Piece.isCharacter)))

def Fault.message (fault : Fault) : String :=
  match fault.length with
  | some length => s!"invalid utf-8 sequence of {length} bytes from index {fault.offset}"
  | none => s!"incomplete utf-8 byte sequence from index {fault.offset}"

end OpenSoundControl.Utf8
