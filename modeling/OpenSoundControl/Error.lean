import OpenSoundControl.Expression.Basic
import OpenSoundControl.Text.Quoted
import OpenSoundControl.Text.Utf8

/-!
What can go wrong with messages, packets and patterns, and how each failure is worded. The causes
are values, so that a failure can be told from another without reading its text; `stated` carries a
reason that a caller words itself.
-/

namespace OpenSoundControl

inductive WordField where
  | int32
  | float32
  | blobLength
  deriving DecidableEq, Repr

def WordField.name : WordField → String
  | .int32 => "int32"
  | .float32 => "float32"
  | .blobLength => "blob length"

inductive ParseCause where
  | unterminatedString
  | truncatedPadding (needed available : Nat)
  | malformedText (fault : Utf8.Fault)
  | truncatedWord (field : WordField) (available : Nat)
  | truncatedBlob (declared padded available : Nat)
  | negativeBlobLength (declared : Int32)
  | emptyAddress
  | bundle
  | missingTags
  | missingComma
  | unknownTag (tag : UInt8)
  | trailingBytes (count : Nat)
  | stated (reason : String)
  deriving DecidableEq, Repr

def ParseCause.message : ParseCause → String
  | .unterminatedString => "string is missing its NUL terminator"
  | .truncatedPadding needed available =>
      s!"string padding truncated: need {needed} bytes, have {available}"
  | .malformedText fault => s!"invalid UTF-8 in string: {fault.message}"
  | .truncatedWord field available => s!"{field.name} truncated: need 4 bytes, have {available}"
  | .truncatedBlob declared padded available =>
      s!"blob truncated: declared {declared} bytes (padded {padded}), have {available}"
  | .negativeBlobLength declared => s!"negative blob length: {declared.toInt}"
  | .emptyAddress => "empty address"
  | .bundle => "OSC bundles are not supported"
  | .missingTags => "missing type tag string"
  | .missingComma => "type tag string must start with ','"
  | .unknownTag tag => s!"unknown type tag '{Quoted.byte tag}'"
  | .trailingBytes count => s!"{count} trailing bytes after arguments"
  | .stated reason => reason

inductive EncodeCause where
  | containsNul (position : Nat) (text : String)
  | blobTooLarge (size : Nat)
  | stated (reason : String)
  deriving DecidableEq, Repr

def greatestBlob : Nat := 2147483647

def EncodeCause.message : EncodeCause → String
  | .containsNul position text =>
      s!"string contains NUL at byte {position}: {Quoted.text text}"
  | .blobTooLarge size => s!"blob too large: {size} bytes (max {greatestBlob})"
  | .stated reason => reason

inductive PatternCause where
  | expression (fault : Expression.Fault)
  | stated (reason : String)
  deriving DecidableEq, Repr

def PatternCause.message : PatternCause → String
  | .expression fault => fault.message
  | .stated reason => reason

inductive AddressCause where
  | empty
  | stated (reason : String)
  deriving DecidableEq, Repr

def AddressCause.message : AddressCause → String
  | .empty => "empty address"
  | .stated reason => reason

inductive Error where
  | invalidTypeTag (expected : Option UInt8) (found : UInt8)
  | encode (cause : EncodeCause)
  | parse (offset : Nat) (cause : ParseCause)
  | indexOutOfBounds (index length : Nat)
  | writer (message : String)
  | invalidPattern (pattern : String) (cause : PatternCause)
  | invalidAddress (cause : AddressCause)
  | packetTooLarge (size limit : Nat)
  deriving DecidableEq, Repr

namespace Error

/-- A tag byte of 128 or more is shown as the character of that number. -/
def tagCharacter (tag : UInt8) : Char :=
  Char.ofNat tag.toNat

def message : Error → String
  | .invalidTypeTag (some expected) found =>
      s!"invalid type tag: expected '{tagCharacter expected}', found '{tagCharacter found}'"
  | .invalidTypeTag none found =>
      s!"invalid type tag: unknown tag 0x{String.ofList (Quoted.twoDigits found.toNat)}"
  | .encode cause => s!"encode error: {cause.message}"
  | .parse offset cause => s!"parse error at byte {offset}: {cause.message}"
  | .indexOutOfBounds index length => s!"index out of bounds: {index} (len {length})"
  | .writer text => s!"writer unavailable: {text}"
  | .invalidPattern pattern cause => s!"invalid pattern {Quoted.text pattern}: {cause.message}"
  | .invalidAddress cause => s!"invalid address: {cause.message}"
  | .packetTooLarge size limit => s!"packet too large: {size} bytes (max {limit})"

def isParse : Error → Bool
  | .parse _ _ => true
  | _ => false

def isInvalidTypeTag : Error → Bool
  | .invalidTypeTag _ _ => true
  | _ => false

/-- Moves the offset of a parse error from a field to the packet that holds it. -/
def shift (base : Nat) : Error → Error
  | .parse offset cause => .parse (base + offset) cause
  | error => error

theorem shift_parse (base offset : Nat) (cause : ParseCause) :
    shift base (.parse offset cause) = .parse (base + offset) cause := rfl

end Error

end OpenSoundControl
