import OpenSoundControl.Argument.Payload

/-!
A buffer that bytes are appended to. A writer does this piece by piece, and what it has appended
stays there if it stops later; each of the writers here makes its checks before its first piece.
-/

namespace OpenSoundControl.Wire

/-- An outcome together with the buffer that is left, also of an error. -/
abbrev Writer :=
  ExceptT Error (StateM Bytes)

namespace Writer

def append (bytes : Bytes) : Writer Unit :=
  modify fun buffer => buffer ++ bytes

def string (text : String) : Writer Unit := do
  let bytes := Utf8.encode text
  if let some position := bytes.findIdx? (· = 0) then
    throw (.encode (.containsNul position text))
  append bytes
  append (zeros (stringSize text - bytes.length))

def blob (data : Bytes) : Writer Unit := do
  if greatestBlob < data.length then
    throw (.encode (.blobTooLarge data.length))
  append (bigEndian (UInt32.ofNat data.length))
  append data
  append (zeros (paddedLength data.length - data.length))

def argument : Argument → Writer Unit
  | .int32 value => append (bigEndian value.toUInt32)
  | .float32 value => append (bigEndian value.bits)
  | .bool _ => pure ()
  | .string value => string value
  | .blob value => blob value

def align : Writer Unit := do
  let buffer ← get
  append (zeros (paddedLength buffer.length - buffer.length))

end Writer

inductive Edit where
  | string (text : String)
  | blob (data : Bytes)
  | argument (argument : Argument)
  | align
  | raw (bytes : Bytes)
  deriving DecidableEq, Repr

def Edit.writer : Edit → Writer Unit
  | .string text => Writer.string text
  | .blob data => Writer.blob data
  | .argument value => Writer.argument value
  | .align => Writer.align
  | .raw bytes => Writer.append bytes

def Edit.apply (buffer : Bytes) (edit : Edit) : Except Error Unit × Bytes :=
  edit.writer.run.run buffer

def trace : Bytes → List Edit → List (Except Error Unit × Bytes)
  | _, [] => []
  | buffer, edit :: rest =>
      let outcome := edit.apply buffer
      outcome :: trace outcome.2 rest

def run (buffer : Bytes) (edits : List Edit) : Bytes :=
  edits.foldl (fun buffer edit => (edit.apply buffer).2) buffer

end OpenSoundControl.Wire
