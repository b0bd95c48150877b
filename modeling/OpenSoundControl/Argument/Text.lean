import OpenSoundControl.Argument.Basic
import OpenSoundControl.Sink

/-!
The diagnostic text of an argument. As text, a blob is repaired UTF-8; as bytes, it is written as
it is.
-/

namespace OpenSoundControl.Argument

def text : Argument → String
  | .int32 value => toString value.toInt
  | .float32 value => value.fixedText
  | .bool true => "true"
  | .bool false => "false"
  | .string value => value
  | .blob value => Utf8.repair value

def textBytes : Argument → Bytes
  | .blob value => value
  | argument => Utf8.encode argument.text

def writer (argument : Argument) : Sink.Writer Nat := do
  Sink.Writer.put argument.textBytes
  return argument.textBytes.length

def writeTo (argument : Argument) (sink : Sink) : Except Error Nat × Sink :=
  argument.writer.run.run sink

end OpenSoundControl.Argument
