import OpenSoundControl.Argument.Text
import OpenSoundControl.Message.Basic

/-!
The diagnostic form of a message: the address, a comma with the type tags, and then every argument
behind a space.
-/

namespace OpenSoundControl.Message

open Sink.Writer (put)

def text (message : Message) : String :=
  message.arguments.foldl (fun text argument => text ++ " " ++ argument.text)
    (message.address ++ " ," ++ message.typeTags)

def writer (message : Message) : Sink.Writer Unit := do
  put (Utf8.encode message.address)
  put (Utf8.encode " ,")
  put (Utf8.encode message.typeTags)
  message.arguments.forM fun argument => do
    put (Utf8.encode " ")
    discard argument.writer

def print (message : Message) (sink : Sink) : Except Error Unit × Sink :=
  message.writer.run.run sink

end OpenSoundControl.Message
