import OpenSoundControl.Error

/-!
Where bytes are written. A sink may have room for a limited number of bytes: of a write that does
not fit it stores what does and then fails. Flushing may fail as well, and is counted either way.
-/

namespace OpenSoundControl

structure Sink where
  room : Option Nat
  writeMessage : String
  flushMessage : Option String
  stored : Bytes
  flushes : Nat
  deriving DecidableEq, Repr

namespace Sink

def unlimited : Sink := ⟨none, "closed", none, [], 0⟩

def fixed (size : Nat) : Sink := ⟨some size, "failed to write whole buffer", none, [], 0⟩

def write (sink : Sink) (bytes : Bytes) : Except Error Unit × Sink :=
  match sink.room with
  | none => (.ok (), { sink with stored := sink.stored ++ bytes })
  | some room =>
      let after : Sink := { sink with
        room := some (room - bytes.length)
        stored := sink.stored ++ bytes.take room }
      if bytes.length ≤ room then (.ok (), after) else (.error (.writer sink.writeMessage), after)

def flush (sink : Sink) : Except Error Unit × Sink :=
  let after : Sink := { sink with flushes := sink.flushes + 1 }
  match sink.flushMessage with
  | none => (.ok (), after)
  | some text => (.error (.writer text), after)

/-- Several writes in a row, of which the first that fails is the last one made. -/
abbrev Writer := ExceptT Error (StateM Sink)

def Writer.put (bytes : Bytes) : Writer Unit :=
  fun sink => sink.write bytes

end Sink

end OpenSoundControl
