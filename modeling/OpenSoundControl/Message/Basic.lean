import OpenSoundControl.Argument.Payload

/-!
Messages: an address, arguments in order, and the sender of a message that came from outside. The
sender is never part of a packet.
-/

namespace OpenSoundControl

structure Message where
  address : String
  arguments : List Argument
  sender : Option String
  deriving DecidableEq, Repr

namespace Message

def new (address : String) : Except Error Message :=
  if address = "" then .error (.invalidAddress .empty) else .ok ⟨address, [], none⟩

def push (message : Message) (argument : Argument) : Message :=
  { message with arguments := message.arguments ++ [argument] }

def withArguments (message : Message) (arguments : List Argument) : Message :=
  { message with arguments := arguments }

def withSender (message : Message) (sender : String) : Message :=
  { message with sender := some sender }

def withAddress (message : Message) (address : String) : Message :=
  { message with address := address }

def size (message : Message) : Nat :=
  message.arguments.length

def isEmpty (message : Message) : Bool :=
  message.arguments.isEmpty

def argument (message : Message) (index : Nat) : Except Error Argument :=
  match message.arguments[index]? with
  | some argument => .ok argument
  | none => .error (.indexOutOfBounds index message.size)

def typeTags (message : Message) : String :=
  String.ofList (message.arguments.map fun argument => Char.ofNat argument.tag.byte.toNat)

def sameArguments (left right : List Argument) : Bool :=
  left.length == right.length && (left.zip right).all fun pair => pair.1.sameValue pair.2

def sameValue (left right : Message) : Bool :=
  left.address == right.address && sameArguments left.arguments right.arguments &&
    left.sender == right.sender

end Message

end OpenSoundControl
