import OpenSoundControl.Address.Pattern
import OpenSoundControl.Message.Basic

/-!
A message's own address may be a pattern, against which another address is tested.
-/

namespace OpenSoundControl.Message

def accepts (message : Message) (address : String) : Except Error Bool :=
  Address.test address message.address

end OpenSoundControl.Message
