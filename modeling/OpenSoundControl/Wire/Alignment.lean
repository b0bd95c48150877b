import OpenSoundControl.Bytes
import OpenSoundControl.Text.Utf8

/-!
Every field of a packet fills whole words of four bytes. `paddedLength` rounds a length up to the
next multiple of four; `paddedWord` does so for a 64-bit word, by clearing its two lowest bits.
-/

namespace OpenSoundControl.Wire

def alignment : Nat := 4

def paddedLength (length : Nat) : Nat :=
  (length + (alignment - 1)) / alignment * alignment

def paddedWord (length : UInt64) : UInt64 :=
  (length + 4 - 1) &&& ~~~(4 - 1)

def pad (bytes : Bytes) : Bytes :=
  bytes ++ zeros (paddedLength bytes.length - bytes.length)

def stringSize (text : String) : Nat :=
  paddedLength ((Utf8.encode text).length + 1)

def blobSize (length : Nat) : Nat :=
  4 + paddedLength length

theorem paddedLength_eq (length : Nat) : paddedLength length = (length + 3) / 4 * 4 := rfl

theorem le_paddedLength (length : Nat) : length ≤ paddedLength length := by
  rw [paddedLength_eq]
  omega

theorem paddedLength_lt (length : Nat) : paddedLength length < length + 4 := by
  rw [paddedLength_eq]
  omega

theorem paddedLength_mod (length : Nat) : paddedLength length % 4 = 0 := by
  rw [paddedLength_eq]
  omega

theorem length_pad (bytes : Bytes) : (pad bytes).length = paddedLength bytes.length := by
  have := le_paddedLength bytes.length
  simp only [pad, List.length_append, length_zeros]
  omega

end OpenSoundControl.Wire
