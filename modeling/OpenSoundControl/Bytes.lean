/-!
Byte strings, and 32-bit words as four bytes with the most significant byte first.
-/

namespace OpenSoundControl

abbrev Bytes := List UInt8

def zeros (count : Nat) : Bytes :=
  List.replicate count 0

def bigEndian (word : UInt32) : Bytes :=
  [UInt8.ofNat (word.toNat / 16777216), UInt8.ofNat (word.toNat / 65536),
    UInt8.ofNat (word.toNat / 256), UInt8.ofNat word.toNat]

def ofBigEndian (first second third fourth : UInt8) : UInt32 :=
  UInt32.ofNat (first.toNat * 16777216 + second.toNat * 65536 + third.toNat * 256 + fourth.toNat)

theorem length_bigEndian (word : UInt32) : (bigEndian word).length = 4 := rfl

theorem length_zeros (count : Nat) : (zeros count).length = count :=
  List.length_replicate

end OpenSoundControl
