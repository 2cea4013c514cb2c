import ImageScript.Text.Digits
import ImageScript.Text.Utf8

/-!
# Checksum

The 32-bit cyclic redundancy check with the reflected polynomial 0xEDB88320, as archives use it.
-/

namespace ImageScript.Text

/-- One step of the division for each of the `n` low bits. -/
def crcShift : Nat → UInt32 → UInt32
  | 0, r => r
  | n + 1, r => crcShift n (if r &&& 1 = 1 then (r >>> 1) ^^^ 0xEDB88320 else r >>> 1)

/-- The remainder after one more byte. -/
def crcByte (r : UInt32) (b : UInt8) : UInt32 := crcShift 8 (r ^^^ b.toUInt32)

/-- The checksum of some bytes. -/
def crc32 (bs : Bytes) : UInt32 := bs.foldl crcByte 0xFFFFFFFF ^^^ 0xFFFFFFFF

/-- The checksum of the UTF-8 form in eight hexadecimal digits. -/
def checksum (s : Text) : Text := hex 8 (crc32 (encode s)).toNat

end ImageScript.Text
