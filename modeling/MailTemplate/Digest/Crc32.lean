import MailTemplate.Text.Utf8

/-!
# Checksums of thirty-two bits

The checksum of some bytes is the remainder of a division of polynomials over bits, as it is used in
compressed files.

## Main definitions

* `crc32` — the checksum.
-/

namespace MailTemplate

namespace Crc32

/-- One bit of the division. -/
def shift (c : UInt32) : UInt32 := if c &&& 1 = 1 then (c >>> 1) ^^^ 0xEDB88320 else c >>> 1

/-- So many bits of the division. -/
def shifts : Nat → UInt32 → UInt32
  | 0, c => c
  | n + 1, c => shifts n (shift c)

/-- One byte more. -/
def addByte (c : UInt32) (b : UInt8) : UInt32 := shifts 8 (c ^^^ b.toUInt32)

end Crc32

/-- The checksum of some bytes. -/
def crc32 (bytes : Bytes) : UInt32 := bytes.foldl Crc32.addByte 0xFFFFFFFF ^^^ 0xFFFFFFFF

end MailTemplate
