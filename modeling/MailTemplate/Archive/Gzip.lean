import MailTemplate.Deflate.Parse
import MailTemplate.Digest.Crc32

/-!
# Compressed files

A compressed file is a header, the compressed bytes, their checksum and their number.

## Main definitions

* `Gzip.header` — the header for a level of compression.
* `Gzip.compress` — a compressed file.
-/

namespace MailTemplate

namespace Gzip

/-- A number as four bytes, the lowest first. -/
def wordBytes (n : Nat) : Bytes := (List.range 4).map fun i => UInt8.ofNat (n / Nat.pow 256 i)

/-- The mark of a level: whether it is for size or for speed. -/
def mark (level : Nat) : UInt8 := if 9 ≤ level then 2 else if level ≤ 1 then 4 else 0

/-- The header.  It tells no time and no system. -/
def header (level : Nat) : Bytes := [0x1f, 0x8b, 8, 0, 0, 0, 0, 0, mark level, 255]

/-- How hard to compress at a level.  A level that no byte can hold is the fastest one. -/
def effort (level : Nat) : Deflate.Effort := .ofLevel (if 255 < level then 1 else level)

/-- A compressed file. -/
def compress (level : Nat) (bytes : Bytes) : Bytes :=
  header level ++ Deflate.compress (effort level) bytes ++ wordBytes (crc32 bytes).toNat ++
    wordBytes bytes.length

end Gzip

end MailTemplate
