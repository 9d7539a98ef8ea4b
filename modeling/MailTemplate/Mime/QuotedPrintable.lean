import MailTemplate.Text.Utf8

/-!
# Quoted-printable text

Bytes are written line by line.  A printable byte other than `=` stands for itself, and so does a
blank that is not the last byte of its line; every other byte is written as `=` and two digits.  A
line that would grow too long is broken by a `=` at its end.  Line ends are written as carriage
return and line feed; a carriage return before a line end belongs to it.

## Main definitions

* `QuotedPrintable.encode` — the written form of some bytes.
* `QuotedPrintable.encodeLine` — the written form of one line.

## Main results

* `QuotedPrintable.length_token` — a byte takes one or three characters.
-/

namespace MailTemplate

/-- The line end of messages. -/
def crlf : List Char := ['\r', '\n']

/-- The sixteen digits. -/
def hexDigit (n : Nat) : Char :=
  if n < 10 then Char.ofNat ('0'.toNat + n) else Char.ofNat ('A'.toNat + (n - 10))

/-- A byte as `=` and two digits. -/
def escapedByte (b : UInt8) : List Char := ['=', hexDigit (b.toNat / 16), hexDigit (b.toNat % 16)]

namespace QuotedPrintable

/-- The greatest number of characters of a line before the `=` that breaks it. -/
def maxWidth : Nat := 75

/-- Whether a byte stands for itself. -/
def isLiteral (b : UInt8) (isLast : Bool) : Bool :=
  (0x21 ≤ b && b ≤ 0x3C) || (0x3E ≤ b && b ≤ 0x7E) || ((b == 0x20 || b == 0x09) && !isLast)

/-- A byte as it is written. -/
def token (b : UInt8) (isLast : Bool) : List Char :=
  if isLiteral b isLast then [Char.ofNat b.toNat] else escapedByte b

/-- A line as it is written behind so many characters. -/
def encodeLine (width : Nat) : Bytes → List Char
  | [] => []
  | b :: rest =>
    let t := token b rest.isEmpty
    if maxWidth < width + t.length then '=' :: crlf ++ t ++ encodeLine t.length rest
    else t ++ encodeLine (width + t.length) rest

/-- A line without a carriage return at its end. -/
def dropReturn (line : Bytes) : Bytes :=
  if line.getLast? = some 0x0D then line.dropLast else line

/-- The lines of some bytes. -/
def lines (bs : Bytes) : List Bytes := (bs.splitOn 0x0A).map dropReturn

/-- Bytes as they are written. -/
def encode (bs : Bytes) : List Char := Text.joinWith crlf ((lines bs).map (encodeLine 0))

theorem length_token (b : UInt8) (isLast : Bool) :
    (token b isLast).length = if isLiteral b isLast then 1 else 3 := by
  unfold token
  split <;> rfl

end QuotedPrintable

end MailTemplate
