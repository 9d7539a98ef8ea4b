import MailTemplate.Mime.QuotedPrintable

/-!
# Text in headers

A header value of printable ASCII characters is written as it is.  Any other value is written as
encoded words on lines of their own.  An encoded word is at most seventy-five characters long and
holds whole characters only.

## Main definitions

* `HeaderText.encode` — a header value as it is written.
* `HeaderText.encodeChar` — one character inside an encoded word.
* `HeaderText.payloads` — the contents of the encoded words.
-/

namespace MailTemplate

namespace HeaderText

/-- The front of an encoded word. -/
def wordFront : List Char := "=?utf-8?Q?".toList

/-- The end of an encoded word. -/
def wordEnd : List Char := "?=".toList

/-- The greatest number of characters between the two. -/
def maxPayload : Nat := 75 - wordFront.length - wordEnd.length

/-- The characters that need no encoding. -/
def isPlain (c : Char) : Bool := 0x20 ≤ c.toNat && c.toNat < 0x7F

/-- The characters that stand for themselves inside an encoded word. -/
def isLiteral (c : Char) : Bool :=
  c.isAlphanum || c == '!' || c == '*' || c == '+' || c == '-' || c == '/'

/-- A character inside an encoded word. -/
def encodeChar (c : Char) : List Char :=
  if c = ' ' then ['_']
  else if isLiteral c then [c]
  else (String.utf8EncodeChar c).flatMap escapedByte

/-- The contents of the encoded words for a text, the first of which has begun with `begun`. -/
def payloads (begun : List Char) : List Char → List (List Char)
  | [] => if begun = [] then [] else [begun]
  | c :: cs =>
    let e := encodeChar c
    if maxPayload < begun.length + e.length then begun :: payloads e cs
    else payloads (begun ++ e) cs

/-- A header value as it is written. -/
def encode (value : List Char) : List Char :=
  if value.all isPlain then value
  else
    Text.joinWith (crlf ++ [' '])
      ((payloads [] value).map fun payload => wordFront ++ payload ++ wordEnd)

end HeaderText

end MailTemplate
