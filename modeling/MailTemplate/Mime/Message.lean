import MailTemplate.Mime.Boundary
import MailTemplate.Mime.HeaderText
import MailTemplate.Mime.QuotedPrintable

/-!
# Template messages

A template is a message that a client opens as unsent.  Its document is wrapped in one or three
levels, each a multipart of one part.  A level is a content type with a boundary, and the part that
stands between the delimiter lines of that boundary.

## Main definitions

* `Part` — a document inside its levels, with `Part.lines` as its lines.
* `Template` — a subject and a part, with `Template.text` as the whole message.
* `Template.single`, `Template.nested` — the templates of a document.
-/

namespace MailTemplate

/-- A part of a message. -/
inductive Part where
  /-- An HTML document in its encoded form. -/
  | document (encoded : List Char)
  /-- A multipart of one part. -/
  | level (contentType : String) (boundary : String) (inner : Part)
  deriving DecidableEq, Repr

namespace Part

/-- Whether a part is a multipart. -/
def isLevel : Part → Bool
  | document _ => false
  | level .. => true

/-- The header line of a level. -/
def levelHeader (contentType boundary : String) : List Char :=
  ("Content-Type: " ++ contentType ++ "; boundary=\"" ++ boundary ++ "\"").toList

/-- The line before a part. -/
def delimiter (boundary : String) : List Char := '-' :: '-' :: boundary.toList

/-- The line behind the last part. -/
def closeDelimiter (boundary : String) : List Char := delimiter boundary ++ ['-', '-']

/-- The lines of a part.  A line of a document may hold line ends of its own. -/
def lines : Part → List (List Char)
  | document encoded =>
    ["Content-Type: text/html; charset=\"utf-8\"".toList,
      "Content-Transfer-Encoding: quoted-printable".toList, [], encoded]
  | level contentType boundary inner =>
    [levelHeader contentType boundary, [], delimiter boundary] ++ inner.lines ++
      (if inner.isLevel then [[]] else []) ++ [closeDelimiter boundary]

/-- A part in levels with the given content types and boundaries, the outermost first. -/
def wrap : List (String × String) → Part → Part
  | [], part => part
  | (contentType, boundary) :: rest, part => level contentType boundary (wrap rest part)

end Part

/-- A message that a client opens as a template. -/
structure Template where
  /-- Its subject. -/
  subject : String
  /-- What it holds. -/
  part : Part
  deriving DecidableEq, Repr

namespace Template

/-- The lines of a template. -/
def lines (t : Template) : List (List Char) :=
  ["MIME-Version: 1.0".toList, "Subject: ".toList ++ HeaderText.encode t.subject.toList,
    "X-Unsent: 1".toList] ++ t.part.lines

/-- The text of a template: its lines, each with its line end. -/
def text (t : Template) : List Char := t.lines.flatMap (· ++ crlf)

/-- The content types of a template of one level. -/
def singleTypes : List String := ["multipart/related"]

/-- The content types of a template of three levels, the outermost first. -/
def nestedTypes : List String := ["multipart/mixed", "multipart/related", "multipart/alternative"]

/-- The template of a document with levels of some content types, and the levels that boundaries
were drawn for so far. -/
def build (types : List String) (html subject : String) (source : BoundarySource)
    (asked : List Nat) : Except Boundary.Failure Template × List Nat :=
  let encoded := QuotedPrintable.encode (Bytes.ofString html)
  let (choice, asked) := Boundary.choose source types.length html.toList encoded asked
  (choice.map fun boundaries => ⟨subject, Part.wrap (types.zip boundaries) (.document encoded)⟩,
    asked)

/-- The template of a document with one level. -/
def single := build singleTypes

/-- The template of a document with three levels. -/
def nested := build nestedTypes

end Template

end MailTemplate
