import MailTemplate.Text.Cursor

/-!
# Tokens of markup

A document is not parsed into elements.  It is read as a sequence of tokens: tags, comments,
declarations, and the raw text of a few elements.  Everything that no token covers is plain text.
Each token knows where it stands, so that a rule can edit the source around it.

## Main definitions

* `Attribute`, `StartTag`, `Token` — the tokens.
* `StartTag.attribute?`, `StartTag.value?`, `StartTag.classes` — reading a tag.
-/

namespace MailTemplate

/-- An attribute of a start tag. -/
structure Attribute where
  /-- The name in lower case. -/
  name : String
  /-- The value as written, without its quotes; a bare attribute has none. -/
  value : Option String
  /-- The whole attribute, from its name through the closing quote. -/
  span : Span
  /-- The value inside the quotes. -/
  valueSpan : Option Span
  deriving DecidableEq, Repr

/-- A start tag. -/
structure StartTag where
  /-- The name of the element in lower case. -/
  name : String
  /-- The attributes in order. -/
  attributes : List Attribute
  /-- The whole tag. -/
  span : Span
  /-- The offset behind the last attribute, or behind the name if there is none. -/
  attributesEnd : Nat
  /-- Whether the tag ends with a slash and so opens no element. -/
  selfClosing : Bool
  deriving DecidableEq, Repr

namespace StartTag

/-- The first attribute of a name. -/
def attribute? (tag : StartTag) (name : String) : Option Attribute :=
  tag.attributes.find? fun a => a.name == name

/-- The value of the first attribute of a name. -/
def value? (tag : StartTag) (name : String) : Option String :=
  (tag.attribute? name).bind Attribute.value

/-- The names in the `class` attribute. -/
def classes (tag : StartTag) : List String :=
  match tag.value? "class" with
  | none => []
  | some value => (Text.words value.toList).map String.ofList

end StartTag

/-- A token of markup. -/
inductive Token where
  /-- A start tag. -/
  | startTag (tag : StartTag)
  /-- An end tag, with the name of its element in lower case. -/
  | endTag (name : String) (span : Span)
  /-- A comment. -/
  | comment (span : Span)
  /-- A document type declaration, a processing instruction or the like. -/
  | declaration (span : Span)
  /-- The body of an element whose text is not markup. -/
  | rawText (element : String) (span : Span)
  deriving DecidableEq, Repr

namespace Token

/-- Where a token stands. -/
def span : Token → Span
  | startTag tag => tag.span
  | endTag _ span | comment span | declaration span | rawText _ span => span

/-- The start tag that a token is. -/
def startTag? : Token → Option StartTag
  | startTag tag => some tag
  | _ => none

/-- The start tag of a name that a token is. -/
def startTagNamed? (name : String) : Token → Option StartTag
  | startTag tag => if tag.name = name then some tag else none
  | _ => none

end Token

end MailTemplate
