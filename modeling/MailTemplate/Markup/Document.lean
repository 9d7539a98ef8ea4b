import MailTemplate.Markup.Tokenizer

/-!
# Documents

A document is a source with its tokens.  Rules ask it for tags of a name, for raw text, for the end
tag that closes an element and for what stands just before a token.

## Main definitions

* `Document.read` — the document of a source.
* `Document.startTags`, `Document.firstStart?`, `Document.firstEnd?`, `Document.rawTexts` — tokens
  by name.
* `Document.matchingEnd?` — the end tag of an element.
* `Document.adjacentBefore?` — the neighbour before a token.
-/

namespace MailTemplate

/-- A source and its tokens. -/
structure Document where
  /-- The text. -/
  source : String
  /-- Its tokens in order. -/
  tokens : List Token
  deriving DecidableEq, Repr

namespace Document

/-- The document of a source. -/
def read (source : String) : Document := ⟨source, Token.tokenize source⟩

variable (doc : Document)

/-- The text of a span. -/
def text (span : Span) : List Char := Text.slice span doc.source.toList

/-! ## Tokens by name -/

/-- The start tags of a name, each with its place among the tokens. -/
def startTags (name : String) : List (Nat × StartTag) :=
  doc.tokens.zipIdx.filterMap fun (token, i) => (token.startTagNamed? name).map (i, ·)

/-- All start tags. -/
def allStartTags : List StartTag := doc.tokens.filterMap Token.startTag?

/-- The first start tag of a name. -/
def firstStart? (name : String) : Option StartTag := doc.tokens.findSome? (·.startTagNamed? name)

/-- The span of the first end tag of a name. -/
def firstEnd? (name : String) : Option Span :=
  doc.tokens.findSome? fun
    | .endTag n span => if n = name then some span else none
    | _ => none

/-- The spans of the raw texts of an element. -/
def rawTexts (element : String) : List Span :=
  doc.tokens.filterMap fun
    | .rawText e span => if e = element then some span else none
    | _ => none

/-! ## Neighbours -/

/-- The span of the end tag that closes an element of a name, `depth` elements of that name being
open inside it. -/
def closingEnd? (name : String) (depth : Nat) : List Token → Option Span
  | [] => none
  | .startTag tag :: rest =>
    closingEnd? name (if tag.name = name ∧ tag.selfClosing = false then depth + 1 else depth) rest
  | .endTag n span :: rest =>
    if n = name then
      match depth with
      | 0 => some span
      | depth + 1 => closingEnd? name depth rest
    else closingEnd? name depth rest
  | _ :: rest => closingEnd? name depth rest

/-- The span of the end tag that closes the element whose start tag is the token at a place. -/
def matchingEnd? (index : Nat) : Option Span :=
  match doc.tokens.drop index with
  | .startTag tag :: rest => closingEnd? tag.name 0 rest
  | _ => none

/-- The token before the one at a place, if nothing but blanks stands between the two. -/
def adjacentBefore? (index : Nat) : Option Token := do
  let current ← doc.tokens[index]?
  let previous ← if index = 0 then none else doc.tokens[index - 1]?
  let gap := doc.text ⟨previous.span.stop, current.span.start⟩
  if Text.isBlankText gap then some previous else none

end Document

end MailTemplate
