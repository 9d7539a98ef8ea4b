import MailTemplate.Adaptation.Rule

/-!
# The rule `head-meta`

The head of a document must carry five `meta` tags and a title that is not blank.  Each tag that is
missing is inserted behind the `<head>` tag, and so is a title; a blank title is filled in.

## Main definitions

* `MetaTag` — a tag with the test that recognises it.
* `HeadMeta.rule` — the rule for a title.
-/

namespace MailTemplate

/-- A `meta` tag. -/
structure MetaTag where
  /-- The tag as it is inserted. -/
  markup : String
  /-- Whether a tag of a document serves its purpose. -/
  isPresent : StartTag → Bool

namespace MetaTag

/-- Whether a tag has an attribute with a value, in any letter case. -/
def hasValue (name value : String) (tag : StartTag) : Bool :=
  match tag.value? name with
  | some v => Text.equalsFold v.toList value.toList
  | none => false

/-- Whether a tag declares a character set, in an attribute of its own or in its content. -/
def declaresCharset (tag : StartTag) : Bool :=
  (tag.attribute? "charset").isSome ||
    match tag.value? "content" with
    | some v => Text.contains (Text.lower v.toList) "charset".toList
    | none => false

/-- The tag that declares the character set. -/
def charset : MetaTag := ⟨"<meta charset=\"utf-8\">", declaresCharset⟩

/-- The tags that every document should have. -/
def all : List MetaTag :=
  [charset,
    ⟨"<meta name=\"viewport\" content=\"width=device-width, initial-scale=1\">",
      hasValue "name" "viewport"⟩,
    ⟨"<meta http-equiv=\"X-UA-Compatible\" content=\"IE=edge\">",
      hasValue "http-equiv" "X-UA-Compatible"⟩,
    ⟨"<meta name=\"format-detection\" content=\"telephone=no,address=no,email=no,date=no,url=no\">",
      hasValue "name" "format-detection"⟩,
    ⟨"<meta name=\"x-apple-disable-message-reformatting\">",
      hasValue "name" "x-apple-disable-message-reformatting"⟩]

/-- Whether no tag of a document serves the purpose of this one. -/
def isMissing (doc : Document) (tag : MetaTag) : Bool :=
  !(doc.startTags "meta").any fun (_, t) => tag.isPresent t

end MetaTag

namespace HeadMeta

/-- The edits for the title: a blank one is filled in, and a missing one is inserted at an offset. -/
def titleEdits (title : String) (offset : Nat) (doc : Document) : List Edit :=
  match doc.rawTexts "title" with
  | [] => [Edit.insert offset ("\n<title>" ++ title ++ "</title>")]
  | span :: _ => if Text.isBlankText (doc.text span) then [Edit.replace span title] else []

/-- The rule for documents without a title of their own. -/
def rule (title : String) : Rule where
  name := "head-meta"
  edits doc :=
    match doc.firstStart? "head" with
    | none => []
    | some head =>
      ((MetaTag.all.filter (·.isMissing doc)).map fun tag =>
        Edit.insert head.span.stop ("\n" ++ tag.markup)) ++ titleEdits title head.span.stop doc

end HeadMeta

end MailTemplate
