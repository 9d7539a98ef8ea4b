import MailTemplate.Adaptation.Rule
import MailTemplate.Adaptation.TagStyle

/-!
# The rule `vml-background`

Outlook shows no background colour of a table.  A table with one is therefore wrapped in a VML
rectangle of that colour: an opening block before its start tag, and a closing block behind its end
tag.  A table that follows an opening block directly is wrapped already.

## Main definitions

* `VmlBackground.colour?`, `VmlBackground.width` — what the rectangle of a table looks like.
* `VmlBackground.opening`, `VmlBackground.closing` — the two blocks.
* `VmlBackground.rule` — the rule for a default width.
-/

namespace MailTemplate

namespace VmlBackground

/-- A text without all marks of importance at its very end. -/
def dropMarks (cs : List Char) : List Char :=
  if _h : Css.importantMark.isSuffixOf cs ∧ cs ≠ [] then
    dropMarks (cs.take (cs.length - Css.importantMark.length))
  else cs
termination_by cs.length
decreasing_by
  have : 0 < cs.length := List.length_pos_iff.2 _h.2
  have hm : Css.importantMark.length = 10 := rfl
  simp only [List.length_take, hm]
  omega

/-- The background colour that a table declares. -/
def colour? (table : StartTag) : Option String :=
  match table.declared? "background-color" with
  | none => none
  | some d =>
    let colour := Text.trim (dropMarks d.value.toList)
    if colour = [] then none else some (String.ofList colour)

/-- The width that a table has in pixels, in its attribute or in its style, or a default. -/
def width (default_ : String) (table : StartTag) : String :=
  let fromAttribute := (table.value? "width").bind fun v => Css.pixelLength? v.toList
  let fromStyle := (table.declared? "width").bind fun d => Css.pixelLength? d.value.toList
  match fromAttribute.or fromStyle with
  | some pixels => toString pixels ++ "px"
  | none => default_

/-- The block before a table. -/
def opening (width colour : String) : String :=
  "<!--[if gte mso 9]>\n" ++
    "<v:rect xmlns:v=\"urn:schemas-microsoft-com:vml\" fill=\"true\" stroke=\"false\" " ++
    "style=\"width:" ++ width ++ ";\">\n" ++
    "<v:fill type=\"tile\" color=\"" ++ colour ++ "\" />\n" ++
    "<v:textbox inset=\"0,0,0,0\">\n" ++
    "<![endif]-->\n"

/-- The block behind a table. -/
def closing : String := "\n<!--[if gte mso 9]>\n</v:textbox>\n</v:rect>\n<![endif]-->"

/-- Whether a comment is an opening block. -/
def isOpening (comment : List Char) : Bool :=
  Text.contains comment "<v:fill type=\"tile\"".toList &&
    Text.contains comment "<v:textbox inset=".toList &&
    !Text.contains comment "</v:textbox>".toList

/-- Whether the token at a place directly follows an opening block. -/
def isWrapped (doc : Document) (index : Nat) : Bool :=
  match doc.adjacentBefore? index with
  | some (.comment span) => isOpening (doc.text span)
  | _ => false

/-- The edits for the table at a place among the tokens. -/
def tableEdits (default_ : String) (doc : Document) (index : Nat) (table : StartTag) : List Edit :=
  match colour? table, doc.matchingEnd? index with
  | some colour, some close =>
    if isWrapped doc index then []
    else
      [Edit.insert table.span.start (opening (width default_ table) colour),
        Edit.insert close.stop closing]
  | _, _ => []

/-- The rule for a default width. -/
def rule (default_ : String) : Rule where
  name := "vml-background"
  edits doc := (doc.startTags "table").flatMap fun (i, table) => tableEdits default_ doc i table

end VmlBackground

end MailTemplate
