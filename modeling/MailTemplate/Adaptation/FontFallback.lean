import MailTemplate.Css.FontRule
import MailTemplate.Adaptation.Rule
import MailTemplate.Adaptation.TagStyle

/-!
# The rule `font-fallback`

Font lists that name a web font are replaced by a list of fonts that Outlook has, in style
attributes and in style elements.

## Main definitions

* `FontFallback.replacement` — the list that replaces a font list.
* `FontFallback.tagEdits`, `FontFallback.sheetEdit?` — the edits for one tag and for one style
  element.
* `FontFallback.rule` — the rule.
-/

namespace MailTemplate

namespace FontFallback

variable (webFonts : List String) (fallback : String)

/-- The list that replaces a font list; it is important if the font list is. -/
def replacement (list : List Char) : String :=
  if (Css.splitImportant list).2 then fallback ++ " !important" else fallback

/-- The edits for the style attribute of a tag. -/
def tagEdits (tag : StartTag) : List Edit :=
  match tag.style? with
  | none => []
  | some (style, span) =>
    ((Css.declarations style).filter fun d =>
      d.property == "font-family" && Css.namesFont d.value.toList webFonts).map fun d =>
        Edit.replace (d.valueSpan.shift span.start) (replacement fallback d.value.toList)

/-- The text of a part of a style sheet, its font list replaced if it names a web font. -/
def partText : Css.SheetPart → List Char
  | .other c => [c]
  | .fontFamily written list =>
    let named := Text.trimEnd list
    if Css.namesFont named webFonts then
      "font-family: ".toList ++ (replacement fallback named).toList
    else written

/-- Whether a part of a style sheet names a web font. -/
def isNamed : Css.SheetPart → Bool
  | .other _ => false
  | .fontFamily _ list => Css.namesFont (Text.trimEnd list) webFonts

/-- The edit for the text of a style element. -/
def sheetEdit? (doc : Document) (span : Span) : Option Edit :=
  let parts := Css.sheetParts (doc.text span)
  if parts.any (isNamed webFonts) then
    some (Edit.replace span (String.ofList (parts.flatMap (partText webFonts fallback))))
  else none

/-- The rule. -/
def rule : Rule where
  name := "font-fallback"
  edits doc :=
    doc.allStartTags.flatMap (tagEdits webFonts fallback) ++
      (doc.rawTexts "style").filterMap (sheetEdit? webFonts fallback doc)

end FontFallback

end MailTemplate
