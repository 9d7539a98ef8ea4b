import MailTemplate.Adaptation.Rule
import MailTemplate.Adaptation.TagStyle

/-!
# The rule `zero-font-spacer`

A table cell with a font size of zero is a spacer, and must have a line height of zero too.

## Main definitions

* `ZeroFontSpacer.edit?` — the edit for one cell.
* `ZeroFontSpacer.rule` — the rule.
-/

namespace MailTemplate

namespace ZeroFontSpacer

/-- Whether a declaration gives a length of zero. -/
def isZero (d : Css.Declaration) : Bool := Css.isZeroLength d.value.toList

/-- The edit that gives a cell a line height of zero.  The last declaration of a line height is
changed and keeps its importance; a cell without one receives one. -/
def edit? (cell : StartTag) : Option Edit :=
  match cell.declared? "font-size", cell.style? with
  | some size, some (style, span) =>
    if isZero size then
      match cell.declared? "line-height" with
      | none => some (Edit.replace span (Css.append style "line-height" "0"))
      | some height =>
        if isZero height then none
        else
          let zero := if (Css.splitImportant height.value.toList).2 then "0 !important" else "0"
          some (Edit.replace (height.valueSpan.shift span.start) zero)
    else none
  | _, _ => none

/-- The rule. -/
def rule : Rule where
  name := "zero-font-spacer"
  edits doc := (doc.startTags "td").filterMap fun (_, cell) => edit? cell

end ZeroFontSpacer

end MailTemplate
