import MailTemplate.Adaptation.Rule
import MailTemplate.Adaptation.TagStyle
import MailTemplate.Settings.Basic

/-!
# The rule `cell-classes`

A table cell whose style matches a signature receives the class of the signature, unless it has the
class already.

## Main definitions

* `CellSignature.matches_` — whether declarations match a signature.
* `CellClasses.missing` — the classes that a cell lacks.
* `CellClasses.rule` — the rule for a list of signatures.
-/

namespace MailTemplate

/-- Whether every style of a signature is declared with the value it asks for. -/
def CellSignature.matches_ (signature : CellSignature) (ds : List Css.Declaration) : Bool :=
  signature.styles.all fun (property, expected) =>
    match Css.lastOf? ds (Text.lowerString property) with
    | none => false
    | some d => expected == "*" || Css.normalize d.value.toList == Css.normalize expected.toList

namespace CellClasses

/-- The classes of the signatures that a cell matches and does not have, in order. -/
def missing (signatures : List CellSignature) (cell : StartTag) : List String :=
  ((signatures.filter (·.matches_ cell.declarations)).map CellSignature.className).filter
    fun c => !cell.classes.contains c

/-- The attribute with some classes. -/
def classAttribute (classes : List String) : String :=
  "class=\"" ++ String.intercalate " " classes ++ "\""

/-- The edit that gives a cell its missing classes. -/
def edit? (signatures : List CellSignature) (cell : StartTag) : Option Edit :=
  if cell.declarations = [] then none
  else
    match missing signatures cell with
    | [] => none
    | classes =>
      match cell.attribute? "class" with
      | some old =>
        some (Edit.replace old.span (classAttribute (cell.classes ++ classes)))
      | none => some (Edit.insert cell.attributesEnd (" " ++ classAttribute classes))

/-- The rule for a list of signatures. -/
def rule (signatures : List CellSignature) : Rule where
  name := "cell-classes"
  edits doc := (doc.startTags "td").filterMap fun (_, cell) => edit? signatures cell

end CellClasses

end MailTemplate
