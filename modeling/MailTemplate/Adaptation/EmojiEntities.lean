import MailTemplate.Adaptation.Rule

/-!
# The rule `emoji-entities`

A few emoji are written as numeric character references, wherever in the source they stand.

## Main definitions

* `EmojiEntities.table` — the emoji with their references.
* `EmojiEntities.rule` — the rule.
-/

namespace MailTemplate

namespace EmojiEntities

/-- The emoji and their references. -/
def table : List (Char × String) :=
  [('👾', "&#x1F47E;"), ('👉', "&#x1F449;"), ('📧', "&#x1F4E7;"),
    ('🎮', "&#x1F3AE;")]

/-- The edits for every occurrence of a character in a text that begins at an offset. -/
def editsFrom (emoji : Char) (reference : String) (offset : Nat) : List Char → List Edit
  | [] => []
  | c :: cs =>
    let rest := editsFrom emoji reference (offset + c.utf8Size) cs
    if c = emoji then Edit.replace ⟨offset, offset + c.utf8Size⟩ reference :: rest else rest

/-- The rule. -/
def rule : Rule where
  name := "emoji-entities"
  edits doc := table.flatMap fun (emoji, reference) => editsFrom emoji reference 0 doc.source.toList

end EmojiEntities

end MailTemplate
