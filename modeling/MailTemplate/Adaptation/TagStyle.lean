import MailTemplate.Css.Declaration
import MailTemplate.Markup.Token

/-!
# The style attribute of a tag

Several rules look at the declarations in the `style` attribute of a tag.

## Main definitions

* `StartTag.declarations` — the declarations of a tag, none without the attribute.
* `StartTag.style?` — the attribute's value and where it stands.
-/

namespace MailTemplate

namespace StartTag

/-- The declarations in the style of a tag. -/
def declarations (tag : StartTag) : List Css.Declaration :=
  match tag.value? "style" with
  | some style => Css.declarations style
  | none => []

/-- The style of a tag with its place in the source. -/
def style? (tag : StartTag) : Option (String × Span) := do
  let styling ← tag.attribute? "style"
  let value ← styling.value
  let span ← styling.valueSpan
  return (value, span)

/-- The value of the declaration that wins for a property. -/
def declared? (tag : StartTag) (property : String) : Option Css.Declaration :=
  Css.lastOf? tag.declarations property

end StartTag

end MailTemplate
