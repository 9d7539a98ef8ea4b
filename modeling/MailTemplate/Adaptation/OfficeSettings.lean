import MailTemplate.Adaptation.HeadMeta

/-!
# The rule `office-settings`

Outlook reads a block of settings in a conditional comment.  It is inserted behind the `<head>` tag
of a document that does not mention such settings, after a declaration of the character set if the
document has none.

## Main definitions

* `OfficeSettings.block` — what is inserted.
* `OfficeSettings.rule` — the rule.
-/

namespace MailTemplate

namespace OfficeSettings

/-- The text by which settings are recognised. -/
def marker : String := "o:OfficeDocumentSettings"

/-- The settings in a conditional comment. -/
def block : String :=
  "\n<!--[if gte mso 9]>\n<xml>\n  <o:OfficeDocumentSettings>\n    <o:AllowPNG/>\n" ++
    "    <o:PixelsPerInch>96</o:PixelsPerInch>\n  </o:OfficeDocumentSettings>\n</xml>\n" ++
    "<![endif]-->"

/-- The rule. -/
def rule : Rule where
  name := "office-settings"
  edits doc :=
    if Text.stringContains doc.source marker then []
    else
      match doc.firstStart? "head" with
      | none => []
      | some head =>
        let charset := [MetaTag.charset].filter (·.isMissing doc)
        (charset.map fun tag => Edit.insert head.span.stop ("\n" ++ tag.markup)) ++
          [Edit.insert head.span.stop block]

end OfficeSettings

end MailTemplate
