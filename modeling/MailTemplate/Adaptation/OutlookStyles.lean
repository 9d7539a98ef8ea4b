import MailTemplate.Adaptation.Rule

/-!
# The rule `outlook-styles`

A style element with corrections for Outlook is inserted before the first `</head>`, unless the
document has one.

## Main definitions

* `OutlookStyles.block` — the style element for some column classes.
* `OutlookStyles.rule` — the rule.
-/

namespace MailTemplate

namespace OutlookStyles

/-- The identifier of the style element. -/
def identifier : String := "outlook-fixes"

/-- The corrections that every document receives. -/
def general : String :=
  "\n<style type=\"text/css\" id=\"outlook-fixes\">\n" ++
    ".mso-hide \x7b mso-hide: all !important; \x7d\n" ++
    "table \x7b border-collapse: collapse; \x7d\n" ++
    ".outlook-group-fix \x7b width: 100% !important; \x7d\n" ++
    "@media screen and (-webkit-min-device-pixel-ratio: 0) \x7b\n" ++
    "  .outlook-group-fix \x7b width: auto !important; \x7d\n" ++
    "\x7d\n"

/-- The rule that stretches the tables of columns. -/
def columns (classes : List String) : String :=
  if classes = [] then ""
  else
    String.intercalate ",\n" (classes.map fun c => "." ++ c ++ " table[role=\"presentation\"]") ++
      " \x7b\n  height: 100% !important;\n\x7d\n"

/-- The whole style element. -/
def block (classes : List String) : String := general ++ columns classes ++ "</style>\n"

/-- The rule for some column classes. -/
def rule (classes : List String) : Rule where
  name := "outlook-styles"
  edits doc :=
    if (doc.startTags "style").any fun (_, tag) => tag.value? "id" == some identifier then []
    else
      match doc.firstEnd? "head" with
      | some span => [Edit.insert span.start (block classes)]
      | none => []

end OutlookStyles

end MailTemplate
