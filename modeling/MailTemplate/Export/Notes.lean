import MailTemplate.Client.Profile
import MailTemplate.Export.Report
import MailTemplate.Project.Layout

/-!
# Import notes

The export for Outlook comes with notes that tell how its files are imported.

## Main definitions

* `ImportNotes.text` — the notes for an export.
-/

namespace MailTemplate

namespace ImportNotes

/-- The lines that list the files of a document. -/
def listing (profile : Profile) (document : ExportedDocument) : List String :=
  profile.containers.map fun container =>
    "- " ++ container.fileName (baseName document.source) profile.client ++ " (" ++
      container.description ++ ")"

/-- The lines of the notes. -/
def lines (profile : Profile) (report : ExportReport) : List String :=
  let exported := report.documents.filter (·.error.isNone)
  ["# Outlook Template Import Instructions",
    "",
    "## Outlook for Windows",
    "",
    "Double-click \x60" ++ Container.single.fileName "<name>" .outlook ++
      "\x60 to open it as a new message, then save it with",
    "File > Save As > Outlook Template.",
    "",
    "## Outlook for Mac",
    "",
    "Double-click \x60" ++ Container.nested.fileName "<name>" .outlook ++
      "\x60, or use File > Import and pick",
    "\"Outlook template file (.emltpl)\".",
    "",
    "## Any Outlook (manual)",
    "",
    "1. Open the matching \x60*-outlook.html\x60 file and copy its source.",
    "2. Create a new message in Outlook and switch the editor to HTML.",
    "3. Paste, then save as a template.",
    "",
    "## Files in this directory",
    ""] ++
  exported.flatMap (listing profile) ++
  ["",
    "## Rewrite rules applied",
    "",
    String.intercalate ", " profile.ruleNames,
    "",
    "Test in Outlook 2016/2019/365 for Windows, Outlook for Mac and Outlook.com",
    "before sending."]

/-- The notes for an export. -/
def text (profile : Profile) (report : ExportReport) : String :=
  String.join ((lines profile report).map (· ++ "\n"))

end ImportNotes

end MailTemplate
