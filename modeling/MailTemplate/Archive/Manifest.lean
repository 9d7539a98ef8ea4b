import MailTemplate.Archive.Report
import MailTemplate.Text.JsonString

/-!
# The text of a manifest

A manifest is written as JSON, one field a line, every level two blanks further in.

## Main definitions

* `Manifest.text` — the text.
-/

namespace MailTemplate

/-- A field with a value that is written already. -/
def ManifestEntry.field (name value : String) : String := JsonString.quote name ++ ": " ++ value

/-- The lines of an archive. -/
def ManifestEntry.lines (e : ManifestEntry) : List String :=
  ["    \x7b",
    "      " ++ field "type" (JsonString.quote e.label) ++ ",",
    "      " ++ field "filename" (JsonString.quote e.fileName) ++ ",",
    "      " ++ field "size" (toString e.size) ++ ",",
    "      " ++ field "sha256" (JsonString.quote e.digest),
    "    \x7d"]

/-- The lines of archives, with a comma behind each of them but the last. -/
def Manifest.archiveLines : List ManifestEntry → List String
  | [] => []
  | [e] => e.lines
  | e :: rest => e.lines.dropLast ++ ["    \x7d,"] ++ archiveLines rest

/-- The text of a manifest. -/
def Manifest.text (m : Manifest) : String :=
  let archives := if m.archives = [] then ["  " ++ ManifestEntry.field "archives" "[]"]
    else ["  " ++ ManifestEntry.field "archives" "["] ++ archiveLines m.archives ++ ["  ]"]
  String.intercalate "\n"
    (["\x7b", "  " ++ ManifestEntry.field "created" (JsonString.quote m.created) ++ ","] ++
      archives ++ ["\x7d"])

end MailTemplate
