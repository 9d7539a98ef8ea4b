import MailTemplate.Settings.Basic
import MailTemplate.Toml.Value

/-!
# Settings as configuration values

The table that settings are, with every key in its place.

## Main definitions

* `Settings.encode` — the table of some settings.
-/

namespace MailTemplate

namespace Settings

open Toml (Value)

/-- A table of some entries. -/
def table (entries : List (String × Value)) : Value := .table (Entries.ofList entries)

/-- An array of texts. -/
def texts (items : List String) : Value := .array (items.map .string)

/-- The places as a table. -/
def encodePaths (s : PathSettings) : Value :=
  table [("source_root", .string s.sourceRoot), ("output", .string s.output),
    ("exports", .string s.exports), ("components", .string s.components),
    ("include", texts s.includes), ("exclude", texts s.excludes),
    ("ignored_dirs", texts s.ignoredDirectories)]

/-- A cell signature as a table. -/
def encodeSignature (s : CellSignature) : Value :=
  table [("class", .string s.className),
    ("styles", table (s.styles.map fun (property, v) => (property, .string v)))]

/-- The Outlook export as a table. -/
def encodeOutlook (s : OutlookSettings) : Value :=
  table [("web_fonts", texts s.webFonts), ("fallback_fonts", .string s.fallbackFonts),
    ("vml_width", .string s.backgroundWidth), ("column_classes", texts s.columnClasses),
    ("cell_classes", .array (s.cellClasses.map encodeSignature))]

/-- The archives as a table. -/
def encodeArchive (s : ArchiveSettings) : Value :=
  table [("compression", .integer s.compression), ("source_files", texts s.sourceFiles),
    ("extra_files", texts s.extraFiles)]

/-- Parallel compilation as a table, in which a number that is not set has no entry. -/
def encodeProcessing (s : ProcessingSettings) : Value :=
  table (match s.maxProcesses with
    | none => []
    | some n => [("max_processes", .integer n)])

/-- The entries of some settings. -/
def encode (s : Settings) : List (String × Value) :=
  Entries.ofList
    [("project_name", .string s.projectName), ("paths", encodePaths s.paths),
      ("compiler", table [("command", .string s.compiler.command),
        ("args", texts s.compiler.arguments)]),
      ("html", table [("title", .string s.html.title)]),
      ("outlook", encodeOutlook s.outlook), ("archive", encodeArchive s.archive),
      ("processing", encodeProcessing s.processing)]

end Settings

end MailTemplate
