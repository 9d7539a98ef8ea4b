import MailTemplate.File.Path

/-!
# The result of archiving

Archives come in a fixed number of kinds.  A manifest names those that were written.

## Main definitions

* `ArchiveKind` — the kinds.
* `ArchiveName` — how archives and their manifest are called.
* `Manifest`, `BundleReport` — what was written.
-/

namespace MailTemplate

/-- A kind of archive. -/
inductive ArchiveKind where
  /-- Compiled documents. -/
  | html
  /-- The export for clients that read plain HTML. -/
  | exportHtml
  /-- The export for Outlook. -/
  | outlook
  /-- Templates and fragments. -/
  | source
  /-- Everything. -/
  | complete
  deriving DecidableEq, Repr

namespace ArchiveKind

/-- All kinds, in the order in which they are written. -/
def all : List ArchiveKind := [html, exportHtml, outlook, source, complete]

/-- What a kind is called in a manifest. -/
def label : ArchiveKind → String
  | html => "HTML"
  | exportHtml => "Export HTML"
  | outlook => "Outlook"
  | source => "Source"
  | complete => "Complete"

/-- What a kind is called in the name of a file. -/
def suffix : ArchiveKind → String
  | html => "html"
  | exportHtml => "export-html"
  | outlook => "outlook"
  | source => "source"
  | complete => "complete"

end ArchiveKind

namespace ArchiveName

/-- What the names of all files of one run begin with. -/
def stem (project date : String) : String := project ++ "-" ++ date

/-- The name of an archive. -/
def archive (stem : String) (kind : ArchiveKind) : String := stem ++ "-" ++ kind.suffix ++ ".tar.gz"

/-- The name of a manifest. -/
def manifest (stem : String) : String := stem ++ "-manifest.json"

end ArchiveName

/-- An archive in a manifest. -/
structure ManifestEntry where
  /-- What its kind is called. -/
  label : String
  /-- The name of its file. -/
  fileName : String
  /-- The number of its bytes. -/
  size : Nat
  /-- The digest of its bytes. -/
  digest : String
  deriving DecidableEq, Repr

/-- The archives of one run. -/
structure Manifest where
  /-- When they were written. -/
  created : String
  /-- The archives in order. -/
  archives : List ManifestEntry
  deriving DecidableEq, Repr

/-- The result of archiving. -/
structure BundleReport where
  /-- Where the archives are. -/
  directory : Path
  /-- Where the manifest is. -/
  manifestPath : Path
  /-- The manifest. -/
  manifest : Manifest
  /-- The kinds for which there was nothing to archive. -/
  skipped : List ArchiveKind
  deriving DecidableEq, Repr

end MailTemplate
