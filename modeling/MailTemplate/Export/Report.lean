import MailTemplate.Client.Basic
import MailTemplate.File.Path

/-!
# The result of an export

An export adapts every compiled document for one client.  A document that fails does not stop it.

## Main definitions

* `ExportedDocument` — what became of one document.
* `ExportReport` — what became of all of them.
-/

namespace MailTemplate

/-- A compiled document and what was written for it. -/
structure ExportedDocument where
  /-- The document, relative to the project root. -/
  source : Path
  /-- The names of the files written for it. -/
  files : List String
  /-- The rules that changed it. -/
  applied : List String
  /-- Why it was not exported. -/
  error : Option String
  deriving DecidableEq, Repr

/-- The result of an export. -/
structure ExportReport where
  /-- The client. -/
  client : Client
  /-- Where the files are. -/
  directory : Path
  /-- The documents in order. -/
  documents : List ExportedDocument
  /-- The names of files that belong to no document. -/
  extras : List String
  deriving DecidableEq, Repr

namespace ExportReport

/-- How many documents there were. -/
def total (report : ExportReport) : Nat := report.documents.length

/-- How many of them were exported. -/
def succeeded (report : ExportReport) : Nat := report.documents.countP (·.error.isNone)

/-- How many files were written. -/
def filesWritten (report : ExportReport) : Nat :=
  (report.documents.map (·.files.length)).foldl (· + ·) 0 + report.extras.length

end ExportReport

end MailTemplate
