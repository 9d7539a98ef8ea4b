import MailTemplate.Archive.Report
import MailTemplate.Console.Figures
import MailTemplate.Export.Report
import MailTemplate.Project.Layout
import MailTemplate.Watch.Event

/-!
# Reports on the console

Every stage ends with a report.  An entry is a numbered line, followed by the lines of its details.

## Main definitions

* `Console.check`, `Console.build`, `Console.exported`, `Console.archived` — the reports.
* `Console.watch` — the lines for one event.
-/

namespace MailTemplate

namespace Console

/-- An arrow with blanks around it. -/
def arrow : String := " → "

/-- Entries with the numbers that their places give them. -/
def numbered (entries : List α) (lines : String → α → List String) : List String :=
  entries.zipIdx.flatMap fun (entry, i) => lines (index i) entry

/-- The templates of a project with the places of their documents. -/
def check (sources : List Path) (settings : PathSettings) : List String :=
  let entry (number : String) (source : Path) : List String :=
    [number ++ " " ++ source.shown ++ arrow ++ (settings.outputOf source).shown]
  ["Templates"] ++ numbered sources entry ++
    ["", toString sources.length ++ " template(s)"]

/-- The lines for a compiled document. -/
def compiledEntry (number : String) (d : CompiledDocument) : List String :=
  let head := number ++ " " ++ d.source.shown
  let warnings := d.warnings.map fun w => detail ("Warning: " ++ w)
  match d.outcome with
  | .compiled _ => [head ++ arrow ++ d.output.shown] ++ warnings
  | .failed error => [head] ++ warnings ++ [detail ("Failed: " ++ error)]

/-- The report of a build. -/
def build (run : BuildRun) : List String :=
  let entries := numbered run.documents compiledEntry
  entries ++ (if entries = [] then [] else [""]) ++
    ["Compiled " ++ run.summary ++ " in " ++ seconds run.elapsed]

/-- The lines for an exported document. -/
def exportedEntry (number : String) (d : ExportedDocument) : List String :=
  let details := match d.error with
    | some error => ["Failed: " ++ error]
    | none =>
      d.files ++
        (if d.applied = [] then [] else ["Rules: " ++ String.intercalate ", " d.applied])
  (number ++ " " ++ d.source.shown) :: details.map detail

/-- The report of an export. -/
def exported (report : ExportReport) : List String :=
  [report.client.name ++ arrow ++ report.directory.shown] ++
    numbered report.documents exportedEntry ++ report.extras.map detail ++ [""] ++
    [if report.total = 0 then "Nothing to export; run a build first"
      else "Exported " ++ toString report.succeeded ++ "/" ++ toString report.total ++
        " document(s), " ++ toString report.filesWritten ++ " file(s)"]

/-- The lines for an archive. -/
def archivedEntry (number : String) (e : ManifestEntry) : List String :=
  [number ++ " " ++ e.label ++ " " ++ e.fileName ++ " (" ++ size e.size ++ ")",
    detail ("sha256: " ++ e.digest)]

/-- The report of archiving. -/
def archived (report : BundleReport) : List String :=
  ["Archives" ++ arrow ++ report.directory.shown] ++
    numbered report.manifest.archives archivedEntry ++
    report.skipped.map (fun kind => detail ("Skipped: " ++ kind.label ++ " (nothing to bundle)")) ++
    ["Manifest: " ++ report.manifestPath.shown]

/-- The lines for an event, with paths relative to a root. -/
def watch (root : Path) : WatchEvent → List String
  | .started none => ["==> Building"]
  | .started (some path) => ["==> Changed " ++ (path.strip root).shown ++ ", rebuilding"]
  | .finished run => build run ++ ["==> Waiting for changes"]
  | .failed error => ["==> Build failed: " ++ error]
  | .dropped path => [detail ("Ignored " ++ (path.strip root).shown ++ " (build in progress)")]
  | .removed path => ["==> Removed " ++ (path.strip root).shown ++ " (compiled output kept)"]
  | .watcherError error => ["==> Watcher error: " ++ error]

end Console

end MailTemplate
