import MailTemplate.File.Disk
import MailTemplate.Project.Layout
import MailTemplate.Project.Selection

/-!
# Discovering templates

The templates of a project are the selected files below its root, in the order of a walk through its
directories.  Hidden and ignored directories, the output and the exports are not entered.

## Main definitions

* `discover` — the templates of a project.
* `ScanFault` — how discovery fails.
-/

namespace MailTemplate

/-- How discovery fails. -/
inductive ScanFault where
  /-- There is no project at the root. -/
  | missingRoot (root : Path)
  /-- A glob is no pattern. -/
  | badGlob (bad : BadGlob)
  deriving DecidableEq, Repr

/-- The text of a failure. -/
def ScanFault.message : ScanFault → String
  | missingRoot root => "Project root not found: " ++ root.text
  | badGlob bad => bad.message

/-- Whether discovery enters a directory below the root. -/
def Settings.enters (settings : Settings) (layout : Layout) (path : Path) (name : String) : Bool :=
  name.toList.head? != some '.' && !settings.paths.ignoredDirectories.contains name &&
    !([layout.output, layout.exports].any path.alike)

/-- The templates of a project, relative to its root. -/
def discover (disk : Disk) (root : Path) (settings : Settings) : Except ScanFault (List Path) :=
  if disk.isDirectory root then do
    let selection ← (Selection.read settings.paths.includes settings.paths.excludes).mapError
      .badGlob
    let layout := Layout.ofSettings root settings.paths
    let found := (disk.walk root (settings.enters layout)).filter fun (_, node) => node.isFile
    return ((found.map fun (path, _) => path.relativeTo root).filter selection.accepts).map Path.mk
  else .error (.missingRoot root)

end MailTemplate
