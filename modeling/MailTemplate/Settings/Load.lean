import MailTemplate.File.Disk
import MailTemplate.Settings.File

/-!
# Loading settings

The settings of a project are in a file at its root.  A project without the file has the stock
settings.

## Main definitions

* `Settings.load` — the settings of a project.
-/

namespace MailTemplate

namespace Settings

/-- The name of the configuration file. -/
def fileName : String := "mailpress.toml"

/-- How loading fails. -/
inductive LoadFault where
  /-- The file cannot be read. -/
  | disk (fault : Disk.Fault)
  /-- What it says is wrong. -/
  | text (fault : TextFault)
  deriving DecidableEq, Repr

/-- The text of a failure. -/
def LoadFault.message : LoadFault → String
  | disk fault => "IO error: " ++ fault.message
  | text fault => fault.message

/-- The settings of the project at a root. -/
def load (disk : Disk) (root : Path) : Except LoadFault Settings :=
  let path := root.child fileName
  if disk.contains path then
    match disk.readText path with
    | .error fault => .error (.disk fault)
    | .ok text => (ofText text).mapError .text
  else (ofTable []).mapError .text

end Settings

end MailTemplate
