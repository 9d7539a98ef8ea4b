import MailTemplate.Glob.Pattern
import MailTemplate.Settings.Basic
import MailTemplate.Text.Basic

/-!
# Valid settings

Settings are valid if the project's name can be part of a file name, the level of compression
exists, something is selected, a compiler is named, all globs are patterns, and every cell signature
has a class and a style.  The first test that fails is reported.

## Main definitions

* `Settings.Invalid` — what can be wrong.
* `Settings.validate` — the tests in order.
-/

namespace MailTemplate

namespace Settings

/-- What makes settings invalid. -/
inductive Invalid where
  /-- The name is blank or holds a separator. -/
  | projectName
  /-- The level of compression is above nine. -/
  | compression
  /-- No glob selects templates. -/
  | includes
  /-- The compiler has a blank name. -/
  | command
  /-- A glob is no pattern. -/
  | glob (pattern : String) (fault : Glob.Fault)
  /-- A signature lacks a class or styles. -/
  | cellClasses
  deriving DecidableEq, Repr

/-- The text of a test that fails. -/
def Invalid.message : Invalid → String
  | projectName => "project_name must be a non-empty file name"
  | compression => "archive.compression must be 0-9"
  | includes => "paths.include must not be empty"
  | command => "compiler.command must not be empty"
  | glob pattern fault => "invalid glob '" ++ pattern ++ "': " ++ fault.message
  | cellClasses => "outlook.cell_classes entries need a class and at least one style"

/-- Whether a text is blank. -/
def isBlankString (s : String) : Bool := Text.isBlankText s.toList

/-- Whether a name can be part of a file name. -/
def isFileName (s : String) : Bool :=
  !isBlankString s && !s.toList.any fun c => c == '/' || c == '\\'

/-- The first text that is no pattern, with its fault. -/
def faultyGlob? (patterns : List String) : Option (String × Glob.Fault) :=
  patterns.findSome? fun pattern =>
    match Glob.read pattern with
    | .ok _ => none
    | .error fault => some (pattern, fault)

/-- All globs of the settings, in the order in which they are tested. -/
def globs (s : Settings) : List String :=
  s.paths.includes ++ s.paths.excludes ++ s.archive.sourceFiles ++ s.archive.extraFiles

/-- Whether a signature has a class and a style. -/
def isSignature (signature : CellSignature) : Bool :=
  !isBlankString signature.className && signature.styles ≠ []

/-- The first test that fails. -/
def validate (s : Settings) : Except Invalid Unit :=
  if !isFileName s.projectName then .error .projectName
  else if 9 < s.archive.compression then .error .compression
  else if s.paths.includes = [] then .error .includes
  else if isBlankString s.compiler.command then .error .command
  else
    match faultyGlob? s.globs with
    | some (pattern, fault) => .error (.glob pattern fault)
    | none => if s.outlook.cellClasses.all isSignature then .ok () else .error .cellClasses

/-- Whether settings are valid can be evaluated. -/
theorem validate_of_toBool {s : Settings} (h : s.validate.toBool = true) : s.validate = .ok () := by
  cases hs : s.validate with
  | ok => rfl
  | error invalid =>
    rw [hs] at h
    exact Bool.noConfusion h

end Settings

end MailTemplate
