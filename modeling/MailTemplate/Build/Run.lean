import MailTemplate.File.Path

/-!
# The result of a build

A build compiles every template of a project.  A template that fails does not stop it.

## Main definitions

* `Outcome` — a compiled document, or why there is none.
* `CompiledDocument` — what became of one template.
* `BuildRun` — what became of all of them.

## Main results

* `BuildRun.succeeded_add_failed` — every template either succeeded or failed.
-/

namespace MailTemplate

/-- What became of a template. -/
inductive Outcome where
  /-- It was compiled to a document. -/
  | compiled (html : String)
  /-- It was not, for a reason. -/
  | failed (error : String)
  deriving DecidableEq, Repr

/-- A template and what became of it. -/
structure CompiledDocument where
  /-- The template, relative to the project root. -/
  source : Path
  /-- The place of its document, relative to the project root. -/
  output : Path
  /-- What the compiler warned of. -/
  warnings : List String
  /-- What became of it. -/
  outcome : Outcome
  deriving DecidableEq, Repr

namespace CompiledDocument

/-- The document, if there is one. -/
def html? (d : CompiledDocument) : Option String :=
  match d.outcome with
  | .compiled html => some html
  | .failed _ => none

/-- The reason for which there is none. -/
def error? (d : CompiledDocument) : Option String :=
  match d.outcome with
  | .compiled _ => none
  | .failed error => some error

/-- Whether there is a document. -/
def isSuccess (d : CompiledDocument) : Bool := d.html?.isSome

end CompiledDocument

/-- The result of a build. -/
structure BuildRun where
  /-- The templates in the order of discovery. -/
  documents : List CompiledDocument
  /-- How many milliseconds it took. -/
  elapsed : Nat
  deriving DecidableEq, Repr

namespace BuildRun

/-- How many templates there were. -/
def total (run : BuildRun) : Nat := run.documents.length

/-- How many of them succeeded. -/
def succeeded (run : BuildRun) : Nat := run.documents.countP CompiledDocument.isSuccess

/-- How many of them failed. -/
def failed (run : BuildRun) : Nat := run.total - run.succeeded

/-- A run in a few words. -/
def summary (run : BuildRun) : String :=
  toString run.succeeded ++ "/" ++ toString run.total ++ " succeeded"

theorem succeeded_add_failed (run : BuildRun) : run.succeeded + run.failed = run.total :=
  Nat.add_sub_of_le List.countP_le_length

end BuildRun

end MailTemplate
