import MailTemplate.Glob.Pattern
import MailTemplate.Settings.Basic

/-!
# Selecting templates

A file is a template if one of the globs that include accepts its path and none of the globs that
exclude does.

## Main definitions

* `Selection` — the globs.
* `Selection.accepts` — whether a path is a template's.
* `BadGlob` — a glob that is no pattern.

## Main results

* `Selection.accepts_iff` — exclusion wins over inclusion.
-/

namespace MailTemplate

/-- A glob that is no pattern. -/
structure BadGlob where
  /-- Its text. -/
  pattern : String
  /-- What is wrong with it. -/
  fault : Glob.Fault
  deriving DecidableEq, Repr

/-- The text of a bad glob. -/
def BadGlob.message (bad : BadGlob) : String :=
  "Invalid glob '" ++ bad.pattern ++ "': " ++ bad.fault.message

/-- The patterns that texts are; the first one that is none is an error. -/
def readGlobs (patterns : List String) : Except BadGlob (List Glob) :=
  patterns.mapM fun pattern =>
    match Glob.read pattern with
    | .ok glob => .ok glob
    | .error fault => .error ⟨pattern, fault⟩

/-- The globs that select templates. -/
structure Selection where
  /-- One of these must accept a path. -/
  included : List Glob
  /-- None of these may. -/
  excluded : List Glob
  deriving DecidableEq, Repr

namespace Selection

/-- The selection of two lists of globs. -/
def read (included excluded : List String) : Except BadGlob Selection := do
  return ⟨← readGlobs included, ← readGlobs excluded⟩

/-- Whether a path is a template's. -/
def accepts (selection : Selection) (path : String) : Bool :=
  selection.included.any (·.accepts true path) && !selection.excluded.any (·.accepts true path)

theorem accepts_iff {selection : Selection} {path : String} :
    selection.accepts path = true ↔
      (∃ glob ∈ selection.included, glob.accepts true path = true) ∧
        ∀ glob ∈ selection.excluded, glob.accepts true path = false := by
  simp [accepts]

end Selection

end MailTemplate
