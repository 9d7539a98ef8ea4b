import MailTemplate.File.Path

/-!
# Compilers

A compiler turns the source of a template into a document, with warnings.  It is told where the
template is and which directory its inclusions start from.

## Main definitions

* `Compiler` — a compiler.
* `Compilation` — how a call of it ends.
-/

namespace MailTemplate

/-- How a call of a compiler fails. -/
inductive CompilerFault where
  /-- The program of the compiler could not be run. -/
  | spawn (command reason : String)
  /-- Talking to the program failed. -/
  | io (reason : String)
  /-- The program reported a failure. -/
  | failed (status message : String)
  /-- The program wrote something that is no text. -/
  | invalidOutput
  deriving DecidableEq, Repr

/-- The text of a failure. -/
def CompilerFault.message : CompilerFault → String
  | spawn command reason => "failed to run '" ++ command ++ "': " ++ reason
  | io reason => "IO error: " ++ reason
  | failed status message => "compiler exited with " ++ status ++ ": " ++ message
  | invalidOutput => "compiler produced non-UTF-8 output"

/-- What a compiler produces. -/
structure CompilerOutput where
  /-- The document. -/
  html : String
  /-- The warnings. -/
  warnings : List String
  deriving DecidableEq, Repr

/-- How a call of a compiler ends. -/
inductive Compilation where
  /-- With a document. -/
  | compiled (output : CompilerOutput)
  /-- With a failure. -/
  | failed (fault : CompilerFault)
  /-- With a crash of the compiler itself. -/
  | crashed
  deriving DecidableEq, Repr

/-- A compiler. -/
abbrev Compiler := (source : String) → (file base : Path) → Compilation

end MailTemplate
