import MailTemplate.Compiler.Basic
import MailTemplate.Settings.Basic
import MailTemplate.Text.Utf8

/-!
# Programs as compilers

The configured program reads a template from its input and writes the document to its output; what it
writes to its error output are warnings, or the message if it fails.

## Main definitions

* `Invocation`, `ProgramEnd` — a run of a program and how it ends.
* `Compiler.ofProgram` — the compiler that runs the configured program.
-/

namespace MailTemplate

/-- A run of a program. -/
structure Invocation where
  /-- The program. -/
  command : String
  /-- Its arguments. -/
  arguments : List String
  /-- The directory it runs in. -/
  directory : Path
  /-- What it can read. -/
  input : Bytes

/-- How a program exits. -/
inductive ExitStatus where
  /-- With a code. -/
  | code (n : Nat)
  /-- By a signal. -/
  | signal (n : Nat)
  deriving DecidableEq, Repr

/-- The name of a signal. -/
def signalName? (n : Nat) : Option String :=
  ["SIGHUP", "SIGINT", "SIGQUIT", "SIGILL", "SIGTRAP", "SIGABRT", "SIGBUS", "SIGFPE", "SIGKILL",
    "SIGUSR1", "SIGSEGV", "SIGUSR2", "SIGPIPE", "SIGALRM", "SIGTERM"][n - 1]?

/-- The text of an exit. -/
def ExitStatus.text : ExitStatus → String
  | code n => "exit status: " ++ toString n
  | signal n =>
    match signalName? n with
    | some name => "signal: " ++ toString n ++ " (" ++ name ++ ")"
    | none => "signal: " ++ toString n

/-- How a run of a program ends. -/
inductive ProgramEnd where
  /-- It did not start. -/
  | notStarted (reason : String)
  /-- It exited and had written some bytes. -/
  | exited (status : ExitStatus) (output errors : Bytes)
  deriving DecidableEq, Repr

namespace Compiler

/-- The warnings in what a program wrote to its error output. -/
def warnings (errors : List Char) : List String :=
  (((Text.lines errors).map Text.trim).filter (· ≠ [])).map String.ofList

/-- The run of the configured program for a template. -/
def invocation (settings : CompilerSettings) (source : String) (file base : Path) : Invocation where
  command := settings.command
  arguments := settings.arguments ++ ["-i", "-s", "--config.filePath", file.text]
  directory := base
  input := Bytes.ofString source

/-- The compiler that runs the configured program. -/
def ofProgram (settings : CompilerSettings) (run : Invocation → ProgramEnd) : Compiler :=
  fun source file base =>
    match run (invocation settings source file base) with
    | .notStarted reason => .failed (.spawn settings.command reason)
    | .exited status output errors =>
      let errors := Bytes.decodeLossy errors
      if status ≠ .code 0 then
        .failed (.failed status.text (String.ofList (Text.trim errors)))
      else
        match Bytes.toString? output with
        | none => .failed .invalidOutput
        | some html => .compiled ⟨html, warnings errors⟩

end Compiler

end MailTemplate
