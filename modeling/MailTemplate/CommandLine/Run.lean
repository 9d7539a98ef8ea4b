import MailTemplate.Archive.Bundle
import MailTemplate.CommandLine.Request
import MailTemplate.Compiler.Program
import MailTemplate.Console.Report
import MailTemplate.Export.Basic
import MailTemplate.Settings.Load
import MailTemplate.Watch.Session

/-!
# Running commands

A command works on a disk and prints lines.  It ends with an exit code: one if it could not do its
work, two if the command line was not understood or a strict build had a failed template.  What was
printed before a failure remains.

## Main definitions

* `CommandLine.Surroundings` — what a command needs beside a disk.
* `CommandLine.run` — a run of the program.
-/

namespace MailTemplate

namespace CommandLine

/-- What a command needs beside a disk. -/
structure Surroundings where
  /-- The point in time. -/
  now : Instant
  /-- How many milliseconds a build takes. -/
  elapsed : Nat
  /-- Where boundaries come from. -/
  boundaries : BoundarySource
  /-- The programs that can be run. -/
  programs : Disk → Invocation → ProgramEnd

/-- How a run of the program ends. -/
structure Ending where
  /-- The exit code. -/
  code : Nat
  /-- What was printed. -/
  output : String
  deriving DecidableEq, Repr

/-- A command at work: it changes a disk, prints, and can end with an exit code. -/
abbrev CommandM := ExceptT Nat (StateM (Disk × String))

/-- Prints a text. -/
def print (text : String) : CommandM Unit := modify fun (disk, printed) => (disk, printed ++ text)

/-- Prints lines. -/
def printLines (lines : List String) : CommandM Unit :=
  print (String.join (lines.map (· ++ "\n")))

/-- An operation on the disk as a part of a command. -/
def onDisk (x : StateM Disk α) : CommandM α :=
  ExceptT.mk fun (disk, printed) =>
    let (a, disk) := x.run disk
    pure (.ok a, (disk, printed))

/-- A result, or the end of the command if it is a failure. -/
def orEnd (x : Except ε α) : CommandM α :=
  match x with
  | .ok a => pure a
  | .error _ => throw 1

/-- The settings of a project. -/
def load (root : Path) : CommandM Settings := do
  orEnd (Settings.load (← get).1 root)

/-- Builds a project and prints the report. -/
def build (surroundings : Surroundings) (root : Path) (settings : Settings) :
    CommandM BuildRun := do
  let compiler := Compiler.ofProgram settings.compiler (surroundings.programs (← get).1)
  match ← onDisk (Build.run root settings compiler surroundings.elapsed) with
  | .done run =>
    printLines (Console.build run)
    return run
  | _ => throw 1

/-- Exports a project for clients and prints the reports. -/
def exportFor (surroundings : Surroundings) (root : Path) (settings : Settings)
    (clients : List Client) : CommandM Unit := do
  for client in clients do
    let (report, _) ← onDisk
      (Export.run client (.ofSettings root settings.paths) settings surroundings.boundaries)
    printLines (Console.exported (← orEnd report))

/-- Writes archives and prints the report. -/
def archive (surroundings : Surroundings) (root : Path) (settings : Settings) : CommandM Unit := do
  let result ← onDisk
    (Bundle.run (.ofSettings root settings.paths) settings surroundings.now).run
  printLines (Console.archived (← orEnd result).1)

/-- Builds a project once and prints the events, as watching does before the first change. -/
def watch (surroundings : Surroundings) (root : Path) (settings : Settings) : CommandM Unit := do
  if WatchSession.canWatch (← get).1 root then
    let compiler := Compiler.ofProgram settings.compiler (surroundings.programs (← get).1)
    let session : WatchSession := { root, settings }
    let (session, result) ← onDisk (session.initialBuild compiler surroundings.elapsed)
    printLines (session.coordinator.events.flatMap (Console.watch root))
    match result with
    | .done _ => return
    | _ => throw 1
  else throw 1

/-- Does what is asked for. -/
def serve (surroundings : Surroundings) (request : Request) : CommandM Unit := do
  let root := request.root
  match request.command with
  | .build isStrict =>
    let settings ← load root
    printLines ["==> Compiling " ++ root.text]
    let run ← build surroundings root settings
    if isStrict && 0 < run.failed then throw 2
  | .check =>
    let settings ← load root
    printLines ["==> Checking " ++ root.text]
    let sources ← orEnd (discover (← get).1 root settings)
    printLines (Console.check sources settings.paths)
  | .exportFor clients => exportFor surroundings root (← load root) clients
  | .archive => archive surroundings root (← load root)
  | .all =>
    let settings ← load root
    printLines ["==> Stage 1: Compiling " ++ root.text]
    let run ← build surroundings root settings
    printLines ["==> Stage 2: Exporting"]
    exportFor surroundings root settings Client.all
    printLines ["==> Stage 3: Archiving"]
    archive surroundings root settings
    printLines ["==> Pipeline complete: " ++ run.summary]
  | .watch => watch surroundings root (← load root)
  | .stockSettings => print Settings.stockFile

/-- The name and the version of the program. -/
def versionText : String := "mailpress 0.4.0"

/-- How the program is called. -/
def helpText : String :=
  "Usage: mailpress [--root <ROOT>] [-v] <" ++
    String.intercalate "|" (commandNames.map Prod.fst) ++ ">"

/-- Runs the program with arguments. -/
def run (surroundings : Surroundings) (arguments : List String) : StateM Disk Ending := do
  match read arguments with
  | .invalid => return ⟨2, ""⟩
  | .version => return ⟨0, versionText ++ "\n"⟩
  | .help => return ⟨0, helpText ++ "\n"⟩
  | .request request =>
    let (result, (disk, printed)) := (serve surroundings request).run.run (← get, "")
    set disk
    match result with
    | .ok () => return ⟨0, printed⟩
    | .error code => return ⟨code, printed⟩

end CommandLine

end MailTemplate
