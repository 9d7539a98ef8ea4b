import MailTemplate.Client.Basic
import MailTemplate.File.Path

/-!
# Reading a command line

A command line names a command, with options before and after it.  Some options are understood
everywhere, and one that is given behind the command counts more than before it.

## Main definitions

* `CommandLine.Command`, `CommandLine.Request` — what is asked for.
* `CommandLine.read` — the reading of arguments.
-/

namespace MailTemplate

namespace CommandLine

/-- A command. -/
inductive Command where
  /-- Compile all templates; a failed template can be made a failure of the whole. -/
  | build (isStrict : Bool)
  /-- List all templates. -/
  | check
  /-- Export compiled documents for clients. -/
  | exportFor (clients : List Client)
  /-- Write archives. -/
  | archive
  /-- Build, export and archive. -/
  | all
  /-- Build at every change. -/
  | watch
  /-- Print a configuration file. -/
  | stockSettings
  deriving DecidableEq, Repr

/-- What is asked for. -/
structure Request where
  /-- The project root. -/
  root : Path
  /-- The command. -/
  command : Command
  deriving DecidableEq, Repr

/-- What a command line comes to. -/
inductive Reading where
  /-- A request. -/
  | request (request : Request)
  /-- The version is asked for. -/
  | version
  /-- Help is asked for. -/
  | help
  /-- It cannot be understood. -/
  | invalid
  deriving DecidableEq, Repr

/-- The names of the commands, with the commands without options. -/
def commandNames : List (String × Command) :=
  [("build", .build false), ("check", .check), ("export", .exportFor Client.all),
    ("archive", .archive), ("all", .all), ("watch", .watch), ("gen-config", .stockSettings)]

/-- The clients that an option names. -/
def clients? (value : String) : Option (List Client) :=
  if value = "all" then some Client.all else (Client.ofName? value).map ([·])

/-! ## Options -/

/-- The options that were read. -/
structure Options where
  /-- The project root. -/
  root : Option String := none
  /-- Whether a failed template is a failure of the whole. -/
  isStrict : Bool := false
  /-- The clients to export for. -/
  clients : Option (List Client) := none
  deriving DecidableEq, Repr

/-- What an option leads to. -/
inductive Step where
  /-- More options. -/
  | next (options : Options)
  /-- The end of reading. -/
  | stop (reading : Reading)
  deriving DecidableEq, Repr

/-- A root that is given once and is not empty. -/
def Options.withRoot (options : Options) (value : String) : Step :=
  if options.root.isSome ∨ value = "" then .stop .invalid
  else .next { options with root := some value }

/-- Clients that are given once and behind the command that has clients. -/
def Options.withClients (options : Options) (command : Option Command) (value : String) : Step :=
  match command, options.clients, clients? value with
  | some (.exportFor _), none, some clients => .next { options with clients := some clients }
  | _, _, _ => .stop .invalid

/-- What letters behind a dash lead to. -/
def Options.withLetters (options : Options) (command : Option Command) : List Char → Step
  | [] => .next options
  | 'v' :: rest => options.withLetters command rest
  | 'h' :: _ => .stop .help
  | 'V' :: _ => .stop (if command = none then .version else .invalid)
  | _ => .stop .invalid

/-- A text without what stands before it, if that stands before it. -/
def valueOf? (name argument : String) : Option String :=
  if name.toList.isPrefixOf argument.toList then
    some (String.ofList (argument.toList.drop name.length))
  else none

/-- What an option in one argument leads to, before a command or behind it. -/
def Options.withArgument (options : Options) (command : Option Command) (argument : String) : Step :=
  match argument with
  | "--help" => .stop .help
  | "--version" => .stop (if command = none then .version else .invalid)
  | "--verbose" => .next options
  | "--strict" =>
    if command = some (.build false) ∧ options.isStrict = false then
      .next { options with isStrict := true }
    else .stop .invalid
  | _ =>
    match valueOf? "--root=" argument, valueOf? "--client=" argument, argument.toList with
    | some value, _, _ => options.withRoot value
    | _, some value, _ => options.withClients command value
    | _, _, '-' :: '-' :: _ => .stop .invalid
    | _, _, '-' :: c :: letters => options.withLetters command (c :: letters)
    | _, _, _ => .stop .invalid

/-- Whether an argument can be the value of an option: it does not look like an option. -/
def isValue (argument : String) : Bool :=
  argument == "-" || argument.toList.head? != some '-'

/-! ## Reading -/

/-- Reads options; what comes first that is none goes on with the arguments from it on. -/
def readOptions (command : Option Command) (options : Options) (arguments : List String)
    (go : Options → List String → Reading) : Reading :=
  match arguments with
  | [] => go options []
  | [argument] =>
    if argument.toList.head? = some '-' then
      match options.withArgument command argument with
      | .stop reading => reading
      | .next options => go options []
    else go options [argument]
  | argument :: value :: rest =>
    if argument = "--" then .invalid
    else if argument = "--root" ∧ isValue value then
      match options.withRoot value with
      | .stop reading => reading
      | .next options => readOptions command options rest go
    else if argument = "--client" ∧ isValue value then
      match options.withClients command value with
      | .stop reading => reading
      | .next options => readOptions command options rest go
    else if argument.toList.head? = some '-' then
      match options.withArgument command argument with
      | .stop reading => reading
      | .next options => readOptions command options (value :: rest) go
    else go options (argument :: value :: rest)
termination_by arguments.length
decreasing_by all_goals simp only [List.length_cons]; omega

/-- A command with its options. -/
def Command.withOptions (command : Command) (options : Options) : Command :=
  match command with
  | .build isStrict => .build (isStrict || options.isStrict)
  | .exportFor clients => .exportFor (options.clients.getD clients)
  | _ => command

/-- Reads what stands behind a command. -/
def readBehind (command : Command) (before : Options) (arguments : List String) : Reading :=
  let arguments := if arguments.getLast? = some "--" then arguments.dropLast else arguments
  readOptions (some command) {} arguments fun options rest =>
    if rest = [] then
      let root := (options.root.orElse fun _ => before.root).getD "."
      .request ⟨⟨root⟩, command.withOptions options⟩
    else .invalid

/-- Reads the arguments of the program. -/
def read (arguments : List String) : Reading :=
  readOptions none {} arguments fun options rest =>
    match rest with
    | [] => .invalid
    | "help" :: rest => if rest.all fun name => (commandNames.lookup name).isSome then .help else .invalid
    | name :: rest =>
      match commandNames.lookup name with
      | none => .invalid
      | some command => readBehind command options rest

end CommandLine

end MailTemplate
