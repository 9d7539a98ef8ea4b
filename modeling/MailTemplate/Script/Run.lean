import MailTemplate.Script.Lexeme
import MailTemplate.Script.Tools

/-!
# Running scripts

A script is a sequence of commands.  A command is a list of words and redirections; its first word
names a small program, and the other ones are its arguments.  Commands read the input of the script one
after the other, and their outputs follow each other.

## Main definitions

* `Script.Command`, `Script.commands?` — the commands of a script.
* `Script.run` — a run of a script.
* `Disk.runProgram` — a run of a program that can be found on a Linux system.
-/

namespace MailTemplate

namespace Script

/-! ## Commands -/

/-- A redirection of a stream, with the word that it names. -/
structure Redirection where
  /-- The stream. -/
  stream : Nat
  /-- Where it leads. -/
  target : Target
  /-- The word that names a file. -/
  file : List Piece
  deriving DecidableEq, Repr

/-- A command. -/
structure Command where
  /-- When it is run. -/
  joint : Joint
  /-- Its words. -/
  words : List (List Piece) := []
  /-- Its redirections. -/
  redirections : List Redirection := []
  deriving DecidableEq, Repr

/-- Whether a command has neither words nor redirections. -/
def Command.isEmpty (command : Command) : Bool :=
  command.words.isEmpty && command.redirections.isEmpty

/-- The commands that lexemes make after one that is being read.  A sign between two commands needs a
command before it, and one behind it unless the script ends there. -/
def commandsFrom (current : Command) : List Lexeme → Option (List Command)
  | [] =>
    if current.isEmpty then if current.joint = .always then some [] else none
    else some [current]
  | .word pieces :: rest =>
    commandsFrom { current with words := current.words ++ [pieces] } rest
  | .redirection stream (.sameAs other) :: rest =>
    commandsFrom { current with
      redirections := current.redirections ++ [⟨stream, .sameAs other, []⟩] } rest
  | .redirection stream target :: .word file :: rest =>
    commandsFrom { current with
      redirections := current.redirections ++ [⟨stream, target, file⟩] } rest
  | .redirection _ _ :: _ => none
  | .joint joint :: rest =>
    if current.isEmpty then none else (commandsFrom { joint } rest).map (current :: ·)

/-- The commands of a script, if it can be read. -/
def commands? (script : String) : Option (List Command) :=
  (lexemes? script).bind (commandsFrom { joint := .always })

/-! ## Words -/

/-- What a script is run with. -/
structure Setting where
  /-- The disk with the current directory. -/
  disk : Disk
  /-- The name of the script and the parameters after it. -/
  parameters : List String
  /-- The number of the process. -/
  process : Nat := 1000

/-- The value of a parameter. -/
def Setting.value (setting : Setting) (status : Nat) (name : Char) : String :=
  match name with
  | '$' => toString setting.process
  | '#' => toString (setting.parameters.length - 1)
  | '?' => toString status
  | '@' | '*' => String.intercalate " " (setting.parameters.drop 1)
  | c => setting.parameters.getD (c.toNat - 48) ""

/-- The characters of a word, those that can part it marked. -/
def expand (setting : Setting) (status : Nat) (pieces : List Piece) : List (Char × Bool) :=
  pieces.flatMap fun
    | .char c _ => [(c, false)]
    | .parameter name isQuoted =>
      (setting.value status name).toList.map fun c =>
        (c, !isQuoted && [' ', '\t', '\n'].contains c)
    | .quotation => []

/-- The fields that a word makes: the word is parted where a parameter without quotes has blanks, and a
word of such parameters only can be nothing. -/
def fields (setting : Setting) (status : Nat) (pieces : List Piece) : List String :=
  let parts := ((expand setting status pieces).splitOnP fun (_, parts) => parts).map (·.map Prod.fst)
  let kept := parts.filter (· ≠ [])
  let isQuoted := pieces.any fun
    | .quotation => true
    | .char _ isQuoted | .parameter _ isQuoted => isQuoted
  if kept = [] ∧ isQuoted then [""] else kept.map String.ofList

/-! ## Streams -/

/-- Where what is written to a stream goes. -/
inductive Sink where
  /-- To the output. -/
  | output
  /-- To the error output. -/
  | errors
  /-- Nowhere. -/
  | nowhere
  deriving DecidableEq, Repr

/-- The streams of a command. -/
structure Streams where
  /-- What there is to read instead of the input of the script. -/
  input : Option Bytes := none
  /-- Where output goes. -/
  output : Sink := .output
  /-- Where error output goes. -/
  errors : Sink := .errors
  deriving DecidableEq, Repr

/-- Streams after a redirection. -/
def Streams.redirect (setting : Setting) (s : Streams) (r : Redirection) : Streams :=
  match r.stream, r.target with
  | 0, .read =>
    let file := String.join (fields setting 0 r.file)
    { s with input := some ((setting.disk.read ⟨file⟩).toOption.getD []) }
  | 1, .write => { s with output := .nowhere }
  | 2, .write => { s with errors := .nowhere }
  | 1, .sameAs 2 => { s with output := s.errors }
  | 2, .sameAs 1 => { s with errors := s.output }
  | _, _ => s

/-! ## Running -/

/-- How far a script has come. -/
structure Progress where
  /-- What is left of the input. -/
  input : Bytes
  /-- What was written to the output. -/
  output : Bytes := []
  /-- What was written to the error output. -/
  errors : Bytes := []
  /-- The exit code of the last command. -/
  status : Nat := 0
  /-- How the script has ended, if it has. -/
  ending : Option ExitStatus := none

/-- Progress after bytes were written. -/
def Progress.write (p : Progress) (sink : Sink) (bytes : Bytes) : Progress :=
  match sink with
  | .output => { p with output := p.output ++ bytes }
  | .errors => { p with errors := p.errors ++ bytes }
  | .nowhere => p

/-- A small program, if there is one of a name. -/
def tool? (disk : Disk) (name : String) : Option (List String → Bytes → ToolEnd) :=
  match name with
  | "cat" => some (cat disk)
  | "echo" => some echo
  | "printf" => some printf
  | "pwd" => some fun _ input =>
    { input, output := Bytes.ofString ("/" ++ String.intercalate "/" disk.current ++ "\n") }
  | "true" | ":" => some fun _ input => { input }
  | "false" => some fun _ input => { input, status := 1 }
  | _ => none

/-- The number of a signal that an option of `kill` names. -/
def signal (option : String) : Nat :=
  let name := option.toList.drop 1
  match (String.ofList name).toNat? with
  | some n => n
  | none =>
    match (List.range 16).find? fun n => signalName? n == some ("SIG" ++ String.ofList name) with
    | some n => n
    | none => 15

/-- The end that a command makes to the script, if it does. -/
def ending? (setting : Setting) (status : Nat) (fields : List String) : Option ExitStatus :=
  match fields with
  | ["exit"] => some (.code status)
  | "exit" :: n :: _ => some (.code ((n.toNat?.getD 2) % 256))
  | ["kill", process] => if process = toString setting.process then some (.signal 15) else none
  | ["kill", option, process] =>
    if process = toString setting.process then some (.signal (signal option)) else none
  | _ => none

/-- Runs a command of some fields with streams. -/
def runFields (setting : Setting) (streams : Streams) (fields : List String) (p : Progress) :
    Progress :=
  match fields with
  | [] => { p with status := 0 }
  | name :: arguments =>
    match ending? setting p.status fields with
    | some ending => { p with ending := some ending }
    | none =>
      match tool? setting.disk name with
      | none =>
        let message := setting.value 0 '0' ++ ": 1: " ++ name ++ ": not found\n"
        { p.write streams.errors (Bytes.ofString message) with status := 127 }
      | some tool =>
        let done := tool arguments (streams.input.getD p.input)
        let p := (p.write streams.output done.output).write streams.errors done.errors
        { p with
          status := done.status
          input := if streams.input.isSome then p.input else done.input }

/-- Runs a command, unless the script has ended or the command before it forbids it. -/
def runCommand (setting : Setting) (p : Progress) (command : Command) : Progress :=
  let isDue := match command.joint with
    | .always => true
    | .onSuccess => p.status == 0
    | .onFailure => p.status != 0
  if p.ending.isSome || !isDue then p
  else
    let streams := command.redirections.foldl (Streams.redirect setting) {}
    runFields setting streams (command.words.flatMap (fields setting p.status)) p

/-- Runs a script. -/
def run (setting : Setting) (script : String) (input : Bytes) : ProgramEnd :=
  match commands? script with
  | none =>
    let message := setting.value 0 '0' ++ ": 1: Syntax error\n"
    .exited (.code 2) [] (Bytes.ofString message)
  | some commands =>
    let p := commands.foldl (runCommand setting) { input }
    .exited (p.ending.getD (.code p.status)) p.output p.errors

end Script

/-! ## Programs -/

/-- Where programs are. -/
def programDirectories : List String := ["/bin/", "/usr/bin/"]

/-- The name of the program that a command names, if its text is no path to elsewhere. -/
def programName? (command : String) : Option String :=
  match programDirectories.find? fun d => d.toList.isPrefixOf command.toList with
  | some d => some (String.ofList (command.toList.drop d.length))
  | none => if command.toList.contains '/' then none else some command

/-- Runs the shell with arguments: a script that is given itself, or that a file holds. -/
def Disk.runShell (disk : Disk) (arguments : List String) (input : Bytes) : ProgramEnd :=
  let fails (message : String) : ProgramEnd :=
    .exited (.code 2) [] (Bytes.ofString ("sh: 0: " ++ message ++ "\n"))
  match arguments with
  | "-c" :: script :: rest =>
    Script.run { disk, parameters := if rest = [] then ["sh"] else rest } script input
  | name :: _ =>
    if name.toList.head? = some '-' then fails "Illegal option --"
    else
      match disk.readText ⟨name⟩ with
      | .ok script => Script.run { disk, parameters := arguments } script input
      | .error _ => fails ("cannot open " ++ name ++ ": No such file")
  | [] => Script.run { disk, parameters := ["sh"] } (String.ofList (Bytes.decodeLossy input)) []

/-- Why a file of a disk cannot be run. -/
inductive Unrunnable where
  /-- It is no program for the one who runs it. -/
  | forbidden
  /-- It is no program at all. -/
  | noProgram
  deriving DecidableEq, Repr

/-- The text of a reason. -/
def Unrunnable.message : Unrunnable → String
  | forbidden => "Permission denied (os error 13)"
  | noProgram => "Exec format error (os error 8)"

/-- Runs a file of a disk, which must be executable and begin with a line for the shell. -/
def Disk.runFile (disk : Disk) (invocation : Invocation) : ProgramEnd :=
  match disk.node ⟨invocation.command⟩ with
  | .error fault => .notStarted fault.message
  | .ok (.file bytes true) =>
    if (Bytes.ofString "#!").isPrefixOf bytes then
      Script.run { disk, parameters := invocation.command :: invocation.arguments }
        (String.ofList (Bytes.decodeLossy bytes)) invocation.input
    else .notStarted Unrunnable.noProgram.message
  | .ok _ => .notStarted Unrunnable.forbidden.message

/-- Runs a program on a disk in the directory of an invocation: the shell, a small program or a file of
the disk. -/
def Disk.runProgram (disk : Disk) (invocation : Invocation) : ProgramEnd :=
  match disk.resolve true invocation.directory with
  | .error fault => .notStarted fault.message
  | .ok (.free ..) => .notStarted Disk.Fault.missing.message
  | .ok (.found _ (.file ..)) | .ok (.found _ (.link _)) =>
    .notStarted Disk.Fault.notDirectory.message
  | .ok (.found names (.directory _)) =>
    let here := { disk with current := names }
    match programName? invocation.command with
    | none => here.runFile invocation
    | some "sh" => here.runShell invocation.arguments invocation.input
    | some name =>
      match if name = ":" then none else Script.tool? here name with
      | none => .notStarted Disk.Fault.missing.message
      | some tool =>
        let done := tool invocation.arguments invocation.input
        .exited (.code done.status) done.output done.errors

end MailTemplate
