import MailTemplate.Build.Plan
import MailTemplate.Build.Run
import MailTemplate.Compiler.Basic
import MailTemplate.Project.Discovery

/-!
# Building a project

A build discovers the templates, makes the output directory, plans the places of the documents, and
then reads, compiles and writes template by template.  A template that fails is recorded and does not
stop the build.

## Main definitions

* `Build.start` — discovery and the plan.
* `Build.prepare`, `Build.complete`, `Build.compileOne` — one template.
* `Build.run` — the whole build.
* `Build.begin`, `Build.finish` — a build in two parts, with the calls of the compiler in the second.
-/

namespace MailTemplate

namespace Build

/-- How a build fails as a whole. -/
inductive Fault where
  /-- The output directory could not be made. -/
  | disk (fault : Disk.Fault)
  /-- Discovery failed. -/
  | scan (fault : ScanFault)
  deriving DecidableEq, Repr

/-- The text of a failure. -/
def Fault.message : Fault → String
  | disk fault => "IO error: " ++ fault.message
  | scan fault => "Scan error: " ++ fault.message

/-- How a build ends. -/
inductive Result where
  /-- With a run. -/
  | done (run : BuildRun)
  /-- With a failure of the build as a whole. -/
  | failed (fault : Fault)
  /-- With a crash of the compiler. -/
  | crashed
  deriving DecidableEq, Repr

/-- What a template has come to before it is compiled. -/
inductive Pending where
  /-- It has failed already. -/
  | failed (document : CompiledDocument)
  /-- Its source is read. -/
  | ready (planned : PlannedOutput) (text : String)
  deriving DecidableEq, Repr

/-- Whether the compiler is called for a template. -/
def Pending.isReady : Pending → Bool
  | failed _ => false
  | ready .. => true

/-- A template that failed. -/
def failure (planned : PlannedOutput) (warnings : List String) (error : String) :
    CompiledDocument :=
  ⟨planned.source, planned.output, warnings, .failed error⟩

/-- A template with its source, unless its place is claimed or its source cannot be read. -/
def prepare (disk : Disk) (root : Path) (planned : PlannedOutput) : Pending :=
  match planned.collidesWith with
  | some first =>
    .failed (failure planned [] ("output " ++ planned.output.text ++ " is already produced by " ++
      first.text))
  | none =>
    match disk.readText (root.join planned.source) with
    | .error fault => .failed (failure planned [] ("cannot read source: " ++ fault.message))
    | .ok text => .ready planned text

/-- Compiles a template and writes its document.  There is no result if the compiler crashes. -/
def complete (root : Path) (compiler : Compiler) : Pending → StateM Disk (Option CompiledDocument)
  | .failed document => return some document
  | .ready planned text => do
    let file := root.join planned.source
    match compiler text file (file.parent?.getD root) with
    | .crashed => return none
    | .failed fault => return some (failure planned [] fault.message)
    | .compiled output =>
      match ← (Disk.writeIfChanged (root.join planned.output) (Bytes.ofString output.html)).run with
      | .error fault =>
        return some (failure planned output.warnings ("cannot write output: " ++ fault.message))
      | .ok _ =>
        return some ⟨planned.source, planned.output, output.warnings, .compiled output.html⟩

/-- Reads and compiles a template and writes its document. -/
def compileOne (root : Path) (compiler : Compiler) (planned : PlannedOutput) :
    StateM Disk (Option CompiledDocument) := do
  complete root compiler (prepare (← get) root planned)

/-- Discovers the templates, makes the output directory and plans the places of the documents. -/
def start (root : Path) (settings : Settings) : StateM Disk (Except Fault (List PlannedOutput)) := do
  match discover (← get) root settings with
  | .error fault => return .error (.scan fault)
  | .ok sources =>
    match ← (Disk.makeDirectories (Layout.ofSettings root settings.paths).output).run with
    | .error fault => return .error (.disk fault)
    | .ok () =>
      return .ok (planOutputs sources ⟨settings.paths.sourceRoot⟩ ⟨settings.paths.output⟩)

/-- The result of a build from what became of its templates. -/
def conclude (elapsed : Nat) (documents : List (Option CompiledDocument)) : Result :=
  if documents.all Option.isSome then .done ⟨documents.filterMap id, elapsed⟩ else .crashed

/-- A build that has come as far as the compiler. -/
inductive Begun where
  /-- It has failed as a whole. -/
  | failed (fault : Fault)
  /-- Its templates are read. -/
  | ready (pending : List Pending)
  deriving DecidableEq, Repr

/-- How many templates are left to compile. -/
def Begun.calls : Begun → Nat
  | failed _ => 0
  | ready pending => pending.countP Pending.isReady

/-- Begins a build: everything before the compiler is called. -/
def begin (root : Path) (settings : Settings) : StateM Disk Begun := do
  match ← start root settings with
  | .error fault => return .failed fault
  | .ok plan => return .ready (plan.map (prepare (← get) root))

/-- Ends a build: compiles the templates and writes their documents. -/
def finish (root : Path) (compiler : Compiler) (elapsed : Nat) : Begun → StateM Disk Result
  | .failed fault => return .failed fault
  | .ready pending => return conclude elapsed (← pending.mapM (complete root compiler))

/-- Builds a project. -/
def run (root : Path) (settings : Settings) (compiler : Compiler) (elapsed : Nat) :
    StateM Disk Result := do
  match ← start root settings with
  | .error fault => return .failed fault
  | .ok plan => return conclude elapsed (← plan.mapM (compileOne root compiler))

end Build

end MailTemplate
