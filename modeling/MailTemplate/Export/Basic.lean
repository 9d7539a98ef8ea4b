import MailTemplate.Client.Package
import MailTemplate.Export.Notes
import MailTemplate.File.Disk

/-!
# Exporting a project

An export reads every compiled document, adapts it for a client and writes the files that the client
imports into the directory of the client.  Files are named by the base name of their document; of
several documents with one base name only the first is exported.

## Main definitions

* `compiledDocuments` — the compiled documents of a project.
* `Export.run` — an export.
-/

namespace MailTemplate

/-- The compiled documents in a directory, in the order of a walk. -/
def compiledDocuments (disk : Disk) (output : Path) : List Path :=
  if disk.isDirectory output then
    ((disk.walk output fun _ _ => true).filter fun (path, node) =>
      node.isFile && path.extension? == some "html").map Prod.fst
  else []

namespace Export

/-- Writes files into a directory, up to the first that cannot be written. -/
def writeFiles (directory : Path) : List Artifact → StateM Disk (Except String Unit)
  | [] => return .ok ()
  | artifact :: rest => do
    match ← (Disk.writeIfChanged (directory.child artifact.fileName) artifact.bytes).run with
    | .error fault =>
      return .error ("cannot write " ++ artifact.fileName ++ ": " ++ fault.message)
    | .ok _ => writeFiles directory rest

/-- What an export needs to know of all documents. -/
structure Setting where
  /-- The profile of the client. -/
  profile : Profile
  /-- The project root. -/
  root : Path
  /-- The directory of the client. -/
  directory : Path
  /-- Where boundaries come from. -/
  source : BoundarySource

/-- How far an export has come. -/
structure Progress where
  /-- The base names of exported documents, with the documents. -/
  claimed : List (String × Path) := []
  /-- The levels that boundaries were drawn for. -/
  asked : List Nat := []
  /-- What became of the documents, in reverse order. -/
  documents : List ExportedDocument := []

/-- Exports the document at a path under a base name: the names of its files and the rules that
changed it.  The levels that boundaries were drawn for so far are told too. -/
def exportOne (setting : Setting) (path : Path) (base : String) (asked : List Nat) :
    StateM Disk (Except String (List String × List String) × List Nat) := do
  match (← get).readText path with
  | .error fault => return (.error ("cannot read: " ++ fault.message), asked)
  | .ok html =>
    let adapted := setting.profile.adapt html
    match setting.profile.pack base adapted.html (subjectOf adapted.html base) setting.source
      asked with
    | (.error failure, asked) => return (.error failure.message, asked)
    | (.ok artifacts, asked) =>
      let written ← writeFiles setting.directory artifacts
      return (written.map fun () => (artifacts.map Artifact.fileName, adapted.applied), asked)

/-- Exports the next document, unless its base name is claimed. -/
def step (setting : Setting) (p : Progress) (path : Path) : StateM Disk Progress := do
  let source : Path := ⟨path.relativeTo setting.root⟩
  let base := baseName path
  match p.claimed.find? fun (name, _) => name == base with
  | some (_, first) =>
    let error := "base name '" ++ base ++ "' is already exported from " ++ first.text
    return { p with documents := ⟨source, [], [], some error⟩ :: p.documents }
  | none =>
    let (result, asked) ← exportOne setting path base p.asked
    let document : ExportedDocument := match result with
      | .ok (files, applied) => ⟨source, files, applied, none⟩
      | .error error => ⟨source, [], [], some error⟩
    return ⟨p.claimed ++ [(base, source)], asked, document :: p.documents⟩

/-- The name of the notes. -/
def notesName : String := "README.md"

/-- Exports a project for a client, and tells how many boundaries were drawn. -/
def run (client : Client) (layout : Layout) (settings : Settings) (source : BoundarySource) :
    StateM Disk (Except Disk.Fault ExportReport × Nat) := do
  let profile := client.profile settings
  let directory := layout.clientDirectory client.name
  match compiledDocuments (← get) layout.output with
  | [] => return (.ok ⟨client, directory, [], []⟩, 0)
  | inputs =>
    match ← (Disk.makeDirectories directory).run with
    | .error fault => return (.error fault, 0)
    | .ok () =>
      let p ← inputs.foldlM (step ⟨profile, layout.root, directory, source⟩) {}
      let report : ExportReport := ⟨client, directory, p.documents.reverse, []⟩
      if client = .outlook then
        let notes := Bytes.ofString (ImportNotes.text profile report)
        match ← (Disk.writeIfChanged (directory.child notesName) notes).run with
        | .error fault => return (.error fault, p.asked.length)
        | .ok _ => return (.ok { report with extras := [notesName] }, p.asked.length)
      else return (.ok report, p.asked.length)

end Export

end MailTemplate
