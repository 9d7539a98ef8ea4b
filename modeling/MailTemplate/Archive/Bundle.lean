import MailTemplate.Archive.Gzip
import MailTemplate.Archive.Manifest
import MailTemplate.Archive.Tar
import MailTemplate.Calendar.Instant
import MailTemplate.Digest.Sha256
import MailTemplate.Project.Discovery

/-!
# Archiving a project

A bundle is made of members: the trees below some directories and some files of the project root.
Every kind of archive has a plan of its members, and an archive without a plan is skipped.  Archives
are written one after the other and then the manifest.  If an archive cannot be written, what there is
of it is removed and no later one is tried; archives that were written before it remain.

## Main definitions

* `Bundle.Member`, `Bundle.plan` — what goes into an archive.
* `Bundle.Source`, `Bundle.Member.sources` — the entries of an archive and where they come from.
* `Bundle.write` — one archive.
* `Bundle.run` — all archives and the manifest.
-/

namespace MailTemplate

namespace Bundle

/-- How archiving fails. -/
inductive Fault where
  /-- An operation on the disk failed. -/
  | disk (fault : Disk.Fault)
  /-- An archive could not be written. -/
  | write (fileName reason : String)
  /-- A glob is no pattern. -/
  | badGlob (bad : BadGlob)
  deriving DecidableEq, Repr

/-- The text of a failure. -/
def Fault.message : Fault → String
  | disk fault => "IO error: " ++ fault.message
  | write fileName reason => "failed to write " ++ fileName ++ ": " ++ reason
  | badGlob bad => bad.message

/-! ## Plans -/

/-- Something to put into an archive. -/
inductive Member where
  /-- Everything below a directory, with the directory's own name before it or without. -/
  | tree (directory : Path) (name : Option String)
  /-- A file under a name. -/
  | file (path : Path) (name : String)
  deriving DecidableEq, Repr

/-- The tree below a directory if there is one, without the directory's name. -/
def bareTree (disk : Disk) (directory : Path) : Option (List Member) :=
  if disk.isDirectory directory then some [.tree directory none] else none

/-- The trees below those directories that there are, named as seen from the project root. -/
def namedTrees (disk : Disk) (root : Path) (directories : List Path) : List Member :=
  (directories.filter disk.isDirectory).map fun directory =>
    .tree directory (some (directory.relativeTo root))

/-- The files of the project root that a glob accepts, in the order of their names. -/
def rootFiles (disk : Disk) (root : Path) (patterns : List String) :
    Except Fault (List Member) := do
  let globs ← (readGlobs patterns).mapError .badGlob
  let entries ← (disk.list root).mapError .disk
  let names := ((Entries.sorted entries).filter fun (_, node) => node.isFile).map Prod.fst
  return (names.filter fun name => globs.any (·.accepts false name)).map fun name =>
    .file (root.child name) name

/-- The members of an archive, or nothing if it is to be skipped. -/
def plan (disk : Disk) (layout : Layout) (settings : ArchiveSettings) :
    ArchiveKind → Except Fault (Option (List Member))
  | .html => return bareTree disk layout.output
  | .exportHtml => return bareTree disk (layout.clientDirectory Client.html.name)
  | .outlook => return bareTree disk (layout.clientDirectory Client.outlook.name)
  | .source =>
    match namedTrees disk layout.root [layout.components, layout.sourceRoot] with
    | [] => return none
    | trees => do
      return some (trees ++ (← rootFiles disk layout.root settings.sourceFiles))
  | .complete => do
    let trees := namedTrees disk layout.root [layout.output,
      layout.clientDirectory Client.html.name, layout.clientDirectory Client.outlook.name,
      layout.components, layout.sourceRoot]
    let files ← rootFiles disk layout.root (settings.sourceFiles ++ settings.extraFiles)
    return some (trees ++ files)

/-! ## Entries -/

/-- An entry of an archive and where it comes from. -/
structure Source where
  /-- The name of the entry. -/
  name : String
  /-- The path of what it holds. -/
  path : Path
  deriving DecidableEq, Repr

/-- The entries of a member: every directory before what it holds, and no links. -/
def Member.sources (disk : Disk) : Member → List Source
  | .file path name => [⟨name, path⟩]
  | .tree directory label =>
    let inside := (disk.walk directory fun _ _ => true).drop 1
    (inside.filter fun (_, node) => node.isDirectory || node.isFile).map fun (path, _) =>
      let name := path.relativeTo directory
      ⟨(label.map (· ++ "/" ++ name)).getD name, path⟩

/-- An entry with its content. -/
def Source.entry (disk : Disk) (source : Source) : Except Disk.Fault Tar.Entry := do
  match ← disk.node source.path with
  | .file bytes executable => return ⟨source.name, .file bytes executable⟩
  | _ => return ⟨source.name, .directory⟩

/-- An entry with its content, as it is and as bytes. -/
def Source.pack (disk : Disk) (source : Source) : Except String (Tar.Entry × Bytes) := do
  let entry ← (source.entry disk).mapError Disk.Fault.message
  return (entry, ← Tar.entryBytes entry)

/-- The entries of an archive and the archive. -/
def pack (disk : Disk) (members : List Member) : Except String (List Tar.Entry × Bytes) := do
  let packed ← (members.flatMap (·.sources disk)).mapM (·.pack disk)
  return (packed.map Prod.fst, packed.flatMap Prod.snd ++ Tar.ending)

/-! ## Writing -/

/-- An operation that changes a disk and can fail. -/
abbrev BundleM := ExceptT Fault (StateM Disk)

/-- A computation that changes nothing, as a part of archiving. -/
def ofResult {α : Type} (x : Except Fault α) : BundleM α := ExceptT.mk (pure x)

/-- An operation on the disk as a part of archiving. -/
def onDisk {α : Type} (x : DiskM α) : BundleM α := ExceptT.adapt .disk x

/-- Writes a compressed archive: its entries and its bytes.  While it is being written, its file holds
nothing but the header. -/
def writeArchive (level : Nat) (path : Path) (members : List Member) :
    StateM Disk (Except String (List Tar.Entry × Bytes)) := do
  match ← (Disk.write path (Gzip.header level)).run with
  | .error fault => return .error fault.message
  | .ok () =>
    match pack (← get) members with
    | .error reason => return .error reason
    | .ok (entries, archive) =>
      let bytes := Gzip.compress level archive
      let written ← (Disk.write path bytes).run
      return (written.mapError Disk.Fault.message).map fun () => (entries, bytes)

/-- Writes a compressed archive, or leaves no file if that fails. -/
def write (level : Nat) (path : Path) (fileName : String) (members : List Member) :
    BundleM (List Tar.Entry × Bytes) := do
  match ← writeArchive level path members with
  | .ok written => return written
  | .error reason =>
    if (← get).isFile path then
      let _ ← (Disk.removeFile path).run
    throw (.write fileName reason)

/-- Writes the archive of a kind, unless it is to be skipped: what the manifest tells of it, and its
entries. -/
def writeKind (layout : Layout) (settings : ArchiveSettings) (stem : String)
    (kind : ArchiveKind) : BundleM (Option (ManifestEntry × List Tar.Entry)) := do
  match ← ofResult (plan (← get) layout settings kind) with
  | none => return none
  | some members =>
    let fileName := ArchiveName.archive stem kind
    let path := layout.archives.child fileName
    let (entries, bytes) ← write settings.compression path fileName members
    let stored ← ofResult (((← get).read path).mapError .disk)
    return some (⟨kind.label, fileName, bytes.length, sha256 stored⟩, entries)

/-- Writes all archives and the manifest.  With the report come the entries of every archive in the
manifest. -/
def run (layout : Layout) (settings : Settings) (now : Instant) :
    BundleM (BundleReport × List (List Tar.Entry)) := do
  let directory := layout.archives
  onDisk (Disk.makeDirectories directory)
  let stem := ArchiveName.stem settings.projectName now.date.text
  let results ← ArchiveKind.all.mapM (writeKind layout settings.archive stem)
  let written := results.filterMap id
  let manifest : Manifest := ⟨now.stamp, written.map Prod.fst⟩
  let path := directory.child (ArchiveName.manifest stem)
  onDisk (Disk.write path (Bytes.ofString manifest.text))
  let skipped := (ArchiveKind.all.zip results).filter fun (_, result) => result.isNone
  return (⟨directory, path, manifest, skipped.map Prod.fst⟩, written.map Prod.snd)

end Bundle

end MailTemplate
