import MailTemplate.File.Tree

/-!
# Disks

A disk is a tree with a current directory.  A path leads to a place on it: every component is looked
up where the ones before it have led, links lead on to their targets, and two dots lead to the
directory above.  Every operation fails in the way a Linux system reports.

## Main definitions

* `Disk`, `Disk.Fault` — a disk, and how operations fail.
* `Disk.resolve` — where a path leads.
* `Disk.read`, `Disk.readText`, `Disk.list` — looking at a disk.
* `DiskM`, `Disk.write`, `Disk.makeDirectories`, `Disk.removeFile` — changing it.
-/

namespace MailTemplate

/-- A tree with a current directory. -/
structure Disk where
  /-- The root directory. -/
  root : Node
  /-- The names that lead to the current directory. -/
  current : List String
  deriving Repr

namespace Disk

/-- How an operation fails. -/
inductive Fault where
  /-- There is nothing at a place. -/
  | missing
  /-- There is something already. -/
  | exists
  /-- A file stands where a directory must be. -/
  | notDirectory
  /-- A directory stands where a file must be. -/
  | isDirectory
  /-- A name is too long. -/
  | nameTooLong
  /-- Too many links lead on to each other. -/
  | loop
  /-- A path holds a character that no path can hold. -/
  | nul
  /-- The content of a file is no text. -/
  | notText
  /-- No directory of a path could be made. -/
  | noTree
  /-- An operation fails for a reason of its own. -/
  | other (reason : String)
  deriving DecidableEq, Repr

/-- The text of a fault. -/
def Fault.message : Fault → String
  | missing => "No such file or directory (os error 2)"
  | .exists => "File exists (os error 17)"
  | notDirectory => "Not a directory (os error 20)"
  | isDirectory => "Is a directory (os error 21)"
  | nameTooLong => "File name too long (os error 36)"
  | loop => "Too many levels of symbolic links (os error 40)"
  | nul => "file name contained an unexpected NUL byte"
  | notText => "stream did not contain valid UTF-8"
  | noTree => "failed to create whole tree"
  | other reason => reason

/-! ## Paths -/

/-- Where a path leads. -/
inductive Place where
  /-- To a node. -/
  | found (names : List String) (node : Node)
  /-- To a free name in a directory, perhaps with a separator behind it. -/
  | free (directory : List String) (name : String) (trailing : Bool)

/-- How many bytes a name can have. -/
def maxName : Nat := 255

/-- How many bytes a path can have. -/
def maxPath : Nat := 4095

/-- How many links can be followed on one path. -/
def maxLinks : Nat := 40

/-- Where segments lead from a directory.  A link at the end is followed if it is asked for, and
behind a link that is followed the walk goes on as it is told. -/
def walkBy (root : Node) (follow : Bool) (onLink : List String → List String → Except Fault Place) :
    (segments here : List String) → Except Fault Place
  | [], here => .ok (.found here ((root.at? here).getD (.directory [])))
  | segment :: rest, here =>
    if segment = "" ∨ segment = "." then walkBy root follow onLink rest here
    else if segment = ".." then walkBy root follow onLink rest here.dropLast
    else if maxName < segment.utf8ByteSize then .error .nameTooLong
    else
      match root.at? (here ++ [segment]) with
      | none =>
        if rest.all (· == "") then .ok (.free here segment (rest ≠ [])) else .error .missing
      | some (.directory _) => walkBy root follow onLink rest (here ++ [segment])
      | some (.file bytes executable) =>
        if rest = [] then .ok (.found (here ++ [segment]) (.file bytes executable))
        else .error .notDirectory
      | some (.link target) =>
        if rest = [] ∧ follow = false then .ok (.found (here ++ [segment]) (.link target))
        else
          onLink (target.segments.map String.ofList ++ rest) (if target.isAbsolute then [] else here)

/-- Where segments lead from a directory, with so many links to follow at most. -/
def walkFrom (root : Node) (follow : Bool) :
    (links : Nat) → (segments here : List String) → Except Fault Place
  | 0 => walkBy root follow fun _ _ => .error .loop
  | links + 1 => walkBy root follow (walkFrom root follow links)

/-- Where a path leads. -/
def resolve (disk : Disk) (follow : Bool) (path : Path) : Except Fault Place :=
  if path.text = "" then .error .missing
  else if path.text.toList.any fun c => c.toNat == 0 then .error .nul
  else if maxPath < path.text.utf8ByteSize then .error .nameTooLong
  else
    walkFrom disk.root follow maxLinks (path.segments.map String.ofList)
      (if path.isAbsolute then [] else disk.current)

/-! ## Looking -/

/-- The node that a path leads to. -/
def node (disk : Disk) (path : Path) : Except Fault Node := do
  match ← disk.resolve true path with
  | .found _ node => return node
  | .free .. => throw .missing

/-- Whether a path leads to a directory. -/
def isDirectory (disk : Disk) (path : Path) : Bool :=
  match disk.node path with
  | .ok node => node.isDirectory
  | .error _ => false

/-- Whether a path leads to a file. -/
def isFile (disk : Disk) (path : Path) : Bool :=
  match disk.node path with
  | .ok node => node.isFile
  | .error _ => false

/-- Whether a path leads to anything. -/
def contains (disk : Disk) (path : Path) : Bool := (disk.node path).isOk

/-- The content of the file that a path leads to. -/
def read (disk : Disk) (path : Path) : Except Fault Bytes := do
  match ← disk.node path with
  | .file bytes _ => return bytes
  | _ => throw .isDirectory

/-- The content of the file that a path leads to as a text. -/
def readText (disk : Disk) (path : Path) : Except Fault String := do
  match Bytes.toString? (← disk.read path) with
  | some text => return text
  | none => throw .notText

/-- The entries of the directory that a path leads to. -/
def list (disk : Disk) (path : Path) : Except Fault (List (String × Node)) := do
  match ← disk.node path with
  | .directory es => return es
  | _ => throw .notDirectory

/-- The directory that a path leads to and everything below it, except for what is in directories that
are not to be entered.  Links inside it are not followed. -/
def walk (disk : Disk) (path : Path) (enters : Path → String → Bool) : List (Path × Node) :=
  match disk.node path with
  | .ok node => node.walk enters path
  | .error _ => []

end Disk

/-! ## Changing -/

/-- An operation that can change a disk, and that leaves its changes behind when it fails. -/
abbrev DiskM := ExceptT Disk.Fault (StateM Disk)

namespace Disk

/-- Puts a node at a place. -/
def put (disk : Disk) (names : List String) (node : Node) : Disk :=
  { disk with root := Node.put node names disk.root }

/-- Makes a directory. -/
def makeDirectory (path : Path) : DiskM Unit := do
  let disk ← get
  match ← disk.resolve false path with
  | .found .. => throw .exists
  | .free names name _ => set (disk.put (names ++ [name]) (.directory []))

/-- The paths that a path goes through, itself first. -/
def ancestors (fuel : Nat) (path : Path) : List Path :=
  match fuel with
  | 0 => []
  | fuel + 1 =>
    match path.parent? with
    | none => [path]
    | some parent => path :: ancestors fuel parent

/-- Makes the first of some directories, each of which is inside the next one, and those of the others
that are missing. -/
def makeFirst : List Path → DiskM Unit
  | [] => throw .noTree
  | path :: rest => do
    if path.text = "" then return
    let attempt (retry : DiskM Unit) : DiskM Unit :=
      tryCatch (makeDirectory path) fun fault => do
        if fault = .missing then retry
        else if (← get).isDirectory path then return
        else throw fault
    attempt do
      makeFirst rest
      attempt (throw .missing)

/-- Makes a directory with all the directories on the way to it. -/
def makeDirectories (path : Path) : DiskM Unit :=
  makeFirst (ancestors (path.segments.length + 1) path)

/-- Writes a file, which keeps its mode if it exists. -/
def write (path : Path) (bytes : Bytes) : DiskM Unit := do
  let disk ← get
  match ← disk.resolve true path with
  | .found names (.file _ executable) => set (disk.put names (.file bytes executable))
  | .found _ _ => throw .isDirectory
  | .free names name trailing =>
    if trailing then throw .isDirectory
    else set (disk.put (names ++ [name]) (.file bytes false))

/-- Removes a file or a link. -/
def removeFile (path : Path) : DiskM Unit := do
  let disk ← get
  match ← disk.resolve false path with
  | .found _ (.directory _) => throw .isDirectory
  | .found names _ => set { disk with root := Node.remove names disk.root }
  | .free .. => throw .missing

/-- Writes a file unless it holds the bytes already, and makes the directories on the way to it.  Tells
whether it was written. -/
def writeIfChanged (path : Path) (bytes : Bytes) : DiskM Bool := do
  let unchanged := match (← get).read path with
    | .ok existing => existing == bytes
    | .error _ => false
  if unchanged then return false
  if let some parent := path.parent? then makeDirectories parent
  write path bytes
  return true

end Disk

end MailTemplate
