import MailTemplate.Entries
import MailTemplate.File.Path
import MailTemplate.Text.Utf8

/-!
# Trees of files

A node is a file, a symbolic link or a directory, whose entries can be listed in any order.

## Main definitions

* `Node` — a file, a link or a directory.
* `Node.at?`, `Node.put` — what is at a place inside a directory.
* `Node.visits`, `Node.walk` — everything below a node, directories before what they hold, and entries
  in the order of their names.
-/

namespace MailTemplate

/-- A node of a tree. -/
inductive Node where
  /-- A file, which can be executable. -/
  | file (bytes : Bytes) (executable : Bool)
  /-- A symbolic link. -/
  | link (target : Path)
  /-- A directory. -/
  | directory (entries : List (String × Node))
  deriving Repr

namespace Node

/-- Whether a node is a directory. -/
def isDirectory : Node → Bool
  | directory _ => true
  | _ => false

/-- Whether a node is a file. -/
def isFile : Node → Bool
  | file .. => true
  | _ => false

/-- The entries of a directory. -/
def entries : Node → List (String × Node)
  | directory es => es
  | _ => []

/-- What is at a place inside a directory.  Links are not followed. -/
def at? : List String → Node → Option Node
  | [], node => some node
  | name :: names, directory es =>
    match Entries.find? name es with
    | some node => at? names node
    | none => none
  | _ :: _, _ => none

/-- A directory with a node at a place.  Nothing changes if there is no directory to put it into. -/
def put (new : Node) : List String → Node → Node
  | [], _ => new
  | [name], directory es => directory (Entries.insert name new es)
  | name :: names, directory es =>
    match Entries.find? name es with
    | some node => directory (Entries.insert name (put new names node) es)
    | none => directory es
  | _ :: _, node => node

/-- A directory without what is at a place. -/
def remove : List String → Node → Node
  | [name], directory es => directory (Entries.erase name es)
  | name :: names, directory es =>
    match Entries.find? name es with
    | some node => directory (Entries.insert name (remove names node) es)
    | none => directory es
  | _, node => node

/-! ## Walks -/

mutual

/-- The places below a node and what is there, the node itself first and every directory before what it
holds.  The entries of a directory are visited in the order of their names, in whatever order they are
listed.  Only some directories are entered, and the others are left out. -/
def visits (enters : Path → String → Bool) (path : Path) : Node → List (List String × Node)
  | directory es => ([], directory es) :: (visitsOf enters path es).flatMap fun (name, inside) =>
      inside.map fun (names, node) => (name :: names, node)
  | node => [([], node)]

/-- The places below some entries of a directory, for each of them by its name. -/
def visitsOf (enters : Path → String → Bool) (path : Path) :
    List (String × Node) → List (String × List (List String × Node))
  | [] => []
  | (name, node) :: rest =>
    let inner := path.child name
    Entries.insert name
      (if node.isDirectory && !enters inner name then [] else visits enters inner node)
      (visitsOf enters path rest)

end

/-- A node and everything below it, with paths that go on from the node's own. -/
def walk (enters : Path → String → Bool) (path : Path) (node : Node) : List (Path × Node) :=
  (visits enters path node).map fun (names, inner) => (path.down names, inner)

end Node

end MailTemplate
