import MailTemplate.Client.Profile
import MailTemplate.Mime.Message

/-!
# Packaging a document

An adapted document is written into every container that its client needs.  The subject of its
templates is its title.

## Main definitions

* `subjectOf` — the subject of a document.
* `Artifact` — a container file.
* `Profile.pack` — the container files of a document.
-/

namespace MailTemplate

/-- The subject of a document: the words of its first title, or a fallback if there are none. -/
def subjectOf (html fallback : String) : String :=
  let doc := Document.read html
  match doc.rawTexts "title" with
  | [] => fallback
  | span :: _ =>
    match Text.words (doc.text span) with
    | [] => fallback
    | words => String.ofList (Text.joinWith [' '] words)

/-- A file for a client. -/
structure Artifact where
  /-- Its kind. -/
  container : Container
  /-- Its name. -/
  fileName : String
  /-- What it holds. -/
  bytes : Bytes
  deriving DecidableEq, Repr

namespace Profile

/-- What a container of a document holds, and the levels that boundaries were drawn for so far. -/
def contents (container : Container) (html subject : String) (source : BoundarySource)
    (asked : List Nat) : Except Boundary.Failure Bytes × List Nat :=
  match container with
  | .single =>
    let (template, asked) := Template.single html subject source asked
    (template.map fun t => Bytes.ofText t.text, asked)
  | .nested =>
    let (template, asked) := Template.nested html subject source asked
    (template.map fun t => Bytes.ofText t.text, asked)
  | .html => (.ok (Bytes.ofString html), asked)

/-- The files for a list of containers.  The first failure ends the list. -/
def packAll (client : Client) (base html subject : String) (source : BoundarySource) :
    List Container → List Nat → Except Boundary.Failure (List Artifact) × List Nat
  | [], asked => (.ok [], asked)
  | container :: rest, asked =>
    match contents container html subject source asked with
    | (.error e, asked) => (.error e, asked)
    | (.ok bytes, asked) =>
      let (others, asked) := packAll client base html subject source rest asked
      (others.map (⟨container, container.fileName base client, bytes⟩ :: ·), asked)

/-- The files of a document for the client of a profile. -/
def pack (profile : Profile) (base html subject : String) (source : BoundarySource)
    (asked : List Nat) : Except Boundary.Failure (List Artifact) × List Nat :=
  packAll profile.client base html subject source profile.containers asked

end Profile

end MailTemplate
