import MailTemplate.Text.Basic

/-!
# Paths

A path is a text whose components are separated by slashes.  Repeated and trailing separators and
inner single dots do not count as components; a leading separator and a leading single dot do.  Two
paths are alike if they have the same components, whatever their texts.

## Main definitions

* `Path`, `Path.Component`, `Path.components` — a path and what it consists of.
* `Path.join`, `Path.down`, `Path.parent?`, `Path.strip?` — going down, up, and below another path.
* `Path.name?`, `Path.stem`, `Path.extension?`, `Path.withExtension` — the last component.
* `Path.relativeTo` — a path as shown below a root.

## Main results

* `Path.join_of_isAbsolute` — an absolute path replaces what it is joined to.
* `Path.startsWith_refl`, `Path.startsWith_trans` — being below is a preorder.
-/

namespace MailTemplate

/-- A path. -/
structure Path where
  /-- Its text. -/
  text : String
  deriving DecidableEq, Repr

namespace Path

/-- A component of a path. -/
inductive Component where
  /-- The root of the file system. -/
  | root
  /-- The current directory. -/
  | current
  /-- The directory above. -/
  | parent
  /-- An entry of a directory. -/
  | name (s : String)
  deriving DecidableEq, Repr

/-- How a component is written. -/
def Component.text : Component → String
  | root => "/"
  | current => "."
  | parent => ".."
  | name s => s

/-! ## Components -/

/-- The texts between the separators. -/
def segments (p : Path) : List (List Char) := p.text.toList.splitOn '/'

/-- The path that is made of segments. -/
def ofSegments (segments : List (List Char)) : Path :=
  ⟨String.ofList (Text.joinWith ['/'] segments)⟩

/-- Whether a segment is no component unless it leads. -/
def isTrivial (segment : List Char) : Bool := segment == [] || segment == ['.']

/-- The component that a segment is. -/
def component? (segment : List Char) : Option Component :=
  if isTrivial segment then none
  else if segment = ['.', '.'] then some .parent
  else some (.name (String.ofList segment))

/-- Whether a path begins at the root. -/
def isAbsolute (p : Path) : Bool := p.text.toList.head? == some '/'

/-- The components of a path. -/
def components (p : Path) : List Component :=
  let inner := p.segments.filterMap component?
  if p.isAbsolute then .root :: inner
  else if p.segments.head? = some ['.'] then .current :: inner
  else inner

/-- Whether two paths have the same components. -/
def alike (p q : Path) : Bool := p.components == q.components

/-- Whether the components of a path begin with those of another one. -/
def startsWith (p base : Path) : Bool := base.components.isPrefixOf p.components

theorem startsWith_iff {p base : Path} :
    p.startsWith base = true ↔ base.components <+: p.components :=
  List.isPrefixOf_iff_prefix

theorem startsWith_refl (p : Path) : p.startsWith p = true :=
  startsWith_iff.2 (List.prefix_refl _)

theorem startsWith_trans {p q r : Path} (hpq : p.startsWith q = true)
    (hqr : q.startsWith r = true) : p.startsWith r = true :=
  startsWith_iff.2 ((startsWith_iff.1 hqr).trans (startsWith_iff.1 hpq))

/-! ## Going down and up -/

/-- A path below another one.  An absolute path replaces the other one. -/
def join (p q : Path) : Path :=
  if q.isAbsolute then q
  else if p.text = "" ∨ p.text.toList.getLast? = some '/' then ⟨p.text ++ q.text⟩
  else ⟨p.text ++ "/" ++ q.text⟩

theorem join_of_isAbsolute (p : Path) {q : Path} (h : q.isAbsolute = true) : p.join q = q := by
  simp [join, h]

/-- A path below another one, given by its text. -/
def child (p : Path) (text : String) : Path := p.join ⟨text⟩

/-- A path below another one, through entries of some names. -/
def down (p : Path) (names : List String) : Path := names.foldl child p

/-- A path without trivial segments at its end. -/
def trimmed (p : Path) : Path :=
  match p.segments with
  | [] => p
  | first :: rest =>
    match rest.reverse.dropWhile isTrivial with
    | [] => if p.isAbsolute then ⟨"/"⟩ else ofSegments [first]
    | kept => ofSegments (first :: kept.reverse)

/-- The path of the directory that a path is in. -/
def parent? (p : Path) : Option Path :=
  match p.segments with
  | [] => none
  | first :: rest =>
    match rest.reverse.dropWhile isTrivial with
    | [] => if p.isAbsolute ∨ p.text = "" then none else some ⟨""⟩
    | _ :: front =>
      match front.dropWhile isTrivial with
      | [] => if p.isAbsolute then some ⟨"/"⟩ else some (ofSegments [first])
      | kept => some (ofSegments (first :: kept.reverse))

/-- What remains of segments when a number of components is taken from their front. -/
def dropComponents : Nat → List (List Char) → List (List Char)
  | 0, rest => rest.dropWhile isTrivial
  | n + 1, rest => dropComponents n ((rest.dropWhile isTrivial).drop 1)

/-- A path as seen from another one that it starts with. -/
def strip? (p base : Path) : Option Path :=
  if p.startsWith base then
    match base.components.length with
    | 0 => some p.trimmed
    | n + 1 =>
      let rest := dropComponents n (p.segments.drop 1)
      some (ofSegments (rest.reverse.dropWhile isTrivial).reverse)
  else none

/-- A path as seen from another one, or the path itself if it does not start with it. -/
def strip (p base : Path) : Path := (p.strip? base).getD p

/-- The components of a path as seen from another one, with slashes between them. -/
def relativeTo (p base : Path) : String :=
  String.intercalate "/" ((p.strip base).components.map Component.text)

/-! ## The last component -/

/-- The name of the entry that a path leads to. -/
def name? (p : Path) : Option String :=
  match p.components.getLast? with
  | some (.name s) => some s
  | _ => none

/-- The parts of a name around its last dot.  A dot that leads the name does not count. -/
def splitName (name : List Char) : List Char × Option (List Char) :=
  let back := name.reverse.takeWhile (· != '.')
  let front := (name.reverse.dropWhile (· != '.')).drop 1
  if front = [] then (name, none) else (front.reverse, some back.reverse)

/-- The name of an entry up to its extension. -/
def stem? (p : Path) : Option String :=
  p.name?.map fun name => String.ofList (splitName name.toList).1

/-- The name of an entry up to its extension, or nothing if there is no name. -/
def stem (p : Path) : String := p.stem?.getD ""

/-- What stands behind the last dot of the name of an entry. -/
def extension? (p : Path) : Option String :=
  p.name?.bind fun name => (splitName name.toList).2.map String.ofList

/-- A path with another extension.  If nothing but two dots remains when the old extension is
taken from the end of the text, there is no name to extend. -/
def withExtension (p : Path) (extension : String) : Path :=
  match p.name? with
  | none => p
  | some name =>
    let segments := (p.segments.reverse.dropWhile isTrivial).reverse
    let (stem, old) := splitName name.toList
    if stem = ['.'] ∧ old.isSome ∧ p.segments.getLast? = some name.toList then
      ofSegments (segments.dropLast ++ [['.', '.']])
    else ofSegments (segments.dropLast ++ [stem ++ '.' :: extension.toList])

/-! ## Showing a path -/

/-- The text of a path with backslashes shown as slashes. -/
def shown (p : Path) : String := String.ofList (p.text.toList.map fun c => if c = '\\' then '/' else c)

end Path

end MailTemplate
