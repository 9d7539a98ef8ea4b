import MailTemplate.Toml.Scalar

/-!
# Configuration files

A file is a sequence of entries and headers.  A header opens a table, which the entries behind it
belong to, or adds a table to an array of tables.  A table can be opened only once, and a key can be
set only once.  Dotted keys open tables of their own, which no header can open again.

## Main definitions

* `Toml.Item` — a value under construction.
* `Toml.Item.update?` — a change of the table at a path.
* `Toml.parse?` — the table that a file holds.
-/

namespace MailTemplate

namespace Toml

/-- A value under construction.  A table is implicit until a header opens it, and dotted if dotted
keys have opened it. -/
inductive Item where
  /-- A value that is complete. -/
  | value (v : Value)
  /-- A table. -/
  | table (implicit dotted : Bool) (entries : List (String × Item))
  /-- An array of tables. -/
  | tables (elements : List Item)

namespace Item

/-- The entries of a table under construction. -/
abbrev Items := List (String × Item)

/-- A table as a header opens it. -/
def opened (entries : Items) : Item := .table false false entries

/-- A change of the table at a path below a table, which is made if it does not exist.  The change is
told whether the table is dotted.  An array of tables stands for its last element.  A path of dotted
keys does not lead through tables that a header has opened. -/
def update? (byDots : Bool) (change : Bool → Items → Option Items) :
    List String → Bool → Items → Option Items
  | [], dotted, entries => change dotted entries
  | key :: path, _, entries =>
    match Entries.find? key entries with
    | none =>
      (update? byDots change path byDots []).map fun es =>
        Entries.insert key (.table true byDots es) entries
    | some (.value _) => none
    | some (.table implicit dotted es) =>
      if byDots ∧ implicit = false then none
      else
        (update? byDots change path dotted es).map fun es =>
          Entries.insert key (.table implicit dotted es) entries
    | some (.tables elements) =>
      match elements.getLast? with
      | some (.table implicit dotted es) =>
        (update? byDots change path dotted es).map fun es =>
          Entries.insert key (.tables (elements.dropLast ++ [.table implicit dotted es])) entries
      | _ => none

/-- The entry of a key and a value in a table that is reached by a path of dotted keys. -/
def set? (path : List String) (v : Value) (dotted : Bool) (entries : Items) : Option Items :=
  match path.getLast? with
  | none => none
  | some key =>
    update? true (fun dotted es =>
      if dotted = path.dropLast.isEmpty then none
      else if (Entries.find? key es).isSome then none
      else some (Entries.insert key (.value v) es)) path.dropLast dotted entries

/-- Opens the table of a header. -/
def openTable? (path : List String) (entries : Items) : Option Items :=
  path.getLast?.bind fun key =>
    update? false (fun _ es =>
      match Entries.find? key es with
      | none => some (Entries.insert key (opened []) es)
      | some (.table true false sub) => some (Entries.insert key (opened sub) es)
      | some _ => none) path.dropLast false entries

/-- Adds a table to the array of a header. -/
def addTable? (path : List String) (entries : Items) : Option Items :=
  path.getLast?.bind fun key =>
    update? false (fun _ es =>
      match Entries.find? key es with
      | none => some (Entries.insert key (.tables [opened []]) es)
      | some (.tables elements) => some (Entries.insert key (.tables (elements ++ [opened []])) es)
      | some _ => none) path.dropLast false entries

mutual

/-- A value when its construction is over. -/
def finish : Item → Value
  | .value v => v
  | .table _ _ entries => .table (finishEntries entries)
  | .tables elements => .array (finishAll elements)

/-- The values of entries. -/
def finishEntries : List (String × Item) → List (String × Value)
  | [] => []
  | (key, item) :: rest => (key, item.finish) :: finishEntries rest

/-- The values of elements. -/
def finishAll : List Item → List Value
  | [] => []
  | item :: rest => item.finish :: finishAll rest

end

end Item

/-! ## Values -/

/-- The elements of an array up to its bracket.  A comma can stand behind the last one. -/
def elements? (item : Reader Value) (fuel : Nat) (taken : List Value) (cs : List Char) :
    Option (List Value × List Char) :=
  match fuel with
  | 0 => none
  | fuel + 1 =>
    match dropFiller cs with
    | ']' :: rest => some (taken.reverse, rest)
    | cs =>
      (item cs).bind fun (v, rest) =>
        match dropFiller rest with
        | ',' :: rest => elements? item fuel (v :: taken) rest
        | ']' :: rest => some ((v :: taken).reverse, rest)
        | _ => none

/-- A key and its value. -/
def keyed? (item : Reader Value) : Reader (List String × Value) := fun cs =>
  (dottedKey? cs).bind fun (key, rest) =>
    match rest with
    | '=' :: rest => (item (dropBlanks rest)).map fun (v, rest) => ((key, v), rest)
    | _ => none

/-- The entries of a table on one line up to its brace. -/
def inlineEntries? (item : Reader Value) (fuel : Nat) (entries : Item.Items) (cs : List Char) :
    Option (Item.Items × List Char) :=
  match fuel with
  | 0 => none
  | fuel + 1 =>
    (keyed? item cs).bind fun ((key, v), rest) =>
      (Item.set? key v false entries).bind fun entries =>
        match dropBlanks rest with
        | ',' :: rest => inlineEntries? item fuel entries rest
        | '\x7d' :: rest => some (entries, rest)
        | _ => none

/-- A value with so many levels of arrays and tables inside it at most. -/
def value? : Nat → Reader Value
  | _, '"' :: rest => (string? ('"' :: rest)).map fun (s, rest) => (.string (String.ofList s), rest)
  | _, '\'' :: rest =>
    (string? ('\'' :: rest)).map fun (s, rest) => (.string (String.ofList s), rest)
  | depth + 1, '[' :: rest =>
    (elements? (value? depth) (rest.length + 1) [] rest).map fun (vs, rest) => (.array vs, rest)
  | depth + 1, '\x7b' :: rest =>
    match dropBlanks rest with
    | '\x7d' :: rest => some (.table [], rest)
    | _ =>
      (inlineEntries? (value? depth) (rest.length + 1) [] rest).map fun (es, rest) =>
        (.table (Item.finishEntries es), rest)
  | _, cs => scalar? cs

/-! ## Files -/

/-- What the lines of a file have said so far: the entries of the file, and the path of the table that
was opened last. -/
structure Progress where
  /-- The entries. -/
  entries : Item.Items
  /-- The path. -/
  header : List String

/-- The header at the front of a text, whether it adds a table to an array, and the text behind its
line. -/
def header? : Reader (Bool × List String)
  | '[' :: '[' :: rest =>
    (dottedKey? rest).bind fun (path, rest) =>
      match rest with
      | ']' :: ']' :: rest => (lineRest? rest).map ((true, path), ·)
      | _ => none
  | '[' :: rest =>
    (dottedKey? rest).bind fun (path, rest) =>
      match rest with
      | ']' :: rest => (lineRest? rest).map ((false, path), ·)
      | _ => none
  | _ => none

/-- The line at the front of a text that begins neither with a blank nor with a line end or a
comment. -/
def line? (p : Progress) (cs : List Char) : Option (Progress × List Char) :=
  match cs with
  | '[' :: _ =>
    (header? cs).bind fun ((adds, path), rest) =>
      (if adds then Item.addTable? path p.entries else Item.openTable? path p.entries).map
        fun entries => (⟨entries, path⟩, rest)
  | _ =>
    (keyed? (value? maxDepth) cs).bind fun ((key, v), rest) =>
      (lineRest? rest).bind fun rest =>
        (Item.update? false (Item.set? key v) p.header false p.entries).map fun entries =>
          (⟨entries, p.header⟩, rest)

/-- The lines of a text. -/
def lines? (fuel : Nat) (p : Progress) (cs : List Char) : Option Progress :=
  match fuel with
  | 0 => none
  | fuel + 1 =>
    match dropFiller cs with
    | [] => some p
    | cs => (line? p cs).bind fun (p, rest) => lines? fuel p rest

/-- The entries of the table that a file holds. -/
def parse? (text : String) : Option (List (String × Value)) :=
  let cs := match text.toList with
    | '\ufeff' :: rest => rest
    | cs => cs
  (lines? (cs.length + 1) ⟨[], []⟩ cs).map fun p => Item.finishEntries p.entries

end Toml

end MailTemplate
