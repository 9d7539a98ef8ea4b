import MailTemplate.Settings.Validation
import MailTemplate.Text.Quoted
import MailTemplate.Toml.Document
import MailTemplate.Toml.Text

/-!
# Settings from configuration values

A table is read into a record field by field, in the order of its keys.  A key that is no field is an
error, and so is a value of the wrong type.  A field that is not given keeps its stock value.  A
record can also be written as an array that gives its fields in order.

## Main definitions

* `Settings.Mismatch`, `Settings.FieldFault` — what can be wrong, and where.
* `Settings.Record` — the fields of a record.
* `Settings.decode` — the settings that a table gives.

## Main results

* `Settings.Record.readTable_nil` — a table without entries changes nothing.
-/

namespace MailTemplate

namespace Settings

open Toml (Value)

/-! ## Faults -/

/-- What a field can ask for. -/
inductive Expected where
  /-- A text. -/
  | text
  /-- A whole number of thirty-two bits. -/
  | word
  /-- A whole number of the machine's size. -/
  | size
  /-- An array. -/
  | sequence
  /-- A table of any keys. -/
  | map
  /-- A record. -/
  | record (name : String)
  deriving DecidableEq, Repr

/-- How readers are told what a field asks for. -/
def Expected.phrase : Expected → String
  | text => "a string"
  | word => "u32"
  | size => "usize"
  | sequence => "a sequence"
  | map => "a map"
  | record name => "struct " ++ name

/-- How readers are told what stands there instead. -/
def described : Value → String
  | .string s => "string " ++ Quoted.quote s
  | .integer n => "integer \x60" ++ toString n ++ "\x60"
  | .float x => "floating point \x60" ++ x.plainText ++ "\x60"
  | .boolean b => "boolean \x60" ++ (if b then "true" else "false") ++ "\x60"
  | .datetime t => "string " ++ Quoted.quote t.text
  | .array _ => "sequence"
  | .table _ => "map"

/-- What can be wrong with a value. -/
inductive Mismatch where
  /-- It is of the wrong type. -/
  | type (found : String) (expected : Expected)
  /-- It is out of range. -/
  | value (found : String) (expected : Expected)
  /-- A key is no field. -/
  | unknown (key : String) (fields : List String)
  /-- A field is missing. -/
  | missing (key : String)
  /-- An array for a record with some fields is too short. -/
  | short (length : Nat) (expected : Expected) (fields : Nat)
  /-- An array for a record is too long. -/
  | long (length : Nat)
  deriving DecidableEq, Repr

/-- Names in backticks with the last two joined by a word or all listed. -/
def alternatives (names : List String) : String :=
  let quoted := names.map fun n => "\x60" ++ n ++ "\x60"
  match quoted with
  | [] => "there are no fields"
  | [a] => "expected " ++ a
  | [a, b] => "expected " ++ a ++ " or " ++ b
  | _ => "expected one of " ++ String.intercalate ", " quoted

/-- The text of what is wrong. -/
def Mismatch.message : Mismatch → String
  | type found expected => "invalid type: " ++ found ++ ", expected " ++ expected.phrase
  | value found expected => "invalid value: " ++ found ++ ", expected " ++ expected.phrase
  | unknown key fields => "unknown field \x60" ++ key ++ "\x60, " ++ alternatives fields
  | missing key => "missing field \x60" ++ key ++ "\x60"
  | short length expected fields =>
    "invalid length " ++ toString length ++ ", expected " ++ expected.phrase ++ " with " ++
      toString fields ++ " elements"
  | long length => "invalid length " ++ toString length ++ ", expected fewer elements in array"

/-- A value that is wrong, and the keys that lead to it. -/
structure FieldFault where
  /-- The keys. -/
  keys : List String
  /-- What is wrong. -/
  mismatch : Mismatch
  deriving DecidableEq, Repr

/-- The text of a fault, which ends its lines. -/
def FieldFault.message (fault : FieldFault) : String :=
  fault.mismatch.message ++ "\n" ++
    (if fault.keys = [] then ""
      else "in \x60" ++ String.intercalate "." fault.keys ++ "\x60\n")

/-- A reading of a value. -/
abbrev Decoded (α : Type) := Except FieldFault α

/-- A fault where the reading is. -/
def fault (mismatch : Mismatch) : Decoded α := .error ⟨[], mismatch⟩

/-- A reading of what stands under a key. -/
def under (key : String) (reading : Decoded α) : Decoded α :=
  reading.mapError fun f => ⟨key :: f.keys, f.mismatch⟩

/-! ## Scalars, arrays and maps -/

/-- A text.  Dates and times are texts too. -/
def text : Value → Decoded String
  | .string s => .ok s
  | .datetime t => .ok t.text
  | v => fault (.type (described v) .text)

/-- A whole number below a bound. -/
def number (expected : Expected) (bound : Nat) : Value → Decoded Nat
  | .integer n =>
    if 0 ≤ n ∧ n.toNat < bound then .ok n.toNat
    else fault (.value (described (.integer n)) expected)
  | v => fault (.type (described v) expected)

/-- The values of an array. -/
def list (item : Value → Decoded α) : Value → Decoded (List α)
  | .array vs => vs.mapM item
  | v => fault (.type (described v) .sequence)

/-- The values of a table. -/
def map (item : Value → Decoded α) : Value → Decoded (List (String × α))
  | .table entries => entries.mapM fun (key, v) => (under key (item v)).map (key, ·)
  | v => fault (.type (described v) .map)

/-! ## Records -/

/-- A field of a record: its key, and a record with the field read from a value. -/
structure Field (σ : Type) where
  /-- The key. -/
  key : String
  /-- The record with the field set. -/
  read : Value → σ → Decoded σ

/-- A field that a value is read for and then set. -/
def Field.of (key : String) (item : Value → Decoded α) (set : α → σ → σ) : Field σ :=
  ⟨key, fun v s => (item v).map fun a => set a s⟩

/-- The name and the fields of a record. -/
structure Record (σ : Type) where
  /-- The name. -/
  name : String
  /-- The fields in order. -/
  fields : List (Field σ)

namespace Record

variable {σ : Type}

/-- A record with the entries of a table read into it. -/
def readTable (record : Record σ) : List (String × Value) → σ → Decoded σ
  | [], s => .ok s
  | (key, v) :: rest, s =>
    match record.fields.find? fun f => f.key == key with
    | none => fault (.unknown key (record.fields.map Field.key))
    | some field => do readTable record rest (← under key (field.read v s))

/-- A record with the items of an array read into its fields in order.  The number of fields that were
read is told too. -/
def readItems : List (Field σ) → List Value → σ → Decoded (σ × Nat)
  | field :: fields, v :: vs, s => do
    let (s, n) ← readItems fields vs (← field.read v s)
    return (s, n + 1)
  | _, _, s => .ok (s, 0)

/-- A record with a value read into it. -/
def read (record : Record σ) (v : Value) (s : σ) : Decoded σ :=
  match v with
  | .table entries => record.readTable entries s
  | .array vs => do
    let (s, n) ← readItems record.fields vs s
    if n < vs.length then fault (.long vs.length) else .ok s
  | v => fault (.type (described v) (.record record.name))

theorem readTable_nil (record : Record σ) (s : σ) : record.readTable [] s = .ok s := rfl

end Record

/-- A field that is a record itself. -/
def Field.nested (key : String) (record : Record τ) (get : σ → τ) (set : τ → σ → σ) : Field σ :=
  ⟨key, fun v s => (record.read v (get s)).map fun t => set t s⟩

/-! ## The records of the settings -/

/-- The places. -/
def pathRecord : Record PathSettings where
  name := "PathsConfig"
  fields :=
    [.of "source_root" text fun a s => { s with sourceRoot := a },
      .of "output" text fun a s => { s with output := a },
      .of "exports" text fun a s => { s with exports := a },
      .of "components" text fun a s => { s with components := a },
      .of "include" (list text) fun a s => { s with includes := a },
      .of "exclude" (list text) fun a s => { s with excludes := a },
      .of "ignored_dirs" (list text) fun a s => { s with ignoredDirectories := a }]

/-- The compiler. -/
def compilerRecord : Record CompilerSettings where
  name := "CompilerConfig"
  fields :=
    [.of "command" text fun a s => { s with command := a },
      .of "args" (list text) fun a s => { s with arguments := a }]

/-- The HTML export. -/
def htmlRecord : Record HtmlSettings where
  name := "HtmlConfig"
  fields := [.of "title" text fun a s => { s with title := a }]

/-- A cell signature as far as it is read. -/
structure PartialSignature where
  /-- Its class. -/
  className : Option String := none
  /-- Its styles. -/
  styles : Option (List (String × String)) := none

/-- A cell signature. -/
def signatureRecord : Record PartialSignature where
  name := "CellClassRule"
  fields :=
    [.of "class" text fun a s => { s with className := some a },
      .of "styles" (map text) fun a s => { s with styles := some a }]

/-- A cell signature that a value gives.  Both of its fields are needed. -/
def signature (v : Value) : Decoded CellSignature := do
  let s ← match v with
    | .array vs =>
      if vs.length < signatureRecord.fields.length then do
        let (_, n) ← Record.readItems signatureRecord.fields vs {}
        fault (.short n (.record signatureRecord.name) signatureRecord.fields.length)
      else signatureRecord.read v {}
    | v => signatureRecord.read v {}
  match s.className, s.styles with
  | some className, some styles => .ok ⟨className, styles⟩
  | none, _ => fault (.missing "class")
  | _, none => fault (.missing "styles")

/-- The Outlook export. -/
def outlookRecord : Record OutlookSettings where
  name := "OutlookConfig"
  fields :=
    [.of "web_fonts" (list text) fun a s => { s with webFonts := a },
      .of "fallback_fonts" text fun a s => { s with fallbackFonts := a },
      .of "vml_width" text fun a s => { s with backgroundWidth := a },
      .of "column_classes" (list text) fun a s => { s with columnClasses := a },
      .of "cell_classes" (list signature) fun a s => { s with cellClasses := a }]

/-- The archives. -/
def archiveRecord : Record ArchiveSettings where
  name := "ArchiveConfig"
  fields :=
    [.of "compression" (number .word (Nat.pow 2 32)) fun a s => { s with compression := a },
      .of "source_files" (list text) fun a s => { s with sourceFiles := a },
      .of "extra_files" (list text) fun a s => { s with extraFiles := a }]

/-- Parallel compilation. -/
def processingRecord : Record ProcessingSettings where
  name := "ProcessingConfig"
  fields :=
    [.of "max_processes" (number .size (Nat.pow 2 64)) fun a s => { s with maxProcesses := some a }]

/-- All settings.  A table inside them is read over its stock values. -/
def settingsRecord : Record Settings where
  name := "ProjectConfig"
  fields :=
    [.of "project_name" text fun a s => { s with projectName := a },
      .nested "paths" pathRecord (fun _ => {}) fun a s => { s with paths := a },
      .nested "compiler" compilerRecord (fun _ => {}) fun a s => { s with compiler := a },
      .nested "html" htmlRecord (fun _ => {}) fun a s => { s with html := a },
      .nested "outlook" outlookRecord (fun _ => {}) fun a s => { s with outlook := a },
      .nested "archive" archiveRecord (fun _ => {}) fun a s => { s with archive := a },
      .nested "processing" processingRecord (fun _ => {}) fun a s => { s with processing := a }]

/-- The settings that a table gives. -/
def decode (entries : List (String × Value)) : Decoded Settings :=
  settingsRecord.readTable entries stock

end Settings

end MailTemplate
