import MailTemplate.File.Path
import MailTemplate.Text.Utf8

/-!
# Tape archives

A tape archive is a sequence of blocks of 512 bytes: for every entry a header and its content filled
up to whole blocks, and two empty blocks at the end.  Every field of a header has a fixed place and
width.  Headers tell nothing about when and by whom an archive was made, so equal entries make equal
archives.

A name for which a header has no room goes into an entry of its own before the header, and the header
gets as much of it as fits.

## Main definitions

* `Tar.Entry` — a directory or a file under a name.
* `Tar.Header.bytes` — a header.
* `Tar.entryBytes`, `Tar.archive` — an entry, and a whole archive.
* `Tar.NameFault` — what is wrong with a name.

## Main results

* `Tar.field_length`, `Tar.octal_length`, `Tar.fill_length` — widths are as they are said to be.
-/

namespace MailTemplate

namespace Tar

/-- What an entry holds. -/
inductive Content where
  /-- A directory. -/
  | directory
  /-- A file, which can be executable. -/
  | file (bytes : Bytes) (executable : Bool)
  deriving DecidableEq, Repr

/-- A directory or a file under a name. -/
structure Entry where
  /-- The name. -/
  name : String
  /-- What it holds. -/
  content : Content
  deriving DecidableEq, Repr

namespace Content

/-- The bytes of a file; a directory has none. -/
def bytes : Content → Bytes
  | directory => []
  | file bytes _ => bytes

/-- Whether this is a directory. -/
def isDirectory : Content → Bool
  | directory => true
  | file .. => false

/-- Who may read, write and execute an entry. -/
def mode : Content → Nat
  | directory => 0o755
  | file _ executable => if executable then 0o755 else 0o644

/-- The letter of an entry's kind. -/
def letter : Content → Char
  | directory => '5'
  | file .. => '0'

end Content

/-! ## Fields -/

/-- The size of a block. -/
def blockSize : Nat := 512

/-- Bytes in a field of some width, filled up with zeros. -/
def field (width : Nat) (bytes : Bytes) : Bytes :=
  bytes.take width ++ List.replicate (width - bytes.length) 0

theorem field_length (width : Nat) (bytes : Bytes) : (field width bytes).length = width := by
  simp only [field, List.length_append, List.length_take, List.length_replicate]
  omega

/-- The last digits of a number in base eight, with a zero byte behind them. -/
def octal (width n : Nat) : Bytes :=
  ((List.range (width - 1)).reverse.map fun i => UInt8.ofNat (0x30 + n / Nat.pow 8 i % 8)) ++ [0]

theorem octal_length {width : Nat} (h : 0 < width) (n : Nat) : (octal width n).length = width := by
  simp only [octal, List.length_append, List.length_map, List.length_reverse, List.length_range,
    List.length_singleton]
  omega

/-- Bytes filled up to whole blocks. -/
def fill (bytes : Bytes) : Bytes :=
  bytes ++ List.replicate ((blockSize - bytes.length % blockSize) % blockSize) 0

theorem fill_length (bytes : Bytes) : (fill bytes).length % blockSize = 0 := by
  simp only [fill, blockSize, List.length_append, List.length_replicate]
  omega

/-! ## Headers -/

/-- What a header tells. -/
structure Header where
  /-- The name, as far as it fits. -/
  name : Bytes
  /-- Who may read, write and execute the entry. -/
  mode : Nat
  /-- The number of bytes that follow. -/
  size : Nat
  /-- A point in time, in seconds. -/
  time : Nat
  /-- The letter of the entry's kind. -/
  letter : Char
  /-- The numbers of the device. -/
  devices : Bytes

namespace Header

/-- What stands before the checksum of a header. -/
def front (h : Header) : Bytes :=
  field 100 h.name ++ octal 8 h.mode ++ octal 8 0 ++ octal 8 0 ++ octal 12 h.size ++
    octal 12 h.time

/-- What stands behind the checksum of a header. -/
def back (h : Header) : Bytes :=
  field 1 (Bytes.ofText [h.letter]) ++ field 100 [] ++ field 8 (Bytes.ofString "ustar  ") ++
    field 64 [] ++ field 183 h.devices

/-- The sum of the bytes of a header, blanks taken for the checksum itself. -/
def checksum (h : Header) : Nat :=
  ((h.front ++ List.replicate 8 0x20 ++ h.back).map UInt8.toNat).foldl (· + ·) 0

/-- A header. -/
def bytes (h : Header) : Bytes := h.front ++ octal 8 h.checksum ++ h.back

theorem bytes_length (h : Header) : h.bytes.length = blockSize := by
  simp [bytes, front, back, field_length, octal_length, blockSize]

end Header

/-- The time of every entry. -/
def timeOfEntries : Nat := 1153704088

/-! ## Names -/

/-- What is wrong with a name. -/
inductive NameFault where
  /-- It begins at the root. -/
  | absolute
  /-- It goes up to a directory above. -/
  | parent
  /-- It has no component. -/
  | empty
  deriving DecidableEq, Repr

/-- The text of a fault. -/
def NameFault.message : NameFault → String
  | absolute => "paths in archives must be relative"
  | parent => "paths in archives must not have \x60..\x60"
  | empty => "paths in archives must have at least one component"

/-- Components as a header has them, after those in `written`, or what is wrong with them and what was
written up to there.  Two dots are right at the end of a name that is cut off, since more can follow
them. -/
def writeComponents (isCut : Bool) (written : List String) :
    List Path.Component → Except (NameFault × List String) (List String)
  | [] => if written = [] then .error (.empty, written) else .ok written
  | .root :: _ => .error (.absolute, written)
  | .current :: rest =>
    writeComponents isCut (if rest = [] ∧ written = [] then ["."] else written) rest
  | .parent :: rest =>
    if isCut ∧ rest = [] then .ok (written ++ [".."]) else .error (.parent, written)
  | .name s :: rest => writeComponents isCut (written ++ [s]) rest

/-- A name as a header has it.  A failure tells what is wrong and what was written up to there. -/
def writeName (isCut : Bool) (name : String) : Except String Bytes :=
  match writeComponents isCut [] (Path.components ⟨name⟩) with
  | .error (fault, written) =>
    .error (fault.message ++ " when setting path for " ++ String.intercalate "/" written)
  | .ok written =>
    let text := String.intercalate "/" written
    .ok (Bytes.ofString (if name.toList.getLast? = some '/' then text ++ "/" else text))

/-- How many bytes of a name a header has room for. -/
def nameRoom : Nat := 100

/-- As many characters from the front of a text as so many bytes have room for. -/
def cut (room : Nat) : List Char → List Char
  | [] => []
  | c :: cs => if c.utf8Size ≤ room then c :: cut (room - c.utf8Size) cs else []

/-- What goes before the header of an entry, and the name in the header. -/
def nameParts (name : String) : Except String (Bytes × Bytes) :=
  let bytes := Bytes.ofString name
  let long : Except String (Bytes × Bytes) := do
    let link : Header :=
      ⟨Bytes.ofString "././@LongLink", 0o644, bytes.length + 1, 0, 'L', []⟩
    let short ← writeName true (String.ofList (cut nameRoom name.toList))
    return (link.bytes ++ fill (bytes ++ [0]), short)
  match writeName false name with
  | .ok short => if short.length ≤ nameRoom then .ok ([], short) else long
  | .error message => if bytes.length < nameRoom then .error message else long

/-! ## Archives -/

/-- An entry of an archive: what its name needs, its header and its content. -/
def entryBytes (entry : Entry) : Except String Bytes := do
  let (link, name) ← nameParts entry.name
  let header : Header :=
    { name
      mode := entry.content.mode
      size := entry.content.bytes.length
      time := timeOfEntries
      letter := entry.content.letter
      devices := octal 8 0 ++ octal 8 0 }
  return link ++ header.bytes ++ fill entry.content.bytes

/-- The end of an archive: two empty blocks. -/
def ending : Bytes := List.replicate (2 * blockSize) 0

/-- An archive of entries, or what is wrong with the first name that cannot be written. -/
def archive (entries : List Entry) : Except String Bytes := do
  return (← entries.mapM entryBytes).flatten ++ ending

end Tar

end MailTemplate
