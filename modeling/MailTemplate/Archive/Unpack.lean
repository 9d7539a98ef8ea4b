import MailTemplate.Archive.Tar
import MailTemplate.File.Disk

/-!
# Unpacking tape archives

A tape archive is read block by block, up to an empty block.  Entries other than files and directories
are left out.

## Main definitions

* `Tar.entries` — the entries of an archive.
* `Tar.unpack` — a disk with the entries below a directory.
-/

namespace MailTemplate

namespace Tar

/-- So many bytes from a place on. -/
def slice (start count : Nat) (block : Bytes) : Bytes := (block.drop start).take count

/-- The text of a field up to its first zero byte. -/
def fieldText (bytes : Bytes) : String :=
  String.ofList (Bytes.decodeLossy (bytes.takeWhile (· != 0)))

/-- The value of the digits in base eight in a field. -/
def fieldValue (bytes : Bytes) : Nat :=
  (bytes.filter fun b => 0x30 ≤ b && b ≤ 0x37).foldl (fun n b => n * 8 + (b.toNat - 0x30)) 0

/-- The name in a header, with the part in front of it that some headers keep in another field. -/
def headerName (block : Bytes) : String :=
  let name := fieldText (slice 0 100 block)
  let front := fieldText (slice 345 155 block)
  if slice 257 6 block = Bytes.ofString "ustar" ++ [0] ∧ front ≠ "" then front ++ "/" ++ name
  else name

/-- The entries of an archive of at most so many blocks, the first of them under a name that came
before it. -/
def entriesFrom (long : Option String) : Nat → Bytes → List Entry
  | 0, _ => []
  | n + 1, bytes =>
    let block := bytes.take blockSize
    if block.length < blockSize ∨ block.all (· == 0) then []
    else
      let size := fieldValue (slice 124 12 block)
      let content := slice blockSize size bytes
      let rest := bytes.drop (blockSize + (fill content).length)
      let name := long.getD (headerName block)
      let isExecutable := fieldValue (slice 100 8 block) / 0o100 % 2 == 1
      match (slice 156 1 block).map fun b => Char.ofNat b.toNat with
      | ['L'] => entriesFrom (some (fieldText content)) n rest
      | ['5'] => ⟨name, .directory⟩ :: entriesFrom none n rest
      | ['0'] => ⟨name, .file content isExecutable⟩ :: entriesFrom none n rest
      | _ => entriesFrom none n rest

/-- The entries of an archive. -/
def entries (bytes : Bytes) : List Entry := entriesFrom none (bytes.length / blockSize) bytes

/-- Puts an entry on a disk. -/
def Entry.place (entry : Entry) : DiskM Unit := do
  let path : Path := ⟨entry.name⟩
  match entry.content with
  | .directory => Disk.makeDirectories path
  | .file bytes executable =>
    if let some parent := path.parent? then Disk.makeDirectories parent
    match (← get).resolve true path with
    | .ok (.free names name false) =>
      modify (·.put (names ++ [name]) (.file bytes executable))
    | _ => Disk.write path bytes

/-- A disk whose current directory has what an archive holds.  What cannot be put there is left
out. -/
def unpack (bytes : Bytes) (current : String) : Disk :=
  let empty : Disk := ⟨.directory [(current, .directory [])], [current]⟩
  (entries bytes).foldl (fun disk entry => (entry.place.run.run disk).2) empty

end Tar

end MailTemplate
