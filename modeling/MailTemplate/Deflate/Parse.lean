import MailTemplate.Deflate.Block
import MailTemplate.Deflate.Search

/-!
# Turning bytes into symbols

The level of compression decides how bytes are turned into symbols: not at all, by a quick look at
the last place with the same three bytes, or by a search.  After a search the copy found at a place
can give way to a longer one at the next place.  Symbols are collected into blocks.

## Main definitions

* `Deflate.Effort` — what the levels stand for.
* `Deflate.parse` — the blocks of some bytes.
-/

namespace MailTemplate

namespace Deflate

/-- How symbols are found. -/
inductive Effort where
  /-- Bytes stay plain. -/
  | none
  /-- By a quick look. -/
  | quick
  /-- By a search with a number of probes.  It is eager if the first copy found is taken. -/
  | search (probes : Nat) (eager : Bool)
  deriving DecidableEq, Repr

/-- The effort of a level. -/
def Effort.ofLevel (level : Nat) : Effort :=
  match level with
  | 0 => .none
  | 1 => .quick
  | _ => .search ([0, 1, 6, 32, 16, 32, 128, 256, 512, 768].getD level 1500) (level ≤ 3)

/-! ## Collecting symbols -/

/-- The symbols of a block so far. -/
structure Collected where
  /-- The symbols, the last one first. -/
  symbols : List Symbol := []
  /-- The number of symbols. -/
  number : Nat := 0
  /-- The number of copies among them. -/
  copies : Nat := 0
  /-- The number of bytes that they stand for. -/
  size : Nat := 0

namespace Collected

/-- One more symbol. -/
def add (c : Collected) (s : Symbol) : Collected :=
  let isCopy := match s with
    | .literal _ => 0
    | .copy .. => 1
  ⟨s :: c.symbols, c.number + 1, c.copies + isCopy, c.size + s.size⟩

/-- How much room the symbols take: one unit each, two more for each copy, and one for every eight
symbols. -/
def room (c : Collected) : Nat := 1 + c.number + 2 * c.copies + c.number / 8

/-- Whether no room is left. -/
def isFull (c : Collected) : Bool := 65528 < c.room

/-- Whether there are many bytes and nothing is gained by the symbols. -/
def isFat (c : Collected) (mustBePlain : Bool) : Bool :=
  31 * 1024 < c.size && (mustBePlain || c.size ≤ c.room * 115 / 128)

end Collected

/-- How far parsing has come. -/
structure Progress where
  /-- The place reached. -/
  place : Nat := 0
  /-- How many bytes before it are at hand. -/
  history : Nat := 0
  /-- The symbols of the block. -/
  collected : Collected := {}
  /-- The place at which the block begins. -/
  blockStart : Nat := 0
  /-- The blocks before it, the last one first. -/
  blocks : List Block := []

namespace Progress

/-- The progress before so many bytes are ready to be read: no more history is kept than there is room
for. -/
def lookAhead (p : Progress) (ready : Nat) : Progress :=
  { p with history := min (window - ready) p.history }

/-- The progress so many bytes on. -/
def advance (p : Progress) (n : Nat) : Progress :=
  { p with place := p.place + n, history := min (p.history + n) window }

/-- The progress with one more symbol. -/
def add (p : Progress) (s : Symbol) : Progress := { p with collected := p.collected.add s }

/-- The block of the collected symbols. -/
def block (data : Array UInt8) (mustBePlain isLast : Bool) (p : Progress) : Block :=
  let plain :=
    if p.place - p.blockStart ≤ p.history then
      some (data.extract p.blockStart (p.blockStart + p.collected.size)).toList
    else none
  ⟨p.collected.symbols.reverse, plain, mustBePlain && plain.isSome, isLast⟩

/-- The progress with the collected symbols put into a block. -/
def flush (data : Array UInt8) (mustBePlain : Bool) (p : Progress) : Progress :=
  { p with
    blocks := p.block data mustBePlain false :: p.blocks
    blockStart := p.blockStart + p.collected.size
    collected := {} }

/-- All blocks. -/
def finish (data : Array UInt8) (mustBePlain : Bool) (p : Progress) : List Block :=
  (p.block data mustBePlain true :: p.blocks).reverse

end Progress

/-- A byte as a symbol. -/
def literalAt (data : Array UInt8) (place : Nat) : Symbol := .literal (Chains.byte data place)

/-! ## No effort -/

/-- Takes bytes as they are. -/
def takePlain (data : Array UInt8) (fuel : Nat) (p : Progress) : Progress :=
  match fuel with
  | 0 => p
  | fuel + 1 =>
    if data.size ≤ p.place then p
    else
      let p := p.lookAhead (min maxCopy (data.size - p.place))
      let p := (p.add (literalAt data p.place)).advance 1
      takePlain data fuel (if p.collected.isFat true then p.flush data true else p)

/-! ## Quick looks -/

/-- How many bytes are made ready at once for quick looks. -/
def quickBatch : Nat := 4096

/-- The place where quick looks remember three bytes. -/
def quickHash (a b c : UInt8) : Nat :=
  let t := a.toNat + 256 * b.toNat + 65536 * c.toNat
  (t ^^^ (t >>> 17)) % 4096

/-- The copy that a quick look at an earlier place finds, if it is worth it. -/
def quickCopy? (data : Array UInt8) (place history ready earlier : Nat) : Option Chains.Copy :=
  let distance := (place % 65536 + 65536 - earlier) % 65536
  if distance = 0 ∨ history < distance then none
  else
    let length := Chains.common data place (place - distance) (min maxCopy ready)
    if length < minCopy ∨ (length = minCopy ∧ 8192 ≤ distance) then none
    else some ⟨distance, length⟩

/-- Takes the bytes of batches.  The last bytes of a batch are always literals. -/
def takeQuick (data : Array UInt8) (fuel ready : Nat) (heads : Array Nat) (p : Progress) :
    Progress :=
  match fuel with
  | 0 => p
  | fuel + 1 =>
    let p := if p.collected.isFull then p.flush data false else p
    if ready = 0 then
      let ready := min quickBatch (data.size - p.place)
      if ready = 0 then p else takeQuick data fuel ready heads (p.lookAhead ready)
    else
      let literal := (p.add (literalAt data p.place)).advance 1
      if ready < 4 then takeQuick data fuel (ready - 1) heads literal
      else
        let at_ (i : Nat) : UInt8 := Chains.byte data (p.place + i)
        let h := quickHash (at_ 0) (at_ 1) (at_ 2)
        let earlier := heads.getD h 0
        let heads := heads.modify h fun _ => p.place % 65536
        match quickCopy? data p.place p.history ready earlier with
        | none => takeQuick data fuel (ready - 1) heads literal
        | some copy =>
          takeQuick data fuel (ready - copy.length) heads
            ((p.add (.copy copy.length copy.distance)).advance copy.length)

/-! ## Searches -/

/-- The copy at a place that is worth it and longer than a given length; a copy without a distance if
there is none. -/
def searchAt (data : Array UInt8) (probes : Nat) (chains : Chains) (p : Progress)
    (ready least : Nat) : Chains.Copy :=
  let found := chains.search data probes p.place p.history ready least
  if (found.length = minCopy ∧ 8192 ≤ found.distance) ∨ p.place % window = found.distance then
    ⟨0, 0⟩
  else found

/-- A copy as a symbol. -/
def Chains.Copy.symbol (c : Chains.Copy) : Symbol := .copy c.length c.distance

/-- The length from which a copy is taken at once. -/
def longCopy : Nat := 128

/-- One step: the symbols for the place reached, the copy that is put off to the next place, and how
many bytes are passed.  A copy that was put off is taken unless a longer one is found. -/
def decide (data : Array UInt8) (eager : Bool) (place : Nat) (putOff : Option Chains.Copy)
    (found : Chains.Copy) : List Symbol × Option Chains.Copy × Nat :=
  match putOff with
  | some before =>
    if before.length < found.length then
      if longCopy ≤ found.length then
        ([literalAt data (place - 1), found.symbol], none, found.length)
      else ([literalAt data (place - 1)], some found, 1)
    else ([before.symbol], none, before.length - 1)
  | none =>
    if found.distance = 0 then ([literalAt data place], none, 1)
    else if eager || longCopy ≤ found.length then ([found.symbol], none, found.length)
    else ([], some found, 1)

/-- Takes bytes by searches. -/
def takeSearched (data : Array UInt8) (probes : Nat) (eager : Bool) (fuel : Nat) (chains : Chains)
    (putOff : Option Chains.Copy) (p : Progress) : Progress :=
  match fuel with
  | 0 => p
  | fuel + 1 =>
    let ready := min maxCopy (data.size - p.place)
    if ready = 0 then p
    else
      let chains := chains.insertUpTo data (p.place + ready)
      let p := p.lookAhead ready
      let least := match putOff with
        | some before => before.length
        | none => minCopy - 1
      let found := searchAt data probes chains p ready least
      let (symbols, putOff, n) := decide data eager p.place putOff found
      let p := (symbols.foldl Progress.add p).advance n
      let full := p.collected.isFull || p.collected.isFat false
      takeSearched data probes eager fuel chains putOff (if full then p.flush data false else p)

/-! ## All levels -/

/-- The blocks of some bytes. -/
def parse (effort : Effort) (data : Array UInt8) : List Block :=
  match effort with
  | .none => (takePlain data (data.size + 1) {}).finish data true
  | .quick =>
    (takeQuick data (2 * data.size + 2) 0 (Array.replicate 4096 0) {}).finish data false
  | .search probes eager =>
    (takeSearched data probes eager (data.size + 1) .empty none {}).finish data false

/-- The bits of blocks behind so many bits. -/
def blockBits (written : Nat) : List Block → List Bool
  | [] => []
  | block :: blocks =>
    let bits := block.bits written
    bits ++ blockBits (written + bits.length) blocks

/-- The byte of eight bits, the lowest first. -/
def byteOf (bits : List Bool) : UInt8 :=
  UInt8.ofNat (bits.foldr (fun b n => 2 * n + b.toNat) 0)

/-- The bytes of some bits, the last one filled up with zeros. -/
def bytesOf (fuel : Nat) (bits : List Bool) : List UInt8 :=
  match fuel, bits with
  | 0, _ => []
  | _, [] => []
  | fuel + 1, bits => byteOf (bits.take 8) :: bytesOf fuel (bits.drop 8)

/-- Bytes in compressed form. -/
def compress (effort : Effort) (data : List UInt8) : List UInt8 :=
  let bits := blockBits 0 (parse effort data.toArray)
  bytesOf (bits.length / 8 + 1) bits

end Deflate

end MailTemplate
