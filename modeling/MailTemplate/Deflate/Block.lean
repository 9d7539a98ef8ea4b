import MailTemplate.Deflate.Huffman
import MailTemplate.Deflate.Symbol

/-!
# Blocks of compressed data

A block holds symbols, written by fixed codes or by codes that the block describes itself, or it holds
plain bytes.  Values are written with their lowest bit first and code words with their highest bit
first.

## Main definitions

* `Deflate.Block` — the symbols of a block, and the bytes that they stand for.
* `Deflate.Block.bits` — a block as it is written.
-/

namespace MailTemplate

namespace Deflate

/-! ## Bits -/

/-- A value of some width with its lowest bit first. -/
def valueBits (width value : Nat) : List Bool := (List.range width).map value.testBit

/-- A code word with its highest bit first. -/
def wordBits (word : Nat × Nat) : List Bool := (valueBits word.1 word.2).reverse

/-- The bits that fill up the last byte. -/
def padding (written : Nat) : List Bool := List.replicate ((8 - written % 8) % 8) false

/-! ## Codes -/

/-- The code words of the two alphabets of a block. -/
structure Codes where
  /-- The words of literals and lengths. -/
  literals : Array (Nat × Nat)
  /-- The words of distances. -/
  distances : Array (Nat × Nat)

/-- The greatest length of a word of these alphabets. -/
def maxWord : Nat := 15

/-- The fixed lengths of the words of literals and lengths. -/
def fixedLengths : List Nat :=
  List.replicate 144 8 ++ List.replicate 112 9 ++ List.replicate 24 7 ++ List.replicate 8 8

/-- The fixed codes. -/
def fixedCodes : Codes :=
  ⟨Huffman.codes maxWord fixedLengths, Huffman.codes maxWord (List.replicate 32 5)⟩

/-- A symbol. -/
def symbolBits (codes : Codes) : Symbol → List Bool
  | .literal b => wordBits (codes.literals.getD b.toNat (0, 0))
  | .copy length distance =>
    let l := lengthCode length
    let d := distanceCode distance
    wordBits (codes.literals.getD l.code (0, 0)) ++ valueBits l.width l.place ++
      wordBits (codes.distances.getD d.code (0, 0)) ++ valueBits d.width d.place

/-- All symbols and the end of the block. -/
def bodyBits (codes : Codes) (symbols : List Symbol) : List Bool :=
  symbols.flatMap (symbolBits codes) ++ wordBits (codes.literals.getD endCode (0, 0))

/-! ## Describing codes -/

/-- How often each literal, length and distance occurs, the end of the block among them. -/
def counts (symbols : List Symbol) : List Nat × List Nat :=
  let count (a : Array Nat) (i : Nat) : Array Nat := a.modify i (· + 1)
  let (literals, distances) := symbols.foldl (fun (ls, ds) s =>
    match s with
    | .literal b => (count ls b.toNat, ds)
    | .copy length distance =>
      (count ls (lengthCode length).code, count ds (distanceCode distance).code))
    (Array.replicate 288 0, Array.replicate 32 0)
  ((literals.modify endCode (· + 1)).toList, distances.toList)

/-- A length of the description: itself, or a repetition with its number as a value of some width. -/
structure Repeated where
  /-- The length, or the kind of the repetition. -/
  code : Nat
  /-- The width. -/
  width : Nat := 0
  /-- The value. -/
  value : Nat := 0

/-- A number of zeros. -/
def zeros (n : Nat) : List Repeated :=
  if n < 3 then List.replicate n ⟨0, 0, 0⟩
  else if n ≤ 10 then [⟨17, 3, n - 3⟩]
  else [⟨18, 7, n - 11⟩]

/-- A length that is repeated a number of times. -/
def repeats (length n : Nat) : List Repeated :=
  if n < 3 then List.replicate n ⟨length, 0, 0⟩ else [⟨16, 2, n - 3⟩]

/-- A run of equal lengths. -/
def runOf (length n : Nat) : List Repeated :=
  if length = 0 then
    (List.replicate (n / 138) (zeros 138)).flatten ++ zeros (n % 138)
  else
    ⟨length, 0, 0⟩ :: ((List.replicate ((n - 1) / 6) (repeats length 6)).flatten ++
      repeats length ((n - 1) % 6))

/-- The runs of equal lengths. -/
def describe : List Nat → List Repeated
  | [] => []
  | l :: ls =>
    let same := ls.takeWhile (· == l)
    runOf l (same.length + 1) ++ describe (ls.drop same.length)
termination_by ls => ls.length
decreasing_by simp only [List.length_drop, List.length_cons]; omega

/-- The order in which the lengths of the words of the description are written. -/
def describedOrder : List Nat :=
  [16, 17, 18, 0, 8, 7, 9, 6, 10, 5, 11, 4, 12, 3, 13, 2, 14, 1, 15]

/-- A list without the zeros at its end. -/
def dropZeros (ls : List Nat) : List Nat := (ls.reverse.dropWhile (· == 0)).reverse

/-- The lengths that are described: without zeros at the end, but a least number of them. -/
def described (least : Nat) (lengths : List Nat) : List Nat :=
  lengths.take (max least (dropZeros lengths).length)

/-- The description of the codes of a block. -/
def descriptionBits (literals distances : List Nat) : List Bool :=
  let literals := described (endCode + 1) (literals.take 286)
  let distances := described 1 (distances.take 30)
  let items := describe (literals ++ distances)
  let counts := items.foldl (fun (a : Array Nat) r => a.modify r.code (· + 1))
    (Array.replicate 19 0)
  let lengths := Huffman.lengths 7 counts.toList
  let words := Huffman.codes 7 lengths
  let ordered := described 4 (describedOrder.map fun i => lengths.getD i 0)
  valueBits 5 (literals.length - 257) ++ valueBits 5 (distances.length - 1) ++
    valueBits 4 (ordered.length - 4) ++ ordered.flatMap (valueBits 3) ++
    items.flatMap fun r => wordBits (words.getD r.code (0, 0)) ++ valueBits r.width r.value

/-! ## Blocks -/

/-- The symbols of a block, with the bytes that they stand for if these are still at hand. -/
structure Block where
  /-- The symbols. -/
  symbols : List Symbol
  /-- The bytes. -/
  plain : Option (List UInt8)
  /-- Whether the block must hold plain bytes. -/
  mustBePlain : Bool
  /-- Whether the block is the last one. -/
  isLast : Bool

namespace Block

/-- The number of bytes that the symbols stand for. -/
def size (block : Block) : Nat := (block.symbols.map Symbol.size).foldl (· + ·) 0

/-- The symbols by fixed codes if there are few bytes, or else by codes of their own. -/
def codedBits (block : Block) : List Bool :=
  if block.size < 48 then [true, false] ++ bodyBits fixedCodes block.symbols
  else
    let (ls, ds) := counts block.symbols
    let literals := Huffman.lengths maxWord ls
    let distances := Huffman.lengths maxWord ds
    let codes : Codes := ⟨Huffman.codes maxWord literals, Huffman.codes maxWord distances⟩
    [false, true] ++ descriptionBits literals distances ++ bodyBits codes block.symbols

/-- Plain bytes behind so many bits. -/
def plainBits (written : Nat) (bytes : List UInt8) : List Bool :=
  let n := bytes.length % 65536
  [false, false] ++ padding (written + 2) ++ valueBits 16 n ++ valueBits 16 (65535 - n) ++
    bytes.flatMap fun b => valueBits 8 b.toNat

/-- A block as it is written behind so many bits.  It holds plain bytes if the symbols would not take
less. -/
def bits (written : Nat) (block : Block) : List Bool :=
  let flag := block.isLast
  let written := written + 1
  let coded := block.codedBits
  let takesMore (bytes : List UInt8) : Bool :=
    32 < bytes.length && bytes.length ≤ (written % 8 + coded.length) / 8 + 1
  match block.plain with
  | none => flag :: coded
  | some bytes =>
    if block.mustBePlain || takesMore bytes then flag :: plainBits written bytes
    else flag :: coded

end Block

end Deflate

end MailTemplate
