import MailTemplate.Text.Utf8

/-!
# Digests of two hundred and fifty-six bits

A message is padded to blocks of sixty-four bytes.  Every block is expanded to sixty-four words, which
are mixed into eight words of state one after the other.

## Main definitions

* `sha256` — the digest of a message, as digits of base sixteen.
-/

namespace MailTemplate

namespace Sha256

/-- The words that the rounds add: the fractions of the cube roots of the first primes. -/
def constants : List UInt32 :=
  [0x428a2f98, 0x71374491, 0xb5c0fbcf, 0xe9b5dba5, 0x3956c25b, 0x59f111f1, 0x923f82a4, 0xab1c5ed5,
    0xd807aa98, 0x12835b01, 0x243185be, 0x550c7dc3, 0x72be5d74, 0x80deb1fe, 0x9bdc06a7, 0xc19bf174,
    0xe49b69c1, 0xefbe4786, 0x0fc19dc6, 0x240ca1cc, 0x2de92c6f, 0x4a7484aa, 0x5cb0a9dc, 0x76f988da,
    0x983e5152, 0xa831c66d, 0xb00327c8, 0xbf597fc7, 0xc6e00bf3, 0xd5a79147, 0x06ca6351, 0x14292967,
    0x27b70a85, 0x2e1b2138, 0x4d2c6dfc, 0x53380d13, 0x650a7354, 0x766a0abb, 0x81c2c92e, 0x92722c85,
    0xa2bfe8a1, 0xa81a664b, 0xc24b8b70, 0xc76c51a3, 0xd192e819, 0xd6990624, 0xf40e3585, 0x106aa070,
    0x19a4c116, 0x1e376c08, 0x2748774c, 0x34b0bcb5, 0x391c0cb3, 0x4ed8aa4a, 0x5b9cca4f, 0x682e6ff3,
    0x748f82ee, 0x78a5636f, 0x84c87814, 0x8cc70208, 0x90befffa, 0xa4506ceb, 0xbef9a3f7, 0xc67178f2]

/-- The state: eight words. -/
structure State where
  /-- The first word. -/
  a : UInt32
  /-- The second word. -/
  b : UInt32
  /-- The third word. -/
  c : UInt32
  /-- The fourth word. -/
  d : UInt32
  /-- The fifth word. -/
  e : UInt32
  /-- The sixth word. -/
  f : UInt32
  /-- The seventh word. -/
  g : UInt32
  /-- The eighth word. -/
  h : UInt32

/-- The state at first: the fractions of the square roots of the first primes. -/
def State.first : State :=
  ⟨0x6a09e667, 0xbb67ae85, 0x3c6ef372, 0xa54ff53a, 0x510e527f, 0x9b05688c, 0x1f83d9ab, 0x5be0cd19⟩

/-- The words of a state. -/
def State.words (s : State) : List UInt32 := [s.a, s.b, s.c, s.d, s.e, s.f, s.g, s.h]

/-- Two states added word by word. -/
def State.add (s t : State) : State :=
  ⟨s.a + t.a, s.b + t.b, s.c + t.c, s.d + t.d, s.e + t.e, s.f + t.f, s.g + t.g, s.h + t.h⟩

/-- A word turned to the right. -/
def turn (x : UInt32) (n : UInt32) : UInt32 := (x >>> n) ||| (x <<< (32 - n))

/-- One round with the sum of a constant and a word of the message. -/
def round (s : State) (x : UInt32) : State :=
  let mixE := turn s.e 6 ^^^ turn s.e 11 ^^^ turn s.e 25
  let choice := (s.e &&& s.f) ^^^ ((s.e ^^^ 0xFFFFFFFF) &&& s.g)
  let t := s.h + mixE + choice + x
  let mixA := turn s.a 2 ^^^ turn s.a 13 ^^^ turn s.a 22
  let majority := (s.a &&& s.b) ^^^ (s.a &&& s.c) ^^^ (s.b &&& s.c)
  ⟨t + mixA + majority, s.a, s.b, s.c, s.d + t, s.e, s.f, s.g⟩

/-- So many more words behind those of a block. -/
def expand : Nat → Array UInt32 → Array UInt32
  | 0, ws => ws
  | n + 1, ws =>
    let at_ (back : Nat) : UInt32 := ws.getD (ws.size - back) 0
    let x := at_ 15
    let y := at_ 2
    let low := turn x 7 ^^^ turn x 18 ^^^ (x >>> 3)
    let high := turn y 17 ^^^ turn y 19 ^^^ (y >>> 10)
    expand n (ws.push (at_ 16 + low + at_ 7 + high))

/-- The words of some bytes, four bytes each. -/
def wordsOf : Bytes → List UInt32
  | a :: b :: c :: d :: rest =>
    (a.toUInt32 <<< 24 ||| b.toUInt32 <<< 16 ||| c.toUInt32 <<< 8 ||| d.toUInt32) :: wordsOf rest
  | _ => []

/-- A block mixed into the state. -/
def addBlock (s : State) (block : Bytes) : State :=
  let words := (expand 48 (wordsOf block).toArray).toList
  s.add ((words.zip constants).foldl (fun s (w, k) => round s (k + w)) s)

/-- A number as so many bytes, the highest first. -/
def numberBytes (count n : Nat) : Bytes :=
  (List.range count).reverse.map fun i => UInt8.ofNat (n / Nat.pow 256 i)

/-- What follows a message of some length: one bit, zeros, and the number of bits. -/
def padding (length : Nat) : Bytes :=
  0x80 :: List.replicate ((119 - length % 64) % 64) 0 ++ numberBytes 8 (8 * length)

/-- Blocks mixed into the state. -/
def addBlocks (fuel : Nat) (s : State) (bytes : Bytes) : State :=
  match fuel, bytes with
  | 0, _ => s
  | _, [] => s
  | fuel + 1, bytes => addBlocks fuel (addBlock s (bytes.take 64)) (bytes.drop 64)

/-- The state that a message leads to. -/
def run (bytes : Bytes) : State :=
  addBlocks (bytes.length / 64 + 2) .first (bytes ++ padding bytes.length)

end Sha256

/-- Eight digits of base sixteen. -/
def wordDigits (w : UInt32) : List Char :=
  (List.range 8).reverse.map fun i => Nat.digitChar (w.toNat / Nat.pow 16 i % 16)

/-- The digest of a message. -/
def sha256 (bytes : Bytes) : String :=
  String.ofList ((Sha256.run bytes).words.flatMap wordDigits)

end MailTemplate
