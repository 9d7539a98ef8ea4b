/-!
# Symbols of compressed data

Compressed data is a sequence of literal bytes and of copies of earlier bytes.  The length and the
distance of a copy are each written as a code for an interval and the place in the interval.

## Main definitions

* `Deflate.Symbol` — a literal or a copy.
* `Deflate.lengthCode`, `Deflate.distanceCode` — the codes of lengths and distances.
-/

namespace MailTemplate

namespace Deflate

/-- A literal byte, or a copy of so many bytes from so far before. -/
inductive Symbol where
  /-- A byte. -/
  | literal (b : UInt8)
  /-- A copy. -/
  | copy (length distance : Nat)
  deriving DecidableEq, Repr

/-- How many bytes a symbol stands for. -/
def Symbol.size : Symbol → Nat
  | literal _ => 1
  | copy length _ => length

/-- The least length of a copy. -/
def minCopy : Nat := 3

/-- The greatest length of a copy. -/
def maxCopy : Nat := 258

/-- The greatest distance of a copy. -/
def window : Nat := 32768

/-- A value as a code, and the place of the value in the interval of the code with its width in
bits. -/
structure Coded where
  /-- The code. -/
  code : Nat
  /-- The width. -/
  width : Nat
  /-- The place. -/
  place : Nat
  deriving DecidableEq, Repr

/-- The code of a value for intervals that begin at some values and have widths in bits. -/
def codeOf (intervals : List (Nat × Nat)) (value : Nat) : Coded :=
  let reached := intervals.filter fun (base, _) => base ≤ value
  match reached.getLast? with
  | some (base, width) => ⟨reached.length - 1, width, value - base⟩
  | none => ⟨0, 0, 0⟩

/-- The intervals of lengths. -/
def lengthIntervals : List (Nat × Nat) :=
  [(3, 0), (4, 0), (5, 0), (6, 0), (7, 0), (8, 0), (9, 0), (10, 0), (11, 1), (13, 1), (15, 1),
    (17, 1), (19, 2), (23, 2), (27, 2), (31, 2), (35, 3), (43, 3), (51, 3), (59, 3), (67, 4),
    (83, 4), (99, 4), (115, 4), (131, 5), (163, 5), (195, 5), (227, 5), (258, 0)]

/-- The intervals of distances. -/
def distanceIntervals : List (Nat × Nat) :=
  [(1, 0), (2, 0), (3, 0), (4, 0), (5, 1), (7, 1), (9, 2), (13, 2), (17, 3), (25, 3), (33, 4),
    (49, 4), (65, 5), (97, 5), (129, 6), (193, 6), (257, 7), (385, 7), (513, 8), (769, 8),
    (1025, 9), (1537, 9), (2049, 10), (3073, 10), (4097, 11), (6145, 11), (8193, 12), (12289, 12),
    (16385, 13), (24577, 13)]

/-- The code that ends a block. -/
def endCode : Nat := 256

/-- A length as a code of the alphabet of literals and lengths. -/
def lengthCode (length : Nat) : Coded :=
  let coded := codeOf lengthIntervals length
  { coded with code := endCode + 1 + coded.code }

/-- A distance as a code of its own alphabet. -/
def distanceCode (distance : Nat) : Coded := codeOf distanceIntervals distance

end Deflate

end MailTemplate
