/-!
# Huffman codes

Every code word of an alphabet gets a length that fits how often the word is used, but no longer than
a limit.  Words of one length are numbered in the order of the alphabet.

## Main definitions

* `Huffman.lengths` — the lengths for some counts.
* `Huffman.codes` — the code words for some lengths.
-/

namespace MailTemplate

namespace Huffman

/-! ## Depths -/

/-- A tree under construction: how often its words are used in all, and their depths in it. -/
structure Tree where
  /-- The sum of the counts. -/
  count : Nat
  /-- The depths. -/
  depths : List Nat

/-- Two trees as one. -/
def Tree.join (a b : Tree) : Tree := ⟨a.count + b.count, (a.depths ++ b.depths).map (· + 1)⟩

/-- The tree that is used least among single words and joined trees, both in the order of their
counts, and the others.  Of two that are used equally it is the single word. -/
def takeLeast (leaves joined : List Tree) : Option (Tree × List Tree × List Tree) :=
  match leaves, joined with
  | [], [] => none
  | leaf :: leaves, [] => some (leaf, leaves, [])
  | [], tree :: joined => some (tree, [], joined)
  | leaf :: leaves, tree :: joined =>
    if tree.count < leaf.count then some (tree, leaf :: leaves, joined)
    else some (leaf, leaves, tree :: joined)

/-- The depths of all words when the two least used trees are joined until one is left. -/
def joinAll (fuel : Nat) (leaves joined : List Tree) : List Nat :=
  match fuel with
  | 0 => []
  | fuel + 1 =>
    match takeLeast leaves joined with
    | none => []
    | some (a, leaves, joined) =>
      match takeLeast leaves joined with
      | none => a.depths
      | some (b, leaves, joined) => joinAll fuel leaves (joined ++ [a.join b])

/-- The depths for counts in increasing order. -/
def depths (counts : List Nat) : List Nat :=
  match counts with
  | [_] => [1]
  | _ => joinAll (counts.length + 1) (counts.map fun c => ⟨c, [0]⟩) []

/-! ## The limit -/

/-- How many depths there are of every length from one to a limit, longer ones counted as the
limit. -/
def tally (limit : Nat) (depths : List Nat) : List Nat :=
  (List.range limit).map fun i => depths.countP fun d => min d limit = i + 1

/-- How many words of the greatest length could be told apart in the place of all words. -/
def weight (limit : Nat) (numbers : List Nat) : Nat :=
  (numbers.zipIdx.map fun (n, i) => n * Nat.pow 2 (limit - (i + 1))).foldl (· + ·) 0

/-- One word of the greatest length fewer, for which the longest of the shorter words becomes two
words of one more. -/
def relieve (limit : Nat) (numbers : List Nat) : List Nat :=
  let numbers := numbers.modify (limit - 1) (· - 1)
  match ((List.range (limit - 1)).reverse.find? fun i => numbers.getD i 0 ≠ 0) with
  | none => numbers
  | some i => (numbers.modify i (· - 1)).modify (i + 1) (· + 2)

/-- Lengths of words that can be told apart, from lengths that perhaps cannot. -/
def relieveAll (limit : Nat) : Nat → List Nat → List Nat
  | 0, numbers => numbers
  | excess + 1, numbers => relieveAll limit excess (relieve limit numbers)

/-- How many words have each length from one to a limit. -/
def numbers (limit : Nat) (depths : List Nat) : List Nat :=
  let raw := tally limit depths
  if depths.length ≤ 1 then raw else relieveAll limit (weight limit raw - Nat.pow 2 limit) raw

/-! ## Lengths and codes -/

/-- The lengths of words in the order in which shorter ones come first. -/
def spread (numbers : List Nat) : List Nat :=
  numbers.zipIdx.flatMap fun (n, i) => List.replicate n (i + 1)

/-- The lengths of the words of an alphabet for counts of their use.  A word that is not used has
length zero. -/
def lengths (limit : Nat) (counts : List Nat) : List Nat :=
  let used := (counts.zipIdx.filter fun (c, _) => c ≠ 0).mergeSort fun a b =>
    a.1 < b.1 || (a.1 == b.1 && a.2 ≤ b.2)
  let sizes := spread (numbers limit (depths (used.map Prod.fst)))
  let assigned := (used.reverse.map Prod.snd).zip sizes
  (assigned.foldl (fun (a : Array Nat) (i, size) => a.modify i fun _ => size)
    (Array.replicate counts.length 0)).toList

/-- The first word of every length, the lengths from zero on. -/
def firstCodes (limit : Nat) (lengths : List Nat) : List Nat :=
  ((List.range limit).foldl (fun (found, code) i =>
    let next := (code + (if i = 0 then 0 else lengths.count i)) * 2
    (found ++ [next], next)) ([0], 0)).1

/-- The code words for lengths, each as its length and its value. -/
def codes (limit : Nat) (lengths : List Nat) : Array (Nat × Nat) :=
  (lengths.foldl (fun ((next, found) : Array Nat × Array (Nat × Nat)) l =>
    if l = 0 then (next, found.push (0, 0))
    else (next.modify l (· + 1), found.push (l, next.getD l 0)))
    ((firstCodes limit lengths).toArray, #[])).2

end Huffman

end MailTemplate
