import MailTemplate.Deflate.Symbol

/-!
# Finding copies

Places with equal three bytes are linked into chains.  A search follows the chain of a place, for a
limited number of steps, to the longest earlier bytes that are equal.  Places are kept in sixteen
bits, and a place that reads as zero ends a chain.

## Main definitions

* `Deflate.Chains` — the chains.
* `Deflate.Chains.insertUpTo` — linking places.
* `Deflate.Chains.search` — the best copy at a place.
-/

namespace MailTemplate

namespace Deflate

/-- The chains of places with equal three bytes. -/
structure Chains where
  /-- The last place of each chain. -/
  heads : Array Nat
  /-- The place before each place. -/
  links : Array Nat
  /-- The first place that is not linked yet. -/
  next : Nat

namespace Chains

/-- No chains. -/
def empty : Chains := ⟨Array.replicate window 0, Array.replicate window 0, 0⟩

/-- The chain of three bytes. -/
def hash (a b c : UInt8) : Nat :=
  ((a.toNat <<< 10) ^^^ (b.toNat <<< 5) ^^^ c.toNat) % window

/-- The byte at a place. -/
def byte (data : Array UInt8) (i : Nat) : UInt8 := data.getD i 0

/-- Links one place. -/
def insert (data : Array UInt8) (chains : Chains) : Chains :=
  let ⟨heads, links, next⟩ := chains
  let h := hash (byte data next) (byte data (next + 1)) (byte data (next + 2))
  let before := heads.getD h 0
  ⟨heads.modify h fun _ => next % 65536, links.modify (next % window) fun _ => before, next + 1⟩

/-- Links the next so many places. -/
def insertMany (data : Array UInt8) : Nat → Chains → Chains
  | 0, chains => chains
  | n + 1, chains => insertMany data n (insert data chains)

/-- Links all places whose three bytes end before another place. -/
def insertUpTo (data : Array UInt8) (stop : Nat) (chains : Chains) : Chains :=
  insertMany data (stop - 2 - chains.next) chains

/-- How many bytes are equal from two places on, up to a limit. -/
def common (data : Array UInt8) (p q : Nat) : Nat → Nat
  | 0 => 0
  | limit + 1 => if byte data p = byte data q then common data (p + 1) (q + 1) limit + 1 else 0

/-- A copy: its distance and its length. -/
structure Copy where
  /-- The distance. -/
  distance : Nat
  /-- The length. -/
  length : Nat
  deriving DecidableEq, Repr

/-- Whether two bytes are equal at two places. -/
def pairAt (data : Array UInt8) (p q : Nat) : Bool :=
  byte data p == byte data q && byte data (p + 1) == byte data (q + 1)

/-- Follows a chain for a number of rounds of three steps.  A step is worth a look if the bytes at the
end of the best copy so far, and the one behind, are equal. -/
def follow (data : Array UInt8) (chains : Chains) (place maxDistance maxLength : Nat)
    (rounds steps probe : Nat) (best : Copy) : Copy :=
  match steps with
  | 0 =>
    match rounds with
    | 0 => best
    | rounds + 1 => follow data chains place maxDistance maxLength rounds 3 probe best
  | steps + 1 =>
    let earlier := chains.links.getD (probe % window) 0
    let distance := (place % 65536 + 65536 - earlier) % 65536
    if earlier = 0 ∨ maxDistance < distance then best
    else
      let q := place - distance
      if !pairAt data (place + best.length - 1) (q + best.length - 1) then
        follow data chains place maxDistance maxLength rounds steps earlier best
      else if distance = 0 then best
      else if !pairAt data place q then
        follow data chains place maxDistance maxLength rounds 0 earlier best
      else
        let length := common data place q maxLength
        if best.length < length then
          if length = maxLength then ⟨distance, length⟩
          else
            follow data chains place maxDistance maxLength rounds 0 earlier ⟨distance, length⟩
        else follow data chains place maxDistance maxLength rounds 0 earlier best
termination_by (rounds, steps)

/-- How many rounds a search has, fewer if the best copy so far is long. -/
def roundsFor (probes length : Nat) : Nat :=
  ((if 32 ≤ length then probes / 4 else probes) + 2) / 3

/-- The best copy at a place that is longer than a given length; if there is none, a copy of that
length with no distance. -/
def search (data : Array UInt8) (chains : Chains) (probes place maxDistance maxLength least : Nat) :
    Copy :=
  if maxLength ≤ least then ⟨0, least⟩
  else
    follow data chains place maxDistance maxLength (roundsFor probes least) 0 place ⟨0, least⟩

end Chains

end Deflate

end MailTemplate
