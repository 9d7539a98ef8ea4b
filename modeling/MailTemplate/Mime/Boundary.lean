import MailTemplate.Text.Basic

/-!
# Boundaries

The parts of a message are told apart by boundaries, one for each level of nesting.  Candidates are
drawn from a source until one can be used: it is not empty, occurs neither in the body nor in its
encoded form, and neither contains nor is contained in a boundary chosen before.

## Main definitions

* `BoundarySource` — where candidates come from.
* `Boundary.isUsable` — whether a candidate can be used.
* `Boundary.choose` — one boundary for each of some levels.
-/

namespace MailTemplate

/-- A source of candidates.  Which one it gives depends on how many were drawn before and on the
level it is asked for, the outermost level being `0`. -/
abbrev BoundarySource := (drawn : Nat) → (level : Nat) → String

namespace Boundary

/-- How many candidates are drawn for one level at most. -/
def maxAttempts : Nat := 16

/-- The ways in which a choice fails. -/
inductive Failure where
  /-- No candidate for a level could be used among so many. -/
  | exhausted (attempts : Nat)
  deriving DecidableEq, Repr

/-- The text of a failure. -/
def Failure.message : Failure → String
  | exhausted attempts => "no usable MIME boundary after " ++ toString attempts ++ " attempts"

/-- Whether a candidate can be used for a body and its encoded form beside the boundaries that are
chosen already. -/
def isUsable (body encoded : List Char) (chosen : List String) (candidate : String) : Bool :=
  let c := candidate.toList
  c ≠ [] && !Text.contains body c && !Text.contains encoded c &&
    chosen.all fun b => !Text.contains b.toList c && !Text.contains c b.toList

/-- The first candidate that can be used among so many draws for a level, and the levels asked for
so far. -/
def drawFor (source : BoundarySource) (usable : String → Bool) (level : Nat) (asked : List Nat) :
    Nat → Option String × List Nat
  | 0 => (none, asked)
  | attempts + 1 =>
    let candidate := source asked.length level
    let asked := asked ++ [level]
    if usable candidate then (some candidate, asked)
    else drawFor source usable level asked attempts

/-- The boundaries for so many more levels from `level` on, and the levels asked for so far. -/
def chooseFrom (source : BoundarySource) (body encoded : List Char) (chosen : List String)
    (level : Nat) (asked : List Nat) : Nat → Except Failure (List String) × List Nat
  | 0 => (.ok chosen, asked)
  | count + 1 =>
    match drawFor source (isUsable body encoded chosen) level asked maxAttempts with
    | (none, asked) => (.error (.exhausted maxAttempts), asked)
    | (some b, asked) =>
      chooseFrom source body encoded (chosen ++ [b]) (level + 1) asked count

/-- The boundaries for some levels, and the levels asked for so far. -/
def choose (source : BoundarySource) (count : Nat) (body encoded : List Char) (asked : List Nat) :
    Except Failure (List String) × List Nat :=
  chooseFrom source body encoded [] 0 asked count

/-! ## Sources -/

/-- The source that hands out a list of candidates and then numbered ones, or always the same one
if there is one to be stuck at. -/
def scripted (candidates : List String) (stuck : Option String) : BoundarySource := fun drawn level =>
  match candidates[drawn]? with
  | some c => c
  | none => stuck.getD ("fallback-" ++ toString level ++ "-" ++ toString (drawn + 1))

/-- Thirty-two digits of a random identifier: the thirteenth tells its version, which is four, and
the seventeenth its variant. -/
def identifier (random : Nat) : List Char :=
  let digit (i : Nat) : Char :=
    let n := random / Nat.pow 16 i % 16
    let n := if i = 12 then 4 else if i = 16 then 8 + n % 4 else n
    (Nat.digitChar n)
  (List.range 32).map digit

/-- The boundary for a level that a random identifier makes. -/
def ofRandom (random level : Nat) : String :=
  let number := toString level
  "----=_NextPart_" ++ "".pushn '0' (3 - number.length) ++ number ++ "_" ++
    String.ofList (identifier random)

/-- The source that makes its candidates of a sequence of random numbers. -/
def random (numbers : Nat → Nat) : BoundarySource := fun drawn level => ofRandom (numbers drawn) level

end Boundary

end MailTemplate
