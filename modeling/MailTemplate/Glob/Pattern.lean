/-!
# Glob patterns

A pattern selects paths.  `?` stands for one character, `*` for any characters, a class in brackets
for one of its characters, and `**` for any number of directories; it must be a component of its own.

## Main definitions

* `Glob` — a pattern as a list of pieces.
* `Glob.read` — the pattern that a text is, or the fault in it.
* `Glob.accepts` — whether a path is selected.

## Main results

* `Glob.accepts_literal_iff` — a pattern without wildcards selects exactly its own text.
-/

namespace MailTemplate

namespace Glob

/-! ## Patterns -/

/-- An item of a character class. -/
inductive ClassItem where
  /-- One character. -/
  | char (c : Char)
  /-- All characters between two. -/
  | range (low high : Char)
  deriving DecidableEq, Repr

/-- Whether a character belongs to an item. -/
def ClassItem.holds : ClassItem → Char → Bool
  | char c, d => d == c
  | range low high, d => low ≤ d && d ≤ high

/-- A piece of a pattern. -/
inductive Piece where
  /-- A character that stands for itself. -/
  | literal (c : Char)
  /-- One character. -/
  | anyChar
  /-- One character of a class, or one outside it if the class is negated. -/
  | oneOf (negated : Bool) (items : List ClassItem)
  /-- Any number of characters. -/
  | anyRun
  /-- Any number of directories. -/
  | anyDirectories
  deriving DecidableEq, Repr

end Glob

/-- A pattern. -/
structure Glob where
  /-- Its pieces in order. -/
  pieces : List Glob.Piece
  deriving DecidableEq, Repr

namespace Glob

/-! ## Reading a pattern -/

/-- What can be wrong with a pattern. -/
inductive Cause where
  /-- More than two stars in a row. -/
  | stars
  /-- Two stars that are not a component of their own. -/
  | directories
  /-- A bracket without a class. -/
  | class_
  deriving DecidableEq, Repr

/-- A fault in a pattern. -/
structure Fault where
  /-- The number of characters before it. -/
  position : Nat
  /-- What is wrong. -/
  cause : Cause
  deriving DecidableEq, Repr

/-- The text of a fault. -/
def Fault.message (fault : Fault) : String :=
  let reason := match fault.cause with
    | .stars => "wildcards are either regular \x60*\x60 or recursive \x60**\x60"
    | .directories => "recursive wildcards must form a single path component"
    | .class_ => "invalid range pattern"
  "Pattern syntax error near position " ++ toString fault.position ++ ": " ++ reason

/-- The items of a class: two characters with a hyphen between them are a range. -/
def classItems : List Char → List ClassItem
  | low :: '-' :: high :: rest => .range low high :: classItems rest
  | c :: rest => .char c :: classItems rest
  | [] => []

/-- The class whose opening bracket was just read, with the number of characters that it takes.  The
first character of a class belongs to it even if it is a bracket. -/
def readClass? : List Char → Option (Piece × Nat)
  | '!' :: c :: more =>
    (more.findIdx? (· == ']')).map fun j => (.oneOf true (classItems (c :: more.take j)), j + 3)
  | '!' :: [] => none
  | c :: more =>
    (more.findIdx? (· == ']')).map fun j => (.oneOf false (classItems (c :: more.take j)), j + 2)
  | [] => none

/-- The pieces from a place on, with the number of characters before it and the character just
before it. -/
def readFrom (position : Nat) (before : Option Char) (cs : List Char) :
    Except Fault (List Piece) :=
  match cs with
  | [] => .ok []
  | '?' :: rest => do return .anyChar :: (← readFrom (position + 1) (some '?') rest)
  | '*' :: '*' :: '*' :: _ => .error ⟨position + 2, .stars⟩
  | '*' :: '*' :: rest =>
    if before = none ∨ before = some '/' then
      match rest with
      | [] => .ok [.anyDirectories]
      | '/' :: rest =>
        do return .anyDirectories :: (← readFrom (position + 3) (some '/') rest)
      | _ => .error ⟨position + 2, .directories⟩
    else .error ⟨position - 1, .directories⟩
  | '*' :: rest => do return .anyRun :: (← readFrom (position + 1) (some '*') rest)
  | '[' :: rest =>
    match readClass? rest with
    | none => .error ⟨position, .class_⟩
    | some (piece, n) =>
      do return piece :: (← readFrom (position + 1 + n) (some ']') (rest.drop n))
  | c :: rest => do return .literal c :: (← readFrom (position + 1) (some c) rest)
termination_by cs.length
decreasing_by all_goals simp only [List.length_drop, List.length_cons]; omega

/-- The pattern that a text is. -/
def read (pattern : String) : Except Fault Glob :=
  (readFrom 0 none pattern.toList).map fun pieces => ⟨pieces⟩

/-! ## Selecting -/

/-- How an attempt to match the rest of a pattern ends. -/
inductive Outcome where
  /-- It matches. -/
  | matched
  /-- It does not match here, but might further on. -/
  | differs
  /-- The text is too short, so that no attempt further on can match either. -/
  | tooShort
  deriving DecidableEq, Repr

/-- The first outcome, or the second one if the first attempt just differs. -/
def Outcome.orElse (a : Outcome) (b : Unit → Outcome) : Outcome :=
  match a with
  | differs => b ()
  | _ => a

section Matching

variable (literalSeparators : Bool)

/-- Whether a piece for one character takes a character.  A separator can be asked to stand for
itself only. -/
def Piece.takes : Piece → Char → Bool
  | literal c, d => c == d
  | anyChar, d => !(literalSeparators && d == '/')
  | oneOf negated items, d =>
    !(literalSeparators && d == '/') && (items.any (·.holds d) != negated)
  | _, _ => false

theorem Piece.takes_literal_iff (c d : Char) :
    (literal c).takes literalSeparators d = true ↔ c = d := beq_iff_eq

/-- Matches any number of characters and then goes on. -/
def afterRun (goOn : List Char → Outcome) : List Char → Outcome
  | [] => goOn []
  | c :: cs =>
    (goOn (c :: cs)).orElse fun _ =>
      if literalSeparators && c == '/' then .differs else afterRun goOn cs

/-- Goes on behind the next separator, or at the end if there is none. -/
def afterDirectory (goOn : List Char → Outcome) : List Char → Outcome
  | [] => goOn []
  | c :: cs =>
    if c = '/' then (goOn cs).orElse fun _ => afterDirectory goOn cs
    else afterDirectory goOn cs

/-- Matches any number of directories and then goes on. -/
def afterDirectories (goOn : List Char → Outcome) (cs : List Char) : Outcome :=
  (goOn cs).orElse fun _ => afterDirectory goOn cs

/-- Matches pieces against a whole text. -/
def matchPieces : List Piece → List Char → Outcome
  | [], [] => .matched
  | [], _ :: _ => .differs
  | .anyRun :: rest, cs => afterRun literalSeparators (matchPieces rest) cs
  | .anyDirectories :: rest, cs => afterDirectories (matchPieces rest) cs
  | _ :: _, [] => .tooShort
  | piece :: rest, c :: cs =>
    if piece.takes literalSeparators c then matchPieces rest cs else .differs

end Matching

/-- Whether a pattern selects a path, wildcards taking separators only where asked to. -/
def accepts (glob : Glob) (literalSeparators : Bool) (path : String) : Bool :=
  matchPieces literalSeparators glob.pieces path.toList == .matched

theorem accepts_literal_iff (literalSeparators : Bool) (cs : List Char) (path : String) :
    accepts ⟨cs.map .literal⟩ literalSeparators path = true ↔ path = String.ofList cs := by
  have key : ∀ ds : List Char,
      matchPieces literalSeparators (cs.map .literal) ds = .matched ↔ ds = cs := by
    induction cs with
    | nil => intro ds; cases ds <;> simp [matchPieces]
    | cons c cs ih =>
      intro ds
      cases ds with
      | nil => simp [matchPieces]
      | cons d ds =>
        simp only [List.map_cons, matchPieces, List.cons.injEq]
        by_cases h : c = d
        · rw [if_pos ((Piece.takes_literal_iff literalSeparators c d).2 h), ih]
          exact ⟨fun h' => ⟨h.symm, h'⟩, fun h' => h'.2⟩
        · rw [if_neg fun h' => h ((Piece.takes_literal_iff literalSeparators c d).1 h')]
          exact ⟨nofun, fun h' => absurd h'.1.symm h⟩
  simp only [accepts, beq_iff_eq, key]
  constructor
  · intro h
    rw [← h, String.ofList_toList]
  · rintro rfl
    exact String.toList_ofList

end Glob

end MailTemplate
