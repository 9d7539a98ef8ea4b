import MailTemplate.Css.Value
import MailTemplate.Text.Span

/-!
# Style declarations

The text of a style attribute is cut at semicolons that stand outside quotes and parentheses.  A
piece with a colon is a declaration: what precedes the first colon is the property, what follows it
the value.

## Main definitions

* `Css.Declaration` — a property, its value, and where the value stands.
* `Css.pieces` — a style text cut at its semicolons.
* `Css.declarations` — the declarations of a style text.
* `Css.lastOf?` — the declaration that wins for a property.
* `Css.append` — a style text with one more declaration.

## Main results

* `Css.joinWith_pieces` — the pieces with semicolons between them are the style text.
-/

namespace MailTemplate

namespace Css

/-! ## Scanning -/

/-- Where the scan of a style text stands: inside a quote or not, and in how many parentheses. -/
structure Scan where
  /-- The quote that is open. -/
  quote : Option Char
  /-- The number of open parentheses. -/
  depth : Nat
  deriving DecidableEq, Repr

namespace Scan

/-- Outside quotes and parentheses. -/
def neutral : Scan := ⟨none, 0⟩

/-- The state after one more character. -/
def step (s : Scan) (c : Char) : Scan :=
  match s.quote with
  | some q => if c = q then { s with quote := none } else s
  | none =>
    if c = '"' ∨ c = '\'' then { s with quote := some c }
    else if c = '(' then { s with depth := s.depth + 1 }
    else if c = ')' then { s with depth := s.depth - 1 }
    else s

/-- Whether a character ends a piece. -/
def cuts (s : Scan) (c : Char) : Bool := s == neutral && c == ';'

end Scan

/-- The pieces of a style text, the scan standing in a given state at its front.  The first piece is
the one that is open there. -/
def piecesFrom (s : Scan) : List Char → List (List Char)
  | [] => [[]]
  | c :: cs =>
    if s.cuts c then [] :: piecesFrom s cs
    else
      match piecesFrom (s.step c) cs with
      | [] => [[c]]
      | piece :: more => (c :: piece) :: more

/-- The pieces of a style text between the semicolons outside quotes and parentheses. -/
def pieces (style : List Char) : List (List Char) := piecesFrom .neutral style

theorem piecesFrom_ne_nil (s : Scan) (cs : List Char) : piecesFrom s cs ≠ [] := by
  induction cs generalizing s with
  | nil => simp [piecesFrom]
  | cons c cs ih =>
    simp only [piecesFrom]
    split
    · simp
    · split <;> simp

theorem joinWith_piecesFrom (s : Scan) (cs : List Char) :
    Text.joinWith [';'] (piecesFrom s cs) = cs := by
  induction cs generalizing s with
  | nil => simp [piecesFrom, Text.joinWith]
  | cons c cs ih =>
    simp only [piecesFrom]
    split
    · next h =>
      have hc : c = ';' := by
        simp only [Scan.cuts, Bool.and_eq_true, beq_iff_eq] at h
        exact h.2
      cases hp : piecesFrom s cs with
      | nil => exact absurd hp (piecesFrom_ne_nil s cs)
      | cons piece more =>
        have := ih s
        rw [hp] at this
        simp [Text.joinWith, this, hc]
    · cases hp : piecesFrom (s.step c) cs with
      | nil => exact absurd hp (piecesFrom_ne_nil _ cs)
      | cons piece more =>
        have := ih (s.step c)
        rw [hp] at this
        cases more with
        | nil => simpa [Text.joinWith] using this
        | cons next more => simpa [Text.joinWith] using this

/-- Cutting loses nothing but the semicolons. -/
theorem joinWith_pieces (style : List Char) : Text.joinWith [';'] (pieces style) = style :=
  joinWith_piecesFrom .neutral style

/-! ## Declarations -/

/-- One declaration of a style text. -/
structure Declaration where
  /-- The property in lower case. -/
  property : String
  /-- The value without blanks around it. -/
  value : String
  /-- Where the value stands in the style text. -/
  valueSpan : Span
  deriving DecidableEq, Repr

/-- The declaration that a piece at a byte offset of a style text is. -/
def Declaration.ofPiece? (offset : Nat) (piece : List Char) : Option Declaration :=
  let head := piece.takeWhile (· ≠ ':')
  match piece.dropWhile (· ≠ ':') with
  | [] => none
  | _ :: raw =>
    let property := Text.lower (Text.trim head)
    if property = [] then none
    else
      let value := Text.trim raw
      let lead := Text.byteLength (raw.takeWhile Text.isBlank)
      let start := offset + Text.byteLength head + 1 + lead
      some ⟨String.ofList property, String.ofList value, ⟨start, start + Text.byteLength value⟩⟩

/-- The declarations of pieces of which the first stands at a byte offset. -/
def declarationsFrom (offset : Nat) : List (List Char) → List Declaration
  | [] => []
  | piece :: more =>
    (Declaration.ofPiece? offset piece).toList ++
      declarationsFrom (offset + Text.byteLength piece + 1) more

/-- The declarations of a style text in order. -/
def declarations (style : String) : List Declaration := declarationsFrom 0 (pieces style.toList)

/-- The declaration of a property that wins: the last one. -/
def lastOf? (ds : List Declaration) (property : String) : Option Declaration :=
  ds.reverse.find? fun d => d.property == property

/-- A style text with one more declaration at its end, after a semicolon if something precedes. -/
def append (style property value : String) : String :=
  let kept := Text.trimEnd style.toList
  let separator := if kept = [] ∨ kept.getLast? = some ';' then "" else ";"
  String.ofList kept ++ separator ++ property ++ ":" ++ value ++ ";"

end Css

end MailTemplate
