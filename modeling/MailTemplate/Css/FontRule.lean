import MailTemplate.Text.Basic

/-!
# Font lists in style sheets

A style sheet is not parsed.  A font list is what follows the word `font-family` and a colon, with
blanks around the colon, up to a semicolon or a closing brace.

## Main definitions

* `Css.SheetPart` — a font list with the word before it, or one other character.
* `Css.sheetParts` — the parts of a style sheet.

## Main results

* `Css.flatMap_written_sheetParts` — the parts written one after the other are the style sheet.
-/

namespace MailTemplate

namespace Css

/-- A part of a style sheet. -/
inductive SheetPart where
  /-- A character outside font lists. -/
  | other (c : Char)
  /-- A font list, and all that is written from the word `font-family` through its end. -/
  | fontFamily (written list : List Char)
  deriving DecidableEq, Repr

/-- A part as it is written. -/
def SheetPart.written : SheetPart → List Char
  | other c => [c]
  | fontFamily written _ => written

/-- The word before a font list. -/
def fontFamilyWord : List Char := "font-family".toList

/-- The characters that end a font list. -/
def endsFontList (c : Char) : Bool := c == ';' || c == '\x7d'

/-- The font list at the front of a text: how many characters it takes with the word before it, and
the list. -/
def fontListAt? (cs : List Char) : Option (Nat × List Char) :=
  if Text.beginsWithBy Text.sameFold fontFamilyWord cs then
    let behind := cs.drop fontFamilyWord.length
    let gap := behind.takeWhile Text.isBlank
    match behind.dropWhile Text.isBlank with
    | ':' :: value =>
      let lead := value.takeWhile Text.isBlank
      let list := (value.dropWhile Text.isBlank).takeWhile fun c => !endsFontList c
      some (fontFamilyWord.length + gap.length + 1 + lead.length + list.length, list)
    | _ => none
  else none

/-- The parts of a style sheet. -/
def sheetParts (cs : List Char) : List SheetPart :=
  match cs with
  | [] => []
  | c :: rest =>
    match fontListAt? (c :: rest) with
    | some (n, list) =>
      .fontFamily (c :: rest.take (n - 1)) list :: sheetParts (rest.drop (n - 1))
    | none => .other c :: sheetParts rest
termination_by cs.length
decreasing_by all_goals simp only [List.length_drop, List.length_cons]; omega

theorem flatMap_written_sheetParts (cs : List Char) :
    (sheetParts cs).flatMap SheetPart.written = cs := by
  fun_induction sheetParts cs with
  | case1 => rfl
  | case2 c rest n list h ih =>
    simp only [List.flatMap_cons, SheetPart.written, ih, List.cons_append,
      List.take_append_drop]
  | case3 c rest h ih => simp [SheetPart.written, ih]

end Css

end MailTemplate
