import MailTemplate.Decimal.Numeral
import MailTemplate.Text.Basic

/-!
# Values of style declarations

Values are compared in a normal form without letter case, blanks and the mark `!important`.  Two
kinds of value are recognised: lengths that are zero in any unit, and lengths in pixels.

## Main definitions

* `Css.splitImportant` — a value and whether it is marked as important.
* `Css.normalize` — the normal form of a value.
* `Css.isZeroLength`, `Css.pixelLength?` — reading lengths.
* `Css.namesFont` — whether a font list names one of some fonts.
-/

namespace MailTemplate

namespace Css

/-- The mark at the end of a value that makes it important. -/
def importantMark : List Char := "!important".toList

/-- A text without an ending, if it ends so. -/
def dropEnding? (ending cs : List Char) : Option (List Char) :=
  if ending.isSuffixOf cs then some (cs.take (cs.length - ending.length)) else none

/-- A value without a mark at its end, and whether the mark, in any letter case, was there. -/
def splitImportant (value : List Char) : List Char × Bool :=
  let trimmed := Text.trimEnd value
  let kept := trimmed.length - importantMark.length
  if Text.lower (trimmed.drop kept) = importantMark then
    (Text.trimEnd (trimmed.take kept), true)
  else (trimmed, false)

/-- The normal form in which values are compared: lower case, without the mark, without blanks. -/
def normalize (value : List Char) : List Char :=
  let lowered := Text.lower value
  ((dropEnding? importantMark (Text.trimEnd lowered)).getD lowered).filter fun c => !Text.isBlank c

/-- Whether a value is a length of zero: zeros and points, then nothing but a unit. -/
def isZeroLength (value : List Char) : Bool :=
  let isZero (c : Char) : Bool := c == '0' || c == '.'
  let v := normalize value
  let unit := v.dropWhile isZero
  unit.length < v.length && unit.all fun c => c.isAlpha || c == '%'

/-- The greatest number of pixels that is told apart from greater ones. -/
def maxPixels : Nat := 4294967295

/-- The whole number of pixels of a length above zero: a number with or without the unit `px`,
rounded to the nearest whole number, a half going up. -/
def pixelLength? (value : List Char) : Option Nat := do
  let v := normalize value
  let numeral ← Numeral.read? ((dropEnding? ['p', 'x'] v).getD v)
  match numeral.isNegative, numeral.magnitude with
  | false, some (.finite mantissa exponent) =>
    if mantissa = 0 then none
    else
      let (num, den) := Binary64.quotient mantissa exponent
      some (min maxPixels (Decimal.roundUp num den))
  | _, _ => none

/-! ## Fonts -/

/-- The name that an entry of a font list writes, without quotes and blanks around it. -/
def fontName (entry : List Char) : List Char :=
  let isQuote (c : Char) : Bool := c == '"' || c == '\''
  let plain := Text.replaceAll "&#39;".toList [] (Text.replaceAll "&quot;".toList [] entry)
  Text.trim (Text.dropEndWhile isQuote ((Text.trim plain).dropWhile isQuote))

/-- Whether a font list names one of the fonts, in any letter case. -/
def namesFont (list : List Char) (fonts : List String) : Bool :=
  ((splitImportant list).1.splitOn ',').any fun entry =>
    fonts.any fun font => Text.equalsFold font.toList (fontName entry)

end Css

end MailTemplate
