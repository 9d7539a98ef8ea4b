import MailTemplate.Text.Basic
import MailTemplate.Decimal.Binary64

/-!
# Numerals

A numeral is an optional sign and either a word for an infinite or missing value or decimal digits
with an optional point and an optional exponent.  At least one digit stands before the exponent, on
either side of the point.

## Main definitions

* `Numeral` — what a numeral says.
* `Numeral.read?` — the numeral that a text is.
* `Numeral.magnitude` — its nearest double, without the sign.
-/

namespace MailTemplate

/-- What a numeral says. -/
inductive Numeral where
  /-- The word for a missing number. -/
  | missing
  /-- The word for an infinite number. -/
  | infinite (negative : Bool)
  /-- The number `digits * 10 ^ exponent`, below zero if it is `negative`. -/
  | decimal (negative : Bool) (digits : Nat) (exponent : Int)
  deriving DecidableEq, Repr

namespace Numeral

/-- The number that decimal digits write. -/
def ofDigits (cs : List Char) : Nat :=
  cs.foldl (fun n c => 10 * n + (c.toNat - '0'.toNat)) 0

/-- A sign, if one stands in front, and the text behind it. -/
def sign : List Char → Bool × List Char
  | '-' :: cs => (true, cs)
  | '+' :: cs => (false, cs)
  | cs => (false, cs)

/-- The exponent that a text is: nothing, or the letter and a signed number. -/
def exponent? : List Char → Option Int
  | [] => some 0
  | c :: cs =>
    if c = 'e' ∨ c = 'E' then
      let (negative, digits) := sign cs
      if digits = [] ∨ digits.any (fun d => !d.isDigit) then none
      else some (if negative then -(ofDigits digits : Int) else ofDigits digits)
    else none

/-- The decimal number that a text without a sign is. -/
def decimal? (negative : Bool) (cs : List Char) : Option Numeral :=
  let whole := cs.takeWhile Char.isDigit
  let rest := cs.dropWhile Char.isDigit
  let (places, rest) :=
    match rest with
    | '.' :: more => (more.takeWhile Char.isDigit, more.dropWhile Char.isDigit)
    | _ => ([], rest)
  if whole ++ places = [] then none
  else (exponent? rest).map fun e => .decimal negative (ofDigits (whole ++ places)) (e - places.length)

/-- The numeral that a text is. -/
def read? (cs : List Char) : Option Numeral :=
  let (negative, rest) := sign cs
  let word := String.ofList (Text.lower rest)
  if word = "nan" then some .missing
  else if word = "inf" ∨ word = "infinity" then some (.infinite negative)
  else decimal? negative rest

/-- The double nearest to a numeral, without its sign; a missing number has none. -/
def magnitude : Numeral → Option Binary64
  | .missing => none
  | .infinite _ => some .infinite
  | .decimal _ digits exponent => some (.ofDecimal digits exponent)

/-- Whether a numeral bears a minus sign. -/
def isNegative : Numeral → Bool
  | .missing => false
  | .infinite negative => negative
  | .decimal negative _ _ => negative

end Numeral

end MailTemplate
