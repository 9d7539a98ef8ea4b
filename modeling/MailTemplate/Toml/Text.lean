import MailTemplate.Toml.Value

/-!
# The texts of scalars

How numbers, dates and times of a configuration are shown.  A floating point number is shown by the
fewest digits that read back.

## Main definitions

* `Toml.Float.text`, `Toml.Float.plainText` — floating point numbers with and without exponents.
* `Toml.DateTime.text` — dates and times.
-/

namespace MailTemplate

namespace Toml

/-! ## Floating point numbers -/

/-- The digits of a number without zeros at the end, and the place of its point, counted from before
the first digit. -/
def significant (digits : Nat) (exponent : Int) : List Char × Int :=
  let cs := Decimal.digits digits
  ((cs.reverse.dropWhile (· == '0')).reverse, cs.length + exponent)

/-- Digits with a point at a place, and one decimal place at least. -/
def positional (cs : List Char) (point : Int) : List Char :=
  if point ≤ 0 then '0' :: '.' :: (List.replicate (-point).toNat '0' ++ cs)
  else
    let whole := point.toNat
    if cs.length ≤ whole then cs ++ List.replicate (whole - cs.length) '0' ++ ['.', '0']
    else cs.take whole ++ '.' :: cs.drop whole

/-- Digits with a point behind the first one, and an exponent. -/
def scientific (cs : List Char) (point : Int) : List Char :=
  cs.take 1 ++ (if cs.length ≤ 1 then [] else '.' :: cs.drop 1) ++
    'e' :: (toString (point - 1)).toList

/-- The text of a magnitude, with an exponent where one is asked for. -/
def magnitudeText (withExponent : Int → Bool) : Binary64 → List Char
  | .infinite => "inf".toList
  | .finite 0 _ => "0.0".toList
  | .finite mantissa exponent =>
    let (digits, e) := Binary64.shortest mantissa exponent
    let (cs, point) := significant digits e
    if withExponent point then scientific cs point else positional cs point

/-- A number with its sign. -/
def Float.textWith (withExponent : Int → Bool) : Float → String
  | .missing => "NaN"
  | .number negative x =>
    String.ofList ((if negative then ['-'] else []) ++ magnitudeText withExponent x)

/-- A number, with an exponent below a ten thousandth and from ten to the sixteenth on. -/
def Float.text : Float → String := Float.textWith fun point => point < -3 || 16 < point

/-- A number without an exponent. -/
def Float.plainText : Float → String := Float.textWith fun _ => false

/-! ## Dates and times -/

/-- A number with a least number of digits. -/
def padded (width n : Nat) : List Char := Decimal.zeroPad width (Decimal.digits n)

/-- A date. -/
def Date.text (d : Date) : List Char :=
  padded 4 d.year ++ '-' :: padded 2 d.month ++ '-' :: padded 2 d.day

/-- A time.  A fraction of a second has no zeros at its end. -/
def Time.text (t : Time) : List Char :=
  padded 2 t.hour ++ ':' :: padded 2 t.minute ++ ':' :: padded 2 t.second ++
    (if t.nanosecond = 0 then []
      else '.' :: ((padded 9 t.nanosecond).reverse.dropWhile (· == '0')).reverse)

/-- An offset. -/
def Offset.text : Offset → List Char
  | .utc => ['Z']
  | .minutes n =>
    (if n < 0 then '-' else '+') :: padded 2 (n.natAbs / 60) ++ ':' :: padded 2 (n.natAbs % 60)

/-- A date, a time, or both. -/
def DateTime.text : DateTime → String
  | .date d => String.ofList d.text
  | .time t => String.ofList t.text
  | .moment d t offset =>
    String.ofList (d.text ++ 'T' :: t.text ++ (offset.map Offset.text).getD [])

end Toml

end MailTemplate
