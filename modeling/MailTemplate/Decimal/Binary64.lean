import MailTemplate.Decimal.Rounding

/-!
# Double precision numbers

A finite double is `mantissa * 2 ^ exponent` with a mantissa below `2 ^ 53` and an exponent of at
least `-1074`.  `Binary64.nearest` rounds a quotient to a double, a tie going to the even mantissa;
everything else here is exact arithmetic on whole numbers.

## Main definitions

* `Binary64` — a magnitude: finite or infinite.
* `Binary64.nearest` — the double nearest to a quotient.
* `Binary64.ofDecimal` — the double nearest to a decimal number.
* `Binary64.shortest` — the fewest decimal digits that read back as the same double.
-/

namespace MailTemplate

/-- The magnitude of a double precision number. -/
inductive Binary64 where
  /-- The number `mantissa * 2 ^ exponent`. -/
  | finite (mantissa : Nat) (exponent : Int)
  /-- A magnitude beyond the greatest finite one. -/
  | infinite
  deriving DecidableEq, Repr

namespace Binary64

/-- A quotient multiplied by a power of two, as a pair of numerator and denominator. -/
def scale (num den : Nat) (e : Int) : Nat × Nat :=
  if 0 ≤ e then (num * Nat.pow 2 e.toNat, den) else (num, den * Nat.pow 2 (-e).toNat)

/-- The greatest exponent `e` with `2 ^ e ≤ num / den`. -/
def floorLog2 (num den : Nat) : Int :=
  let e : Int := (Nat.log2 num : Int) - Nat.log2 den
  let (n, d) := scale num den (-e)
  if n < d then e - 1 else e

/-- The double nearest to `num / den`; of two equally near ones that with the even mantissa. -/
def nearest (num den : Nat) : Binary64 :=
  if num = 0 then .finite 0 0
  else
    let e := max (floorLog2 num den - 52) (-1074)
    let (n, d) := scale num den (-e)
    let m := Decimal.roundEven n d
    if 971 < e ∨ (971 = e ∧ Nat.pow 2 53 ≤ m) then .infinite else .finite m e

/-- The double nearest to `digits * 10 ^ exponent`. -/
def ofDecimal (digits : Nat) (exponent : Int) : Binary64 :=
  let magnitude : Int := (Decimal.digits digits).length + exponent
  if digits = 0 then .finite 0 0
  else if 400 < magnitude then .infinite
  else if magnitude < -400 then .finite 0 0
  else if 0 ≤ exponent then nearest (digits * Nat.pow 10 exponent.toNat) 1
  else nearest digits (Nat.pow 10 (-exponent).toNat)

/-- A finite double as a quotient. -/
def quotient (mantissa : Nat) (exponent : Int) : Nat × Nat := scale mantissa 1 exponent

/-- The decimal numbers `digits * 10 ^ exponent` on one grid next to `num / den`. -/
def neighbours (num den : Nat) (exponent : Int) : Nat × Nat :=
  let (n, d) :=
    if 0 ≤ exponent then (num, den * Nat.pow 10 exponent.toNat)
    else (num * Nat.pow 10 (-exponent).toNat, den)
  (n / d, n / d + 1)

/-- The distance of `digits * 10 ^ exponent` from `num / den`, times a factor that is the same for
all `digits`. -/
def distance (num den : Nat) (digits : Nat) (exponent : Int) : Nat :=
  let (n, d) :=
    if 0 ≤ exponent then (num, den * Nat.pow 10 exponent.toNat)
    else (num * Nat.pow 10 (-exponent).toNat, den)
  max (digits * d) n - min (digits * d) n

/-- The greatest exponent `e` with `10 ^ e ≤ num / den`, found by counting digits. -/
def floorLog10 (num den : Nat) : Int :=
  let e : Int := ((Decimal.digits num).length : Int) - (Decimal.digits den).length
  let below (e : Int) : Bool :=
    if 0 ≤ e then den * Nat.pow 10 e.toNat ≤ num else den ≤ num * Nat.pow 10 (-e).toNat
  if below e then e else e - 1

/-- The shortest decimal number on the grids of `17 - count` up to `17` digits that reads back. -/
def shortestFrom (mantissa : Nat) (exponent : Int) (log10 : Int) : Nat → Nat × Int
  | 0 => (mantissa, 0)
  | count + 1 =>
    let e10 : Int := log10 - (17 - (count + 1) : Int)
    let (num, den) := quotient mantissa exponent
    let (low, high) := neighbours num den e10
    let reads (d : Nat) : Bool := ofDecimal d e10 == nearest num den
    if reads low && (!reads high || distance num den low e10 ≤ distance num den high e10) then
      (low, e10)
    else if reads high then (high, e10)
    else shortestFrom mantissa exponent log10 count

/-- The digits and the exponent of the shortest decimal number that reads back as a finite double
above zero; of several the nearest. -/
def shortest (mantissa : Nat) (exponent : Int) : Nat × Int :=
  let (num, den) := quotient mantissa exponent
  shortestFrom mantissa exponent (floorLog10 num den) 17

end Binary64

end MailTemplate
