/-!
# Rounding a quotient

Quotients of natural numbers are rounded to whole numbers: to the nearest one, and at equal distance
either to the even one or upwards.

## Main definitions

* `Decimal.roundEven`, `Decimal.roundUp` — the two roundings.
* `Decimal.digits` — the decimal digits of a number.
* `Decimal.onePlace` — a quotient with one decimal place.

## Main results

* `Decimal.roundEven_mul`, `Decimal.roundUp_mul` — a whole quotient is its own rounding.
-/

namespace MailTemplate

namespace Decimal

/-- The whole number nearest to `num / den`; of two equally near ones the even one. -/
def roundEven (num den : Nat) : Nat :=
  let q := num / den
  let r := num % den
  if 2 * r < den then q
  else if den < 2 * r then q + 1
  else if q % 2 = 0 then q else q + 1

/-- The whole number nearest to `num / den`; of two equally near ones the greater. -/
def roundUp (num den : Nat) : Nat := (2 * num + den) / (2 * den)

theorem roundEven_mul (n den : Nat) (h : 0 < den) : roundEven (n * den) den = n := by
  simp [roundEven, Nat.mul_div_cancel _ h, h]

theorem roundUp_mul (n den : Nat) (h : 0 < den) : roundUp (n * den) den = n := by
  unfold roundUp
  rw [Nat.div_eq_iff (by omega), Nat.mul_comm n den]
  constructor
  · rw [Nat.mul_comm n (2 * den), Nat.mul_assoc]
    omega
  · rw [Nat.mul_comm n (2 * den), Nat.mul_assoc]
    omega

/-- The decimal digits of a number. -/
def digits (n : Nat) : List Char := Nat.toDigits 10 n

/-- A text with zeros before it up to a width. -/
def zeroPad (width : Nat) (cs : List Char) : List Char :=
  List.replicate (width - cs.length) '0' ++ cs

/-- The number `num / den` with one decimal place, a tie going to the even digit. -/
def onePlace (num den : Nat) : List Char :=
  let tenths := roundEven (10 * num) den
  digits (tenths / 10) ++ '.' :: digits (tenths % 10)

end Decimal

end MailTemplate
