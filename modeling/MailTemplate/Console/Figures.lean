import MailTemplate.Decimal.Binary64

/-!
# Figures on the console

Entries of a report are numbered, details are indented, sizes are given in the largest unit of which
there is at least one, and times in seconds.  Sizes and times pass through double precision before
they are rounded to one decimal place, a tie going to the even digit.

## Main definitions

* `Console.index`, `Console.detail` — an entry's number and a detail's line.
* `Console.size`, `Console.seconds` — sizes and times.
-/

namespace MailTemplate

namespace Console

/-- The number of the entry behind so many others. -/
def index (before : Nat) : String :=
  String.ofList (Decimal.zeroPad 3 (Decimal.digits (before + 1)))

/-- A line below an entry. -/
def detail (text : String) : String := "    " ++ text

/-- A double with one decimal place. -/
def onePlace : Binary64 → String
  | .finite mantissa exponent =>
    let (num, den) := Binary64.quotient mantissa exponent
    String.ofList (Decimal.onePlace num den)
  | .infinite => "inf"

/-- A double divided by 1024 so many times. -/
def scaled (count : Nat) : Binary64 → Binary64
  | .finite mantissa exponent => .finite mantissa (exponent - 10 * count)
  | .infinite => .infinite

/-- Whether a double is at least 1024. -/
def isLarge : Binary64 → Bool
  | .finite mantissa exponent =>
    let (num, den) := Binary64.quotient mantissa exponent
    1024 * den ≤ num
  | .infinite => true

/-- A size in the first of some units of which there are fewer than 1024, or else in the last. -/
def sizeIn (value : Binary64) : List String → String
  | [] => onePlace value
  | [unit] => onePlace value ++ " " ++ unit
  | unit :: units =>
    if isLarge value then sizeIn (scaled 1 value) units else onePlace value ++ " " ++ unit

/-- A number of bytes for readers. -/
def size (bytes : Nat) : String :=
  if bytes < 1024 then toString bytes ++ " B"
  else sizeIn (scaled 1 (.nearest bytes 1)) ["KB", "MB", "GB"]

/-- The sum of two finite doubles as a double. -/
def sum : Binary64 → Binary64 → Binary64
  | .finite m d, .finite n e =>
    let (a, b) := Binary64.quotient m d
    let (p, q) := Binary64.quotient n e
    .nearest (a * q + p * b) (b * q)
  | _, _ => .infinite

/-- A number of milliseconds in seconds. -/
def seconds (milliseconds : Nat) : String :=
  onePlace (sum (.nearest (milliseconds / 1000) 1) (.nearest (milliseconds % 1000) 1000)) ++ "s"

end Console

end MailTemplate
