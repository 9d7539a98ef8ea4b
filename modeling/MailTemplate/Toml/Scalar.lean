import MailTemplate.Toml.Lexeme
import MailTemplate.Toml.Value

/-!
# Numbers, dates and times

Numbers can have underscores between their digits.  Whole numbers are those of sixty-four bits.  A
date is followed by a time if a `T` or one blank stands between them.

## Main definitions

* `Toml.integer?`, `Toml.float?` — the number that a whole text is.
* `Toml.dateTime?` — the date or time that a text begins with.
* `Toml.scalar?` — the number, truth value, date or time that a text begins with.
-/

namespace MailTemplate

namespace Toml

/-! ## Numbers -/

/-- The digits of a text that consists of digits with single underscores between them. -/
def digits? (isDigit : Char → Bool) : List Char → Option (List Char)
  | [] => none
  | [c] => if isDigit c then some [c] else none
  | c :: '_' :: rest => if isDigit c then (digits? isDigit rest).map (c :: ·) else none
  | c :: d :: rest => if isDigit c then (digits? isDigit (d :: rest)).map (c :: ·) else none

/-- The number that digits of a base write. -/
def ofDigits (base : Nat) (cs : List Char) : Nat :=
  cs.foldl (fun n c => base * n + (hexValue? c).getD 0) 0

/-- The number of a text in a base other than ten. -/
def basedInteger? (base : Nat) (cs : List Char) : Option Int := do
  let isDigit (c : Char) : Bool := match hexValue? c with
    | some v => v < base
    | none => false
  let n := ofDigits base (← digits? isDigit cs)
  if n < Nat.pow 2 63 then some n else none

/-- Whether digits are a whole number as it is written: without leading zeros. -/
def isWhole : List Char → Bool
  | [] => false
  | ['0'] => true
  | c :: _ => c != '0'

/-- A sign and the text behind it. -/
def signed : List Char → Bool × List Char
  | '-' :: rest => (true, rest)
  | '+' :: rest => (false, rest)
  | cs => (false, cs)

/-- The whole number that a text is. -/
def integer? (cs : List Char) : Option Int :=
  match cs with
  | '0' :: 'x' :: rest => basedInteger? 16 rest
  | '0' :: 'o' :: rest => basedInteger? 8 rest
  | '0' :: 'b' :: rest => basedInteger? 2 rest
  | _ => do
    let (negative, rest) := signed cs
    let digits ← digits? Char.isDigit rest
    if !isWhole digits then none
    else
      let n := ofDigits 10 digits
      if negative then (if n ≤ Nat.pow 2 63 then some (-(n : Int)) else none)
      else if n < Nat.pow 2 63 then some n else none

/-- The exponent that a text is: nothing, or the letter and a signed number. -/
def exponent? : List Char → Option Int
  | [] => some 0
  | c :: rest =>
    if c = 'e' ∨ c = 'E' then
      let (negative, rest) := signed rest
      (digits? Char.isDigit rest).map fun ds =>
        if negative then -(ofDigits 10 ds : Int) else ofDigits 10 ds
    else none

/-- The floating point number that a text is.  One that is too great is none, unless it is below
zero. -/
def float? (cs : List Char) : Option Float := do
  let (negative, rest) := signed cs
  if rest = "inf".toList then some (.number negative .infinite)
  else if rest = "nan".toList then some .missing
  else
    let isPart (c : Char) : Bool := c.isDigit || c == '_'
    let whole ← digits? Char.isDigit (rest.takeWhile isPart)
    if !isWhole whole then none
    else
      let behind := rest.dropWhile isPart
      let (places, behind) ← match behind with
        | '.' :: more => (digits? Char.isDigit (more.takeWhile isPart)).map fun ds =>
            (ds, more.dropWhile isPart)
        | _ => some ([], behind)
      let e ← exponent? behind
      if places = [] ∧ behind = [] then none
      else
        let x := Binary64.ofDecimal (ofDigits 10 (whole ++ places)) (e - places.length)
        if x = .infinite ∧ negative = false then none else some (.number negative x)

/-! ## Dates and times -/

/-- A number of so many digits within bounds. -/
def field? (count low high : Nat) : Reader Nat := fun cs =>
  let ds := cs.take count
  if ds.length = count ∧ ds.all Char.isDigit then
    let n := ofDigits 10 ds
    if low ≤ n ∧ n ≤ high then some (n, cs.drop count) else none
  else none

/-- The text behind a character. -/
def behind? (c : Char) : List Char → Option (List Char)
  | d :: rest => if d = c then some rest else none
  | [] => none

/-- How many days a month has. -/
def daysIn (year month : Nat) : Nat :=
  if month = 2 then
    if year % 4 = 0 ∧ (year % 100 ≠ 0 ∨ year % 400 = 0) then 29 else 28
  else if month = 4 ∨ month = 6 ∨ month = 9 ∨ month = 11 then 30
  else 31

/-- A date. -/
def date? : Reader Date := fun cs => do
  let (year, cs) ← field? 4 0 9999 cs
  let (month, cs) ← field? 2 1 12 (← behind? '-' cs)
  let (day, cs) ← field? 2 1 (daysIn year month) (← behind? '-' cs)
  some (⟨year, month, day⟩, cs)

/-- The billionths of a second that the digits behind a point write; further digits are dropped. -/
def nanoseconds : List Char → Nat × List Char
  | '.' :: rest =>
    let ds := rest.takeWhile Char.isDigit
    if ds = [] then (0, '.' :: rest)
    else
      let kept := ds.take 9
      (ofDigits 10 kept * Nat.pow 10 (9 - kept.length), rest.drop ds.length)
  | cs => (0, cs)

/-- A time. -/
def time? : Reader Time := fun cs => do
  let (hour, cs) ← field? 2 0 23 cs
  let (minute, cs) ← field? 2 0 59 (← behind? ':' cs)
  let (second, cs) ← field? 2 0 60 (← behind? ':' cs)
  let (nanosecond, cs) := nanoseconds cs
  some (⟨hour, minute, second, nanosecond⟩, cs)

/-- A signed offset of hours and minutes. -/
def numericOffset? (negative : Bool) : Reader Offset := fun cs => do
  let (hours, cs) ← field? 2 0 23 cs
  let (minutes, cs) ← field? 2 0 59 (← behind? ':' cs)
  let n : Int := hours * 60 + minutes
  some (.minutes (if negative then -n else n), cs)

/-- An offset. -/
def offset? : Reader Offset
  | 'Z' :: rest => some (.utc, rest)
  | 'z' :: rest => some (.utc, rest)
  | '+' :: rest => numericOffset? false rest
  | '-' :: rest => numericOffset? true rest
  | _ => none

/-- The time behind a date, if one stands there. -/
def timeBehindDate? : Reader Time
  | c :: rest => if c = 'T' ∨ c = 't' ∨ c = ' ' then time? rest else none
  | [] => none

/-- A date, a time, or both. -/
def dateTime? : Reader DateTime := fun cs =>
  match date? cs with
  | some (d, rest) =>
    match timeBehindDate? rest with
    | some (t, rest) =>
      match offset? rest with
      | some (o, rest) => some (.moment d t (some o), rest)
      | none => some (.moment d t none, rest)
    | none => some (.date d, rest)
  | none => (time? cs).map fun (t, rest) => (.time t, rest)

/-! ## Scalars -/

/-- The characters of numbers and words. -/
def isScalarChar (c : Char) : Bool :=
  c.isAlphanum || c == '+' || c == '-' || c == '.' || c == '_'

/-- The scalar that a word is. -/
def word? (cs : List Char) : Option Value :=
  if cs = "true".toList then some (.boolean true)
  else if cs = "false".toList then some (.boolean false)
  else
    match integer? cs with
    | some n => some (.integer n)
    | none => (float? cs).map .float

/-- The scalar that a text begins with, strings apart. -/
def scalar? : Reader Value := fun cs =>
  match dateTime? cs with
  | some (t, rest) => some (.datetime t, rest)
  | none =>
    (word? (cs.takeWhile isScalarChar)).map fun v => (v, cs.dropWhile isScalarChar)

end Toml

end MailTemplate
