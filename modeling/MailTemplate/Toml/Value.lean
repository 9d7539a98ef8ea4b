import MailTemplate.Decimal.Binary64
import MailTemplate.Entries

/-!
# Configuration values

A configuration file holds a table.  A table has entries in the order of their keys, each key once;
a value is a table, an array or a scalar.

## Main definitions

* `Toml.Value` — values.
* `Toml.Value.merge` — one value laid over another one.

## Main results

* `Toml.Value.merge_of_not_table` — anything but a table replaces what it is laid over.
-/

namespace MailTemplate

namespace Toml

/-! ## Scalars -/

/-- A calendar date. -/
structure Date where
  /-- The year. -/
  year : Nat
  /-- The month, from one on. -/
  month : Nat
  /-- The day of the month, from one on. -/
  day : Nat
  deriving DecidableEq, Repr

/-- A time of day. -/
structure Time where
  /-- The hour. -/
  hour : Nat
  /-- The minute. -/
  minute : Nat
  /-- The second, which can be 60. -/
  second : Nat
  /-- The billionths of a second. -/
  nanosecond : Nat
  deriving DecidableEq, Repr

/-- The distance of a local time from universal time. -/
inductive Offset where
  /-- None. -/
  | utc
  /-- A number of minutes. -/
  | minutes (n : Int)
  deriving DecidableEq, Repr

/-- A moment, a date or a time. -/
inductive DateTime where
  /-- A date alone. -/
  | date (d : Date)
  /-- A time alone. -/
  | time (t : Time)
  /-- A date with a time and perhaps an offset. -/
  | moment (d : Date) (t : Time) (offset : Option Offset)
  deriving DecidableEq, Repr

/-- A floating point number. -/
inductive Float where
  /-- Not a number. -/
  | missing
  /-- A number with its sign. -/
  | number (negative : Bool) (magnitude : Binary64)
  deriving DecidableEq, Repr

/-! ## Values -/

/-- A value. -/
inductive Value where
  /-- A text. -/
  | string (s : String)
  /-- A whole number. -/
  | integer (n : Int)
  /-- A floating point number. -/
  | float (x : Float)
  /-- A truth value. -/
  | boolean (b : Bool)
  /-- A moment, a date or a time. -/
  | datetime (t : DateTime)
  /-- A list of values. -/
  | array (items : List Value)
  /-- A table. -/
  | table (entries : List (String × Value))
  deriving Repr

/-- Whether a value is a table. -/
def Value.isTable : Value → Bool
  | .table _ => true
  | _ => false

namespace Value

mutual

/-- A value laid over another one: a table over a table entry by entry, anything else replacing
what it is laid over. -/
def merge : Value → Value → Value
  | .table base, .table overlay => .table (mergeEntries base overlay)
  | _, overlay => overlay

/-- Entries laid over others. -/
def mergeEntries (base : List (String × Value)) : List (String × Value) → List (String × Value)
  | [] => base
  | (key, v) :: rest =>
    let merged := match Entries.find? key base with
      | some b => merge b v
      | none => v
    mergeEntries (Entries.insert key merged base) rest

end

theorem merge_of_not_table (base : Value) {overlay : Value} (h : overlay.isTable = false) :
    merge base overlay = overlay := by
  cases overlay with
  | table _ => simp [isTable] at h
  | _ => cases base <;> simp [merge]

end Value

end Toml

end MailTemplate
