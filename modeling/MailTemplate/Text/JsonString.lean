/-!
# Strings of JSON

A string is written between double quotes.  Quotes, backslashes and control characters are escaped,
and every other character stands for itself.

## Main definitions

* `JsonString.quote` — a text between quotes.

## Main results

* `JsonString.escape_of_le` — what is neither a control character, a quote nor a backslash stands for
  itself.
-/

namespace MailTemplate

namespace JsonString

/-- How a character is written. -/
def escape (c : Char) : List Char :=
  if c = '"' then ['\\', '"']
  else if c = '\\' then ['\\', '\\']
  else if c = '\n' then ['\\', 'n']
  else if c = '\r' then ['\\', 'r']
  else if c = '\t' then ['\\', 't']
  else if c.toNat = 8 then ['\\', 'b']
  else if c.toNat = 12 then ['\\', 'f']
  else if c.toNat < 32 then
    ['\\', 'u', '0', '0', Nat.digitChar (c.toNat / 16), Nat.digitChar (c.toNat % 16)]
  else [c]

theorem escape_of_le {c : Char} (h : 32 ≤ c.toNat) (hq : c ≠ '"') (hb : c ≠ '\\') :
    escape c = [c] := by
  have h' : ∀ d : Char, d.toNat < 32 → c ≠ d := by
    rintro d hd rfl
    omega
  simp [escape, hq, hb, h' '\n' (by decide), h' '\r' (by decide), h' '\t' (by decide),
    show c.toNat ≠ 8 by omega, show c.toNat ≠ 12 by omega, show ¬ c.toNat < 32 by omega]

/-- A text between quotes. -/
def quote (s : String) : String := "\"" ++ String.ofList (s.toList.flatMap escape) ++ "\""

end JsonString

end MailTemplate
