/-!
# Blank characters

Two classes of blank are in use.  `isBlank` is the `White_Space` property of Unicode, which decides
how values, titles and lines are trimmed and split into words.  `isTagBlank` is the ASCII class that
separates the parts of a tag.

## Main definitions

* `isBlank`, `isTagBlank` — the two classes.

## Main results

* `isBlank_of_isTagBlank` — a blank of a tag is a blank of Unicode.
-/

namespace MailTemplate

namespace Text

/-- The characters with the Unicode property `White_Space`. -/
def isBlank (c : Char) : Bool :=
  let n := c.toNat
  (0x09 ≤ n && n ≤ 0x0D) || n == 0x20 || n == 0x85 || n == 0xA0 || n == 0x1680 ||
    (0x2000 ≤ n && n ≤ 0x200A) || n == 0x2028 || n == 0x2029 || n == 0x202F || n == 0x205F ||
    n == 0x3000

/-- The blanks of a tag: space, tab, line feed, form feed and carriage return. -/
def isTagBlank (c : Char) : Bool :=
  c == ' ' || c == '\t' || c == '\n' || c == '\x0c' || c == '\r'

theorem isBlank_of_isTagBlank {c : Char} (h : isTagBlank c = true) : isBlank c = true := by
  simp only [isTagBlank, Bool.or_eq_true, beq_iff_eq] at h
  rcases h with (((rfl | rfl) | rfl) | rfl) | rfl <;> decide

end Text

end MailTemplate
