import MailTemplate.Text.Span

/-!
# Cursors

A scanner moves a cursor over a source: the byte offset that it has reached, and the characters still
ahead.  Every move is an `advance` by some number of characters, so offset and characters stay in
step.

## Main definitions

* `Cursor` — a place in a source.
* `Cursor.advance`, `Cursor.skip`, `Cursor.past?`, `Cursor.finish` — moves.
* `Cursor.On` — the cursor lies on a source.

## Main results

* `Cursor.On.advance` — a move stays on the source.
* `Cursor.length_advance_le`, `Cursor.length_advance_lt` — a move leaves no more ahead.
-/

namespace MailTemplate

/-- A place in a source. -/
structure Cursor where
  /-- The number of bytes before the place. -/
  offset : Nat
  /-- The characters behind it. -/
  ahead : List Char
  deriving DecidableEq, Repr

namespace Cursor

/-- The front of a source. -/
def front (source : List Char) : Cursor := ⟨0, source⟩

/-- The place so many characters on. -/
def advance (c : Cursor) (n : Nat) : Cursor :=
  ⟨c.offset + Text.byteLength (c.ahead.take n), c.ahead.drop n⟩

/-- The characters of a class that come next. -/
def run (c : Cursor) (p : Char → Bool) : List Char := c.ahead.takeWhile p

/-- The place behind the characters of a class. -/
def skip (c : Cursor) (p : Char → Bool) : Cursor := c.advance (c.run p).length

/-- The place behind the first occurrence of a text. -/
def past? (c : Cursor) (sought : List Char) : Option Cursor :=
  (Text.indexOf? sought c.ahead).map fun i => c.advance (i + sought.length)

/-- The end of the source. -/
def finish (c : Cursor) : Cursor := c.advance c.ahead.length

/-- The place behind the first occurrence of a text, or the end of the source. -/
def pastOrFinish (c : Cursor) (sought : List Char) : Cursor := (c.past? sought).getD c.finish

/-- The span from one place to another. -/
def spanTo (c d : Cursor) : Span := ⟨c.offset, d.offset⟩

/-- The cursor stands between two parts of the source. -/
def On (c : Cursor) (source : List Char) : Prop :=
  ∃ before, source = before ++ c.ahead ∧ c.offset = Text.byteLength before

theorem on_front (source : List Char) : (front source).On source := ⟨[], rfl, rfl⟩

theorem On.advance {c : Cursor} {source : List Char} (h : c.On source) (n : Nat) :
    (c.advance n).On source := by
  obtain ⟨before, hs, ho⟩ := h
  refine ⟨before ++ c.ahead.take n, ?_, ?_⟩
  · simp [Cursor.advance, hs]
  · simp [Cursor.advance, ho, Text.byteLength_append]

@[simp] theorem ahead_advance (c : Cursor) (n : Nat) : (c.advance n).ahead = c.ahead.drop n := rfl

theorem length_advance_le (c : Cursor) (n : Nat) :
    (c.advance n).ahead.length ≤ c.ahead.length := by
  simp

theorem length_advance_lt {c : Cursor} {n : Nat} (hn : 0 < n) (h : c.ahead ≠ []) :
    (c.advance n).ahead.length < c.ahead.length := by
  have : 0 < c.ahead.length := List.length_pos_iff.2 h
  simp only [ahead_advance, List.length_drop]
  omega

theorem ahead_skip (c : Cursor) (p : Char → Bool) : (c.skip p).ahead = c.ahead.dropWhile p := by
  simp only [skip, run, ahead_advance]
  induction c.ahead with
  | nil => rfl
  | cons a as ih => by_cases h : p a <;> simp [h, ih]

theorem length_skip_le (c : Cursor) (p : Char → Bool) :
    (c.skip p).ahead.length ≤ c.ahead.length := length_advance_le _ _

theorem length_past?_le {c d : Cursor} {sought : List Char} (h : c.past? sought = some d) :
    d.ahead.length ≤ c.ahead.length := by
  obtain ⟨i, -, rfl⟩ := Option.map_eq_some_iff.1 h
  exact length_advance_le _ _

theorem length_pastOrFinish_le (c : Cursor) (sought : List Char) :
    (c.pastOrFinish sought).ahead.length ≤ c.ahead.length := by
  unfold pastOrFinish
  cases h : c.past? sought with
  | none => exact length_advance_le _ _
  | some d => exact length_past?_le h

end Cursor

end MailTemplate
