import MailTemplate.Text.Basic

/-!
# Spans of a text

A span is a range of byte offsets.  A text can be cut only between two characters: `splitAtByte?`
refuses every other place, and `slice?` refuses a span that does not begin and end at such places.

## Main definitions

* `Span` — the bytes from `start` up to, but not with, `stop`.
* `Text.splitAtByte?`, `Text.slice?` — cutting a text by byte offsets.

## Main results

* `Text.splitAtByte?_eq_some_iff` — a text is cut exactly where its two parts meet.
* `Text.slice?_eq_some_iff` — what a span holds.
-/

namespace MailTemplate

/-- The bytes of a text from `start` up to, but not with, `stop`. -/
structure Span where
  /-- The offset of the first byte. -/
  start : Nat
  /-- The offset just after the last byte. -/
  stop : Nat
  deriving DecidableEq, Repr

namespace Span

/-- The span of the same length that lies `by_` bytes further on. -/
def shift (s : Span) (by_ : Nat) : Span := ⟨s.start + by_, s.stop + by_⟩

end Span

namespace Text

/-- The text before and after a byte offset, if the offset lies between two characters. -/
def splitAtByte? : Nat → List Char → Option (List Char × List Char)
  | 0, cs => some ([], cs)
  | _ + 1, [] => none
  | n + 1, c :: cs =>
    if n + 1 < c.utf8Size then none
    else (splitAtByte? (n + 1 - c.utf8Size) cs).map fun (before, after) => (c :: before, after)

theorem splitAtByte?_eq_some_iff {n : Nat} {cs before after : List Char} :
    splitAtByte? n cs = some (before, after) ↔ cs = before ++ after ∧ byteLength before = n := by
  induction cs generalizing n before with
  | nil =>
    cases n with
    | zero =>
      simp only [splitAtByte?, Option.some.injEq, Prod.mk.injEq, List.nil_eq_append_iff]
      constructor
      · rintro ⟨rfl, rfl⟩
        simp
      · rintro ⟨⟨rfl, rfl⟩, -⟩
        simp
    | succ n =>
      simp only [splitAtByte?, reduceCtorEq, false_iff, List.nil_eq_append_iff]
      rintro ⟨⟨rfl, rfl⟩, h⟩
      simp at h
  | cons c cs ih =>
    have hc : 0 < c.utf8Size := Char.utf8Size_pos c
    cases n with
    | zero =>
      simp only [splitAtByte?, Option.some.injEq, Prod.mk.injEq]
      constructor
      · rintro ⟨rfl, rfl⟩
        simp
      · rintro ⟨h, hl⟩
        cases before with
        | nil => simpa using h
        | cons b bs =>
          simp only [byteLength_cons] at hl
          have := Char.utf8Size_pos b
          omega
    | succ n =>
      simp only [splitAtByte?]
      split
      · next hlt =>
        simp only [reduceCtorEq, false_iff]
        rintro ⟨h, hl⟩
        cases before with
        | nil => simp at hl
        | cons b bs =>
          simp only [List.cons_append, List.cons.injEq] at h
          obtain ⟨rfl, -⟩ := h
          simp only [byteLength_cons] at hl
          omega
      · next hge =>
        rw [Option.map_eq_some_iff]
        constructor
        · rintro ⟨⟨b, a⟩, hb, heq⟩
          simp only [Prod.mk.injEq] at heq
          obtain ⟨rfl, rfl⟩ := heq
          obtain ⟨rfl, hl⟩ := ih.1 hb
          simp only [List.cons_append, byteLength_cons, true_and]
          omega
        · rintro ⟨h, hl⟩
          cases before with
          | nil => simp at hl
          | cons b bs =>
            simp only [List.cons_append, List.cons.injEq] at h
            obtain ⟨rfl, rfl⟩ := h
            simp only [byteLength_cons] at hl
            exact ⟨(bs, after), ih.2 ⟨rfl, by omega⟩, rfl⟩

/-- A text is cut at a byte offset in one way only. -/
theorem append_inj_of_byteLength {as as' bs bs' : List Char} (h : as ++ bs = as' ++ bs')
    (hlength : byteLength as = byteLength as') : as = as' ∧ bs = bs' := by
  have hcut := splitAtByte?_eq_some_iff.2 ⟨h, rfl⟩
  rw [splitAtByte?_eq_some_iff.2 ⟨rfl, hlength⟩] at hcut
  exact Prod.mk.inj (Option.some.inj hcut)

/-- The text after a byte offset. -/
def dropBytes? (n : Nat) (cs : List Char) : Option (List Char) :=
  (splitAtByte? n cs).map (·.2)

/-- The text of a span. -/
def slice? (s : Span) (cs : List Char) : Option (List Char) := do
  if s.stop < s.start then none
  let rest ← dropBytes? s.start cs
  let (inside, _) ← splitAtByte? (s.stop - s.start) rest
  return inside

/-- A span holds a text if the text stands between two parts of the source as long as it says. -/
theorem slice?_eq_some_iff {s : Span} {cs inside : List Char} :
    slice? s cs = some inside ↔ ∃ before after, cs = before ++ (inside ++ after) ∧
      s.start = byteLength before ∧ s.stop = byteLength before + byteLength inside := by
  have hslice : slice? s cs = some inside ↔ ¬ s.stop < s.start ∧
      ∃ rest, (∃ before, splitAtByte? s.start cs = some (before, rest)) ∧
        ∃ after, splitAtByte? (s.stop - s.start) rest = some (inside, after) := by
    unfold slice? dropBytes?
    by_cases h : s.stop < s.start
    · simp [h]
    · simp [h, Option.bind_eq_some_iff]
  rw [hslice]
  constructor
  · rintro ⟨hle, rest, ⟨before, hbefore⟩, after, hinside⟩
    obtain ⟨rfl, hstart⟩ := splitAtByte?_eq_some_iff.1 hbefore
    obtain ⟨rfl, hlength⟩ := splitAtByte?_eq_some_iff.1 hinside
    exact ⟨before, after, rfl, hstart.symm, by omega⟩
  · rintro ⟨before, after, rfl, hstart, hstop⟩
    refine ⟨by omega, inside ++ after, ⟨before, ?_⟩, after, ?_⟩
    · exact splitAtByte?_eq_some_iff.2 ⟨rfl, hstart.symm⟩
    · exact splitAtByte?_eq_some_iff.2 ⟨rfl, by omega⟩

/-- The text of a span that is known to lie in the text, and nothing for any other. -/
def slice (s : Span) (cs : List Char) : List Char := (slice? s cs).getD []

end Text

end MailTemplate
