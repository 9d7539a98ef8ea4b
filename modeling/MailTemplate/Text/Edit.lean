import MailTemplate.Text.Span

/-!
# Edits of a text

An edit replaces a span of a source by a text; an insertion replaces an empty span.  A list of edits
is applied from left to right in the order of their spans, edits of one span in the order in which
they were listed.  An edit that begins before the end of the last one applied is left out.

## Main definitions

* `Edit` — a span and the text that takes its place.
* `Edit.applyTo?` — a source with a list of edits applied.

## Main results

* `Edit.applyTo?_nil` — without edits a source stays as it is.
-/

namespace MailTemplate

/-- A span of a source and the text that takes its place. -/
structure Edit where
  /-- The bytes that are replaced. -/
  span : Span
  /-- What takes their place. -/
  text : String
  deriving DecidableEq, Repr

namespace Edit

/-- The edit that inserts a text at an offset. -/
def insert (offset : Nat) (text : String) : Edit := ⟨⟨offset, offset⟩, text⟩

/-- The edit that puts a text in the place of a span. -/
def replace (span : Span) (text : String) : Edit := ⟨span, text⟩

/-- The order of application: by the start of the span, then by its end. -/
def comesBefore (a b : Edit) : Bool :=
  a.span.start < b.span.start || (a.span.start == b.span.start && a.span.stop ≤ b.span.stop)

/-- The source from `offset` on with edits applied that stand in the order of application.  It fails
where an edit that is applied does not lie between two characters of the source. -/
def splice? (source : List Char) (offset : Nat) : List Edit → Option (List Char)
  | [] => Text.dropBytes? offset source
  | e :: es =>
    if e.span.start < offset then splice? source offset es
    else do
      let kept ← Text.slice? ⟨offset, e.span.start⟩ source
      let rest ← splice? source e.span.stop es
      return kept ++ e.text.toList ++ rest

/-- The source with all edits applied. -/
def applyTo? (edits : List Edit) (source : String) : Option String :=
  (splice? source.toList 0 (edits.mergeSort comesBefore)).map String.ofList

theorem applyTo?_nil (source : String) : applyTo? [] source = some source := by
  simp [applyTo?, splice?, Text.dropBytes?, Text.splitAtByte?]

end Edit

end MailTemplate
