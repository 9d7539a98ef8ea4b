import MailTemplate.Proofs.HeadCompletion
import MailTemplate.Proofs.InPlaceRules

/-!
# Rules that keep the title

Six of the rules for Outlook do not touch the title of a document, if what they write is read as it is
meant.  Three work in place, and two insert markup in the head.  They are looked at here; the rule that
wraps tables follows on its own.

## Main definitions

* `Rule.KeepsTitles`, `KeepTitles` — a rule, or a list of rules, makes a document in pieces with the same
  titles.

## Main results

* `KeepTitles.exists_applyRules` — what a whole list of rules makes of a document in pieces.
* `CellClasses.keepsTitles`, `ZeroFontSpacer.keepsTitles`, `FontFallback.keepsTitles` — the rules that
  work in place.
* `OfficeSettings.keepsTitles`, `OutlookStyles.keepsTitles` — the rules that insert markup in the head.
-/

namespace MailTemplate

open MarkupPiece

/-- A rule makes a source in pieces of a source in pieces, with the same raw texts of title elements. -/
def Rule.KeepsTitles (source : String) (rule : Rule) : Prop :=
  ∀ ps, Fit ps → source = String.ofList (text ps) →
    ∃ ps', Fit ps' ∧ rule.applyTo source = String.ofList (text ps') ∧
      raws "title" ps' = raws "title" ps

/-- Rules that keep the titles, each in what the rules before it have made. -/
def KeepTitles : List Rule → String → Prop
  | [], _ => True
  | rule :: rules, source => rule.KeepsTitles source ∧ KeepTitles rules (rule.applyTo source)

/-- **A whole list of rules keeps the titles.** -/
theorem KeepTitles.exists_applyRules {rules : List Rule} {source : String} (h : KeepTitles rules source)
    {ps : List MarkupPiece} (hfit : Fit ps) (hsource : source = String.ofList (text ps)) :
    ∃ ps', Fit ps' ∧ (applyRules rules source).html = String.ofList (text ps') ∧
      raws "title" ps' = raws "title" ps := by
  induction rules generalizing source ps with
  | nil => exact ⟨ps, hfit, hsource, rfl⟩
  | cons rule rules ih =>
    obtain ⟨qs, hqs, happly, hraws⟩ := h.1 ps hfit hsource
    obtain ⟨ps', hfit', hhtml, hraws'⟩ := ih h.2 hqs happly
    refine ⟨ps', hfit', ?_, hraws'.trans hraws⟩
    rw [html_applyRules_cons, hhtml]

/-! ## Rules that work in place -/

theorem Rule.KeepsTitles.of_adaptable {rule : Rule} {source : String}
    {alike : StartTag → StartTag → Prop} {rawAlike : String → List Char → List Char → Prop}
    {tagEdits : StartTag → List Edit} {rawEdits : String → Span → List Edit}
    (h : Adaptable alike rawAlike tagEdits rawEdits source.toList)
    (hrule : (rule.editsOf source).Perm
      ((Document.read source).tokens.flatMap (Token.editsBy tagEdits rawEdits)))
    (hnone : ∀ span, rawEdits "title" span = []) : rule.KeepsTitles source := by
  rintro ps hfit rfl
  rw [String.toList_ofList] at h
  obtain ⟨ps', hps, happly⟩ := exists_applyTo hfit h hrule
  exact ⟨ps', hfit.changes hps.changes, happly, hps.raws "title" hnone⟩

theorem CellClasses.keepsTitles {signatures : List CellSignature} {source : String}
    (h : FitsIn signatures source) : (rule signatures).KeepsTitles source :=
  .of_adaptable (adaptable h) (.of_eq (edits_eq _)) fun _ => rfl

theorem ZeroFontSpacer.keepsTitles {source : String} (h : FitsIn source) : rule.KeepsTitles source :=
  .of_adaptable (adaptable h) (.of_eq (edits_eq _)) fun _ => rfl

theorem FontFallback.keepsTitles {webFonts : List String} {fallback source : String}
    (h : FitsIn webFonts fallback source) : (rule webFonts fallback).KeepsTitles source :=
  .of_adaptable (adaptable h) (edits_perm webFonts fallback _) fun _ => rfl

/-! ## Rules that insert markup -/

/-- A rule keeps the titles if each of its edits, looked at alone, inserts markup without a title that
may stand in its place. -/
theorem Rule.KeepsTitles.of_takes {rule : Rule} {source : String}
    (h : ∀ ps, Fit ps → source = String.ofList (text ps) →
      ∀ e ∈ rule.editsOf source, Takes "title" ps e) : rule.KeepsTitles source := by
  intro ps hfit hsource
  have htakes := h ps hfit hsource
  obtain ⟨ps', hrewrites, hfit', hraws, -⟩ := @exists_inserted _ ps _ [] htakes hfit
  refine ⟨ps', hfit', ?_, hraws⟩
  subst hsource
  exact hrewrites.applyTo (onSpan_eq_editsBetween htakes)

namespace OfficeSettings

/-- The lines of the block between the marks of the comment. -/
def lines : List Char :=
  "[if gte mso 9]>\n<xml>\n  <o:OfficeDocumentSettings>\n    <o:AllowPNG/>\n".toList ++
    ("    <o:PixelsPerInch>96</o:PixelsPerInch>\n  </o:OfficeDocumentSettings>\n</xml>\n".toList ++
      "<![endif]".toList)

/-- The block is one comment on lines of its own. -/
theorem exists_isBlock (element : String) : ∃ qs, IsBlock element qs block :=
  ⟨_, @IsBlock.comment element lines block (by decide +kernel) (by decide +kernel)⟩

/-- **The settings keep the title.** -/
theorem keepsTitles (source : String) : rule.KeepsTitles source := by
  refine .of_takes fun ps hfit hsource e he => ?_
  subst hsource
  rw [Rule.editsOf, rule] at he
  dsimp only at he
  split at he
  · exact absurd he List.not_mem_nil
  split at he
  · exact absurd he List.not_mem_nil
  next head hhead =>
  obtain ⟨front, t, back, rfl, -, hraw, rfl⟩ := exists_split_of_firstStart? hfit hhead (by decide)
  have hstop : (t.at_ (Text.byteLength (text front))).span.stop =
      Text.byteLength (text (front ++ [startTag t []])) := by
    rw [text_append, Text.byteLength_append]
    simp [text, written, WrittenTag.at_]
  have htakes (block : String) (h : ∃ qs, IsBlock "title" qs block) :
      Takes "title" (front ++ startTag t [] :: back)
        (Edit.insert (t.at_ (Text.byteLength (text front))).span.stop block) := by
    obtain ⟨qs, hqs⟩ := h
    exact ⟨front ++ [startTag t []], back, qs, by simp, congrArg (Edit.insert · block) hstop, hqs,
      .inl ⟨front, _, rfl, .startTag hraw⟩⟩
  rcases List.mem_append.1 he with he | he
  · obtain ⟨tag, htag, rfl⟩ := List.mem_map.1 he
    obtain rfl := List.mem_singleton.1 (List.mem_filter.1 htag).1
    obtain ⟨t', hline, -⟩ := @MetaTag.exists_line MetaTag.charset List.mem_cons_self "title"
    exact htakes _ ⟨_, hline⟩
  · obtain rfl := List.mem_singleton.1 he
    exact htakes _ (exists_isBlock "title")

end OfficeSettings

namespace OutlookStyles

variable {classes : List String}

/-- The opening tag of the style element. -/
def tag : WrittenTag := .quoted "style" [("type", "text/css"), ("id", "outlook-fixes")]

/-- Behind the opening tag stands no other one. -/
theorem exists_sheet : ∃ sheet, general.toList = '\n' :: (tag.written ++ sheet) ∧ '<' ∉ sheet := by
  have hfirst : "\n<style type=\"text/css\" id=\"outlook-fixes\">\n".toList =
      '\n' :: (tag.written ++ ['\n']) := by decide +kernel
  unfold general
  simp only [String.toList_append, -String.reduceToList, hfirst, List.cons_append, List.append_assoc]
  refine ⟨_, rfl, ?_⟩
  simp only [List.nil_append, List.mem_cons, List.mem_append, not_or, -String.reduceToList]
  refine ⟨?_, ?_, ?_, ?_, ?_, ?_, ?_⟩ <;> decide +kernel

/-- The style element as it is written, if its sheet does not end it. -/
theorem exists_isBlock (h : Text.indexOfFold? "</style".toList (columns classes).toList = none) :
    ∃ qs, IsBlock "title" qs (block classes) := by
  obtain ⟨sheet, hgeneral, hplain⟩ := exists_sheet
  have hkey : tag.key = "style" := by decide
  have hraw : tag.IsRaw := by decide
  have hfits : tag.Fits := WrittenTag.fits_quoted (by decide) (by decide) (by decide)
  have hsheet : Text.indexOfFold? ('<' :: '/' :: tag.key.toList)
      (sheet ++ (columns classes).toList) = none :=
    Text.indexOfFold?_append_of_not_mem hplain h
  have hstands := ((@Stands.plain '\n' (by decide)).append (.rawElement hfits hraw hsheet)).append
    (@Stands.plain '\n' (by decide))
  refine ⟨_, hstands, ?_, ⟨_, rfl, .inl rfl⟩, ?_⟩
  · rw [← String.toList_inj, String.toList_ofList, block, String.toList_append, String.toList_append,
      hgeneral]
    simp [text, written, hkey]
  · simp [raws_cons, raw?, hkey]

/-- **The corrections keep the title** if the column classes do not end the style sheet. -/
theorem keepsTitles (source : String)
    (h : Text.indexOfFold? "</style".toList (columns classes).toList = none) :
    (rule classes).KeepsTitles source := by
  refine .of_takes fun ps hfit hsource e he => ?_
  subst hsource
  rw [Rule.editsOf, rule] at he
  dsimp only at he
  split at he
  · exact absurd he List.not_mem_nil
  split at he
  swap
  · exact absurd he List.not_mem_nil
  next span hend =>
  obtain rfl := List.mem_singleton.1 he
  have hmem := Document.mem_tokens_of_firstEnd? hend
  rw [tokens_read hfit] at hmem
  obtain ⟨front, name, body, back, rfl, hname, rfl⟩ := exists_split_of_endTag hmem
  obtain ⟨qs, hqs⟩ := exists_isBlock h
  refine ⟨front, _, qs, rfl, by rw [Nat.zero_add]; rfl, hqs, .inr ⟨List.cons_ne_nil _ _, ?_⟩⟩
  -- No raw text ends with the head.
  rintro element helement (hnil | ⟨name', body', ps', heq, hbegins⟩)
  · exact absurd hnil (List.cons_ne_nil _ _)
  · have hlower : Text.lower name' = "head".toList := by
      rw [← (endTag.inj (List.cons.inj heq).1).1, hname, String.toList_ofList]
    rw [hlower] at hbegins
    revert element
    decide

end OutlookStyles

end MailTemplate
