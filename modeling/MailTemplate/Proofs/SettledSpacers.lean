import MailTemplate.Proofs.InPlaceRules
import MailTemplate.Proofs.Readaptation
import MailTemplate.Proofs.RelatedLists
import MailTemplate.Proofs.StylePairs

/-!
# Spacers are settled

A cell with a font size of zero is left with a line height of zero: one that it has, one that takes the
place of its last one, or one that is appended.  That the style is then read like this needs a style that
leaves nothing open at its end, where the appended declaration would be swallowed, and quotes around it, so
that the mark of an important value can be written.  That the tags stay the same needs a document in which
no start tag breaks off: a tag that does is no tag, but what the rule writes can end it.

## Main definitions

* `ZeroFontSpacer.IsSpacer` — a tag with a font size of zero.
* `ZeroFontSpacer.HasClosedStyle` — a style in quotes with nothing open at its end.
* `ZeroFontSpacer.Flattened` — a style whose line height has become zero.

## Main results

* `ZeroFontSpacer.flattened_of_respaced` — what the rule makes of the style of a spacer.
* `ZeroFontSpacer.spacers_settle` — spacers have a line height of zero, and the rule has nothing more to do.
-/

namespace MailTemplate

namespace ZeroFontSpacer

/-- A tag whose last font size is a length of zero. -/
def IsSpacer (tag : StartTag) : Prop := ∃ size ∈ tag.declared? "font-size", isZero size = true

instance (tag : StartTag) : Decidable (IsSpacer tag) :=
  inferInstanceAs (Decidable (∃ size ∈ tag.declared? "font-size", isZero size = true))

/-- A tag whose last line height is a length of zero. -/
def IsFlat (tag : StartTag) : Prop := ∃ height ∈ tag.declared? "line-height", isZero height = true

/-- The style of a tag stands in quotes and leaves no quote and no parenthesis open at its end. -/
structure HasClosedStyle (source : String) (tag : StartTag) : Prop where
  /-- Behind the value stands a quote. -/
  quoted : ∀ a ∈ tag.attribute? "style", ∀ span ∈ a.valueSpan,
    Text.slice ⟨span.stop, a.span.stop⟩ source.toList ≠ []
  /-- At its end nothing is open. -/
  closed : ∀ style ∈ tag.value? "style", Css.Scan.neutral.run style.toList = .neutral

instance (source : String) (tag : StartTag) : Decidable (HasClosedStyle source tag) :=
  decidable_of_iff ((∀ a ∈ tag.attribute? "style", ∀ span ∈ a.valueSpan,
      Text.slice ⟨span.stop, a.span.stop⟩ source.toList ≠ []) ∧
    ∀ style ∈ tag.value? "style", Css.Scan.neutral.run style.toList = .neutral)
    ⟨fun h => ⟨h.1, h.2⟩, fun h => ⟨h.quoted, h.closed⟩⟩

/-- What a style declares, with a line height of zero: appended, or as the value of the last one. -/
inductive Flattened : List (String × String) → List (String × String) → Prop
  /-- There was no line height. -/
  | appended {ds : List (String × String)} (hnone : ∀ d ∈ ds, d.1 ≠ "line-height") :
    Flattened ds (ds ++ [("line-height", "0")])
  /-- The last line height has a value of zero. -/
  | changed {before after : List (String × String)} {value zero : String}
    (hlast : ∀ d ∈ after, d.1 ≠ "line-height") (hzero : Css.isZeroLength zero.toList = true) :
    Flattened (before ++ ("line-height", value) :: after) (before ++ ("line-height", zero) :: after)

variable {tag tag' cell : StartTag}

/-- The pairs that the style of a tag declares. -/
def declares (tag : StartTag) : List (String × String) := tag.declarations.map Css.Declaration.pair

theorem declares_of_value? {style : String} (h : tag.value? "style" = some style) :
    declares tag = Css.pairs style.toList := by
  rw [declares, StartTag.declarations, h]
  exact Css.map_pair_declarations style

/-- Whether a tag is flat is told by its pairs. -/
theorem isFlat_iff : IsFlat tag ↔
    ∃ value ∈ Css.winner? (declares tag) "line-height", Css.isZeroLength value.toList = true := by
  rw [declares, ← Css.map_value_lastOf?]
  simp only [IsFlat, StartTag.declared?, isZero, Option.mem_def, Option.map_eq_some_iff]
  constructor
  · rintro ⟨height, hheight, hzero⟩
    exact ⟨_, ⟨height, hheight, rfl⟩, hzero⟩
  · rintro ⟨_, ⟨height, hheight, rfl⟩, hzero⟩
    exact ⟨height, hheight, hzero⟩

theorem isFlat_of_flattened {ds : List (String × String)} (h : Flattened ds (declares tag)) :
    IsFlat tag := by
  rw [isFlat_iff]
  generalize declares tag = ds' at h
  cases h with
  | appended =>
    exact ⟨"0", Css.winner?_append_cons (by simp), by decide⟩
  | changed hlast hzero => exact ⟨_, Css.winner?_append_cons hlast, hzero⟩

theorem isSpacer_imp_iff {P : Prop} : (IsSpacer cell → P) ↔
    ∀ size ∈ cell.declared? "font-size", isZero size = true → P := by
  constructor
  · intro h size hsize hzero
    exact h ⟨size, hsize, hzero⟩
  · rintro h ⟨size, hsize, hzero⟩
    exact h size hsize hzero

/-- There is an edit for a tag that is a spacer and not flat. -/
theorem edit?_eq_none_iff {source : List Char} (hcell : cell.Placed source) :
    edit? cell = none ↔ (IsSpacer cell → IsFlat cell) := by
  rw [isSpacer_imp_iff]
  exact zeroFontSpacer_edit?_eq_none_iff hcell

/-- **The rule has nothing to do** if all spacers are flat. -/
theorem editsOf_eq_nil_iff {source : String} : rule.editsOf source = [] ↔
    ∀ cell ∈ (Document.read source).allStartTags, cell.name = "td" → IsSpacer cell → IsFlat cell := by
  rw [← Document.forall_mem_startTags_iff]
  simp only [isSpacer_imp_iff]
  exact zeroFontSpacer_editsOf_eq_nil_iff

/-! ## The style of a spacer -/

theorem zeroFor_eq (height : Css.Declaration) : zeroFor height = "0 !important" ∨ zeroFor height = "0" := by
  unfold zeroFor
  split
  · exact .inl rfl
  · exact .inr rfl

/-- The new value can stand anywhere and is zero. -/
theorem isClosed_zeroFor (height : Css.Declaration) : Css.IsClosed (zeroFor height).toList ∧
    Css.isZeroLength (Text.trimString (zeroFor height)).toList = true := by
  rcases zeroFor_eq height with h | h
  · rw [h]
    decide
  · rw [h]
    decide

/-- **What the rule makes of the style of a spacer** that leaves nothing open. -/
theorem flattened_of_respaced {source : List Char} (hplaced : tag.Placed source) (hspacer : IsSpacer tag)
    (hclosed : ∀ style ∈ tag.value? "style", Css.Scan.neutral.run style.toList = .neutral)
    (h : Respaced tag tag') : Flattened (declares tag) (declares tag') := by
  cases h with
  | kept hedit hvalue =>
    have hsame : declares tag' = declares tag := by
      rw [declares, declares, StartTag.declarations, StartTag.declarations, hvalue]
    obtain ⟨value, hwinner, hzero⟩ := isFlat_iff.1 ((edit?_eq_none_iff hplaced).1 hedit hspacer)
    obtain ⟨before, after, hds, hlast⟩ := Css.exists_append_of_winner? hwinner
    rw [hsame, hds]
    exact .changed hlast hzero
  | @appended style hedit hstyle hheight hvalue =>
    have hline : Css.pairs ("line-height".toList ++ ':' :: ("0".toList ++ [';'])) =
        [("line-height", "0")] := by decide
    rw [declares_of_value? hvalue, Css.pairs_append (hclosed style hstyle), hline,
      ← declares_of_value? hstyle]
    apply Flattened.appended
    intro pair hpair
    obtain ⟨d, hd, rfl⟩ :=
      List.mem_map.1 (show pair ∈ tag.declarations.map Css.Declaration.pair from hpair)
    rw [StartTag.declared?, Css.lastOf?, List.find?_eq_none] at hheight
    have hother := hheight d (List.mem_reverse.2 hd)
    rwa [beq_iff_eq] at hother
  | @changed style height parts hedit hstyle hheight hold hedits hvalue =>
    obtain ⟨hzeroClosed, hzero⟩ := isClosed_zeroFor height
    have hplain : ∀ c ∈ "line-height".toList, Css.isPlain c = true := List.all_eq_true.1 (by decide)
    have hlast : Css.lastOf? (Css.declarations style) "line-height" = some height := by
      rw [StartTag.declared?, StartTag.declarations, hstyle] at hheight
      exact hheight
    obtain ⟨before, after, hafter, hbefore, hbehind⟩ :=
      Css.exists_pairs_of_edit hlast hold hedits hzeroClosed hplain
    rw [declares_of_value? hvalue, declares_of_value? hstyle, String.toList_ofList, hbefore, hbehind]
    exact .changed hafter hzero

/-! ## What the rule writes -/

/-- What an appended line height adds to a style is no quote. -/
theorem mem_or_of_mem_append {style : String} {c : Char}
    (h : c ∈ (Css.append style "line-height" "0").toList) :
    c ∈ style.toList ∨ c ≠ '"' ∧ c ≠ '\'' := by
  obtain ⟨trail, htrail, -⟩ := Text.exists_dropEndWhile Text.isBlank style.toList
  rw [← Text.trimEnd] at htrail
  have hplain : ∀ d ∈ ";line-height:0;".toList, d ≠ '"' ∧ d ≠ '\'' := by simp
  rw [Css.toList_append] at h
  rw [htrail]
  rcases List.mem_append.1 h with hkept | hadded
  · exact .inl (List.mem_append_left _ hkept)
  · refine .inr (hplain c ?_)
    split at hadded
    · exact List.mem_cons_of_mem _ hadded
    · exact hadded

/-- The text of an edit holds no quotes but those of the style. -/
theorem mem_style_or_of_mem_edit? {e : Edit} {style : String} {span : Span} (hedit : edit? tag = some e)
    (hstyle : tag.style? = some (style, span)) {c : Char} (hc : c ∈ e.text.toList) :
    c ∈ style.toList ∨ c ≠ '"' ∧ c ≠ '\'' := by
  obtain ⟨style', span', hstyle', -, hcases⟩ := edit?_cases hedit
  obtain ⟨rfl, rfl⟩ := Prod.mk.inj (Option.some.inj (hstyle.symm.trans hstyle'))
  rcases hcases with ⟨-, rfl⟩ | ⟨height, -, rfl⟩
  · exact mem_or_of_mem_append hc
  · refine .inr ?_
    have hc : c ∈ (zeroFor height).toList := hc
    rcases zeroFor_eq height with h | h
    · rw [h] at hc
      exact (by simp : ∀ d ∈ "0 !important".toList, d ≠ '"' ∧ d ≠ '\'') c hc
    · rw [h] at hc
      exact (by simp : ∀ d ∈ "0".toList, d ≠ '"' ∧ d ≠ '\'') c hc

/-- **A style in quotes admits what the rule writes there.** -/
theorem admits_of_quoted {t : WrittenTag} {source before after : List Char} {e : Edit} (ht : t.Fits)
    (hsource : source = before ++ (t.written ++ after))
    (hedit : edit? (t.at_ (Text.byteLength before)) = some e)
    (hquoted : ∀ a ∈ (t.at_ (Text.byteLength before)).attribute? "style", ∀ span ∈ a.valueSpan,
      Text.slice ⟨span.stop, a.span.stop⟩ source ≠ []) :
    ∀ a ∈ (t.at_ (Text.byteLength before)).attribute? "style", a.Admits source e.text.toList := by
  obtain ⟨style, span, hstyle, -⟩ := edit?_cases hedit
  obtain ⟨front, a, v, back, hparts, -, hvalue, rfl, -, -, hattribute, -⟩ :=
    WrittenTag.exists_style hstyle
  have hfit := ht.parts
  rw [hparts, TagPart.fit_append] at hfit
  have ha : a.Fits (back.flatMap TagPart.written ++ WrittenTag.closing t.selfClosing) := hfit.2.1
  obtain ⟨q, hq⟩ : ∃ q, v.quote = some q := by
    have hbehind := hquoted _ hattribute _ (by rw [WrittenAttribute.at_, hvalue]; rfl)
    have hslice := WrittenTag.slice_quote hsource hparts hvalue
    cases hquote : v.quote with
    | some q => exact ⟨q, rfl⟩
    | none =>
      rw [hquote] at hslice
      exact absurd hslice hbehind
  obtain ⟨hquote, hfree⟩ := (ha.value v hvalue).quoted q hq
  intro b hb
  obtain rfl := Option.some.inj (hattribute.symm.trans hb)
  refine (WrittenTag.admits_iff hsource hparts hvalue _).2 fun c hc => ?_
  refine ⟨fun hnone => absurd (hq.symm.trans hnone) (by simp), fun q' hq' => ?_⟩
  obtain rfl := Option.some.inj (hq.symm.trans hq')
  have hchar := mem_style_or_of_mem_edit? hedit hstyle hc
  rw [String.toList_ofList] at hchar
  rcases hchar with hold | ⟨hdouble, hsingle⟩
  · rintro rfl
    exact hfree hold
  · rcases hquote with rfl | rfl
    · exact hdouble
    · exact hsingle

/-! ## The document -/

/-- What becomes of a tag: nothing but the style of a cell changes, spacers get a line height of zero and
all other styles stay. -/
structure Settles (tag tag' : StartTag) : Prop where
  /-- The name and the other attributes stay. -/
  alike : tag.AlikeBut (mayChange tag) tag'
  /-- The style of a spacer has a line height of zero in the place of its last one, or behind it. -/
  flattened : tag.name = "td" → IsSpacer tag → Flattened (declares tag) (declares tag')
  /-- Other styles stay. -/
  kept : ¬ (tag.name = "td" ∧ IsSpacer tag) → tag'.value? "style" = tag.value? "style"

/-- What is left of a tag is flat if it is a spacer. -/
theorem Settles.isFlat (h : Settles tag tag') (hname : tag'.name = "td") (hspacer : IsSpacer tag') :
    IsFlat tag' := by
  rw [h.alike.name] at hname
  by_cases hwas : IsSpacer tag
  · exact isFlat_of_flattened (h.flattened hname hwas)
  · have hvalue := h.kept fun hcell => hwas hcell.2
    refine absurd ?_ hwas
    rwa [IsSpacer, StartTag.declared?, StartTag.declarations, hvalue] at hspacer

theorem settles_of_respaced {source : String} (htag : tag ∈ (Document.read source).allStartTags)
    (hstyle : tag.name = "td" → IsSpacer tag → HasClosedStyle source tag)
    (h : tag.AlikeBut (mayChange tag) tag' ∧ (tag.name = "td" → Respaced tag tag')) :
    Settles tag tag' := by
  have hplaced : tag.Placed source.toList := placed_of_mem_tokens (Document.mem_allStartTags_iff.1 htag)
  refine ⟨h.1, fun hname hspacer => ?_, fun hother => ?_⟩
  · exact flattened_of_respaced hplaced hspacer (hstyle hname hspacer).closed (h.2 hname)
  · by_cases hname : tag.name = "td"
    · have hedit : edit? tag = none :=
        (edit?_eq_none_iff hplaced).2 fun hspacer => absurd ⟨hname, hspacer⟩ hother
      cases h.2 hname with
      | kept _ hvalue => exact hvalue
      | appended hsome => exact absurd hsome (by simp [hedit])
      | changed hsome => exact absurd hsome (by simp [hedit])
    · exact h.1.value?_eq fun hmay => hname hmay.1

/-- **Spacers are settled.** In a document in which no start tag breaks off and the styles of spacers stand
in quotes and leave nothing open, the rule gives to each spacer a line height of zero and leaves all other
declarations and tags as they are.  Then it has nothing more to do. -/
theorem spacers_settle (source : String) (hcompletes : Token.completes source = true)
    (hstyles : ∀ cell ∈ (Document.read source).allStartTags, cell.name = "td" → IsSpacer cell →
      HasClosedStyle source cell) :
    List.Forall₂ Settles (Document.read source).allStartTags
        (Document.read (rule.applyTo source)).allStartTags ∧
      (∀ cell ∈ (Document.read (rule.applyTo source)).allStartTags, cell.name = "td" → IsSpacer cell →
        IsFlat cell) ∧
      rule.editsOf (rule.applyTo source) = [] := by
  have hadapt : MarkupPiece.Adaptable
      (fun tag tag' => tag.AlikeBut (mayChange tag) tag' ∧ (tag.name = "td" → Respaced tag tag'))
      (fun _ raw raw' => raw' = raw) (StartTag.editsNamed "td" edit?) (fun _ _ => []) source.toList := by
    apply adaptable_of_admits
    intro before t after hsource ht hname hcell e hedit
    -- A cell that has an edit is a spacer.
    have hspacer : IsSpacer (t.at_ (Text.byteLength before)) := by
      by_contra hother
      have hnone := (edit?_eq_none_iff
        (placed_of_mem_tokens (Document.mem_allStartTags_iff.1 hcell))).2 fun h => absurd h hother
      rw [hnone] at hedit
      exact absurd hedit (by simp)
    exact admits_of_quoted ht hsource hedit (hstyles _ hcell hname hspacer).quoted
  have hrespaced := Token.startTags_alike (MarkupPiece.tokenize_applyTo_alike hcompletes hadapt
    (List.Perm.of_eq (edits_eq _)))
  have hsettles : List.Forall₂ Settles (Document.read source).allStartTags
      (Document.read (rule.applyTo source)).allStartTags :=
    ((List.forall₂_and_left _ _).2 ⟨fun _ htag => htag, hrespaced⟩).imp fun tag tag' h =>
      settles_of_respaced h.1 (hstyles tag h.1) h.2
  have hflat : ∀ cell ∈ (Document.read (rule.applyTo source)).allStartTags, cell.name = "td" →
      IsSpacer cell → IsFlat cell := by
    intro cell hcell
    obtain ⟨tag, -, hsettle⟩ := exists_left_of_mem hsettles hcell
    exact hsettle.isFlat
  exact ⟨hsettles, hflat, editsOf_eq_nil_iff.2 hflat⟩

/-- Cells without a line height and with one that is important, and a cell with an open style that is no
spacer. -/
theorem spacers_settle_of_page :
    let source :=
      "<td style=\"font-size:0; \"><td style='Font-Size:0px;line-height:1!important'><td style=width:url(>"
    (Token.completes source = true ∧
      ∀ cell ∈ (Document.read source).allStartTags, cell.name = "td" → IsSpacer cell →
        HasClosedStyle source cell) ∧
      (rule.editsOf source).length = 2 ∧
      List.Forall₂ Settles (Document.read source).allStartTags
        (Document.read (rule.applyTo source)).allStartTags ∧
      (∀ cell ∈ (Document.read (rule.applyTo source)).allStartTags, cell.name = "td" → IsSpacer cell →
        IsFlat cell) ∧
      rule.editsOf (rule.applyTo source) = [] := by
  intro source
  have hpage : (Token.completes source = true ∧
      ∀ cell ∈ (Document.read source).allStartTags, cell.name = "td" → IsSpacer cell →
        HasClosedStyle source cell) ∧ (rule.editsOf source).length = 2 := by
    decide +kernel
  obtain ⟨⟨hcompletes, hstyles⟩, hlength⟩ := hpage
  exact ⟨⟨hcompletes, hstyles⟩, hlength, spacers_settle source hcompletes hstyles⟩

/-- A start tag that breaks off can be ended by what the rule writes: here it becomes a tag that holds the
edited cell, and a cell that stood in a value is the next one to be edited. -/
theorem broken_tag_becomes_tag :
    let source := "<p a=\"<td style=\"font-size:0;x=\"title='><td style=font-size:0>'>"
    let result := rule.applyTo source
    (∀ cell ∈ (Document.read source).allStartTags, cell.name = "td" → IsSpacer cell →
      HasClosedStyle source cell) ∧
      result = "<p a=\"<td style=\"font-size:0;x=;line-height:0;\"title='><td style=font-size:0>'>" ∧
      (Document.read source).allStartTags.map StartTag.name = ["td"] ∧
      (Document.read result).allStartTags.map StartTag.name = ["p", "td"] ∧
      (rule.editsOf result).length = 1 := by
  decide +kernel

end ZeroFontSpacer

end MailTemplate
