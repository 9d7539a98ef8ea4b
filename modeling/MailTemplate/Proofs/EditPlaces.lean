import MailTemplate.Proofs.DocumentQueries
import MailTemplate.Proofs.InPlaceRules
import MailTemplate.Proofs.Readaptation
import Mathlib.Data.List.Pairwise

/-!
# Where rules edit

Edits can be applied together if each stands between two characters of the source and no two overlap:
then sorting puts each behind the one before it, none is left out, and what lies between them stays.
Every rule proposes such edits.  All but the one for emoji propose them token by token: inside of a
start tag or of raw text that is no script, or as an insertion at an end of some token.  So they do not
touch comments, declarations, end tags, scripts, or the text between tokens.

## Main definitions

* `Span.Apart`, `Span.Within` — how two spans lie to each other.
* `Edit.FitTogether` — edits that can be applied together.
* `Token.Hosts` — where an edit stands that is proposed for a token.
* `Document.IsKept` — a span that only the rule for emoji edits.

## Main results

* `Edit.FitTogether.exists_parts_around` — the parts of a source under such edits, one of them a text
  that lies apart from all edits.
* `Token.Hosts.apart` — an edit for a token lies apart from what is kept.
* `rules_edit_in_place` — every rule proposes edits that fit together, and keeps what it must.
-/

namespace MailTemplate

/-! ## Spans that lie apart -/

namespace Span

/-- One of two spans ends before the other begins. -/
def Apart (s t : Span) : Prop := s.stop ≤ t.start ∨ t.stop ≤ s.start

/-- A span lies in another one. -/
def Within (s t : Span) : Prop := t.start ≤ s.start ∧ s.stop ≤ t.stop

instance (s t : Span) : Decidable (s.Apart t) := inferInstanceAs (Decidable (_ ∨ _))

variable {s t u : Span}

theorem Apart.symm (h : s.Apart t) : t.Apart s := Or.symm h

theorem Apart.within (h : s.Apart t) (hu : u.Within s) : u.Apart t := by
  obtain ⟨hstart, hstop⟩ := hu
  rcases h with h | h
  · exact .inl (Nat.le_trans hstop h)
  · exact .inr (Nat.le_trans h hstart)

theorem Within.trans (h : s.Within t) (h' : t.Within u) : s.Within u :=
  ⟨Nat.le_trans h'.1 h.1, Nat.le_trans h.2 h'.2⟩

end Span

namespace Text

variable {source inside front rest : List Char} {s t : Span}

theorem le_of_slice? (h : slice? s source = some inside) : s.start ≤ s.stop := by
  obtain ⟨before, after, -, hstart, hstop⟩ := slice?_eq_some_iff.1 h
  omega

/-- Nothing stands between the beginning of a span and itself. -/
theorem slice?_start (h : slice? s source = some inside) :
    slice? ⟨s.start, s.start⟩ source = some [] := by
  obtain ⟨before, after, hsource, hstart, -⟩ := slice?_eq_some_iff.1 h
  exact slice?_eq_some_iff.2 ⟨before, inside ++ after, hsource, hstart, hstart⟩

theorem slice?_stop (h : slice? s source = some inside) :
    slice? ⟨s.stop, s.stop⟩ source = some [] := by
  obtain ⟨before, after, hsource, -, hstop⟩ := slice?_eq_some_iff.1 h
  rw [← byteLength_append] at hstop
  refine slice?_eq_some_iff.2 ⟨before ++ inside, after, ?_, hstop, hstop⟩
  rw [hsource, List.nil_append, List.append_assoc]

/-- A span that ends in time is cut out of the front of a source. -/
theorem slice?_left (h : slice? s (front ++ rest) = some inside) (hle : s.stop ≤ byteLength front) :
    slice? s front = some inside := by
  obtain ⟨before, after, hsource, hstart, hstop⟩ := slice?_eq_some_iff.1 h
  rw [← List.append_assoc] at hsource
  obtain ⟨gap, hgap, -⟩ := EditPart.exists_append_of_byteLength_le hsource.symm
    (by rw [byteLength_append]; omega)
  exact slice?_eq_some_iff.2 ⟨before, gap, by rw [hgap, List.append_assoc], hstart, hstop⟩

/-- A span of a text that itself stands in a source. -/
theorem slice?_shift {text : List Char} (h : slice? s source = some text)
    (ht : slice? t text = some inside) : slice? (t.shift s.start) source = some inside := by
  obtain ⟨before, after, rfl, hstart, -⟩ := slice?_eq_some_iff.1 h
  obtain ⟨front, back, rfl, htstart, htstop⟩ := slice?_eq_some_iff.1 ht
  refine slice?_eq_some_iff.2 ⟨before ++ front, back ++ after, ?_, ?_, ?_⟩
  · simp only [List.append_assoc]
  · rw [Span.shift, byteLength_append, htstart, hstart, Nat.add_comm]
  · simp only [Span.shift, byteLength_append]
    omega

theorem within_of_slice? {text : List Char} (h : slice? s source = some text)
    (ht : slice? t text = some inside) : (t.shift s.start).Within s := by
  obtain ⟨_, _, -, hstart, hstop⟩ := slice?_eq_some_iff.1 h
  obtain ⟨front, back, rfl, htstart, htstop⟩ := slice?_eq_some_iff.1 ht
  simp only [byteLength_append] at hstop
  constructor
  · exact Nat.le_add_left _ _
  · dsimp only [Span.shift]
    omega

end Text

/-! ## Edits that fit together -/

namespace Edit

/-- Edits that can be applied together to a source. -/
structure FitTogether (source : List Char) (es : List Edit) : Prop where
  /-- Each stands between two characters of the source. -/
  inside : ∀ e ∈ es, ∃ text, Text.slice? e.span source = some text
  /-- No two overlap. -/
  apart : es.Pairwise fun a b => a.span.Apart b.span

/-- Edits that can be applied together and lie in a span. -/
structure FitWithin (source : List Char) (span : Span) (es : List Edit) : Prop
    extends FitTogether source es where
  /-- Each lies in the span. -/
  within : ∀ e ∈ es, e.span.Within span

namespace FitTogether

variable {source text : List Char} {es : List Edit} {region : Span}

theorem perm {es' : List Edit} (h : FitTogether source es) (hperm : es'.Perm es) :
    FitTogether source es' := by
  refine ⟨fun e he => h.inside e (hperm.mem_iff.1 he), ?_⟩
  exact (hperm.pairwise_iff fun hab => hab.symm).2 h.apart

/-- **Sorting puts each edit behind the one before it.** -/
theorem sorted (h : FitTogether source es) :
    (es.mergeSort comesBefore).Pairwise fun a b => a.span.stop ≤ b.span.start := by
  have hfit := h.perm (List.mergeSort_perm es comesBefore)
  have hsorted := List.pairwise_mergeSort EditPart.comesBefore_trans EditPart.comesBefore_total es
  refine (hfit.apart.and hsorted).imp_of_mem fun {a b} ha hb ⟨hapart, hbefore⟩ => ?_
  obtain ⟨_, hb⟩ := hfit.inside b hb
  have hle := Text.le_of_slice? hb
  simp only [comesBefore, Bool.or_eq_true, Bool.and_eq_true, decide_eq_true_eq, beq_iff_eq] at hbefore
  -- If the later one ends before the earlier one begins, both are empty and at one place.
  rcases hapart with hapart | hapart <;> omega

/-- Edits in order that lie apart from a span stand before it or behind it. -/
theorem exists_split (hordered : es.Pairwise fun a b => a.span.stop ≤ b.span.start)
    (hinside : ∀ e ∈ es, ∃ text, Text.slice? e.span source = some text)
    (hregion : ∀ e ∈ es, e.span.Apart region) :
    ∃ first more, es = first ++ more ∧ (∀ e ∈ first, e.span.stop ≤ region.start) ∧
      ∀ e ∈ more, region.stop ≤ e.span.start := by
  induction es with
  | nil => exact ⟨[], [], rfl, by simp, by simp⟩
  | cons e es ih =>
    obtain ⟨hlater, hordered⟩ := List.pairwise_cons.1 hordered
    obtain ⟨⟨_, he⟩, hinside⟩ := List.forall_mem_cons.1 hinside
    obtain ⟨hapart, hregion⟩ := List.forall_mem_cons.1 hregion
    rcases hapart with hapart | hapart
    · obtain ⟨first, more, rfl, hfirst, hmore⟩ := ih hordered hinside hregion
      exact ⟨e :: first, more, rfl, List.forall_mem_cons.2 ⟨hapart, hfirst⟩, hmore⟩
    · -- All that follow stand behind the span too.
      refine ⟨[], e :: es, rfl, by simp, List.forall_mem_cons.2 ⟨hapart, fun e' he' => ?_⟩⟩
      have hle := Text.le_of_slice? he
      have := hlater e' he'
      omega

/-- **The parts of a source under edits that fit together,** one of them a text that lies apart from all
edits. -/
theorem exists_parts_around (h : FitTogether source es) (htext : Text.slice? region source = some text)
    (hregion : ∀ e ∈ es, e.span.Apart region) :
    ∃ front back, (front ++ .kept text :: back).flatMap EditPart.old = source ∧
      Text.byteLength (front.flatMap EditPart.old) = region.start ∧
        EditPart.edits 0 (front ++ .kept text :: back) = es.mergeSort comesBefore := by
  have hfit := h.perm (List.mergeSort_perm es comesBefore)
  obtain ⟨before, after, rfl, hstart, hstop⟩ := Text.slice?_eq_some_iff.1 htext
  obtain ⟨first, more, hes, hfirst, hmore⟩ := exists_split h.sorted hfit.inside
    fun e he => hregion e ((List.mergeSort_perm es comesBefore).mem_iff.1 he)
  have hordered := h.sorted
  rw [hes] at hordered ⊢
  obtain ⟨horderedFirst, horderedMore, -⟩ := List.pairwise_append.1 hordered
  have hinside : ∀ e ∈ first ++ more, ∃ inside,
      Text.slice? e.span (before ++ (text ++ after)) = some inside := hes ▸ hfit.inside
  obtain ⟨front, hfront, heditsFront⟩ := EditPart.exists_edits_eq [] before horderedFirst
    (by
      intro e he
      obtain ⟨inside, hslice⟩ := hinside e (List.mem_append_left more he)
      exact ⟨inside, Text.slice?_left hslice (by
        rw [List.nil_append, ← hstart]
        exact hfirst e he)⟩)
    (fun e _ => Nat.zero_le _)
  obtain ⟨back, hback, heditsBack⟩ := EditPart.exists_edits_eq (before ++ text) after horderedMore
    (by
      intro e he
      rw [List.append_assoc]
      exact hinside e (List.mem_append_right first he))
    (by
      intro e he
      rw [Text.byteLength_append, ← hstop]
      exact hmore e he)
  rw [Text.byteLength_nil] at heditsFront
  rw [Text.byteLength_append] at heditsBack
  refine ⟨front, back, ?_, ?_, ?_⟩
  · rw [List.flatMap_append, List.flatMap_cons, hfront, hback, EditPart.old]
  · rw [hfront, hstart]
  · rw [EditPart.edits_append, heditsFront, hfront, Nat.zero_add, EditPart.edits, heditsBack]

theorem exists_parts (h : FitTogether source es) :
    ∃ parts, parts.flatMap EditPart.old = source ∧
      EditPart.edits 0 parts = es.mergeSort comesBefore := by
  -- Nothing at the front of the source lies apart from everything.
  have hnothing : Text.slice? ⟨0, 0⟩ source = some [] :=
    Text.slice?_eq_some_iff.2 ⟨[], source, rfl, rfl, rfl⟩
  obtain ⟨front, back, hold, -, hedits⟩ := h.exists_parts_around hnothing
    fun e _ => .inr (Nat.zero_le _)
  exact ⟨_, hold, hedits⟩

theorem nil (source : List Char) : FitTogether source [] := ⟨by simp, .nil⟩

theorem singleton {e : Edit} (h : Text.slice? e.span source = some text) :
    FitTogether source [e] :=
  ⟨List.forall_mem_singleton.2 ⟨text, h⟩, List.pairwise_singleton _ _⟩

/-- Insertions never overlap. -/
theorem insertions (h : ∀ e ∈ es, e.span.start = e.span.stop ∧ Text.slice? e.span source = some []) :
    FitTogether source es := by
  refine ⟨fun e he => ⟨[], (h e he).2⟩, List.pairwise_of_forall_mem_list fun a ha b hb => ?_⟩
  have ha := (h a ha).1
  have hb := (h b hb).1
  rcases Nat.le_total a.span.stop b.span.start with hle | hle
  · exact .inl hle
  · exact .inr (by omega)

theorem append {more : List Edit} (h : FitTogether source es) (hmore : FitTogether source more)
    (hapart : ∀ a ∈ es, ∀ b ∈ more, a.span.Apart b.span) : FitTogether source (es ++ more) :=
  ⟨List.forall_mem_append.2 ⟨h.inside, hmore.inside⟩,
    List.pairwise_append.2 ⟨h.apart, hmore.apart, hapart⟩⟩

/-- The edits of the parts of a source. -/
theorem ofParts (parts : List EditPart) :
    FitTogether (parts.flatMap EditPart.old) (EditPart.edits 0 parts) :=
  ⟨fun _ he => EditPart.exists_slice?_of_mem_edits [] he,
    (EditPart.pairwise_edits 0 parts).imp .inl⟩

/-- Edits of things that stand one behind the other. -/
theorem flatMap {α : Type} {things : List α} {span : α → Span} {edits : α → List Edit}
    (hordered : things.Pairwise fun a b => (span a).stop ≤ (span b).start)
    (hedits : ∀ a ∈ things, FitWithin source (span a) (edits a)) :
    FitTogether source (things.flatMap edits) := by
  constructor
  · intro e he
    obtain ⟨a, ha, he⟩ := List.mem_flatMap.1 he
    exact (hedits a ha).inside e he
  · refine List.pairwise_flatMap.2 ⟨fun a ha => (hedits a ha).apart, ?_⟩
    refine hordered.imp_of_mem fun {a b} ha hb hab e he e' he' => ?_
    have hapart : (span a).Apart (span b) := .inl hab
    exact ((hapart.within ((hedits a ha).within e he)).symm.within ((hedits b hb).within e' he')).symm

end FitTogether

namespace FitWithin

variable {source text : List Char} {span : Span}

theorem nil (source : List Char) (span : Span) : FitWithin source span [] :=
  ⟨.nil source, by simp⟩

theorem singleton {e : Edit} (h : Text.slice? e.span source = some text) (hwithin : e.span.Within span) :
    FitWithin source span [e] :=
  ⟨.singleton h, List.forall_mem_singleton.2 hwithin⟩

end FitWithin

end Edit

/-! ## Edits for tokens -/

namespace Token

/-- Whether rules edit inside of a token: they do in start tags and in raw text, but not in scripts. -/
def isEditable : Token → Bool
  | startTag _ => true
  | rawText element _ => element != "script"
  | _ => false

/-- Where an edit stands that is proposed for a token: inside of it, or as an insertion at one of its
ends. -/
inductive Hosts (token : Token) (e : Edit) : Prop
  | inside (heditable : token.isEditable = true) (hwithin : e.span.Within token.span)
  | before (hspan : e.span = ⟨token.span.start, token.span.start⟩)
  | behind (hspan : e.span = ⟨token.span.stop, token.span.stop⟩)

end Token

/-- A span that rules keep: a token that is not edited, or plain text, which lies apart from all
tokens. -/
inductive Document.IsKept (doc : Document) (region : Span) : Prop
  | token {t : Token} (hmem : t ∈ doc.tokens) (hkept : t.isEditable = false) (hspan : region = t.span)
  | plain (hplain : ∀ t ∈ doc.tokens, t.span.Apart region)

namespace Token

variable {source : String} {t t' : Token} {e : Edit} {region : Span}

theorem placedFrom_tokenize (source : String) : PlacedFrom source.toList 0 (tokenize source) :=
  placedFrom_tokensFrom (Cursor.on_front source.toList)

theorem apart_of_mem_tokenize (ht : t ∈ tokenize source) (ht' : t' ∈ tokenize source) (hne : t ≠ t') :
    t.span.Apart t'.span := by
  have hordered := (placedFrom_tokenize source).ordered
  have hapart : (tokenize source).Pairwise fun a b => a.span.Apart b.span := hordered.imp .inl
  have : Std.Symm fun a b : Token => a.span.Apart b.span := ⟨fun _ _ h => h.symm⟩
  exact hapart.forall ht ht' hne

theorem le_of_mem_tokenize (ht : t ∈ tokenize source) : t.span.start ≤ t.span.stop := by
  obtain ⟨_, htext, -⟩ := ((placedFrom_tokenize source).placed t ht).text
  exact Text.le_of_slice? htext

theorem Hosts.within (ht : t ∈ tokenize source) (h : t.Hosts e) : e.span.Within t.span := by
  have hle := le_of_mem_tokenize ht
  cases h with
  | inside _ hwithin => exact hwithin
  | before hspan => exact hspan ▸ ⟨Nat.le_refl _, hle⟩
  | behind hspan => exact hspan ▸ ⟨hle, Nat.le_refl _⟩

/-- **An edit for a token lies apart from what is kept.** -/
theorem Hosts.apart (ht : t ∈ tokenize source) (h : t.Hosts e)
    (hregion : (Document.read source).IsKept region) : e.span.Apart region := by
  have hwithin := h.within ht
  cases hregion with
  | plain hplain => exact (hplain t ht).within hwithin
  | @token kept hmem hkept hspan =>
    subst hspan
    by_cases hne : t = kept
    · -- Only an insertion is proposed for a token that is kept itself.
      subst hne
      cases h with
      | inside heditable => exact absurd heditable (by simp [hkept])
      | before hspan => exact hspan ▸ .inl (Nat.le_refl _)
      | behind hspan => exact hspan ▸ .inr (Nat.le_refl _)
    · exact (apart_of_mem_tokenize ht hmem hne).within hwithin

end Token

/-! ## Lists of edits for tokens -/

namespace Edit

/-- Edits of a source that fit together, each proposed for a token. -/
structure FitTokens (source : String) (es : List Edit) : Prop where
  /-- They fit together. -/
  fit : FitTogether source.toList es
  /-- Each has its token. -/
  hosted : ∀ e ∈ es, ∃ t ∈ Token.tokenize source, t.Hosts e

namespace FitTokens

variable {source : String} {es more : List Edit}

theorem nil (source : String) : FitTokens source [] := ⟨.nil _, by simp⟩

theorem append (h : FitTokens source es) (hmore : FitTokens source more)
    (hapart : ∀ a ∈ es, ∀ b ∈ more, a.span.Apart b.span) : FitTokens source (es ++ more) :=
  ⟨h.fit.append hmore.fit hapart, List.forall_mem_append.2 ⟨h.hosted, hmore.hosted⟩⟩

/-- Insertions at the ends of tokens. -/
theorem insertions (h : ∀ e ∈ es, ∃ t ∈ Token.tokenize source,
    e.span = ⟨t.span.start, t.span.start⟩ ∨ e.span = ⟨t.span.stop, t.span.stop⟩) :
    FitTokens source es := by
  constructor
  · apply FitTogether.insertions
    intro e he
    obtain ⟨t, ht, hspan⟩ := h e he
    obtain ⟨_, htext, -⟩ := ((Token.placedFrom_tokenize source).placed t ht).text
    rcases hspan with hspan | hspan
    · exact hspan ▸ ⟨rfl, Text.slice?_start htext⟩
    · exact hspan ▸ ⟨rfl, Text.slice?_stop htext⟩
  · intro e he
    obtain ⟨t, ht, hspan⟩ := h e he
    exact ⟨t, ht, hspan.elim .before .behind⟩

/-- Edits inside of start tags and raw texts. -/
theorem ofEditsBy {tagEdits : StartTag → List Edit} {rawEdits : String → Span → List Edit}
    (hperm : es.Perm ((Token.tokenize source).flatMap (Token.editsBy tagEdits rawEdits)))
    (htags : ∀ tag : StartTag, tag.Placed source.toList →
      FitWithin source.toList tag.span (tagEdits tag))
    (hraws : ∀ element span, Token.rawText element span ∈ Token.tokenize source →
      FitWithin source.toList span (rawEdits element span) ∧
        (rawEdits element span ≠ [] → element ≠ "script")) : FitTokens source es := by
  have hplaced := Token.placedFrom_tokenize source
  have hfits : ∀ t ∈ Token.tokenize source,
      FitWithin source.toList t.span (Token.editsBy tagEdits rawEdits t) := by
    intro t ht
    cases t with
    | startTag tag => exact htags tag ((hplaced.placed _ ht).startTag tag rfl)
    | rawText element span => exact (hraws element span ht).1
    | endTag name span => exact .nil _ span
    | comment span => exact .nil _ span
    | declaration span => exact .nil _ span
  constructor
  · exact (FitTogether.flatMap hplaced.ordered hfits).perm hperm
  · intro e he
    obtain ⟨t, ht, he⟩ := List.mem_flatMap.1 (hperm.mem_iff.1 he)
    refine ⟨t, ht, .inside ?_ ((hfits t ht).within e he)⟩
    cases t with
    | startTag tag => rfl
    | rawText element span =>
      have hscript := (hraws element span ht).2 (List.ne_nil_of_mem he)
      simpa [Token.isEditable] using hscript
    | endTag | comment | declaration => exact absurd he List.not_mem_nil

end FitTokens

end Edit

/-! ## Edits in a start tag -/

namespace StartTag.Placed

variable {source : List Char} {tag : StartTag} {style : String} {span : Span}

theorem attributesEnd_within (h : tag.Placed source) :
    (Span.mk tag.attributesEnd tag.attributesEnd).Within tag.span := by
  obtain ⟨_, -, hclosing⟩ := h.attributes.closing
  have hstop := Text.le_of_slice? hclosing
  have hstart := h.attributes.le_attributesEnd.1
  have hname : tag.span.start ≤ tag.nameEnd := by
    rw [nameEnd]
    omega
  exact ⟨Nat.le_trans hname hstart, hstop⟩

theorem attribute_within {a : Attribute} (h : tag.Placed source) (ha : a ∈ tag.attributes) :
    a.span.Within tag.span := by
  have hstart := h.attributes.behindName a ha
  have hstop := h.attributes.le_attributesEnd.2 a ha
  have hname : tag.span.start ≤ tag.nameEnd := by
    rw [nameEnd]
    omega
  exact ⟨Nat.le_trans hname hstart, Nat.le_trans hstop h.attributesEnd_within.2⟩

/-- The style of a tag stands in the tag. -/
theorem slice?_style (h : tag.Placed source) (hstyle : tag.style? = some (style, span)) :
    Text.slice? span source = some style.toList ∧ span.Within tag.span ∧
      tag.declarations = Css.declarations style := by
  unfold StartTag.style? at hstyle
  obtain ⟨a, ha, hstyle⟩ := Option.bind_eq_some_iff.1 hstyle
  obtain ⟨value, hvalue, hstyle⟩ := Option.bind_eq_some_iff.1 hstyle
  obtain ⟨valueSpan, hspan, hstyle⟩ := Option.bind_eq_some_iff.1 hstyle
  obtain ⟨rfl, rfl⟩ := Prod.mk.inj (Option.some.inj hstyle)
  have hmem : a ∈ tag.attributes := List.mem_of_find?_eq_some ha
  obtain ⟨hstart, hstop, hslice⟩ := (h.attributes.placed a hmem).value value hvalue valueSpan hspan
  refine ⟨hslice, Span.Within.trans ⟨hstart, hstop⟩ (h.attribute_within hmem), ?_⟩
  rw [declarations, value?, ha, Option.bind_some, hvalue]

/-- Other values of a style, which stand in its order. -/
theorem fitWithin_declarations (h : tag.Placed source) (hstyle : tag.style? = some (style, span))
    {ds : List Css.Declaration} (hds : ds.Sublist (Css.declarations style))
    (value : Css.Declaration → String) : Edit.FitWithin source tag.span
      (ds.map fun d => Edit.replace (d.valueSpan.shift span.start) (value d)) := by
  obtain ⟨hslice, hwithin, -⟩ := h.slice?_style hstyle
  obtain ⟨hordered, hplaced⟩ := Css.declarations_placed style
  have hvalue : ∀ d ∈ ds, Text.slice? d.valueSpan style.toList = some d.value.toList :=
    fun d hd => (hplaced d (hds.subset hd)).2.1
  refine ⟨⟨?_, ?_⟩, ?_⟩
  · intro e he
    obtain ⟨d, hd, rfl⟩ := List.mem_map.1 he
    exact ⟨_, Text.slice?_shift hslice (hvalue d hd)⟩
  · rw [List.pairwise_map]
    refine (hordered.sublist hds).imp fun hab => .inl ?_
    exact Nat.add_le_add_right (Nat.le_of_lt hab) _
  · intro e he
    obtain ⟨d, hd, rfl⟩ := List.mem_map.1 he
    exact (Text.within_of_slice? hslice (hvalue d hd)).trans hwithin

end StartTag.Placed

/-! ## The rules -/

section Rules

variable {source : String}

theorem StartTag.fitWithin_editsNamed {name : String} {edit? : StartTag → Option Edit} {tag : StartTag}
    (h : Edit.FitWithin source.toList tag.span (edit? tag).toList) :
    Edit.FitWithin source.toList tag.span (tag.editsNamed name edit?) := by
  unfold StartTag.editsNamed
  split
  · exact h
  · exact .nil _ _

theorem CellClasses.fitWithin_edit? {signatures : List CellSignature} {cell : StartTag}
    (hcell : cell.Placed source.toList) :
    Edit.FitWithin source.toList cell.span (edit? signatures cell).toList := by
  cases hedit : edit? signatures cell with
  | none => exact .nil _ _
  | some e =>
    unfold edit? at hedit
    split at hedit
    · exact absurd hedit (by simp)
    · split at hedit
      · exact absurd hedit (by simp)
      · split at hedit
        · next old hclass =>
          obtain rfl := Option.some.inj hedit
          have hmem : old ∈ cell.attributes := List.mem_of_find?_eq_some hclass
          obtain ⟨_, hslice, -⟩ := (hcell.attributes.placed old hmem).name
          exact .singleton hslice (hcell.attribute_within hmem)
        · obtain rfl := Option.some.inj hedit
          obtain ⟨_, -, hslice⟩ := hcell.attributes.closing
          exact .singleton (Text.slice?_start hslice) hcell.attributesEnd_within

theorem CellClasses.fitTokens (signatures : List CellSignature) (source : String) :
    Edit.FitTokens source ((rule signatures).editsOf source) :=
  .ofEditsBy (.of_eq ((Document.read source).filterMap_startTags "td" (edit? signatures)))
    (fun _ htag => StartTag.fitWithin_editsNamed (fitWithin_edit? htag))
    (fun _ span _ => ⟨.nil _ span, fun h => absurd rfl h⟩)

theorem ZeroFontSpacer.fitWithin_edit? {cell : StartTag} (hcell : cell.Placed source.toList) :
    Edit.FitWithin source.toList cell.span (edit? cell).toList := by
  cases hedit : edit? cell with
  | none => exact .nil _ _
  | some e =>
    unfold edit? at hedit
    split at hedit
    · next size style span hsize hstyle =>
      split at hedit
      · obtain ⟨hslice, hwithin, hdeclarations⟩ := hcell.slice?_style hstyle
        split at hedit
        · obtain rfl := Option.some.inj hedit
          exact .singleton hslice hwithin
        · next height hheight =>
          split at hedit
          · exact absurd hedit (by simp)
          · obtain rfl := Option.some.inj hedit
            have hmem : height ∈ Css.declarations style := by
              rw [StartTag.declared?, hdeclarations] at hheight
              exact List.mem_reverse.1 (List.mem_of_find?_eq_some hheight)
            exact hcell.fitWithin_declarations hstyle (List.singleton_sublist.2 hmem)
              fun d => if (Css.splitImportant d.value.toList).2 then "0 !important" else "0"
      · exact absurd hedit (by simp)
    · exact absurd hedit (by simp)

theorem ZeroFontSpacer.fitTokens (source : String) : Edit.FitTokens source (rule.editsOf source) :=
  .ofEditsBy (.of_eq ((Document.read source).filterMap_startTags "td" edit?))
    (fun _ htag => StartTag.fitWithin_editsNamed (fitWithin_edit? htag))
    (fun _ span _ => ⟨.nil _ span, fun h => absurd rfl h⟩)

theorem FontFallback.fitTokens (webFonts : List String) (fallback source : String) :
    Edit.FitTokens source ((rule webFonts fallback).editsOf source) := by
  refine .ofEditsBy (edits_perm webFonts fallback (Document.read source)) ?_ ?_
  · intro tag htag
    unfold tagEdits
    split
    · exact .nil _ _
    · next style span hstyle =>
      exact htag.fitWithin_declarations hstyle List.filter_sublist
        fun d => replacement fallback d.value.toList
  · intro element span hmem
    obtain ⟨_, hslice, -⟩ := ((Token.placedFrom_tokenize source).placed _ hmem).text
    unfold rawEdits
    split
    · next helement =>
      refine ⟨?_, fun _ => helement ▸ by decide⟩
      cases hedit : sheetEdit? webFonts fallback (Document.read source) span with
      | none => exact .nil _ _
      | some e =>
        unfold sheetEdit? at hedit
        dsimp only at hedit
        split at hedit
        · obtain rfl := Option.some.inj hedit
          exact .singleton hslice ⟨Nat.le_refl _, Nat.le_refl _⟩
        · exact absurd hedit (by simp)
    · exact ⟨.nil _ _, fun h => absurd rfl h⟩

theorem OfficeSettings.fitTokens (source : String) : Edit.FitTokens source (rule.editsOf source) := by
  apply Edit.FitTokens.insertions
  intro e he
  unfold Rule.editsOf rule at he
  dsimp only at he
  split at he
  · exact absurd he List.not_mem_nil
  · split at he
    · exact absurd he List.not_mem_nil
    · next head hhead =>
      -- Both texts are inserted behind the tag of the head.
      refine ⟨_, (Document.mem_tokens_of_firstStart? hhead).1, .inr ?_⟩
      rcases List.mem_append.1 he with he | he
      · obtain ⟨tag, -, rfl⟩ := List.mem_map.1 he
        rfl
      · obtain rfl := List.mem_singleton.1 he
        rfl

theorem OutlookStyles.fitTokens (classes : List String) (source : String) :
    Edit.FitTokens source ((rule classes).editsOf source) := by
  apply Edit.FitTokens.insertions
  intro e he
  unfold Rule.editsOf rule at he
  dsimp only at he
  split at he
  · exact absurd he List.not_mem_nil
  · split at he
    · next span hspan =>
      obtain rfl := List.mem_singleton.1 he
      exact ⟨_, Document.mem_tokens_of_firstEnd? hspan, .inl rfl⟩
    · exact absurd he List.not_mem_nil

theorem VmlBackground.fitTokens (width source : String) :
    Edit.FitTokens source ((rule width).editsOf source) := by
  apply Edit.FitTokens.insertions
  intro e he
  obtain ⟨⟨i, table⟩, htable, he⟩ := List.mem_flatMap.1 he
  dsimp only [tableEdits] at he
  split at he
  · next colour close _ hclose =>
    split at he
    · exact absurd he List.not_mem_nil
    · rcases List.mem_pair.1 he with rfl | rfl
      · exact ⟨_, (Document.exists_mem_startTags_iff.1 ⟨_, htable⟩).1, .inl rfl⟩
      · obtain ⟨name, hmem⟩ := Document.mem_tokens_of_matchingEnd? hclose
        exact ⟨_, hmem, .inr rfl⟩
  · exact absurd he List.not_mem_nil

/-- The title and the tags are inserted behind the tag of the head, where no raw text stands; a blank
title is replaced. -/
theorem HeadMeta.fitTokens (title source : String) :
    Edit.FitTokens source ((rule title).editsOf source) := by
  unfold Rule.editsOf rule
  dsimp only
  split
  · exact .nil source
  · next head hhead =>
    have hhead := (Document.mem_tokens_of_firstStart? hhead).1
    have hinsert : ∀ text, ∃ t ∈ Token.tokenize source,
        (Edit.insert head.span.stop text).span = ⟨t.span.start, t.span.start⟩ ∨
          (Edit.insert head.span.stop text).span = ⟨t.span.stop, t.span.stop⟩ :=
      fun text => ⟨_, hhead, .inr rfl⟩
    have hmetas : Edit.FitTokens source ((MetaTag.all.filter
        (·.isMissing (Document.read source))).map fun tag =>
          Edit.insert head.span.stop ("\n" ++ tag.markup)) := by
      apply Edit.FitTokens.insertions
      exact List.forall_mem_map.2 fun tag _ => hinsert _
    unfold titleEdits
    split
    · have htitle := Edit.FitTokens.insertions (List.forall_mem_singleton.2
        (hinsert ("\n<title>" ++ title ++ "</title>")))
      refine hmetas.append htitle fun a ha b hb => ?_
      obtain ⟨tag, -, rfl⟩ := List.mem_map.1 ha
      obtain rfl := List.mem_singleton.1 hb
      exact .inl (Nat.le_refl _)
    · next span rest hspans =>
      have hraw := Document.mem_tokens_of_mem_rawTexts
        (hspans ▸ List.mem_cons_self : span ∈ (Document.read source).rawTexts "title")
      split
      · obtain ⟨_, hslice, -⟩ := ((Token.placedFrom_tokenize source).placed _ hraw).text
        have htitle : Edit.FitTokens source [Edit.replace span title] := by
          refine ⟨.singleton hslice, List.forall_mem_singleton.2 ⟨_, hraw, .inside rfl ?_⟩⟩
          exact ⟨Nat.le_refl _, Nat.le_refl _⟩
        refine hmetas.append htitle fun a ha b hb => ?_
        obtain ⟨tag, -, rfl⟩ := List.mem_map.1 ha
        obtain rfl := List.mem_singleton.1 hb
        -- The tag of the head and the text of the title are two tokens.
        have hapart : head.span.Apart span := Token.apart_of_mem_tokenize hhead hraw (by simp)
        exact hapart.within ⟨Token.le_of_mem_tokenize hhead, Nat.le_refl _⟩
      · rwa [List.append_nil]

theorem EmojiEntities.fitTogether (source : String) :
    Edit.FitTogether source.toList (rule.editsOf source) := by
  have hfit := Edit.FitTogether.ofParts (source.toList.map part)
  rw [flatMap_old_part] at hfit
  exact hfit.perm (edits_perm 0 source.toList)

end Rules

/-! ## What rules keep -/

/-- A text of a source stays under edits: none touches it, and with them applied it stands between what
they make of the text before it and of the text behind it. -/
structure Edit.Keeps (source : String) (es : List Edit) (region : Span) (text : List Char) : Prop where
  /-- No edit touches it. -/
  apart : ∀ e ∈ es, e.span.Apart region
  /-- It is a part of the source that stays. -/
  stays : ∃ front back,
    (front ++ .kept text :: back).flatMap EditPart.old = source.toList ∧
      Text.byteLength (front.flatMap EditPart.old) = region.start ∧
        EditPart.edits 0 (front ++ .kept text :: back) = es.mergeSort comesBefore ∧
          applyTo? es source = some (String.ofList
            (front.flatMap EditPart.new ++ text ++ back.flatMap EditPart.new))

theorem Edit.FitTokens.keeps {source : String} {es : List Edit} {region : Span} {text : List Char}
    (h : FitTokens source es) (hregion : (Document.read source).IsKept region)
    (htext : Text.slice? region source.toList = some text) : Keeps source es region text := by
  have hapart : ∀ e ∈ es, e.span.Apart region := by
    intro e he
    obtain ⟨t, ht, hhosts⟩ := h.hosted e he
    exact hhosts.apart ht hregion
  obtain ⟨front, back, hold, hstart, hedits⟩ := h.fit.exists_parts_around htext hapart
  refine ⟨hapart, front, back, hold, hstart, hedits, ?_⟩
  have hnew := EditPart.applyTo?_of_edits_eq hedits
  rw [hold, String.ofList_toList] at hnew
  rw [hnew, List.flatMap_append, List.flatMap_cons, List.append_assoc]
  rfl

/-- The rules of both profiles but the one for emoji edit token by token. -/
theorem fitTokens_or_eq_of_mem_rules {client : Client} {settings : Settings} {rule : Rule}
    (source : String) (hrule : rule ∈ (client.profile settings).rules) :
    Edit.FitTokens source (rule.editsOf source) ∨ rule = EmojiEntities.rule := by
  cases client with
  | html =>
    obtain rfl := List.mem_singleton.1 hrule
    exact .inl (HeadMeta.fitTokens _ source)
  | outlook =>
    simp only [Client.profile, Profile.outlook, Profile.outlookRules, List.mem_cons,
      List.not_mem_nil, or_false] at hrule
    rcases hrule with rfl | rfl | rfl | rfl | rfl | rfl | rfl
    · exact .inl (CellClasses.fitTokens _ source)
    · exact .inl (OfficeSettings.fitTokens source)
    · exact .inl (OutlookStyles.fitTokens _ source)
    · exact .inl (ZeroFontSpacer.fitTokens source)
    · exact .inl (FontFallback.fitTokens _ _ source)
    · exact .inl (VmlBackground.fitTokens _ source)
    · exact .inr rfl

/-- **Every rule of both profiles proposes edits that fit together:** put in order they are those of
some parts of the source, so that applying them fails nowhere and leaves out none.  **All but the one for
emoji keep** comments, declarations, end tags, scripts and plain text. -/
theorem rules_edit_in_place (client : Client) (settings : Settings) (source : String) :
    ∀ rule ∈ (client.profile settings).rules,
      (Edit.FitTogether source.toList (rule.editsOf source) ∧
        ((rule.editsOf source).mergeSort Edit.comesBefore).Pairwise
          (fun a b => a.span.stop ≤ b.span.start) ∧
        ∃ parts, parts.flatMap EditPart.old = source.toList ∧
          EditPart.edits 0 parts = (rule.editsOf source).mergeSort Edit.comesBefore ∧
            Edit.applyTo? (rule.editsOf source) source =
              some (String.ofList (parts.flatMap EditPart.new))) ∧
      (rule.name ≠ "emoji-entities" → ∀ region text, (Document.read source).IsKept region →
        Text.slice? region source.toList = some text →
          Edit.Keeps source (rule.editsOf source) region text) := by
  intro rule hrule
  have hcases := fitTokens_or_eq_of_mem_rules source hrule
  have hfit : Edit.FitTogether source.toList (rule.editsOf source) := by
    rcases hcases with htokens | rfl
    · exact htokens.fit
    · exact EmojiEntities.fitTogether source
  obtain ⟨parts, hold, hedits⟩ := hfit.exists_parts
  have hnew := EditPart.applyTo?_of_edits_eq hedits
  rw [hold, String.ofList_toList] at hnew
  refine ⟨⟨hfit, hfit.sorted, parts, hold, hedits, hnew⟩, ?_⟩
  intro hname region text hregion htext
  rcases hcases with htokens | rfl
  · exact htokens.keeps hregion htext
  · exact absurd rfl hname

instance (doc : Document) (region : Span) : Decidable (doc.IsKept region) :=
  decidable_of_iff ((∃ t ∈ doc.tokens, t.isEditable = false ∧ region = t.span) ∨
    ∀ t ∈ doc.tokens, t.span.Apart region)
    ⟨by
      rintro (⟨t, hmem, hkept, hspan⟩ | hplain)
      · exact .token hmem hkept hspan
      · exact .plain hplain,
    by
      rintro (⟨hmem, hkept, hspan⟩ | hplain)
      · exact .inl ⟨_, hmem, hkept, hspan⟩
      · exact .inr hplain⟩

/-- A paragraph in a web font, between a comment and a text that stay. -/
theorem rules_edit_in_place_of_paragraph :
    let source := "<!-- é --><p style=\"font-family:Montserrat\"> end"
    let settings : Settings := {}
    let rule := FontFallback.rule settings.outlook.webFonts settings.outlook.fallbackFonts
    (rule ∈ (Client.outlook.profile settings).rules ∧ rule.name ≠ "emoji-entities" ∧
      (rule.editsOf source).length = 1 ∧
        ((Document.read source).IsKept ⟨0, 11⟩ ∧ (Document.read source).IsKept ⟨45, 49⟩)) ∧
      Edit.FitTogether source.toList (rule.editsOf source) ∧
        Edit.Keeps source (rule.editsOf source) ⟨0, 11⟩ "<!-- é -->".toList ∧
          Edit.Keeps source (rule.editsOf source) ⟨45, 49⟩ " end".toList := by
  intro source settings rule
  have hrule : rule ∈ (Client.outlook.profile settings).rules := by
    simp [Client.profile, Profile.outlook, Profile.outlookRules, rule]
  have hpage : rule.name ≠ "emoji-entities" ∧ (rule.editsOf source).length = 1 ∧
      ((Document.read source).IsKept ⟨0, 11⟩ ∧ (Document.read source).IsKept ⟨45, 49⟩) ∧
        Text.slice? ⟨0, 11⟩ source.toList = some "<!-- é -->".toList ∧
          Text.slice? ⟨45, 49⟩ source.toList = some " end".toList := by decide +kernel
  obtain ⟨hname, hlength, ⟨hcomment, hend⟩, hcommentText, hendText⟩ := hpage
  obtain ⟨⟨hfit, -⟩, hkeeps⟩ := rules_edit_in_place .outlook settings source rule hrule
  exact ⟨⟨hrule, hname, hlength, hcomment, hend⟩, hfit,
    hkeeps hname _ _ hcomment hcommentText, hkeeps hname _ _ hend hendText⟩

end MailTemplate
