import MailTemplate.Adaptation.Rule
import MailTemplate.Proofs.DocumentQueries
import MailTemplate.Proofs.EditParts
import Mathlib.Data.List.Forall2

/-!
# Markup under edits

Edits that stay inside start tags and raw texts leave the pieces of a source where they are: what stands
between them depends at most on the first characters of the next piece, and those stay.  So the edited
source is read piece by piece as the source was, if every edited tag is read as it is meant and no raw
text is cut short.

## Main definitions

* `StartTag.AlikeBut`, `Token.Alike` — tags and tokens that are alike wherever they stand.
* `MarkupPiece.Changes` — a piece that stays, or an edited tag with its raw text.
* `WrittenTag.AdaptsTo`, `AdaptsRaw` — what the edits of a tag and of a raw text make of it.
* `MarkupPiece.Adaptable` — every tag and every raw text of a source can take the edits of a rule.

## Main results

* `MarkupPiece.Fit.changes` — changed pieces are still read as they are meant.
* `MarkupPiece.exists_applyTo` — what a rule makes of an adaptable source in pieces.
* `MarkupPiece.tokenize_applyTo_alike` — a rule on an adaptable source leaves the tokens alike.
-/

namespace MailTemplate

/-! ## Tags that are alike -/

/-- Two attributes have one name, and one value unless the name is among some. -/
def Attribute.AlikeBut (mayChange : String → Prop) (a b : Attribute) : Prop :=
  b.name = a.name ∧ (¬ mayChange a.name → b.value = a.value)

/-- Two tags are alike wherever they stand, but for the values of the attributes of some names. -/
structure StartTag.AlikeBut (mayChange : String → Prop) (tag tag' : StartTag) : Prop where
  /-- They have one name. -/
  name : tag'.name = tag.name
  /-- Both or neither end with a slash. -/
  selfClosing : tag'.selfClosing = tag.selfClosing
  /-- The attributes are the same one after the other. -/
  attributes : List.Forall₂ (Attribute.AlikeBut mayChange) tag.attributes tag'.attributes

/-- The first value of a name that may not change is the same. -/
theorem Attribute.bind_value_find? {mayChange : String → Prop} {as bs : List Attribute}
    (h : List.Forall₂ (AlikeBut mayChange) as bs) {name : String} (hname : ¬ mayChange name) :
    (bs.find? fun b => b.name == name).bind value = (as.find? fun a => a.name == name).bind value := by
  induction h with
  | nil => rfl
  | @cons a b as bs hfirst _ ih =>
    obtain ⟨hsame, hvalue⟩ := hfirst
    rw [List.find?_cons, List.find?_cons, hsame]
    cases hfound : a.name == name with
    | true => exact hvalue (beq_iff_eq.1 hfound ▸ hname)
    | false => exact ih

theorem StartTag.AlikeBut.value?_eq {mayChange : String → Prop} {tag tag' : StartTag}
    (h : tag.AlikeBut mayChange tag') {name : String} (hname : ¬ mayChange name) :
    tag'.value? name = tag.value? name := Attribute.bind_value_find? h.attributes hname

/-- Two tokens are of one kind and have one name; two start tags are in a relation. -/
inductive Token.Alike (alike : StartTag → StartTag → Prop) : Token → Token → Prop
  | startTag {tag tag' : StartTag} (h : alike tag tag') : Alike alike (.startTag tag) (.startTag tag')
  | endTag (name : String) (span span' : Span) : Alike alike (.endTag name span) (.endTag name span')
  | comment (span span' : Span) : Alike alike (.comment span) (.comment span')
  | declaration (span span' : Span) : Alike alike (.declaration span) (.declaration span')
  | rawText (element : String) (span span' : Span) :
    Alike alike (.rawText element span) (.rawText element span')

theorem Token.Alike.mono {alike alike' : StartTag → StartTag → Prop} {token token' : Token}
    (h : Alike alike token token') (hmono : ∀ tag tag', alike tag tag' → alike' tag tag') :
    Alike alike' token token' := by
  cases h with
  | startTag h => exact .startTag (hmono _ _ h)
  | endTag => exact .endTag ..
  | comment => exact .comment ..
  | declaration => exact .declaration ..
  | rawText => exact .rawText ..

/-- The start tags among alike tokens are related one after the other. -/
theorem Token.startTags_alike {alike : StartTag → StartTag → Prop} {tokens tokens' : List Token}
    (h : List.Forall₂ (Token.Alike alike) tokens tokens') :
    List.Forall₂ alike (tokens.filterMap Token.startTag?) (tokens'.filterMap Token.startTag?) := by
  induction h with
  | nil => exact .nil
  | cons htoken _ ih =>
    cases htoken with
    | startTag htag => exact .cons htag ih
    | endTag => exact ih
    | comment => exact ih
    | declaration => exact ih
    | rawText => exact ih

section

variable {mayChange : String → Prop}

theorem TagPart.attributes_alike (parts : List TagPart) (o o' : Nat) :
    List.Forall₂ (Attribute.AlikeBut mayChange) (TagPart.attributes o parts)
      (TagPart.attributes o' parts) := by
  induction parts generalizing o o' with
  | nil => exact .nil
  | cons part parts ih =>
    cases part with
    | stray c => exact ih _ _
    | named a => exact .cons ⟨rfl, fun _ => rfl⟩ (ih _ _)

/-- A tag is alike at every place. -/
theorem WrittenTag.at_alike (t : WrittenTag) (o o' : Nat) :
    (t.at_ o).AlikeBut mayChange (t.at_ o') :=
  ⟨rfl, rfl, TagPart.attributes_alike t.parts _ _⟩

end

/-! ## Pieces under edits -/

namespace MarkupPiece

/-- A piece that stays, or a start tag whose attributes change and whose raw text does. -/
inductive Changes : MarkupPiece → MarkupPiece → Prop
  | same (p : MarkupPiece) : Changes p p
  | startTag {t t' : WrittenTag} {raw raw' : List Char} (hfits : t'.Fits) (hkey : t'.key = t.key)
    (hself : t'.selfClosing = t.selfClosing) (hraw : if t.IsRaw then
      Text.indexOfFold? ('<' :: '/' :: t.key.toList) raw = none →
        Text.indexOfFold? ('<' :: '/' :: t.key.toList) raw' = none else raw' = raw) :
    Changes (startTag t raw) (startTag t' raw')

variable {p p' : MarkupPiece} {ps ps' : List MarkupPiece}

/-- Changed pieces can take the place of the others. -/
theorem StandsFor.changes (h : List.Forall₂ Changes ps ps') : StandsFor ps ps' := by
  induction h with
  | nil => exact .refl []
  | @cons p p' ps ps' hp _ ih =>
    cases hp with
    | same => exact ih.cons p
    | @startTag t t' raw raw' =>
      -- A tag begins like any other one, and no raw text ends before it.
      exact .ofHead (List.cons_ne_nil _ _) rfl (.inr rfl) fun element _ =>
        not_endsRaw_startTag element t raw _

/-- **A changed piece fits before changed pieces.** -/
theorem FitsBefore.changes (hp : Changes p p') (h : List.Forall₂ Changes ps ps')
    (hfits : p.FitsBefore ps) : p'.FitsBefore ps' := by
  have hbehind := StandsFor.changes h
  cases hp with
  | same => exact hfits.standsFor hbehind
  | @startTag t t' raw raw' ht hkey hself hchange =>
    obtain ⟨-, hraw⟩ := hfits
    have hisRaw : t'.IsRaw ↔ t.IsRaw := by rw [WrittenTag.IsRaw, WrittenTag.IsRaw, hkey, hself]
    refine ⟨ht, ?_⟩
    by_cases h' : t.IsRaw
    · rw [if_pos h'] at hraw hchange
      rw [if_pos (hisRaw.2 h'), hkey]
      exact ⟨hchange hraw.1, hbehind.raw t.key h'.2 hraw.2⟩
    · rw [if_neg h'] at hraw hchange
      rw [if_neg (fun h => h' (hisRaw.1 h)), hchange, hraw]

theorem Fit.changes (h : List.Forall₂ Changes ps ps') (hfit : Fit ps) : Fit ps' := by
  induction h with
  | nil => trivial
  | cons hp hps ih => exact ⟨hfit.1.changes hp hps, ih hfit.2⟩

end MarkupPiece

/-! ## Adapting pieces -/

/-- The edits of a rule that looks at start tags and at raw texts. -/
def Token.editsBy (tagEdits : StartTag → List Edit) (rawEdits : String → Span → List Edit) :
    Token → List Edit
  | .startTag tag => tagEdits tag
  | .rawText element span => rawEdits element span
  | _ => []

/-- Edits of a tag at an offset make another tag of it, which is read as it is meant. -/
structure WrittenTag.AdaptsTo (alike : StartTag → StartTag → Prop) (edits : List Edit) (o : Nat)
    (t t' : WrittenTag) : Prop where
  /-- The edits turn the one text into the other one. -/
  parts : ∃ parts, parts.flatMap EditPart.old = t.written ∧ parts.flatMap EditPart.new = t'.written ∧
    EditPart.edits o parts = edits
  /-- They begin inside the tag. -/
  begin_ : Edit.BeginWithin o (o + Text.byteLength t.written) edits
  /-- The other tag is read as it is meant. -/
  fits : t'.Fits
  /-- It has the name of the tag. -/
  key : t'.key = t.key
  /-- It ends with a slash if the tag does. -/
  selfClosing : t'.selfClosing = t.selfClosing
  /-- It is alike, wherever it stands. -/
  alike : ∀ o', alike (t.at_ o) (t'.at_ o')

/-- Edits of raw text at an offset make another raw text of it, which ends where it is meant to. -/
structure AdaptsRaw (element : String) (edits : List Edit) (o : Nat) (raw raw' : List Char) : Prop where
  /-- The edits turn the one text into the other one. -/
  parts : ∃ parts, parts.flatMap EditPart.old = raw ∧ parts.flatMap EditPart.new = raw' ∧
    EditPart.edits o parts = edits
  /-- They begin inside the raw text. -/
  begin_ : Edit.BeginWithin o (o + Text.byteLength raw) edits
  /-- The other raw text holds no front of an end tag either. -/
  ends : Text.indexOfFold? ('<' :: '/' :: element.toList) raw = none →
    Text.indexOfFold? ('<' :: '/' :: element.toList) raw' = none

theorem WrittenTag.AdaptsTo.refl {alike : StartTag → StartTag → Prop} {t : WrittenTag} (h : t.Fits)
    (o : Nat) (halike : ∀ o', alike (t.at_ o) (t.at_ o')) : t.AdaptsTo alike [] o t :=
  ⟨⟨[.kept t.written], by simp [EditPart.old], by simp [EditPart.new], rfl⟩, .nil _ _, h, rfl, rfl,
    halike⟩

theorem WrittenTag.AdaptsTo.isRaw_iff {alike : StartTag → StartTag → Prop} {edits : List Edit} {o : Nat}
    {t t' : WrittenTag} (h : t.AdaptsTo alike edits o t') : t'.IsRaw ↔ t.IsRaw := by
  rw [WrittenTag.IsRaw, WrittenTag.IsRaw, h.key, h.selfClosing]

theorem WrittenTag.AdaptsTo.mono {alike alike' : StartTag → StartTag → Prop} {edits : List Edit} {o : Nat}
    {t t' : WrittenTag} (h : t.AdaptsTo alike edits o t')
    (hmono : ∀ tag', alike (t.at_ o) tag' → alike' (t.at_ o) tag') : t.AdaptsTo alike' edits o t' :=
  ⟨h.parts, h.begin_, h.fits, h.key, h.selfClosing, fun o' => hmono _ (h.alike o')⟩

theorem AdaptsRaw.refl (element : String) (o : Nat) (raw : List Char) :
    AdaptsRaw element [] o raw raw :=
  ⟨⟨[.kept raw], by simp [EditPart.old], by simp [EditPart.new], rfl⟩, .nil _ _, id⟩

namespace MarkupPiece

section Adapting

variable {alike : StartTag → StartTag → Prop} {rawAlike : String → List Char → List Char → Prop}
  {tagEdits : StartTag → List Edit} {rawEdits : String → Span → List Edit} {source : List Char}

/-- Every tag and every raw text of a source can be adapted to the edits of a rule, and what becomes of it is
in a relation to it. -/
structure Adaptable (alike : StartTag → StartTag → Prop) (rawAlike : String → List Char → List Char → Prop)
    (tagEdits : StartTag → List Edit) (rawEdits : String → Span → List Edit) (source : List Char) : Prop where
  /-- A tag that stands in the source. -/
  tag : ∀ before (t : WrittenTag) after, source = before ++ (t.written ++ after) → t.Fits →
    .startTag (t.at_ (Text.byteLength before)) ∈ Token.tokensFrom (.front source) →
      ∃ t', t.AdaptsTo alike (tagEdits (t.at_ (Text.byteLength before))) (Text.byteLength before) t'
  /-- A raw text that stands in the source. -/
  raw : ∀ before raw after element, source = before ++ (raw ++ after) →
    let o := Text.byteLength before
    .rawText element ⟨o, o + Text.byteLength raw⟩ ∈ Token.tokensFrom (.front source) →
      ∃ raw', AdaptsRaw element (rawEdits element ⟨o, o + Text.byteLength raw⟩) o raw raw' ∧
        rawAlike element raw raw'

/-- The edits of a piece make another piece of it. -/
structure AdaptsTo (alike : StartTag → StartTag → Prop) (rawAlike : String → List Char → List Char → Prop)
    (edit : Token → List Edit) (o : Nat) (p p' : MarkupPiece) : Prop where
  /-- The edits turn the one text into the other one. -/
  parts : ∃ parts, parts.flatMap EditPart.old = p.written ∧ parts.flatMap EditPart.new = p'.written ∧
    EditPart.edits o parts = (p.tokensAt o).flatMap edit
  /-- They begin inside the piece. -/
  begin_ : Edit.BeginWithin o (o + Text.byteLength p.written) ((p.tokensAt o).flatMap edit)
  /-- The piece stays but for a tag and its raw text. -/
  changes : Changes p p'
  /-- The tokens are alike, wherever the other piece stands. -/
  alike : ∀ o', List.Forall₂ (Token.Alike alike) (p.tokensAt o) (p'.tokensAt o')
  /-- The raw text of an element stays if it has no edits. -/
  raw : ∀ element, (∀ span, edit (.rawText element span) = []) → p'.raw? element = p.raw? element
  /-- The raw texts of an element are in the relation. -/
  rawAlike : ∀ element, List.Forall₂ (rawAlike element) (p.raw? element).toList (p'.raw? element).toList

/-- A piece without raw text stays if it has no edits. -/
theorem AdaptsTo.refl {edit : Token → List Edit} {o : Nat} {p : MarkupPiece}
    (hedit : ∀ token ∈ p.tokensAt o, edit token = []) (hraw : ∀ element, p.raw? element = none)
    (halike : ∀ o', List.Forall₂ (Token.Alike alike) (p.tokensAt o) (p.tokensAt o')) :
    p.AdaptsTo alike rawAlike edit o p := by
  have hnil := List.flatMap_eq_nil_iff.2 hedit
  refine ⟨⟨[.kept p.written], by simp [EditPart.old], by simp [EditPart.new], ?_⟩, ?_, .same p, halike,
    fun _ _ => rfl, fun element => by rw [hraw]; exact .nil⟩
  · rw [hnil]
    rfl
  · rw [hnil]
    exact .nil _ _

/-- A tag without raw text is adapted. -/
theorem AdaptsTo.plainTag {o : Nat} {t t' : WrittenTag} (h : t.AdaptsTo alike (tagEdits (t.at_ o)) o t')
    (hraw : ¬ t.IsRaw) :
    (startTag t []).AdaptsTo alike rawAlike (Token.editsBy tagEdits rawEdits) o (startTag t' []) := by
  obtain ⟨parts, hold, hnew, hedits⟩ := h.parts
  have hraw' : ¬ t'.IsRaw := fun h' => hraw (h.isRaw_iff.1 h')
  have hall : (tokensAt o (startTag t [])).flatMap (Token.editsBy tagEdits rawEdits) =
      tagEdits (t.at_ o) := by
    simp [tokensAt, hraw, Token.editsBy]
  refine ⟨⟨parts, ?_, ?_, ?_⟩, ?_, ?_, ?_, ?_, ?_⟩
  · rw [hold, written, List.append_nil]
  · rw [hnew, written, List.append_nil]
  · rw [hedits, hall]
  · rw [hall, written, List.append_nil]
    exact h.begin_
  · exact .startTag h.fits h.key h.selfClosing (by rw [if_neg hraw])
  · intro o'
    simp only [tokensAt, if_neg hraw, if_neg hraw']
    exact .cons (.startTag (h.alike o')) .nil
  · intro element _
    simp only [raw?, h.isRaw_iff, h.key]
  · intro element
    simp only [raw?, hraw, hraw', false_and, if_false]
    exact .nil

/-- A tag is adapted with the raw text behind it. -/
theorem AdaptsTo.rawTag {o : Nat} {t t' : WrittenTag} {raw raw' : List Char}
    (h : t.AdaptsTo alike (tagEdits (t.at_ o)) o t') (hraw : t.IsRaw)
    (hedited : AdaptsRaw t.key (rawEdits t.key ⟨o + Text.byteLength t.written,
      o + Text.byteLength t.written + Text.byteLength raw⟩) (o + Text.byteLength t.written) raw raw')
    (hrawAlike : rawAlike t.key raw raw') :
    (startTag t raw).AdaptsTo alike rawAlike (Token.editsBy tagEdits rawEdits) o (startTag t' raw') := by
  obtain ⟨parts, hold, hnew, hedits⟩ := h.parts
  obtain ⟨rawParts, hrawOld, hrawNew, hrawEdits⟩ := hedited.parts
  have hall : (tokensAt o (startTag t raw)).flatMap (Token.editsBy tagEdits rawEdits) =
      tagEdits (t.at_ o) ++ rawEdits t.key ⟨o + Text.byteLength t.written,
        o + Text.byteLength t.written + Text.byteLength raw⟩ := by
    simp [tokensAt, hraw, Token.editsBy, Text.byteLength_append, Nat.add_assoc]
  refine ⟨⟨parts ++ rawParts, ?_, ?_, ?_⟩, ?_, ?_, ?_, ?_, ?_⟩
  · rw [List.flatMap_append, hold, hrawOld, written]
  · rw [List.flatMap_append, hnew, hrawNew, written]
  · rw [EditPart.edits_append, hedits, hold, hrawEdits, hall]
  · rw [hall, written, Text.byteLength_append, ← Nat.add_assoc]
    exact h.begin_.append hedited.begin_ (by omega) (by omega)
  · exact .startTag h.fits h.key h.selfClosing (by rw [if_pos hraw]; exact hedited.ends)
  · intro o'
    simp only [tokensAt, if_pos hraw, if_pos (h.isRaw_iff.2 hraw), h.key]
    exact .cons (.startTag (h.alike o')) (.cons (.rawText ..) .nil)
  · intro element hnone
    simp only [raw?, h.isRaw_iff, h.key]
    split
    · next hkey =>
      have hkept := EditPart.flatMap_new_of_edits_eq_nil (hrawEdits.trans (hkey.2 ▸ hnone _))
      rw [← hrawNew, ← hrawOld, hkept]
    · rfl
  · intro element
    simp only [raw?, h.isRaw_iff, h.key]
    split
    · next hkey => exact .cons (hkey.2 ▸ hrawAlike) .nil
    · exact .nil

/-- **Every piece of an adaptable source can be adapted.** -/
theorem exists_adaptsTo (hadapt : Adaptable alike rawAlike tagEdits rawEdits source) {before after : List Char}
    {p : MarkupPiece} {ps : List MarkupPiece} (hsource : source = before ++ (p.written ++ after))
    (hfits : p.FitsBefore ps)
    (hmem : ∀ token ∈ p.tokensAt (Text.byteLength before), token ∈ Token.tokensFrom (.front source)) :
    ∃ p', p.AdaptsTo alike rawAlike (Token.editsBy tagEdits rawEdits) (Text.byteLength before) p' := by
  cases p with
  | plain c => exact ⟨_, .refl (by simp [tokensAt]) (fun _ => rfl) fun o' => .nil⟩
  | endTag name body =>
    exact ⟨_, .refl (by simp [tokensAt, Token.editsBy]) (fun _ => rfl) fun o' => .cons (.endTag ..) .nil⟩
  | comment body =>
    exact ⟨_, .refl (by simp [tokensAt, Token.editsBy]) (fun _ => rfl) fun o' => .cons (.comment ..) .nil⟩
  | declaration body =>
    exact ⟨_, .refl (by simp [tokensAt, Token.editsBy]) (fun _ => rfl) fun o' => .cons (.declaration ..) .nil⟩
  | startTag t raw =>
    obtain ⟨ht, hraw⟩ := hfits
    obtain ⟨t', ht'⟩ := hadapt.tag before t (raw ++ after) (by rw [hsource, written, List.append_assoc])
      ht (hmem _ List.mem_cons_self)
    by_cases h : t.IsRaw
    · -- The raw text stands behind the tag, and its edits behind those of the tag.
      have hoffset : Text.byteLength (before ++ t.written) =
          Text.byteLength before + Text.byteLength t.written := Text.byteLength_append _ _
      have hrawText : Token.rawText t.key ⟨Text.byteLength (before ++ t.written),
          Text.byteLength (before ++ t.written) + Text.byteLength raw⟩ ∈
            Token.tokensFrom (.front source) := by
        refine hmem _ ?_
        rw [tokensAt, if_pos h, hoffset, Text.byteLength_append, Nat.add_assoc]
        exact List.mem_cons_of_mem _ List.mem_cons_self
      obtain ⟨raw', hraw', hrawAlike⟩ := hadapt.raw (before ++ t.written) raw after t.key
        (by rw [hsource, written, List.append_assoc, List.append_assoc]) hrawText
      rw [hoffset] at hraw'
      exact ⟨_, .rawTag ht' h hraw' hrawAlike⟩
    · rw [if_neg h] at hraw
      subst hraw
      exact ⟨_, .plainTag ht' h⟩

/-- Pieces with the edits of a rule. -/
structure AllAdaptTo (alike : StartTag → StartTag → Prop) (rawAlike : String → List Char → List Char → Prop)
    (edit : Token → List Edit) (o : Nat) (ps ps' : List MarkupPiece) : Prop where
  /-- The edits turn the one text into the other one. -/
  parts : ∃ parts, parts.flatMap EditPart.old = text ps ∧ parts.flatMap EditPart.new = text ps' ∧
    EditPart.edits o parts = (tokens o ps).flatMap edit
  /-- They begin one behind the other. -/
  begin_ : Edit.BeginWithin o (o + Text.byteLength (text ps)) ((tokens o ps).flatMap edit)
  /-- The pieces stay but for tags and their raw texts. -/
  changes : List.Forall₂ Changes ps ps'
  /-- The tokens are alike, wherever the other pieces stand. -/
  alike : ∀ o', List.Forall₂ (Token.Alike alike) (tokens o ps) (tokens o' ps')
  /-- The raw texts of an element stay if they have no edits. -/
  raws : ∀ element, (∀ span, edit (.rawText element span) = []) → raws element ps' = raws element ps
  /-- The raw texts of an element are in the relation. -/
  rawsAlike : ∀ element, List.Forall₂ (rawAlike element) (MarkupPiece.raws element ps)
    (MarkupPiece.raws element ps')

/-- **All pieces of an adaptable source can be adapted** at once. -/
theorem exists_allAdaptTo (hadapt : Adaptable alike rawAlike tagEdits rawEdits source) {before : List Char}
    {ps : List MarkupPiece} (hsource : source = before ++ text ps) (hfit : Fit ps)
    (hmem : ∀ token ∈ tokens (Text.byteLength before) ps, token ∈ Token.tokensFrom (.front source)) :
    ∃ ps', AllAdaptTo alike rawAlike (Token.editsBy tagEdits rawEdits) (Text.byteLength before) ps ps' := by
  induction ps generalizing before with
  | nil => exact ⟨[], ⟨[], rfl, rfl, rfl⟩, .nil _ _, .nil, fun _ => .nil, fun _ _ => rfl, fun _ => .nil⟩
  | cons p ps ih =>
    have hoffset : Text.byteLength (before ++ p.written) =
        Text.byteLength before + Text.byteLength p.written := Text.byteLength_append _ _
    obtain ⟨p', hp⟩ := exists_adaptsTo hadapt hsource hfit.1
      fun token ht => hmem token (List.mem_append.2 (.inl ht))
    obtain ⟨ps', hps⟩ := @ih (before ++ p.written) (by rw [hsource, text_cons, List.append_assoc]) hfit.2
      fun token ht => hmem token (List.mem_append.2 (.inr (hoffset ▸ ht)))
    rw [hoffset] at hps
    obtain ⟨first, hfirstOld, hfirstNew, hfirstEdits⟩ := hp.parts
    obtain ⟨parts, hold, hnew, hedits⟩ := hps.parts
    refine ⟨p' :: ps', ⟨first ++ parts, ?_, ?_, ?_⟩, ?_, .cons hp.changes hps.changes, fun o' => ?_,
      fun element hnone => ?_, fun element => ?_⟩
    · rw [List.flatMap_append, hfirstOld, hold, text_cons]
    · rw [List.flatMap_append, hfirstNew, hnew, text_cons]
    · rw [EditPart.edits_append, hfirstEdits, hfirstOld, hedits, tokens, List.flatMap_append]
    · rw [tokens, List.flatMap_append, text_cons, Text.byteLength_append, ← Nat.add_assoc]
      exact hp.begin_.append hps.begin_ (by omega) (by omega)
    · rw [tokens, tokens]
      exact List.rel_append (hp.alike o') (hps.alike _)
    · rw [raws_cons, raws_cons, hp.raw element hnone, hps.raws element hnone]
    · rw [raws_cons, raws_cons]
      exact List.rel_append (hp.rawAlike element) (hps.rawsAlike element)

/-- **A rule on an adaptable source in pieces** makes other pieces of it, in whatever order it lists its
edits. -/
theorem exists_applyTo {ps : List MarkupPiece} {rule : Rule} (hfit : Fit ps)
    (hadapt : Adaptable alike rawAlike tagEdits rawEdits (text ps))
    (hrule : (rule.editsOf (String.ofList (text ps))).Perm
      ((Document.read (String.ofList (text ps))).tokens.flatMap
        (Token.editsBy tagEdits rawEdits))) :
    ∃ ps', AllAdaptTo alike rawAlike (Token.editsBy tagEdits rawEdits) 0 ps ps' ∧
      rule.applyTo (String.ofList (text ps)) = String.ofList (text ps') := by
  have htokens := tokens_read hfit
  obtain ⟨ps', hps⟩ : ∃ ps', AllAdaptTo alike rawAlike (Token.editsBy tagEdits rawEdits) 0 ps ps' :=
    @exists_allAdaptTo _ _ _ _ _ hadapt [] ps rfl hfit fun token (ht : token ∈ tokens 0 ps) => by
      rw [← htokens] at ht
      simpa [Document.read, Token.tokenize] using ht
  obtain ⟨parts, hold, hnew, hedits⟩ := hps.parts
  -- The edits turn the text of the pieces into the text of the changed ones.
  have happly := EditPart.applyTo?_of_perm (hedits ▸ hps.begin_.ordered)
    (hedits ▸ htokens ▸ hrule : (rule.editsOf _).Perm (EditPart.edits 0 parts))
  rw [hold, hnew] at happly
  exact ⟨ps', hps, by rw [Rule.applyTo, happly, Option.getD_some]⟩

/-- **A rule on an adaptable source leaves the tokens alike.** -/
theorem tokenize_applyTo_alike {source : String} {rule : Rule}
    (hcompletes : Token.completes source = true)
    (hadapt : Adaptable alike rawAlike tagEdits rawEdits source.toList)
    (hrule : (rule.editsOf source).Perm
      ((Document.read source).tokens.flatMap (Token.editsBy tagEdits rawEdits))) :
    List.Forall₂ (Token.Alike alike) (Token.tokenize source)
      (Token.tokenize (rule.applyTo source)) := by
  obtain ⟨ps, hfit, rfl⟩ := exists_of_completes hcompletes
  rw [String.toList_ofList] at hadapt
  obtain ⟨ps', hps, happly⟩ := exists_applyTo hfit hadapt hrule
  rw [happly, tokenize_text hfit, tokenize_text (hfit.changes hps.changes)]
  exact hps.alike 0

end Adapting

end MarkupPiece

end MailTemplate
