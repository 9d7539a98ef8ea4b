import MailTemplate.Client.Profile
import MailTemplate.Proofs.AttributeEdits
import MailTemplate.Proofs.StyleRewrites
import Mathlib.Data.List.Perm.Basic
import Mathlib.Data.List.TakeWhile

/-!
# Rules that work in place

Three rules for Outlook change nothing but attributes of tags that stand in the document, and fonts in
its style sheets.  They leave the tokens of a document as they are, but for the values that they are
made to change, if what they write can stand where they write it.  They do not look whether it can: a
list of fonts in the place of a value without quotes ends at its first blank, and its other words become
attributes.

## Main definitions

* `Attribute.ClassGiven`, `StartTag.GivenClasses` — attributes that receive classes.
* `CellClasses.FitsIn`, `ZeroFontSpacer.FitsIn`, `FontFallback.FitsIn` — what a rule writes can stand
  where it writes it.
* `CellClasses.Received`, `ZeroFontSpacer.Respaced` — what the class and the style of a cell become.
* `FontFallback.Restyled`, `FontFallback.Resheeted` — what the fonts of a tag and of a style sheet become.

## Main results

* `CellClasses.tokenize_applyTo`, `ZeroFontSpacer.tokenize_applyTo`, `FontFallback.tokenize_applyTo` — a
  rule that fits leaves the tokens alike.
* `in_place_rules_keep_tokens` — so do all three under any settings.
* `unfit_values_break_tags` — a rule that does not fit breaks a tag.
-/

namespace MailTemplate

/-! ## Edits token by token -/

/-- The edits of the tags of a name. -/
def StartTag.editsNamed (name : String) (edit? : StartTag → Option Edit) (tag : StartTag) : List Edit :=
  if tag.name = name then (edit? tag).toList else []

theorem Document.filterMap_startTags (doc : Document) (name : String) (edit? : StartTag → Option Edit) :
    (doc.startTags name).filterMap (fun p => edit? p.2) =
      doc.tokens.flatMap (Token.editsBy (StartTag.editsNamed name edit?) fun _ _ => []) := by
  rw [Document.startTags, List.filterMap_filterMap]
  -- The place of a tag among the tokens does not matter.
  suffices h : ∀ k, ((doc.tokens.zipIdx k).filterMap fun p =>
      ((p.1.startTagNamed? name).map (p.2, ·)).bind fun p => edit? p.2) =
        doc.tokens.flatMap (Token.editsBy (StartTag.editsNamed name edit?) fun _ _ => []) from h 0
  induction doc.tokens with
  | nil => intro k; rfl
  | cons token tokens ih =>
    intro k
    rw [List.zipIdx_cons, List.filterMap_cons, List.flatMap_cons, ih]
    cases token with
    | startTag tag =>
      by_cases hname : tag.name = name
      · cases hedit : edit? tag <;>
          simp [Token.startTagNamed?, Token.editsBy, StartTag.editsNamed, hname, hedit]
      · simp [Token.startTagNamed?, Token.editsBy, StartTag.editsNamed, hname]
    | endTag => rfl
    | comment => rfl
    | declaration => rfl
    | rawText => rfl

/-- A source can take the edits of the tags of a name if each of these tags can. -/
theorem MarkupPiece.adaptable_editsNamed {alike : StartTag → StartTag → Prop} {name : String}
    {edit? : StartTag → Option Edit} {source : String}
    (hsame : ∀ (t : WrittenTag) (o o' : Nat), t.key ≠ name → alike (t.at_ o) (t.at_ o'))
    (htag : ∀ before (t : WrittenTag) after, source.toList = before ++ (t.written ++ after) → t.Fits →
      t.key = name → t.at_ (Text.byteLength before) ∈ (Document.read source).allStartTags →
        ∃ t', t.AdaptsTo alike (edit? (t.at_ (Text.byteLength before))).toList
          (Text.byteLength before) t') :
    Adaptable alike (fun _ raw raw' => raw' = raw) (StartTag.editsNamed name edit?) (fun _ _ => [])
      source.toList := by
  refine ⟨?_, ?_⟩
  · intro before t after hsource ht hmem
    by_cases hname : t.key = name
    · rw [StartTag.editsNamed, if_pos (show (t.at_ _).name = name from hname)]
      exact htag before t after hsource ht hname (List.mem_filterMap.2 ⟨_, hmem, rfl⟩)
    · rw [StartTag.editsNamed, if_neg (show ¬ (t.at_ _).name = name from hname)]
      exact ⟨t, .refl ht _ fun o' => hsame t _ o' hname⟩
  · intro before raw after element _ _ _
    exact ⟨raw, .refl element _ raw, rfl⟩

namespace FontFallback

variable (webFonts : List String) (fallback : String)

/-- The edits of the raw text of an element. -/
def rawEdits (doc : Document) (element : String) (span : Span) : List Edit :=
  if element = "style" then (sheetEdit? webFonts fallback doc span).toList else []

/-- The edits of the rule are those of the tags and those of the style sheets. -/
theorem edits_perm (doc : Document) : ((rule webFonts fallback).edits doc).Perm
    (doc.tokens.flatMap
      (Token.editsBy (tagEdits webFonts fallback) (rawEdits webFonts fallback doc))) := by
  have htags : doc.allStartTags.flatMap (tagEdits webFonts fallback) =
      doc.tokens.flatMap (Token.editsBy (tagEdits webFonts fallback) fun _ _ => []) := by
    rw [Document.allStartTags]
    induction doc.tokens with
    | nil => rfl
    | cons token tokens ih =>
      rw [List.flatMap_cons, ← ih]
      cases token <;> rfl
  have hsheets : (doc.rawTexts "style").filterMap (sheetEdit? webFonts fallback doc) =
      doc.tokens.flatMap (Token.editsBy (fun _ => []) (rawEdits webFonts fallback doc)) := by
    rw [Document.rawTexts, List.filterMap_filterMap]
    induction doc.tokens with
    | nil => rfl
    | cons token tokens ih =>
      rw [List.filterMap_cons, List.flatMap_cons, ih]
      cases token with
      | rawText element span =>
        by_cases helement : element = "style"
        · cases hedit : sheetEdit? webFonts fallback doc span <;>
            simp [Token.editsBy, rawEdits, helement, hedit]
        · simp [Token.editsBy, rawEdits, helement]
      | startTag => rfl
      | endTag => rfl
      | comment => rfl
      | declaration => rfl
  show (doc.allStartTags.flatMap _ ++ (doc.rawTexts "style").filterMap _).Perm _
  rw [htags, hsheets]
  refine (List.flatMap_append_perm _ _ _).trans (List.Perm.of_eq ?_)
  congr 1
  funext token
  cases token <;> simp [Token.editsBy]

end FontFallback

/-! ## Style sheets -/

/-- Raw text that is replaced as a whole. -/
theorem AdaptsRaw.replace {element text : String} {o : Nat} {raw : List Char} (hraw : raw ≠ [])
    (hends : Text.indexOfFold? ('<' :: '/' :: element.toList) text.toList = none) :
    AdaptsRaw element [Edit.replace ⟨o, o + Text.byteLength raw⟩ text] o raw text.toList := by
  have hpos := Text.byteLength_pos hraw
  refine ⟨⟨[.replaced raw text], ?_, ?_, rfl⟩, .singleton (Nat.le_refl o) (by
    show o < o + Text.byteLength raw
    omega), fun _ => hends⟩
  · simp [EditPart.old]
  · simp [EditPart.new]

/-! ## Spacers -/

namespace ZeroFontSpacer

/-- What the rule writes can stand in the style of each cell. -/
def FitsIn (source : String) : Prop :=
  ∀ cell ∈ (Document.read source).allStartTags, cell.name = "td" → ∀ e ∈ edit? cell,
    ∀ a ∈ cell.attribute? "style", a.Admits source.toList e.text.toList

instance (source : String) : Decidable (FitsIn source) :=
  inferInstanceAs (Decidable (∀ cell ∈ (Document.read source).allStartTags, cell.name = "td" →
    ∀ e ∈ edit? cell, ∀ a ∈ cell.attribute? "style", a.Admits source.toList e.text.toList))

/-- The attributes whose values the rule changes. -/
def mayChange (tag : StartTag) (name : String) : Prop := tag.name = "td" ∧ name = "style"

/-- A style that declares something is not blank. -/
theorem head?_append {style : String} (hds : Css.declarations style ≠ []) (property value : String) :
    (Css.append style property value).toList.head? = style.toList.head? := by
  obtain ⟨d, hd⟩ := List.exists_mem_of_ne_nil _ hds
  have hcolon := ((Css.declarations_placed style).2 d hd).2.2
  obtain ⟨trail, htrail, -⟩ := Text.exists_dropEndWhile Text.isBlank style.toList
  have hkept : Text.trimEnd style.toList ≠ [] := by
    intro hnil
    have hblank : ∀ c ∈ style.toList, Text.isBlank c = true := by
      rw [Text.trimEnd, Text.dropEndWhile, List.reverse_eq_nil_iff, List.dropWhile_eq_nil_iff] at hnil
      intro c hc
      exact hnil c (List.mem_reverse.2 hc)
    exact absurd (hblank ':' hcolon) (by decide)
  rw [← Text.trimEnd] at htrail
  simp only [Css.append, String.toList_append, String.toList_ofList]
  generalize Text.trimEnd style.toList = kept at hkept htrail
  obtain ⟨c, cs, rfl⟩ := List.exists_cons_of_ne_nil hkept
  rw [htrail]
  rfl

/-- The line height that takes the place of another one. -/
def zeroFor (height : Css.Declaration) : String :=
  if (Css.splitImportant height.value.toList).2 then "0 !important" else "0"

/-- What the rule writes for a tag with a font size: its style with a line height, or a new value for the
last one. -/
theorem edit?_cases {tag : StartTag} {e : Edit} (h : edit? tag = some e) :
    ∃ style span, tag.style? = some (style, span) ∧ tag.declared? "font-size" ≠ none ∧
      ((tag.declared? "line-height" = none ∧
          e = Edit.replace span (Css.append style "line-height" "0")) ∨
        ∃ height, tag.declared? "line-height" = some height ∧
          e = Edit.replace (height.valueSpan.shift span.start) (zeroFor height)) := by
  unfold edit? at h
  split at h
  · next size style span hsize hstyle =>
    refine ⟨style, span, hstyle, Option.ne_none_iff_exists'.2 ⟨size, hsize⟩, ?_⟩
    split at h
    · split at h
      · next hheight => exact .inl ⟨hheight, (Option.some.inj h).symm⟩
      · next height hheight =>
        split at h
        · exact absurd h (by simp)
        · exact .inr ⟨height, hheight, (Option.some.inj h).symm⟩
    · exact absurd h (by simp)
  · exact absurd h (by simp)

/-- What becomes of the style of a tag: a line height is appended, or the last one gives way to a zero. -/
inductive Respaced (tag tag' : StartTag) : Prop
  /-- There is no edit. -/
  | kept (hedit : edit? tag = none) (hvalue : tag'.value? "style" = tag.value? "style")
  /-- There is no line height yet. -/
  | appended {style : String} (hedit : (edit? tag).isSome) (hstyle : tag.value? "style" = some style)
    (hheight : tag.declared? "line-height" = none)
    (hvalue : tag'.value? "style" = some (Css.append style "line-height" "0"))
  /-- The value of the last line height is replaced. -/
  | changed {style : String} {height : Css.Declaration} {parts : List EditPart}
    (hedit : (edit? tag).isSome) (hstyle : tag.value? "style" = some style)
    (hheight : tag.declared? "line-height" = some height)
    (hold : parts.flatMap EditPart.old = style.toList)
    (hedits : EditPart.edits 0 parts = [Edit.replace height.valueSpan (zeroFor height)])
    (hvalue : tag'.value? "style" = some (String.ofList (parts.flatMap EditPart.new)))

variable {t : WrittenTag} {source before after : List Char} {style : String} {span : Span}

/-- A cell takes a declaration behind its style, which is replaced as a whole. -/
theorem exists_adaptsTo_appended (ht : t.Fits) (hsource : source = before ++ (t.written ++ after))
    (hname : t.key = "td") (hstyle : (t.at_ (Text.byteLength before)).style? = some (style, span))
    (hds : Css.declarations style ≠ []) (property value : String)
    (hadmits : ∀ a ∈ (t.at_ (Text.byteLength before)).attribute? "style",
      a.Admits source (Css.append style property value).toList) :
    ∃ t', t.AdaptsTo (fun tag tag' => tag.AlikeBut (mayChange tag) tag' ∧
        tag'.value? "style" = some (Css.append style property value))
      [Edit.replace span (Css.append style property value)] (Text.byteLength before) t' := by
  have hmay : mayChange (t.at_ (Text.byteLength before)) "style" := ⟨hname, rfl⟩
  obtain ⟨front, a, v, back, -, -, -, rfl, -, hspan, -⟩ := WrittenTag.exists_style hstyle
  obtain ⟨t', ht'⟩ := @WrittenTag.exists_adaptsTo_style t source before after _ span _ ht hsource
    hmay hstyle [.replaced v.text (Css.append (String.ofList v.text) property value)]
    (by simp [EditPart.old])
    (by simpa [EditPart.new] using head?_append hds property value)
    (List.pairwise_singleton _ _)
    (by
      intro e he
      obtain rfl := List.mem_singleton.1 he
      exact hadmits)
  have hshift : (Span.mk 0 (0 + Text.byteLength v.text)).shift span.start = span := by
    rw [hspan]
    simp [Span.shift, Nat.add_comm]
  simp only [EditPart.edits, List.map_cons, List.map_nil, Edit.replace, hshift] at ht'
  refine ⟨t', ht'.mono fun _ h => ⟨h.1, ?_⟩⟩
  simpa [EditPart.new] using h.2

/-- A cell takes another value for one of its declarations. -/
theorem exists_adaptsTo_changed (ht : t.Fits) (hsource : source = before ++ (t.written ++ after))
    (hname : t.key = "td") (hstyle : (t.at_ (Text.byteLength before)).style? = some (style, span))
    {height : Css.Declaration} (hmem : height ∈ Css.declarations style) (value : String)
    (hadmits : ∀ a ∈ (t.at_ (Text.byteLength before)).attribute? "style", a.Admits source value.toList) :
    ∃ parts : List EditPart, parts.flatMap EditPart.old = style.toList ∧
      EditPart.edits 0 parts = [Edit.replace height.valueSpan value] ∧
        ∃ t', t.AdaptsTo (fun tag tag' => tag.AlikeBut (mayChange tag) tag' ∧
            tag'.value? "style" = some (String.ofList (parts.flatMap EditPart.new)))
          [Edit.replace (height.valueSpan.shift span.start) value] (Text.byteLength before) t' := by
  have hmay : mayChange (t.at_ (Text.byteLength before)) "style" := ⟨hname, rfl⟩
  obtain ⟨-, hslice, -⟩ := (Css.declarations_placed _).2 height hmem
  obtain ⟨parts, hold, hedits⟩ := EditPart.exists_edits_eq [] style.toList
    (List.pairwise_singleton _ (Edit.replace height.valueSpan value))
    (List.forall_mem_singleton.2 ⟨_, hslice⟩) fun _ _ => Nat.zero_le _
  have hvalues : EditPart.edits 0 parts = [height].map fun d => Edit.replace d.valueSpan value := hedits
  obtain ⟨t', ht'⟩ := WrittenTag.exists_adaptsTo_values ht hsource hmay hstyle
    (List.singleton_sublist.2 hmem) hold hvalues (fun _ _ => hadmits)
  exact ⟨parts, hold, hedits, t', ht'.mono fun _ h => h⟩

/-- **A cell takes the edit of the rule** if its style admits what the rule writes. -/
theorem exists_adaptsTo (ht : t.Fits) (hsource : source = before ++ (t.written ++ after))
    (hname : t.key = "td") (hfits : ∀ e ∈ edit? (t.at_ (Text.byteLength before)),
      ∀ a ∈ (t.at_ (Text.byteLength before)).attribute? "style", a.Admits source e.text.toList) :
    ∃ t', t.AdaptsTo (fun tag tag' => tag.AlikeBut (mayChange tag) tag' ∧ Respaced tag tag')
      (edit? (t.at_ (Text.byteLength before))).toList (Text.byteLength before) t' := by
  cases hedit : edit? (t.at_ (Text.byteLength before)) with
  | none =>
    exact ⟨t, .refl ht _ fun o' => ⟨t.at_alike _ o', .kept hedit (t.value?_at_ _ _ _)⟩⟩
  | some e =>
    have hsome : (edit? (t.at_ (Text.byteLength before))).isSome := Option.isSome_iff_exists.2 ⟨e, hedit⟩
    have hadmits := hfits e hedit
    obtain ⟨style, span, hstyle, hsize, hcases⟩ := edit?_cases hedit
    have hvalue := StartTag.value?_of_style? hstyle
    have hdeclared (property : String) : (t.at_ (Text.byteLength before)).declared? property =
        Css.lastOf? (Css.declarations style) property := by
      rw [StartTag.declared?, StartTag.declarations, hvalue]
    rcases hcases with ⟨hheight, rfl⟩ | ⟨height, hheight, rfl⟩
    · have hds : Css.declarations style ≠ [] := by
        intro hnil
        rw [hdeclared, hnil] at hsize
        exact hsize rfl
      obtain ⟨t', ht'⟩ := exists_adaptsTo_appended ht hsource hname hstyle hds _ _ hadmits
      exact ⟨t', ht'.mono fun _ h => ⟨h.1, .appended hsome hvalue hheight h.2⟩⟩
    · have hmem : height ∈ Css.declarations style := by
        rw [hdeclared] at hheight
        exact List.mem_reverse.1 (List.mem_of_find?_eq_some hheight)
      obtain ⟨parts, hold, hedits, t', ht'⟩ :=
        exists_adaptsTo_changed ht hsource hname hstyle hmem _ hadmits
      exact ⟨t', ht'.mono fun _ h => ⟨h.1, .changed hsome hvalue hheight hold hedits h.2⟩⟩

/-- A source can take the edits of the rule if the style of each cell admits what the rule writes. -/
theorem adaptable_of_admits {source : String}
    (hadmits : ∀ before (t : WrittenTag) after, source.toList = before ++ (t.written ++ after) → t.Fits →
      t.key = "td" → t.at_ (Text.byteLength before) ∈ (Document.read source).allStartTags →
        ∀ e ∈ edit? (t.at_ (Text.byteLength before)),
          ∀ a ∈ (t.at_ (Text.byteLength before)).attribute? "style",
            a.Admits source.toList e.text.toList) :
    MarkupPiece.Adaptable
      (fun tag tag' => tag.AlikeBut (mayChange tag) tag' ∧ (tag.name = "td" → Respaced tag tag'))
      (fun _ raw raw' => raw' = raw) (StartTag.editsNamed "td" edit?) (fun _ _ => [])
      source.toList := by
  refine MarkupPiece.adaptable_editsNamed (fun t o o' hname =>
    ⟨t.at_alike o o', fun h => absurd h hname⟩) ?_
  intro before t after hsource ht hname hcell
  obtain ⟨t', ht'⟩ :=
    exists_adaptsTo ht hsource hname (hadmits before t after hsource ht hname hcell)
  exact ⟨t', ht'.mono fun _ h => ⟨h.1, fun _ => h.2⟩⟩

/-- A source can take the edits of the rule where it fits. -/
theorem adaptable {source : String} (hfits : FitsIn source) :
    MarkupPiece.Adaptable
      (fun tag tag' => tag.AlikeBut (mayChange tag) tag' ∧ (tag.name = "td" → Respaced tag tag'))
      (fun _ raw raw' => raw' = raw) (StartTag.editsNamed "td" edit?) (fun _ _ => [])
      source.toList :=
  adaptable_of_admits fun _ _ _ _ _ hname hcell => hfits _ hcell hname

/-- The edits of the rule, token by token. -/
theorem edits_eq (doc : Document) : rule.edits doc =
    doc.tokens.flatMap (Token.editsBy (StartTag.editsNamed "td" edit?) fun _ _ => []) :=
  Document.filterMap_startTags doc "td" edit?

/-- **The rule changes nothing but styles of cells** where it fits. -/
theorem tokenize_applyTo {source : String} (hcompletes : Token.completes source = true)
    (hfits : FitsIn source) :
    List.Forall₂ (Token.Alike fun tag => tag.AlikeBut (mayChange tag)) (Token.tokenize source)
      (Token.tokenize (rule.applyTo source)) :=
  (MarkupPiece.tokenize_applyTo_alike hcompletes (adaptable hfits) (List.Perm.of_eq (edits_eq _))).imp
    fun _ _ h => h.mono fun _ _ h => h.1

end ZeroFontSpacer

/-! ## Fonts -/

namespace FontFallback

/-- The attributes whose values the rule changes. -/
def mayChange (name : String) : Prop := name = "style"

/-- What the rule writes can stand in the style of each tag, and does not end a style sheet. -/
structure FitsIn (webFonts : List String) (fallback source : String) : Prop where
  /-- Lists of fonts in style attributes. -/
  tags : ∀ tag ∈ (Document.read source).allStartTags, ∀ e ∈ tagEdits webFonts fallback tag,
    ∀ a ∈ tag.attribute? "style", a.Admits source.toList e.text.toList
  /-- Style sheets. -/
  sheets : ∀ span ∈ (Document.read source).rawTexts "style",
    ∀ e ∈ sheetEdit? webFonts fallback (Document.read source) span,
      Text.indexOfFold? "</style".toList e.text.toList = none

instance (webFonts : List String) (fallback source : String) :
    Decidable (FitsIn webFonts fallback source) :=
  decidable_of_iff _ ⟨fun h => ⟨h.1, h.2⟩, fun h => And.intro h.tags h.sheets⟩

/-- The list that takes the place of a value, if the value is a font list that names a web font. -/
def new? (webFonts : List String) (fallback property value : String) : Option String :=
  if property == "font-family" && Css.namesFont value.toList webFonts then
    some (replacement fallback value.toList)
  else none

/-- A tag has the style of another one with the values that it is to have. -/
def Restyled (webFonts : List String) (fallback : String) (tag tag' : StartTag) : Prop :=
  match tag.value? "style" with
  | none => tag'.value? "style" = none
  | some style => ∃ ps', List.Forall₂ (Css.Revalues (new? webFonts fallback)) (Css.pieces style.toList) ps' ∧
      tag'.value? "style" = some (String.ofList (Text.joinWith [';'] ps'))

/-- The text of a style sheet with the font lists that it is to have. -/
def sheetText (webFonts : List String) (fallback : String) (sheet : List Char) : List Char :=
  (Css.sheetParts sheet).flatMap (partText webFonts fallback)

/-- The raw text of an element with the font lists that it is to have. -/
def Resheeted (webFonts : List String) (fallback element : String) (raw raw' : List Char) : Prop :=
  raw' = if element = "style" then sheetText webFonts fallback raw else raw

variable {webFonts : List String} {fallback : String}

theorem of_new?_eq_some {property value new : String} (h : new? webFonts fallback property value = some new) :
    property = "font-family" ∧ Css.namesFont value.toList webFonts = true ∧
      new = replacement fallback value.toList := by
  unfold new? at h
  split at h
  · next hnamed =>
    rw [Bool.and_eq_true, beq_iff_eq] at hnamed
    exact ⟨hnamed.1, hnamed.2, (Option.some.inj h).symm⟩
  · exact absurd h (by simp)

/-- The edits of a tag are those of the values that give way. -/
theorem tagEdits_eq {tag : StartTag} {style : String} {span : Span} (hstyle : tag.style? = some (style, span)) :
    tagEdits webFonts fallback tag =
      ((Css.declarations style).filter fun d => (new? webFonts fallback d.property d.value).isSome).map fun d =>
        Edit.replace (d.valueSpan.shift span.start) (replacement fallback d.value.toList) := by
  rw [tagEdits, hstyle]
  dsimp only
  refine congrArg (List.map _) (List.filter_congr fun d _ => ?_)
  rw [new?]
  split
  · next h => rw [h]; rfl
  · next h => rw [Bool.eq_false_iff.2 h]; rfl

/-- **A tag takes the edits of the rule** if its style admits what the rule writes. -/
theorem exists_adaptsTo {t : WrittenTag} {source before after : List Char} (ht : t.Fits)
    (hsource : source = before ++ (t.written ++ after))
    (hfits : ∀ e ∈ tagEdits webFonts fallback (t.at_ (Text.byteLength before)),
      ∀ a ∈ (t.at_ (Text.byteLength before)).attribute? "style", a.Admits source e.text.toList) :
    ∃ t', t.AdaptsTo (fun tag tag' => tag.AlikeBut mayChange tag' ∧ Restyled webFonts fallback tag tag')
      (tagEdits webFonts fallback (t.at_ (Text.byteLength before))) (Text.byteLength before) t' := by
  cases hstyle : (t.at_ (Text.byteLength before)).style? with
  | none =>
    have hnone := WrittenTag.value?_of_style?_eq_none hstyle
    have hedits : tagEdits webFonts fallback (t.at_ (Text.byteLength before)) = [] := by
      rw [tagEdits, hstyle]
    rw [hedits]
    refine ⟨t, .refl ht _ fun o' => ⟨t.at_alike _ o', ?_⟩⟩
    rw [Restyled, hnone]
    exact (t.value?_at_ _ _ _).trans hnone
  | some found =>
    obtain ⟨style, span⟩ := found
    rw [tagEdits_eq hstyle] at hfits ⊢
    have hmay : mayChange "style" := rfl
    obtain ⟨parts, ps', hold, hnew, hedits, hps⟩ := Css.exists_revalues (new? webFonts fallback) style
    -- An edit is there for each value that gives way.
    have hsame : (Css.declarations style).filterMap (Css.Declaration.edit? (new? webFonts fallback)) =
        ((Css.declarations style).filter fun d => (new? webFonts fallback d.property d.value).isSome).map
          fun d => Edit.replace d.valueSpan (replacement fallback d.value.toList) := by
      induction Css.declarations style with
      | nil => rfl
      | cons d ds ih =>
        rw [List.filterMap_cons, List.filter_cons, Css.Declaration.edit?, ih]
        cases hnew : new? webFonts fallback d.property d.value with
        | none => rfl
        | some new =>
          obtain ⟨-, -, rfl⟩ := of_new?_eq_some hnew
          rfl
    obtain ⟨t', ht'⟩ := WrittenTag.exists_adaptsTo_values ht hsource hmay hstyle List.filter_sublist hold
      (hedits.trans hsame) fun d hd a ha => hfits _ (List.mem_map.2 ⟨d, hd, rfl⟩) a ha
    refine ⟨t', ht'.mono fun tag' h => ⟨h.1, ?_⟩⟩
    have hvalue : (t.at_ (Text.byteLength before)).value? "style" = some style := by
      unfold StartTag.style? at hstyle
      obtain ⟨b, hb, h⟩ := Option.bind_eq_some_iff.1 hstyle
      obtain ⟨value, hvalue, h⟩ := Option.bind_eq_some_iff.1 h
      obtain ⟨span', -, h⟩ := Option.bind_eq_some_iff.1 h
      obtain ⟨rfl, -⟩ := Prod.mk.inj (Option.some.inj h)
      rw [StartTag.value?, hb]
      exact hvalue
    rw [Restyled, hvalue]
    exact ⟨ps', hps, hnew ▸ h.2⟩

/-- A style sheet stays as it is written where no list of fonts names a web font. -/
theorem sheetText_eq_self {sheet : List Char}
    (hnone : (Css.sheetParts sheet).any (isNamed webFonts) = false) :
    sheetText webFonts fallback sheet = sheet := by
  have hkept : ∀ part ∈ Css.sheetParts sheet, partText webFonts fallback part = part.written := by
    intro part hpart
    have hpart : isNamed webFonts part = false :=
      Bool.eq_false_iff.2 fun h => Bool.eq_false_iff.1 hnone (List.any_eq_true.2 ⟨part, hpart, h⟩)
    cases part with
    | other c => rfl
    | fontFamily written list =>
      have hnot : ¬ Css.namesFont (Text.trimEnd list) webFonts = true := Bool.eq_false_iff.1 hpart
      rw [partText, if_neg hnot]
      rfl
  rw [sheetText, List.flatMap_congr hkept, Css.flatMap_written_sheetParts]

/-- **A style sheet takes the edit of the rule** if what the rule writes does not end it. -/
theorem exists_adaptsRaw {source before raw after : List Char} {element : String}
    (hsource : source = before ++ (raw ++ after)) {span : Span}
    (hspan : span = ⟨Text.byteLength before, Text.byteLength before + Text.byteLength raw⟩)
    {doc : Document} (hdoc : doc.source.toList = source)
    (hfits : element = "style" → ∀ e ∈ sheetEdit? webFonts fallback doc span,
      Text.indexOfFold? "</style".toList e.text.toList = none) :
    ∃ raw', AdaptsRaw element (rawEdits webFonts fallback doc element span)
      (Text.byteLength before) raw raw' ∧ Resheeted webFonts fallback element raw raw' := by
  by_cases helement : element = "style"
  · have hfits := hfits helement
    rw [rawEdits, if_pos helement]
    have htext : doc.text span = raw := by
      have hslice : Text.slice? span source = some raw :=
        Text.slice?_eq_some_iff.2 ⟨before, after, hsource, by rw [hspan], by rw [hspan]⟩
      rw [Document.text, hdoc, Text.slice, hslice, Option.getD_some]
    cases hedit : sheetEdit? webFonts fallback doc span with
    | none =>
      refine ⟨raw, .refl element _ raw, ?_⟩
      have hnone : (Css.sheetParts raw).any (isNamed webFonts) = false := by
        refine Bool.eq_false_iff.2 fun hany => ?_
        rw [sheetEdit?, htext, if_pos hany] at hedit
        exact absurd hedit (by simp)
      rw [Resheeted, if_pos helement, sheetText_eq_self hnone]
    | some e =>
      have hends := hfits e hedit
      simp only [sheetEdit?, htext] at hedit
      split at hedit
      · next hany =>
        obtain rfl := Option.some.inj hedit
        -- A sheet without characters names no font.
        have hraw : raw ≠ [] := by
          rintro rfl
          simp [Css.sheetParts] at hany
        rw [hspan]
        refine ⟨_, .replace hraw (helement ▸ hends), ?_⟩
        rw [Resheeted, if_pos helement, String.toList_ofList]
        rfl
      · exact absurd hedit (by simp)
  · rw [rawEdits, if_neg helement]
    refine ⟨raw, .refl element _ raw, ?_⟩
    rw [Resheeted, if_neg helement]

/-- A source can take the edits of the rule where it fits. -/
theorem adaptable {source : String} (hfits : FitsIn webFonts fallback source) :
    MarkupPiece.Adaptable
      (fun tag tag' => tag.AlikeBut mayChange tag' ∧ Restyled webFonts fallback tag tag')
      (Resheeted webFonts fallback) (tagEdits webFonts fallback)
      (rawEdits webFonts fallback (Document.read source)) source.toList := by
  refine ⟨?_, ?_⟩
  · intro before t after hsource ht hmem
    have htag : t.at_ (Text.byteLength before) ∈ (Document.read source).allStartTags :=
      List.mem_filterMap.2 ⟨_, hmem, rfl⟩
    exact exists_adaptsTo ht hsource (hfits.tags _ htag)
  · intro before raw after element hsource o hmem
    apply exists_adaptsRaw hsource rfl rfl
    intro helement
    apply hfits.sheets
    refine List.mem_filterMap.2 ⟨_, hmem, ?_⟩
    rw [helement]
    rfl

/-- **The rule changes nothing but styles and style sheets** where it fits. -/
theorem tokenize_applyTo {source : String} (hcompletes : Token.completes source = true)
    (hfits : FitsIn webFonts fallback source) :
    List.Forall₂ (Token.Alike (StartTag.AlikeBut mayChange)) (Token.tokenize source)
      (Token.tokenize ((rule webFonts fallback).applyTo source)) :=
  (MarkupPiece.tokenize_applyTo_alike hcompletes (adaptable hfits)
    (edits_perm webFonts fallback (Document.read source))).imp fun _ _ h => h.mono fun _ _ h => h.1

end FontFallback

/-! ## Classes -/

/-- Attributes that stay, but for a class that receives a value or that is added with it. -/
inductive Attribute.ClassGiven (value : String) : List Attribute → List Attribute → Prop
  | same {as bs : List Attribute} (h : List.Forall₂ (Attribute.AlikeBut fun _ => False) as bs) :
    ClassGiven value as bs
  | extended {front front' back back' : List Attribute} {a b : Attribute}
    (hfront : List.Forall₂ (Attribute.AlikeBut fun _ => False) front front')
    (hback : List.Forall₂ (Attribute.AlikeBut fun _ => False) back back')
    (hfirst : ∀ d ∈ front, d.name ≠ "class") (ha : a.name = "class") (hb : b.name = "class")
    (hvalue : b.value = some value) : ClassGiven value (front ++ a :: back) (front' ++ b :: back')
  | added {as bs : List Attribute} {b : Attribute}
    (h : List.Forall₂ (Attribute.AlikeBut fun _ => False) as bs)
    (hnone : ∀ a ∈ as, a.name ≠ "class") (hb : b.name = "class") (hvalue : b.value = some value) :
    ClassGiven value as (bs ++ [b])

/-- Two tags are alike, but that a cell may have received classes behind its own. -/
structure StartTag.GivenClasses (more : StartTag → List String) (tag tag' : StartTag) : Prop where
  /-- They have one name. -/
  name : tag'.name = tag.name
  /-- Both or neither end with a slash. -/
  selfClosing : tag'.selfClosing = tag.selfClosing
  /-- A cell has its classes with the others, if it changes. -/
  cell : tag.name = "td" → Attribute.ClassGiven (String.intercalate " " (tag.classes ++ more tag))
    tag.attributes tag'.attributes
  /-- No other tag changes. -/
  other : tag.name ≠ "td" →
    List.Forall₂ (Attribute.AlikeBut fun _ => False) tag.attributes tag'.attributes

namespace CellClasses

/-- The class attribute of the rule as it is written. -/
def writtenClass (classes : List String) : WrittenAttribute :=
  ⟨"class".toList, some ⟨['='], some '"', (String.intercalate " " classes).toList⟩⟩

theorem key_writtenClass (classes : List String) : (writtenClass classes).key = "class" := by
  show String.ofList (Text.lower "class".toList) = "class"
  decide

theorem written_writtenClass (classes : List String) :
    (writtenClass classes).written = (classAttribute classes).toList := by
  have hfront : "class=\"".toList = "class".toList ++ ['=', '"'] := by decide
  simp only [writtenClass, WrittenAttribute.written, WrittenValue.written, classAttribute,
    String.toList_append, hfront]
  simp

theorem value_writtenClass (classes : List String) (o : Nat) :
    ((writtenClass classes).at_ o).value = some (String.intercalate " " classes) := by
  show some (String.ofList (String.intercalate " " classes).toList) = _
  rw [String.ofList_toList]

theorem fits_writtenClass {classes : List String}
    (h : '"' ∉ (String.intercalate " " classes).toList) (rest : List Char) :
    (writtenClass classes).Fits rest := by
  exact WrittenAttribute.fits_quoted (by decide) (by decide) h rest

/-- What the rule writes can stand in each cell: no class holds a quote, and the last attribute of a
cell without a class is not one that would take the class as its value. -/
structure FitsIn (signatures : List CellSignature) (source : String) : Prop where
  /-- The classes. -/
  classes : ∀ cell ∈ (Document.read source).allStartTags, cell.name = "td" →
    (edit? signatures cell).isSome →
      '"' ∉ (String.intercalate " " (cell.classes ++ missing signatures cell)).toList
  /-- The last attribute. -/
  last : ∀ cell ∈ (Document.read source).allStartTags, cell.name = "td" →
    (edit? signatures cell).isSome → cell.attribute? "class" = none →
      ∀ a ∈ cell.attributes.getLast?, ∀ span ∈ a.valueSpan, span ≠ ⟨a.span.stop, a.span.stop⟩

instance (signatures : List CellSignature) (source : String) : Decidable (FitsIn signatures source) :=
  decidable_of_iff _ ⟨fun h => ⟨h.1, h.2⟩, fun h => And.intro h.classes h.last⟩

/-- A cell that the rule edits has its classes with the missing ones, and no other class changes. -/
def Received (signatures : List CellSignature) (tag tag' : StartTag) : Prop :=
  tag'.value? "class" = if tag.name = "td" ∧ (edit? signatures tag).isSome
    then some (String.intercalate " " (tag.classes ++ missing signatures tag)) else tag.value? "class"

variable {signatures : List CellSignature} {t : WrittenTag} {o : Nat}

theorem givenClasses_self (t : WrittenTag) (o o' : Nat) :
    (t.at_ o).GivenClasses (missing signatures) (t.at_ o') :=
  ⟨rfl, rfl, fun _ => .same (TagPart.attributes_alike t.parts _ _),
    fun _ => TagPart.attributes_alike t.parts _ _⟩

theorem received_self (t : WrittenTag) (o o' : Nat)
    (h : ¬ (t.key = "td" ∧ (edit? signatures (t.at_ o)).isSome)) :
    Received signatures (t.at_ o) (t.at_ o') := by
  have hnot : ¬ ((t.at_ o).name = "td" ∧ (edit? signatures (t.at_ o)).isSome) := h
  rw [Received, if_neg hnot]
  exact t.value?_at_ _ _ _

/-- **A class is replaced** by one with more classes. -/
theorem exists_adaptsTo_replace {old : Attribute} (ht : t.Fits) (hname : t.key = "td")
    (hclass : (t.at_ o).attribute? "class" = some old)
    (hquote : '"' ∉
      (String.intercalate " " ((t.at_ o).classes ++ missing signatures (t.at_ o))).toList) :
    ∃ t', t.AdaptsTo (fun tag tag' => tag.GivenClasses (missing signatures) tag' ∧
        tag'.value? "class" =
          some (String.intercalate " " ((t.at_ o).classes ++ missing signatures (t.at_ o))))
      [Edit.replace old.span (classAttribute ((t.at_ o).classes ++ missing signatures (t.at_ o)))] o
      t' := by
  obtain ⟨front, a, back, hparts, hkey, rfl, hfirst⟩ := TagPart.exists_split_of_find? hclass
  have hfit := ht.parts
  rw [hparts, TagPart.fit_append] at hfit
  obtain ⟨-, ha, hback⟩ := hfit
  obtain ⟨c, cs, hc⟩ := List.exists_cons_of_ne_nil ha.name_ne_nil
  let a' := writtenClass ((t.at_ o).classes ++ missing signatures (t.at_ o))
  have hkey' : a'.key = "class" := key_writtenClass _
  -- The old name begins with the same letter, in some letter case.
  have hchar : isNameChar c = true := by
    have hlower : Text.lower (c :: cs) = "class".toList := by
      rw [← hc, ← hkey, WrittenAttribute.key, String.toList_ofList]
    have hhead : c.toLower = 'c' := (List.cons.inj hlower).1
    apply (Text.isNameChar_of_sameFold (a := 'c') (by decide) (by decide) ?_).1
    simp [Text.sameFold, hhead]
  have hreplaces : TagPart.Replaces c 'c' := .inr
    ⟨ha.name c (by rw [hc]; exact List.mem_cons_self), by decide, by decide, by decide⟩
  have hfits : (t.withParts (front ++ .named a' :: back)).Fits :=
    ht.replaceParts hparts hc rfl hreplaces (fun h => absurd hchar (by simp [h]))
      ⟨fits_writtenClass hquote _, hback⟩
  refine ⟨_, WrittenTag.AdaptsTo.ofParts [.named a] [.named a'] [] [.replaced a.written
    (classAttribute ((t.at_ o).classes ++ missing signatures (t.at_ o)))] [] hparts hfits ?_ ?_ rfl
    (List.pairwise_singleton _ _) ?_⟩
  · simp [EditPart.old, TagPart.written]
  · simp [EditPart.new, TagPart.written, a', written_writtenClass]
  · intro o'
    refine ⟨⟨rfl, rfl, fun _ => ?_, fun h => absurd hname h⟩, ?_⟩
    · show Attribute.ClassGiven _ (TagPart.attributes _ t.parts)
        (TagPart.attributes _ (front ++ .named a' :: back))
      rw [hparts, TagPart.attributes_append, TagPart.attributes_append]
      exact .extended (TagPart.attributes_alike _ _ _) (TagPart.attributes_alike _ _ _) hfirst hkey hkey'
        (value_writtenClass _ _)
    · exact (WrittenTag.value?_withParts hfirst hkey' o').trans (value_writtenClass _ 0)

/-- A class behind the last attribute is a class that is given. -/
theorem classGiven_behind {parts front back : List TagPart} {a : WrittenAttribute}
    {classes : List String} {p : Nat} (hparts : parts = front ++ .named a :: back)
    (hback : ∀ p, TagPart.attributes p back = [])
    (hnone : ∀ d ∈ TagPart.attributes p parts, d.name ≠ "class") (p' : Nat) :
    Attribute.ClassGiven (String.intercalate " " classes) (TagPart.attributes p parts)
      (TagPart.attributes p'
        (front ++ .named a :: ([.stray ' ', .named (writtenClass classes)] ++ back))) := by
  subst hparts
  have hold : TagPart.attributes p (front ++ .named a :: back) = TagPart.attributes p front ++
      [a.at_ (p + Text.byteLength (front.flatMap TagPart.written))] := by
    rw [TagPart.attributes_append, TagPart.attributes, hback]
  obtain ⟨q, hnew⟩ : ∃ q, TagPart.attributes p'
      (front ++ .named a :: ([.stray ' ', .named (writtenClass classes)] ++ back)) =
        TagPart.attributes p' front ++ [a.at_ (p' + Text.byteLength (front.flatMap TagPart.written))] ++
          [(writtenClass classes).at_ q] := by
    simp [TagPart.attributes_append, TagPart.attributes, hback]
  rw [hold] at hnone ⊢
  rw [hnew]
  refine .added ?_ hnone (key_writtenClass _) (value_writtenClass _ _)
  exact List.rel_append (TagPart.attributes_alike _ _ _) (.cons ⟨rfl, fun _ => rfl⟩ .nil)

/-- A tag with a class behind its last attribute is read as it is meant, if that attribute is. -/
theorem fits_insert {front back : List TagPart} {a : WrittenAttribute} {classes : List String}
    (ht : t.Fits) (hparts : t.parts = front ++ .named a :: back)
    (hback : ∀ p, TagPart.attributes p back = [])
    (hquote : '"' ∉ (String.intercalate " " classes).toList)
    (hlast : ∀ a ∈ (t.at_ o).attributes.getLast?, ∀ span ∈ a.valueSpan,
      span ≠ ⟨a.span.stop, a.span.stop⟩) :
    (t.withParts (front ++ .named a :: ([.stray ' ', .named (writtenClass classes)] ++ back))).Fits := by
  have hfit := ht.parts
  rw [hparts, TagPart.fit_append] at hfit
  obtain ⟨-, ha, hfitBack⟩ := hfit
  obtain ⟨c, cs, hc⟩ := List.exists_cons_of_ne_nil ha.name_ne_nil
  have ha' := fits_writtenClass hquote (back.flatMap TagPart.written ++ WrittenTag.closing t.selfClosing)
  -- The last attribute is read up to the blank before the class.
  have hmem : a.at_ (t.nameEnd o + Text.byteLength (front.flatMap TagPart.written)) ∈
      (t.at_ o).attributes.getLast? := by
    show _ ∈ (TagPart.attributes _ t.parts).getLast?
    rw [hparts, TagPart.attributes_append, TagPart.attributes, hback, List.getLast?_concat]
    rfl
  have hbefore : a.Fits (' ' :: 'c' :: ((writtenClass classes).written.tail ++
      (back.flatMap TagPart.written ++ WrittenTag.closing t.selfClosing))) :=
    ha.before_blank_of_valueSpan (hlast _ hmem) (by decide) (by decide)
  have hmore : ([TagPart.stray ' ', .named (writtenClass classes)] ++ back).flatMap TagPart.written ++
      WrittenTag.closing t.selfClosing = ' ' :: 'c' :: ((writtenClass classes).written.tail ++
        (back.flatMap TagPart.written ++ WrittenTag.closing t.selfClosing)) := by
    have hwritten : (writtenClass classes).written = 'c' :: (writtenClass classes).written.tail := rfl
    show ' ' :: ((writtenClass classes).written ++ back.flatMap TagPart.written ++
      WrittenTag.closing t.selfClosing) = _
    rw [hwritten, List.append_assoc]
    rfl
  rw [← hmore] at hbefore
  exact ht.replaceParts hparts hc hc (.inl rfl) id
    ⟨hbefore, rfl, fun h => absurd h (by decide), ha', hfitBack⟩

/-- It has these classes, if it had none. -/
theorem value?_insert {front back : List TagPart} {a : WrittenAttribute}
    (hparts : t.parts = front ++ .named a :: back) (hback : ∀ p, TagPart.attributes p back = [])
    (hnone : ∀ d ∈ (t.at_ o).attributes, d.name ≠ "class") (classes : List String) (o' : Nat) :
    ((t.withParts (front ++ .named a :: ([.stray ' ', .named (writtenClass classes)] ++ back))).at_
      o').value? "class" = some (String.intercalate " " classes) := by
  have hsplit : front ++ ([.named a, .stray ' ', .named (writtenClass classes)] ++ back) =
      (front ++ [.named a, .stray ' ']) ++ .named (writtenClass classes) :: back := by simp
  have hfirst : ∀ d ∈ TagPart.attributes (t.nameEnd o) (front ++ [.named a, .stray ' ']),
      d.name ≠ "class" := by
    intro d hd
    apply hnone
    show d ∈ TagPart.attributes _ t.parts
    rw [hparts, TagPart.attributes_append, TagPart.attributes, hback]
    rwa [TagPart.attributes_append] at hd
  show ((t.withParts (front ++ ([.named a, .stray ' ', .named (writtenClass classes)] ++ back))).at_
    o').value? "class" = _
  rw [hsplit]
  exact (WrittenTag.value?_withParts hfirst (key_writtenClass _) o').trans (value_writtenClass _ 0)

/-- **A class is added** behind the last attribute, if that is not one that would take it as its
value. -/
theorem exists_adaptsTo_insert (ht : t.Fits) (hname : t.key = "td")
    (hclass : (t.at_ o).attribute? "class" = none) (hattributes : (t.at_ o).attributes ≠ [])
    (hquote : '"' ∉
      (String.intercalate " " ((t.at_ o).classes ++ missing signatures (t.at_ o))).toList)
    (hlast : ∀ a ∈ (t.at_ o).attributes.getLast?, ∀ span ∈ a.valueSpan,
      span ≠ ⟨a.span.stop, a.span.stop⟩) :
    ∃ t', t.AdaptsTo (fun tag tag' => tag.GivenClasses (missing signatures) tag' ∧
        tag'.value? "class" =
          some (String.intercalate " " ((t.at_ o).classes ++ missing signatures (t.at_ o))))
      [Edit.insert (t.at_ o).attributesEnd (" " ++ classAttribute (missing signatures (t.at_ o)))] o
      t' := by
  have hclasses : (t.at_ o).classes = [] := by
    rw [StartTag.classes, StartTag.value?, hclass]
    rfl
  have hnone : ∀ d ∈ (t.at_ o).attributes, d.name ≠ "class" := by
    intro d hd
    simpa using List.find?_eq_none.1 hclass d hd
  rw [hclasses, List.nil_append] at hquote
  obtain ⟨front, a, back, hparts, hback, hend⟩ :=
    TagPart.exists_split_of_attributes_ne_nil (t.nameEnd o) hattributes
  let a' := writtenClass (missing signatures (t.at_ o))
  refine ⟨_, WrittenTag.AdaptsTo.ofParts [.named a] [.named a, .stray ' ', .named a'] a.written
    [.replaced [] (" " ++ classAttribute (missing signatures (t.at_ o)))] [] hparts
    (fits_insert ht hparts hback hquote hlast) ?_ ?_ ?_ (List.pairwise_singleton _ _) ?_⟩
  · simp [EditPart.old, TagPart.written]
  · simp [EditPart.new, TagPart.written, a', written_writtenClass]
  · show _ = [Edit.insert (TagPart.attributesEnd _ _ t.parts) _]
    rw [hend]
    rfl
  · intro o'
    rw [hclasses, List.nil_append]
    refine ⟨⟨rfl, rfl, fun _ => ?_, fun h => absurd hname h⟩, value?_insert hparts hback hnone _ o'⟩
    rw [hclasses, List.nil_append]
    show Attribute.ClassGiven _ (TagPart.attributes _ t.parts) (TagPart.attributes _
      (front ++ .named a :: ([.stray ' ', .named a'] ++ back)))
    exact classGiven_behind hparts hback hnone _

/-- **A cell takes the edit of the rule** if what the rule writes can stand there. -/
theorem exists_adaptsTo (ht : t.Fits) (hname : t.key = "td")
    (hquote : (edit? signatures (t.at_ o)).isSome → '"' ∉
      (String.intercalate " " ((t.at_ o).classes ++ missing signatures (t.at_ o))).toList)
    (hlast : (edit? signatures (t.at_ o)).isSome → (t.at_ o).attribute? "class" = none →
      ∀ a ∈ (t.at_ o).attributes.getLast?, ∀ span ∈ a.valueSpan,
        span ≠ ⟨a.span.stop, a.span.stop⟩) :
    ∃ t', t.AdaptsTo (fun tag tag' => tag.GivenClasses (missing signatures) tag' ∧
      Received signatures tag tag') (edit? signatures (t.at_ o)).toList o t' := by
  cases hedit : edit? signatures (t.at_ o) with
  | none =>
    refine ⟨t, .refl ht _ fun o' => ⟨givenClasses_self t o o', received_self t o o' ?_⟩⟩
    simp [hedit]
  | some e =>
    have hreceived {tag' : StartTag} (hvalue : tag'.value? "class" =
        some (String.intercalate " " ((t.at_ o).classes ++ missing signatures (t.at_ o)))) :
        Received signatures (t.at_ o) tag' := by
      have hedited : (t.at_ o).name = "td" ∧ (edit? signatures (t.at_ o)).isSome :=
        ⟨hname, by rw [hedit]; rfl⟩
      rw [Received, if_pos hedited, hvalue]
    rw [hedit] at hquote hlast
    replace hquote := hquote rfl
    replace hlast := hlast rfl
    unfold edit? at hedit
    split at hedit
    · exact absurd hedit (by simp)
    · next hstyled =>
      split at hedit
      · exact absurd hedit (by simp)
      · split at hedit
        · next old hclass =>
          obtain rfl := Option.some.inj hedit
          obtain ⟨t', ht'⟩ := exists_adaptsTo_replace ht hname hclass hquote
          exact ⟨t', ht'.mono fun _ h => ⟨h.1, hreceived h.2⟩⟩
        · next hclass =>
          obtain rfl := Option.some.inj hedit
          -- A cell with declarations has at least its style.
          have hattributes : (t.at_ o).attributes ≠ [] := by
            intro hnil
            apply hstyled
            rw [StartTag.declarations, StartTag.value?, StartTag.attribute?, hnil]
            rfl
          obtain ⟨t', ht'⟩ :=
            exists_adaptsTo_insert ht hname hclass hattributes hquote (hlast hclass)
          exact ⟨t', ht'.mono fun _ h => ⟨h.1, hreceived h.2⟩⟩

/-- A source can take the edits of the rule where it fits. -/
theorem adaptable {source : String} (hfits : FitsIn signatures source) :
    MarkupPiece.Adaptable
      (fun tag tag' => tag.GivenClasses (missing signatures) tag' ∧ Received signatures tag tag')
      (fun _ raw raw' => raw' = raw) (StartTag.editsNamed "td" (edit? signatures)) (fun _ _ => [])
      source.toList := by
  refine MarkupPiece.adaptable_editsNamed (fun t o o' hname =>
    ⟨givenClasses_self t o o', received_self t o o' fun h => hname h.1⟩) ?_
  intro before t after _ ht hname hcell
  exact exists_adaptsTo ht hname (hfits.classes _ hcell hname) (hfits.last _ hcell hname)

/-- The edits of the rule, token by token. -/
theorem edits_eq (doc : Document) : (rule signatures).edits doc =
    doc.tokens.flatMap (Token.editsBy (StartTag.editsNamed "td" (edit? signatures)) fun _ _ => []) :=
  Document.filterMap_startTags doc "td" (edit? signatures)

/-- **The rule changes nothing but classes of cells** where it fits. -/
theorem tokenize_applyTo {source : String} (hcompletes : Token.completes source = true)
    (hfits : FitsIn signatures source) :
    List.Forall₂ (Token.Alike (StartTag.GivenClasses (missing signatures))) (Token.tokenize source)
      (Token.tokenize ((rule signatures).applyTo source)) :=
  (MarkupPiece.tokenize_applyTo_alike hcompletes (adaptable hfits) (List.Perm.of_eq (edits_eq _))).imp
    fun _ _ h => h.mono fun _ _ h => h.1

end CellClasses

/-! ## All three rules -/

/-- **The rules that work in place keep the tokens** of a document in which no tag breaks off, under any
settings: each that fits leaves them alike one after the other, but for the classes of cells, the styles
of cells and the styles of tags. -/
theorem in_place_rules_keep_tokens (settings : OutlookSettings) (source : String)
    (hcompletes : Token.completes source = true)
    (hclasses : CellClasses.FitsIn settings.cellClasses source)
    (hspacers : ZeroFontSpacer.FitsIn source)
    (hfonts : FontFallback.FitsIn settings.webFonts settings.fallbackFonts source) :
    List.Forall₂ (Token.Alike (StartTag.GivenClasses (CellClasses.missing settings.cellClasses)))
        (Token.tokenize source)
        (Token.tokenize ((CellClasses.rule settings.cellClasses).applyTo source)) ∧
      List.Forall₂ (Token.Alike fun tag => tag.AlikeBut (ZeroFontSpacer.mayChange tag))
        (Token.tokenize source) (Token.tokenize (ZeroFontSpacer.rule.applyTo source)) ∧
      List.Forall₂ (Token.Alike (StartTag.AlikeBut FontFallback.mayChange)) (Token.tokenize source)
        (Token.tokenize
          ((FontFallback.rule settings.webFonts settings.fallbackFonts).applyTo source)) :=
  ⟨CellClasses.tokenize_applyTo hcompletes hclasses,
    ZeroFontSpacer.tokenize_applyTo hcompletes hspacers,
    FontFallback.tokenize_applyTo hcompletes hfonts⟩

/-- A page on which all three rules have something to do, in quotes of both kinds and in a style
sheet. -/
theorem in_place_rules_keep_tokens_of_page :
    let source := "<td Class='a' style=\"font-size:0;line-height:1;font-family:M\"><style>font-family:M</style>"
    let settings : OutlookSettings :=
      { webFonts := ["M"], fallbackFonts := "A, b", cellClasses := [⟨"c", [("font-size", "*")]⟩] }
    let classes := CellClasses.rule settings.cellClasses
    let spacers := ZeroFontSpacer.rule
    let fonts := FontFallback.rule settings.webFonts settings.fallbackFonts
    (Token.completes source = true ∧ CellClasses.FitsIn settings.cellClasses source ∧
      ZeroFontSpacer.FitsIn source ∧
        FontFallback.FitsIn settings.webFonts settings.fallbackFonts source) ∧
      ((classes.editsOf source).length = 1 ∧ (spacers.editsOf source).length = 1 ∧
        (fonts.editsOf source).length = 2) ∧
      List.Forall₂ (Token.Alike (StartTag.GivenClasses (CellClasses.missing settings.cellClasses)))
        (Token.tokenize source) (Token.tokenize (classes.applyTo source)) ∧
      List.Forall₂ (Token.Alike fun tag => tag.AlikeBut (ZeroFontSpacer.mayChange tag))
        (Token.tokenize source) (Token.tokenize (spacers.applyTo source)) ∧
      List.Forall₂ (Token.Alike (StartTag.AlikeBut FontFallback.mayChange)) (Token.tokenize source)
        (Token.tokenize (fonts.applyTo source)) := by
  intro source settings classes spacers fonts
  -- One computation, so that the page is read once.
  have hpage : (Token.completes source = true ∧ CellClasses.FitsIn settings.cellClasses source ∧
      ZeroFontSpacer.FitsIn source ∧
        FontFallback.FitsIn settings.webFonts settings.fallbackFonts source) ∧
      (classes.editsOf source).length = 1 ∧ (spacers.editsOf source).length = 1 ∧
        (fonts.editsOf source).length = 2 := by decide +kernel
  obtain ⟨⟨hcompletes, hclasses, hspacers, hfonts⟩, hlengths⟩ := hpage
  exact ⟨⟨hcompletes, hclasses, hspacers, hfonts⟩, hlengths,
    in_place_rules_keep_tokens settings source hcompletes hclasses hspacers hfonts⟩

/-- The numbers of attributes of the start tags among tokens. -/
def Token.attributeCounts (tokens : List Token) : List Nat :=
  (tokens.filterMap Token.startTag?).map fun tag => tag.attributes.length

theorem Token.attributeCounts_alike {alike : StartTag → StartTag → Prop} {count : Nat → Nat → Prop}
    (hcount : ∀ tag tag', alike tag tag' → count tag.attributes.length tag'.attributes.length)
    {tokens tokens' : List Token} (h : List.Forall₂ (Token.Alike alike) tokens tokens') :
    List.Forall₂ count (attributeCounts tokens) (attributeCounts tokens') := by
  rw [attributeCounts, attributeCounts, List.forall₂_map_left_iff, List.forall₂_map_right_iff]
  exact (startTags_alike h).imp hcount

/-- A class adds at most one attribute. -/
theorem Attribute.ClassGiven.length_le {value : String} {as bs : List Attribute}
    (h : ClassGiven value as bs) : bs.length ≤ as.length + 1 := by
  cases h with
  | same h => exact h.length_eq ▸ Nat.le_succ _
  | extended hfront hback =>
    have := hfront.length_eq
    have := hback.length_eq
    simp only [List.length_append, List.length_cons]
    omega
  | added h => simp [h.length_eq]

/-- **What does not fit breaks the tag,** also under the stock settings: without quotes a list of fonts
ends at its first blank and an important zero before its mark, and a quote in a class ends the new
value. -/
theorem unfit_values_break_tags :
    let settings : OutlookSettings := {}
    let fontTag := "<p style=font-family:Montserrat>"
    let fonts := (FontFallback.rule settings.webFonts settings.fallbackFonts).applyTo fontTag
    let spacerTag := "<td style=font-size:0;line-height:1!important>"
    let spacers := ZeroFontSpacer.rule.applyTo spacerTag
    let classTag := "<td class='a\"b' style=background-color:#E4E7DB>"
    let classes := (CellClasses.rule settings.cellClasses).applyTo classTag
    (fonts = "<p style=font-family:Arial, sans-serif>" ∧ ¬ List.Forall₂ (Token.Alike
      (StartTag.AlikeBut FontFallback.mayChange)) (Token.tokenize fontTag) (Token.tokenize fonts)) ∧
    (spacers = "<td style=font-size:0;line-height:0 !important>" ∧ ¬ List.Forall₂ (Token.Alike
      fun tag => tag.AlikeBut (ZeroFontSpacer.mayChange tag)) (Token.tokenize spacerTag)
        (Token.tokenize spacers)) ∧
    (classes = "<td class=\"a\"b article-inner\" style=background-color:#E4E7DB>" ∧ ¬ List.Forall₂
      (Token.Alike (StartTag.GivenClasses (CellClasses.missing settings.cellClasses)))
        (Token.tokenize classTag) (Token.tokenize classes)) := by
  intro settings fontTag fonts spacerTag spacers classTag classes
  -- In each case the tag has attributes that it must not have.
  have hfonts : fonts = "<p style=font-family:Arial, sans-serif>" ∧
      Token.attributeCounts (Token.tokenize fontTag) = [1] ∧
        Token.attributeCounts (Token.tokenize fonts) = [2] := by decide +kernel
  have hspacers : spacers = "<td style=font-size:0;line-height:0 !important>" ∧
      Token.attributeCounts (Token.tokenize spacerTag) = [1] ∧
        Token.attributeCounts (Token.tokenize spacers) = [2] := by decide +kernel
  have hclasses : classes = "<td class=\"a\"b article-inner\" style=background-color:#E4E7DB>" ∧
      Token.attributeCounts (Token.tokenize classTag) = [2] ∧
        Token.attributeCounts (Token.tokenize classes) = [4] := by decide +kernel
  refine ⟨⟨hfonts.1, fun h => ?_⟩, ⟨hspacers.1, fun h => ?_⟩, hclasses.1, fun h => ?_⟩
  · have hcounts := Token.attributeCounts_alike (fun _ _ h => h.attributes.length_eq) h
    rw [hfonts.2.1, hfonts.2.2] at hcounts
    exact absurd hcounts (by simp)
  · have hcounts := Token.attributeCounts_alike (fun _ _ h => h.attributes.length_eq) h
    rw [hspacers.2.1, hspacers.2.2] at hcounts
    exact absurd hcounts (by simp)
  · have hcounts := @Token.attributeCounts_alike _ (fun m n => n ≤ m + 1) (fun tag tag' h => by
      by_cases hname : tag.name = "td"
      · exact (h.cell hname).length_le
      · exact (h.other hname).length_eq ▸ Nat.le_succ _) _ _ h
    rw [hclasses.2.1, hclasses.2.2] at hcounts
    exact absurd hcounts (by simp)

end MailTemplate
