import MailTemplate.Proofs.FontLists
import MailTemplate.Proofs.InPlaceRules
import MailTemplate.Proofs.SheetRewrites

/-!
# Web fonts that give way

The rule `font-fallback` replaces the font lists that name a web font, and what it writes names none and can
stand anywhere in a style.  So no font list of the new document names a web font, in style attributes and in
style sheets.  A style attribute can also be read with quotes in the places of the references to them: then no
font list names a web font if the two readings agree on the font lists that do.  Where they do not agree, the
rule misses web fonts, since the semicolon of a reference ends the font list for it.

## Main definitions

* `FontFallback.Suits` — what the rule writes names no web font and can stand anywhere.
* `FontFallback.Declares` — a style has a font list that names a web font.
* `FontFallback.ReadsAlike` — a style names web fonts in the same places with references and with quotes.
* `FontFallback.StyleSettles`, `FontFallback.SheetSettles` — what becomes of a style and of a style sheet.

## Main results

* `FontFallback.namesFont_replacement` — what the rule writes names no web font.
* `FontFallback.settles_of_revalues`, `FontFallback.settles_sheetText` — a style and a style sheet.
* `FontFallback.web_fonts_give_way` — a document.
* `FontFallback.referenced_web_font_stays` — a web font that the rule misses.
-/

namespace MailTemplate

namespace FontFallback

/-! ## What the rule writes -/

/-- What the rule writes names no web font, and it can stand in any style and in any style sheet: it closes
what it opens, it holds nothing that ends a font list, and it does not break off in a reference to a quote. -/
structure Suits (webFonts : List String) (fallback : String) : Prop where
  /-- The list names no web font. -/
  unnamed : Css.namesFont fallback.toList webFonts = false
  /-- A list with a mark names no web font with another mark behind it. -/
  remarked : (Css.splitImportant fallback.toList).2 = true →
    Css.namesFont (fallback ++ " !important").toList webFonts = false
  /-- It closes what it opens. -/
  closed : Css.IsClosed fallback.toList
  /-- It does not end before its last character. -/
  unended : ∀ c ∈ fallback.toList, Css.endsFontList c = false
  /-- It does not break off in a reference. -/
  unbroken : ¬ Css.BreaksReference fallback.toList
  /-- The names of the web fonts have no quotes. -/
  unquoted : ∀ font ∈ webFonts, ∀ c ∈ font.toList, Css.isQuote c = false

instance (webFonts : List String) (fallback : String) : Decidable (Suits webFonts fallback) :=
  decidable_of_iff ((Css.namesFont fallback.toList webFonts = false ∧
      ((Css.splitImportant fallback.toList).2 = true →
        Css.namesFont (fallback ++ " !important").toList webFonts = false)) ∧
      (Css.IsClosed fallback.toList ∧ fallback.toList.all (!Css.endsFontList ·) = true ∧
        ¬ Css.BreaksReference fallback.toList) ∧
          webFonts.all (fun font => font.toList.all (!Css.isQuote ·)) = true) <| by
    simp only [List.all_eq_true, Bool.not_eq_true']
    exact ⟨fun h => ⟨h.1.1, h.1.2, h.2.1.1, h.2.1.2.1, h.2.1.2.2, h.2.2⟩,
      fun h => ⟨⟨h.unnamed, h.remarked⟩, ⟨h.closed, h.unended, h.unbroken⟩, h.unquoted⟩⟩

section Replacement

variable {webFonts : List String} {fallback : String}

theorem toList_marked (fallback : String) :
    (fallback ++ " !important").toList = fallback.toList ++ ([' '] ++ (Css.importantMark ++ [])) := by
  rw [String.toList_append]
  rfl

theorem replacement_cases (fallback : String) (list : List Char) :
    replacement fallback list = fallback ∨ replacement fallback list = fallback ++ " !important" := by
  unfold replacement
  split
  · exact .inr rfl
  · exact .inl rfl

/-- **What the rule writes names no web font.** -/
theorem namesFont_replacement (h : Suits webFonts fallback) (list : List Char) :
    Css.namesFont (replacement fallback list).toList webFonts = false := by
  rcases replacement_cases fallback list with heq | heq
  · rw [heq]
    exact h.unnamed
  · rw [heq]
    cases hmarked : (Css.splitImportant fallback.toList).2 with
    | true => exact h.remarked hmarked
    | false =>
      -- The blank and the mark do not matter for the names.
      have hblank : ∀ c ∈ [' '], Text.isBlank c = true := List.all_eq_true.1 (by decide)
      have hmark : Text.lower Css.importantMark = Css.importantMark := by decide
      have hnames := Css.listsFont_append_blanks (List.forall_mem_nil _) hblank fallback.toList
        webFonts
      rw [List.nil_append] at hnames
      rw [toList_marked, ← List.append_assoc,
        Css.namesFont_append_mark hmark (List.forall_mem_nil _), hnames,
        ← Css.namesFont_of_unmarked hmarked]
      exact h.unnamed

theorem isClosed_replacement (h : Suits webFonts fallback) (list : List Char) :
    Css.IsClosed (replacement fallback list).toList := by
  have hmark : Css.IsClosed " !important".toList := by decide
  rcases replacement_cases fallback list with heq | heq
  · rw [heq]
    exact h.closed
  · rw [heq, String.toList_append]
    exact h.closed.append hmark

theorem endsFontList_replacement (h : Suits webFonts fallback) (list : List Char) :
    ∀ c ∈ (replacement fallback list).toList, Css.endsFontList c = false := by
  have hmark : ∀ c ∈ " !important".toList, Css.endsFontList c = false := fun c hc => by
    have hall : " !important".toList.all (!Css.endsFontList ·) = true := by decide
    simpa using List.all_eq_true.1 hall c hc
  intro c hc
  rcases replacement_cases fallback list with heq | heq
  · exact h.unended c (heq ▸ hc)
  · rw [heq, String.toList_append, List.mem_append] at hc
    exact hc.elim (h.unended c) (hmark c)

theorem not_breaksReference_replacement (h : Suits webFonts fallback) (list : List Char) :
    ¬ Css.BreaksReference (replacement fallback list).toList := by
  rcases replacement_cases fallback list with heq | heq
  · rw [heq]
    exact h.unbroken
  · rintro ⟨p, hp, hsuffix⟩
    rw [heq, String.toList_append] at hsuffix
    -- A reference that breaks off is shorter than the mark and none of its ends.
    have hmark : ∀ p ∈ Css.references, p.2.dropLast.length ≤ " !important".toList.length ∧
        ¬ p.2.dropLast <:+ " !important".toList := by decide
    obtain ⟨hlength, hnot⟩ := hmark p hp
    exact hnot (List.suffix_of_suffix_length_le hsuffix (List.suffix_append _ _) hlength)

end Replacement

/-! ## Styles -/

/-- A piece of a style is a font list that names a web font. -/
def Names (webFonts : List String) (piece : List Char) : Prop :=
  ∃ d ∈ Css.Declaration.ofPiece? 0 piece, d.property = "font-family" ∧
    Css.namesFont d.value.toList webFonts = true

/-- A style has a font list that names a web font. -/
def Declares (webFonts : List String) (style : List Char) : Prop :=
  ∃ d ∈ Css.declarations (String.ofList style), d.property = "font-family" ∧
    Css.namesFont d.value.toList webFonts = true

instance (webFonts : List String) (style : List Char) : Decidable (Declares webFonts style) :=
  inferInstanceAs (Decidable (∃ d ∈ Css.declarations (String.ofList style), d.property = "font-family" ∧
    Css.namesFont d.value.toList webFonts = true))

/-- A style names web fonts in the same places with references and with quotes: its pieces and those of the
decoded style are the same but for groups in which no web font is named either way. -/
def ReadsAlike (webFonts : List String) (style : List Char) : Prop :=
  ∃ groups, Css.AreGroups style groups ∧ ∀ group ∈ groups, (∃ piece, group = [piece]) ∨
    (∀ piece ∈ group, ¬ Names webFonts piece) ∧
      ¬ Names webFonts (Css.decoded (Text.joinWith [';'] group))

/-- What becomes of a style: the declarations stay one after the other, and the pieces that name no web font
stay as they are written; no font list names one, and none does with quotes in the places of references if the
style was read alike. -/
structure StyleSettles (webFonts : List String) (fallback : String) (style style' : List Char) : Prop where
  /-- Each declaration has its property, and its value or the list that takes the place of it. -/
  declared : List.Forall₂ (Css.Declaration.Becomes (new? webFonts fallback))
    (Css.declarations (String.ofList style)) (Css.declarations (String.ofList style'))
  /-- Pieces that name no web font stay as they are written. -/
  kept : List.Forall₂ (fun piece piece' => ¬ Names webFonts piece → piece' = piece) (Css.pieces style)
    (Css.pieces style')
  /-- No font list names a web font. -/
  unnamed : ¬ Declares webFonts style'
  /-- None does when it is decoded. -/
  decoded : ReadsAlike webFonts style → ¬ Declares webFonts (Css.decoded style')

section Styles

variable {webFonts : List String} {fallback : String} {piece piece' style : List Char}

theorem exists_piece_of_mem_declarationsFrom {offset : Nat} {ps : List (List Char)} {d : Css.Declaration}
    (h : d ∈ Css.declarationsFrom offset ps) :
    ∃ piece ∈ ps, ∃ offset', Css.Declaration.ofPiece? offset' piece = some d := by
  induction ps generalizing offset with
  | nil => exact absurd h List.not_mem_nil
  | cons piece ps ih =>
    rcases List.mem_append.1 h with h | h
    · exact ⟨piece, List.mem_cons_self, offset, Option.mem_toList.1 h⟩
    · obtain ⟨later, hlater, hd⟩ := ih h
      exact ⟨later, List.mem_cons_of_mem _ hlater, hd⟩

/-- A style with such a font list has a piece that is one. -/
theorem exists_names_of_declares (h : Declares webFonts style) :
    ∃ piece ∈ Css.pieces style, Names webFonts piece := by
  obtain ⟨d, hd, hproperty, hnamed⟩ := h
  rw [Css.declarations, String.toList_ofList] at hd
  obtain ⟨piece, hpiece, offset, hd⟩ := exists_piece_of_mem_declarationsFrom hd
  obtain ⟨span, hspan⟩ := Css.Declaration.exists_ofPiece?_at hd 0
  exact ⟨piece, hpiece, _, hspan, hproperty, hnamed⟩

/-- A style that is decoded piece by piece is read alike. -/
theorem readsAlike_of_pieces (webFonts : List String)
    (h : Css.pieces (Css.decoded style) = (Css.pieces style).map Css.decoded) : ReadsAlike webFonts style := by
  refine ⟨(Css.pieces style).map fun piece => [piece], ⟨?_, ?_, ?_⟩, fun group hgroup => ?_⟩
  · intro group hgroup
    obtain ⟨piece, -, rfl⟩ := List.mem_map.1 hgroup
    exact List.cons_ne_nil _ _
  · rw [← List.flatMap_def, List.flatMap_singleton']
  · rw [h, List.map_map]
    rfl
  · obtain ⟨piece, -, rfl⟩ := List.mem_map.1 hgroup
    exact .inl ⟨piece, rfl⟩

theorem isPlain_property : ∀ c ∈ "font-family".toList, Css.isPlain c = true :=
  List.all_eq_true.1 (by decide)

theorem areClosed_new? (h : Suits webFonts fallback) : Css.AreClosed (new? webFonts fallback) := by
  intro property value new hnew
  obtain ⟨rfl, -, rfl⟩ := of_new?_eq_some hnew
  exact ⟨isClosed_replacement h _, isPlain_property⟩

/-- A piece with a list that the rule writes can stand anywhere. -/
theorem isInert_of_propertyOf (h : Suits webFonts fallback) {head lead trail : List Char} (list : List Char)
    (hhead : Css.propertyOf head = "font-family".toList) (hlead : ∀ c ∈ lead, Text.isBlank c = true)
    (htrail : ∀ c ∈ trail, Text.isBlank c = true) :
    Css.IsInert (head ++ ':' :: (lead ++ ((replacement fallback list).toList ++ trail))) := by
  have hletters : ∀ c ∈ Css.propertyOf head, Css.isPlain c = true := hhead ▸ isPlain_property
  -- Before the list there are the property, the colon and blanks, so no reference begins there.
  have hfree : '&' ∉ head ++ [':'] := by
    intro hmem
    rcases List.mem_append.1 hmem with hmem | hmem
    · rcases Css.isBlank_or_mem_propertyOf hmem with hblank | hletter
      · exact absurd hblank (by decide)
      · rw [hhead] at hletter
        exact absurd hletter (by decide)
    · exact absurd (List.mem_singleton.1 hmem) (by decide)
  have hcut : ';' ∉ (replacement fallback list).toList := fun hmem =>
    absurd (endsFontList_replacement h list _ hmem) (by decide)
  refine ⟨Css.isClosed_of_propertyOf hletters hlead htrail (isClosed_replacement h list), ?_, fun hbreaks => ?_⟩
  · rw [← List.singleton_append, ← List.append_assoc, Css.decoded_append_of_not_mem hfree,
      Css.decoded_append_blanks hlead htrail, Css.decoded_of_not_mem_cut hcut]
  · have hlead' : '&' ∉ head ++ [':'] ++ lead := fun hmem =>
      (List.mem_append.1 hmem).elim hfree (Css.not_mem_of_isBlank hlead)
    have htext : head ++ ':' :: (lead ++ ((replacement fallback list).toList ++ trail)) =
        (head ++ [':'] ++ lead) ++ ((replacement fallback list).toList ++ trail) := by
      simp only [List.append_assoc, List.cons_append, List.nil_append]
    rw [htext] at hbreaks
    exact not_breaksReference_replacement h list (hbreaks.of_append hlead' htrail)

/-- **What becomes of a piece:** it names no web font and stays, or it names one and gives way to a piece that
names none and can stand anywhere. -/
theorem revalues_cases (h : Suits webFonts fallback)
    (hpiece : Css.Revalues (new? webFonts fallback) piece piece') :
    ¬ Names webFonts piece ∧ piece' = piece ∨
      Names webFonts piece ∧ Css.IsInert piece' ∧ ¬ Names webFonts piece' := by
  cases hpiece with
  | kept hkept =>
    refine .inl ⟨?_, rfl⟩
    rintro ⟨d, hd, hproperty, hnamed⟩
    have hnone := hkept d hd
    rw [new?, hproperty, hnamed] at hnone
    exact absurd hnone (by simp)
  | @changed head lead value trail new hcolon hproperty hlead htrail hnew =>
    obtain ⟨hname, hnamed, rfl⟩ := of_new?_eq_some hnew
    obtain ⟨span, hold⟩ := Css.Declaration.exists_ofPiece?_append 0 value hcolon hproperty hlead htrail
    obtain ⟨span', hnew⟩ := Css.Declaration.exists_ofPiece?_append 0
      (replacement fallback (String.ofList (Text.trim value)).toList).toList hcolon hproperty hlead htrail
    have hhead : Css.propertyOf head = "font-family".toList := by rw [← hname, String.toList_ofList]
    refine .inr ⟨⟨_, hold, hname, hnamed⟩, isInert_of_propertyOf h _ hhead hlead htrail, ?_⟩
    rintro ⟨d, hd, -, hd'⟩
    obtain rfl := Option.some.inj (hnew.symm.trans hd)
    rw [String.toList_ofList, Css.namesFont_trim, namesFont_replacement h] at hd'
    exact absurd hd' (by simp)

/-- A piece that is a font list with a web font when it is decoded is one as it stands. -/
theorem names_of_decoded (h : Suits webFonts fallback) (hpiece : Names webFonts (Css.decoded piece)) :
    Names webFonts piece := by
  obtain ⟨d, hd, hproperty, hnamed⟩ := hpiece
  obtain ⟨value, span, hold, hvalue⟩ := Css.exists_ofPiece?_of_decoded hd (hproperty ▸ isPlain_property)
  rw [hvalue, String.toList_ofList, Css.namesFont_trim] at hnamed
  refine ⟨_, hold, hproperty, ?_⟩
  rw [String.toList_ofList]
  exact Css.namesFont_of_decoded h.unquoted hnamed

/-- What becomes of a group: a single piece that names no web font afterwards, or a group that stays. -/
theorem group_cases (h : Suits webFonts fallback) {group group' : List (List Char)}
    (hgroup : (∃ piece, group = [piece]) ∨ (∀ piece ∈ group, ¬ Names webFonts piece) ∧
      ¬ Names webFonts (Css.decoded (Text.joinWith [';'] group)))
    (hpieces : List.Forall₂ (Css.Revalues (new? webFonts fallback)) group group') :
    (Text.joinWith [';'] group' = Text.joinWith [';'] group ∨ Css.IsInert (Text.joinWith [';'] group')) ∧
      ¬ Names webFonts (Css.decoded (Text.joinWith [';'] group')) := by
  rcases hgroup with ⟨piece, rfl⟩ | ⟨hnone, hdecoded⟩
  · obtain ⟨piece', hpiece, rfl⟩ : ∃ piece', Css.Revalues (new? webFonts fallback) piece piece' ∧
        group' = [piece'] := by
      obtain ⟨piece', more, hfirst, hmore, rfl⟩ := List.forall₂_cons_left_iff.1 hpieces
      rw [List.forall₂_nil_left_iff.1 hmore]
      exact ⟨piece', hfirst, rfl⟩
    rcases revalues_cases h hpiece with ⟨hnone, rfl⟩ | ⟨-, hinert, hnone⟩
    · exact ⟨.inl rfl, fun hnamed => hnone (names_of_decoded h hnamed)⟩
    · exact ⟨.inr hinert, fun hnamed => hnone (names_of_decoded h hnamed)⟩
  · -- A group in which nothing is named has nothing that gives way.
    have hsame : group = group' := by
      rw [← List.forall₂_eq_eq_eq]
      exact ((List.forall₂_and_left _ _).2 ⟨hnone, hpieces⟩).imp fun piece piece' hpiece =>
        (revalues_cases h hpiece.2).elim (fun hkept => hkept.2.symm) fun hchanged => absurd hchanged.1 hpiece.1
    rw [← hsame]
    exact ⟨.inl rfl, hdecoded⟩

/-- **What becomes of a style.** -/
theorem settles_of_revalues (h : Suits webFonts fallback) {ps' : List (List Char)}
    (hps : List.Forall₂ (Css.Revalues (new? webFonts fallback)) (Css.pieces style) ps') :
    StyleSettles webFonts fallback style (Text.joinWith [';'] ps') := by
  have hpieces : Css.pieces (Text.joinWith [';'] ps') = ps' := Css.pieces_of_revalues (areClosed_new? h) hps
  refine ⟨?_, ?_, ?_, ?_⟩
  · apply Css.declarations_of_revalues (areClosed_new? h)
    rw [String.toList_ofList]
    exact hps
  · rw [hpieces]
    exact hps.imp fun piece piece' hpiece hnone =>
      (revalues_cases h hpiece).elim (fun hkept => hkept.2) fun hchanged => absurd hchanged.1 hnone
  · -- The font lists of the new style are its pieces, and each of them has come from an old one.
    intro hdeclares
    obtain ⟨piece', hmem, hnamed⟩ := exists_names_of_declares hdeclares
    rw [hpieces] at hmem
    obtain ⟨piece, -, hpiece⟩ := exists_left_of_mem hps hmem
    rcases revalues_cases h hpiece with ⟨hnone, rfl⟩ | ⟨-, -, hnone⟩
    · exact hnone hnamed
    · exact hnone hnamed
  · -- The same with groups for pieces: the new groups are what the decoded style is cut into.
    rintro ⟨groups, hgroups, halike⟩ hdeclares
    rw [hgroups.pieces] at hps
    obtain ⟨groups', rfl, hrel⟩ := exists_forall₂_flatten hps
    have hcases := ((List.forall₂_and_left _ _).2 ⟨fun group hgroup => And.intro (hgroups.nonempty group hgroup)
      (halike group hgroup), hrel⟩).imp fun group group' hgroup =>
        And.intro hgroup (group_cases h hgroup.1.2 hgroup.2)
    have hnonempty : ∀ group' ∈ groups', group' ≠ [] := by
      rintro group' hmem rfl
      obtain ⟨group, -, hgroup, -⟩ := exists_left_of_mem hcases hmem
      exact hgroup.1.1 (List.forall₂_nil_right_iff.1 hgroup.2)
    have hgroups' := hgroups.of_eq_or_isInert hnonempty hpieces (hcases.imp fun _ _ hgroup => hgroup.2.1)
    obtain ⟨piece', hmem, hnamed⟩ := exists_names_of_declares hdeclares
    rw [hgroups'.decoded] at hmem
    obtain ⟨group', hgroup', rfl⟩ := List.mem_map.1 hmem
    obtain ⟨group, -, -, -, hnone⟩ := exists_left_of_mem hcases hgroup'
    exact hnone hnamed

end Styles

/-! ## Style sheets -/

/-- What becomes of a style sheet: the parts that name no web font stay, and no font list names one. -/
structure SheetSettles (webFonts : List String) (sheet sheet' : List Char) : Prop where
  /-- Parts that name no web font stay as they are written. -/
  kept : List.Forall₂ (fun part part' => isNamed webFonts part = false → part' = part) (Css.sheetParts sheet)
    (Css.sheetParts sheet')
  /-- No font list names a web font. -/
  unnamed : ∀ part ∈ Css.sheetParts sheet', isNamed webFonts part = false

/-- The part that a part of a style sheet gives way to. -/
def newPart (webFonts : List String) (fallback : String) : Css.SheetPart → Css.SheetPart
  | .other c => .other c
  | .fontFamily written list =>
    if Css.namesFont (Text.trimEnd list) webFonts then
      let new := (replacement fallback (Text.trimEnd list)).toList
      .fontFamily ("font-family: ".toList ++ new) (Text.trimStart new)
    else .fontFamily written list

section Sheets

variable {webFonts : List String} {fallback : String} {written list : List Char} {part : Css.SheetPart}
  {parts : List Css.SheetPart}

theorem newPart_of_not_isNamed (h : isNamed webFonts part = false) : newPart webFonts fallback part = part := by
  cases part with
  | other c => rfl
  | fontFamily written list => exact if_neg (Bool.eq_false_iff.1 h)

theorem newPart_of_isNamed (h : Css.namesFont (Text.trimEnd list) webFonts = true) :
    newPart webFonts fallback (.fontFamily written list) =
      .fontFamily ("font-family: ".toList ++ (replacement fallback (Text.trimEnd list)).toList)
        (Text.trimStart (replacement fallback (Text.trimEnd list)).toList) :=
  if_pos h

theorem written_newPart (webFonts : List String) (fallback : String) (part : Css.SheetPart) :
    (newPart webFonts fallback part).written = partText webFonts fallback part := by
  cases part with
  | other c => rfl
  | fontFamily written list =>
    rw [newPart, partText]
    split
    · rfl
    · rfl

theorem isNamed_newPart (h : Suits webFonts fallback) (part : Css.SheetPart) :
    isNamed webFonts (newPart webFonts fallback part) = false := by
  cases hpart : isNamed webFonts part with
  | false => rw [newPart_of_not_isNamed hpart, hpart]
  | true =>
    cases part with
    | other c => exact absurd hpart (by simp [isNamed])
    | fontFamily written list =>
      -- Blanks at either end of the new list do not matter for its names.
      rw [newPart_of_isNamed hpart, isNamed, ← Text.trim, Css.namesFont_trim, namesFont_replacement h]

/-- **A list that the rule writes** is found as it is written. -/
theorem isFontFamily_replacement (h : Suits webFonts fallback) (list : List Char) :
    Css.IsFontFamily ("font-family: ".toList ++ (replacement fallback list).toList)
      (Text.trimStart (replacement fallback list).toList) := by
  refine ⟨Css.fontFamilyWord, [], ' ' :: (replacement fallback list).toList.takeWhile Text.isBlank, ?_, by decide,
    fun c hc => absurd hc List.not_mem_nil, ?_, fun c hc => ?_, fun c hc => ?_⟩
  · rw [Text.trimStart, List.cons_append, List.takeWhile_append_dropWhile]
    rfl
  · intro c hc
    rcases List.mem_cons.1 hc with rfl | hc
    · decide
    · exact List.mem_takeWhile_imp hc
  · have hhead := List.head?_dropWhile_not Text.isBlank (replacement fallback list).toList
    rw [Text.trimStart, Option.mem_def] at hc
    rw [hc] at hhead
    exact hhead
  · exact endsFontList_replacement h list c (List.dropWhile_subset _ hc)

theorem alike_newPart (h : Suits webFonts fallback) (hparts : Css.AreSheetParts parts) :
    List.Forall₂ Css.SheetPart.Alike parts (parts.map (newPart webFonts fallback)) := by
  induction hparts with
  | nil => exact .nil
  | other _ _ ih => exact .cons (.other _) ih
  | @fontFamily written list ps hlist _ _ ih =>
    refine .cons ?_ ih
    cases hnamed : isNamed webFonts (.fontFamily written list) with
    | false =>
      rw [newPart_of_not_isNamed hnamed]
      exact .fontFamily hlist hlist
    | true =>
      rw [newPart_of_isNamed hnamed]
      exact .fontFamily hlist (isFontFamily_replacement h _)

/-- **The new style sheet is cut where the old one was.** -/
theorem sheetParts_sheetText (h : Suits webFonts fallback) (sheet : List Char) :
    Css.sheetParts (sheetText webFonts fallback sheet) =
      (Css.sheetParts sheet).map (newPart webFonts fallback) := by
  -- Each new part is found where the old one was, so the new text is cut into the new parts.
  have hparts := Css.areSheetParts_sheetParts sheet
  have hnew := (hparts.of_alike (alike_newPart h hparts)).sheetParts_eq
  have htext : ((Css.sheetParts sheet).map (newPart webFonts fallback)).flatMap Css.SheetPart.written =
      sheetText webFonts fallback sheet := by
    rw [List.flatMap_map, sheetText]
    exact List.flatMap_congr fun part _ => written_newPart webFonts fallback part
  rw [htext] at hnew
  exact hnew

/-- **What becomes of a style sheet.** -/
theorem settles_sheetText (h : Suits webFonts fallback) (sheet : List Char) :
    SheetSettles webFonts sheet (sheetText webFonts fallback sheet) := by
  refine ⟨?_, ?_⟩
  · rw [sheetParts_sheetText h, List.forall₂_map_right_iff, List.forall₂_same]
    exact fun part _ hnot => newPart_of_not_isNamed hnot
  · rw [sheetParts_sheetText h]
    intro part hpart
    obtain ⟨old, -, rfl⟩ := List.mem_map.1 hpart
    exact isNamed_newPart h old

end Sheets

/-! ## Documents -/

/-- **Web fonts give way.**  In a document that ends in no start tag, and in which every new value fits where it
is written, the start tags and the style sheets stay one after the other, and each style attribute and each
style sheet settles. -/
theorem web_fonts_give_way {webFonts : List String} {fallback source : String}
    (hcompletes : Token.completes source = true) (hfits : FitsIn webFonts fallback source)
    (hsuits : Suits webFonts fallback) :
    let doc := Document.read source
    let doc' := Document.read ((rule webFonts fallback).applyTo source)
    List.Forall₂ (fun tag tag' => Option.Rel
        (fun style style' => StyleSettles webFonts fallback style.toList style'.toList)
        (tag.value? "style") (tag'.value? "style")) doc.allStartTags doc'.allStartTags ∧
      List.Forall₂ (SheetSettles webFonts) ((doc.rawTexts "style").map doc.text)
        ((doc'.rawTexts "style").map doc'.text) := by
  intro doc doc'
  -- The document is written in pieces, and the edits change some of them and keep the others.
  obtain ⟨ps, hfit, rfl⟩ := MarkupPiece.exists_of_completes hcompletes
  have hadapt := adaptable hfits
  rw [String.toList_ofList] at hadapt
  obtain ⟨ps', hps, happly⟩ := MarkupPiece.exists_applyTo hfit hadapt (edits_perm webFonts fallback doc)
  have hfit' := hfit.changes hps.changes
  have hdoc' : doc' = Document.read (String.ofList (MarkupPiece.text ps')) := congrArg Document.read happly
  refine ⟨?_, ?_⟩
  · rw [hdoc', Document.allStartTags, Document.allStartTags, MarkupPiece.tokens_read hfit,
      MarkupPiece.tokens_read hfit']
    refine (Token.startTags_alike (hps.alike 0)).imp fun tag tag' htag => ?_
    obtain ⟨-, hrestyled⟩ := htag
    unfold Restyled at hrestyled
    cases hstyle : tag.value? "style" with
    | none =>
      rw [hstyle] at hrestyled
      dsimp only at hrestyled
      rw [hrestyled]
      exact .none
    | some style =>
      rw [hstyle] at hrestyled
      obtain ⟨pieces, hpieces, hvalue⟩ := hrestyled
      rw [hvalue]
      refine .some ?_
      rw [String.toList_ofList]
      exact settles_of_revalues hsuits hpieces
  · rw [hdoc', MarkupPiece.map_text_rawTexts hfit, MarkupPiece.map_text_rawTexts hfit']
    refine (hps.rawsAlike "style").imp fun sheet sheet' hsheet => ?_
    rw [Resheeted, if_pos rfl] at hsheet
    rw [hsheet]
    exact settles_sheetText hsuits sheet

/-- A page with a web font in a style attribute, behind a reference in parentheses, and in a style sheet. -/
theorem web_fonts_of_page_give_way :
    let webFonts := ["Montserrat"]
    let fallback := "Arial, sans-serif"
    let source := "<p style=\"background:url(&quot;a&quot;);font-family:'Montserrat'\"><style>p { font-family:montserrat }</style>"
    let doc := Document.read source
    let doc' := Document.read ((rule webFonts fallback).applyTo source)
    (Token.completes source = true ∧ FitsIn webFonts fallback source ∧ Suits webFonts fallback) ∧
      (∀ tag ∈ doc.allStartTags, ∀ style ∈ tag.value? "style", ReadsAlike webFonts style.toList) ∧
      ((rule webFonts fallback).editsOf source).length = 2 ∧
      List.Forall₂ (fun tag tag' => Option.Rel
        (fun style style' => StyleSettles webFonts fallback style.toList style'.toList)
        (tag.value? "style") (tag'.value? "style")) doc.allStartTags doc'.allStartTags ∧
      List.Forall₂ (SheetSettles webFonts) ((doc.rawTexts "style").map doc.text)
        ((doc'.rawTexts "style").map doc'.text) := by
  intro webFonts fallback source doc doc'
  -- One computation, so that the page is read once.
  have hpage : (Token.completes source = true ∧ FitsIn webFonts fallback source ∧ Suits webFonts fallback) ∧
      (∀ tag ∈ doc.allStartTags, ∀ style ∈ tag.value? "style",
        Css.pieces (Css.decoded style.toList) = (Css.pieces style.toList).map Css.decoded) ∧
      ((rule webFonts fallback).editsOf source).length = 2 := by decide +kernel
  obtain ⟨⟨hcompletes, hfits, hsuits⟩, hpieces, hedits⟩ := hpage
  exact ⟨⟨hcompletes, hfits, hsuits⟩,
    fun tag htag style hstyle => readsAlike_of_pieces _ (hpieces tag htag style hstyle), hedits,
    web_fonts_give_way hcompletes hfits hsuits⟩

/-- **A web font between references to quotes stays,** also under the stock settings: the semicolon of the
first reference ends the font list for the rule. -/
theorem referenced_web_font_stays :
    let settings : OutlookSettings := {}
    let source := "<p style=\"font-family:&quot;Montserrat&quot;\">"
    let kept := (rule settings.webFonts settings.fallbackFonts).applyTo source
    (Token.completes source = true ∧ FitsIn settings.webFonts settings.fallbackFonts source ∧
      Suits settings.webFonts settings.fallbackFonts) ∧ kept = source ∧
      ∃ tag ∈ (Document.read kept).allStartTags, ∃ style ∈ tag.value? "style",
        Declares settings.webFonts (Css.decoded style.toList) := by
  decide +kernel

end FontFallback

end MailTemplate
