import MailTemplate.Proofs.ReferencedMarkup

/-!
# Tokens among references

The rule for emoji keeps every token of a source, also of one in which a start tag breaks off.  A cursor
in the source and a cursor in the result stand at the same place if the result has read what the source
has read, with references in it.  Every reader of the tokenizer takes two such cursors to two such
cursors, or fails on both sides: a run of characters ends at the same place, because a test either holds
of an emoji and of all of its reference or of neither the emoji nor the `&`.

## Main definitions

* `EmojiEntities.IsSteady` — a test that no reference ends a run of.
* `EmojiEntities.SamePlace`, `SameSpan`, `SameCursor` — places of a source and of the result.
* `EmojiEntities.SameToken` — tokens of the same kind and name at the same place.

## Main results

* `EmojiEntities.SameCursor.advance` — moving on over a text and over the same text with references.
* `EmojiEntities.read?_spell` — the tokens that begin at a place.
* `EmojiEntities.tokenize_applyTo` — the rule keeps every token of every source.
-/

namespace MailTemplate

namespace EmojiEntities

/-! ## Runs of characters -/

/-- A test that does not tell an emoji from its reference: it holds of the emoji and of all of the
reference, or it fails for the emoji and for the `&`. -/
def IsSteady (p : Char → Bool) : Prop :=
  IsBlind p ∧ ∀ entry ∈ table, p '&' = true → entry.2.toList.all p = true

instance (p : Char → Bool) : Decidable (IsSteady p) :=
  inferInstanceAs (Decidable (_ ∧ ∀ entry ∈ table, _ → _ = _))

theorem IsSteady.takeWhile_spell {p : Char → Bool} (h : IsSteady p) (cs : List Char) :
    (spell cs).takeWhile p = spell (cs.takeWhile p) := by
  induction cs with
  | nil => rfl
  | cons c cs ih =>
    rcases written_cases c with ⟨hkept, -⟩ | ⟨entry, hentry, rfl, href⟩
    · rw [spell_cons, hkept, List.singleton_append, List.takeWhile_cons, List.takeWhile_cons, ih]
      split
      · rw [spell_cons, hkept, List.singleton_append]
      · rfl
    · have hblind := h.1 entry hentry
      cases hamp : p '&' with
      | true =>
        have hall := List.all_eq_true.1 (h.2 entry hentry hamp)
        rw [spell_cons, href, List.takeWhile_append_of_pos hall, ih,
          List.takeWhile_cons_of_pos (hblind.trans hamp), spell_cons, href]
      | false =>
        obtain ⟨tail, htail⟩ := exists_reference hentry
        rw [spell_cons, href, htail, List.cons_append, List.takeWhile_cons_of_neg (by simp [hamp]),
          List.takeWhile_cons_of_neg (by simp [hblind, hamp])]
        rfl

/-! ## Places -/

/-- An offset of a source, and the offset of the same place among references. -/
def SamePlace (source : List Char) (n n' : Nat) : Prop :=
  ∃ before behind, source = before ++ behind ∧ n = Text.byteLength before ∧
    n' = Text.byteLength (spell before)

/-- Spans from the same place to the same place. -/
structure SameSpan (source : List Char) (s s' : Span) : Prop where
  /-- They begin at the same place. -/
  start : SamePlace source s.start s'.start
  /-- They end at the same place. -/
  stop : SamePlace source s.stop s'.stop

/-- Cursors at the same place. -/
structure SameCursor (source : List Char) (c c' : Cursor) : Prop where
  /-- What is ahead is the same, with references. -/
  ahead : c'.ahead = spell c.ahead
  /-- What was passed over is the same, with references. -/
  offset : ∃ before, source = before ++ c.ahead ∧ c.offset = Text.byteLength before ∧
    c'.offset = Text.byteLength (spell before)

namespace SameCursor

variable {source text rest sought : List Char} {c c' d d' : Cursor} {p : Char → Bool}

theorem front (source : List Char) : SameCursor source (.front source) (.front (spell source)) :=
  ⟨rfl, [], rfl, rfl, rfl⟩

theorem place (h : SameCursor source c c') : SamePlace source c.offset c'.offset := by
  obtain ⟨before, hsource, hoffset, hoffset'⟩ := h.offset
  exact ⟨before, c.ahead, hsource, hoffset, hoffset'⟩

theorem spanTo (h : SameCursor source c c') (hd : SameCursor source d d') :
    SameSpan source (c.spanTo d) (c'.spanTo d') := ⟨h.place, hd.place⟩

/-- One cursor passes over a text and the other one over the same text with references. -/
theorem passes (h : SameCursor source c c') (hd : c.Passes text d) (hd' : c'.Passes (spell text) d') :
    SameCursor source d d' := by
  obtain ⟨before, hsource, hoffset, hoffset'⟩ := h.offset
  refine ⟨?_, before ++ text, ?_, ?_, ?_⟩
  · have hahead := h.ahead
    rw [hd.ahead, hd'.ahead, spell_append] at hahead
    exact List.append_cancel_left hahead
  · rw [hsource, hd.ahead, List.append_assoc]
  · rw [hd.offset, hoffset, Text.byteLength_append]
  · rw [hd'.offset, hoffset', spell_append, Text.byteLength_append]

/-- **Both cursors move on over the same text.** -/
theorem advance (h : SameCursor source c c') (n : Nat) :
    SameCursor source (c.advance n) (c'.advance (spell (c.ahead.take n)).length) := by
  have hahead : c'.ahead = spell (c.ahead.take n) ++ spell (c.ahead.drop n) := by
    rw [h.ahead, ← spell_append, List.take_append_drop]
  exact h.passes (c.passes_advance n) (Cursor.passes_advance_of_ahead _ hahead)

theorem advance_kept (text : List Char) (h : SameCursor source c c') (hahead : c.ahead = text ++ rest)
    (hkept : spell text = text) :
    SameCursor source (c.advance text.length) (c'.advance text.length) := by
  have hadvance := h.advance text.length
  rwa [hahead, List.take_left, hkept] at hadvance

theorem advance_one {a : Char} (h : SameCursor source c c') (hahead : c.ahead = a :: rest)
    (hkept : written a = [a]) : SameCursor source (c.advance 1) (c'.advance 1) :=
  h.advance_kept [a] hahead (by simp [spell, hkept])

theorem run (h : SameCursor source c c') (hp : IsSteady p) : c'.run p = spell (c.run p) := by
  rw [Cursor.run, Cursor.run, h.ahead, hp.takeWhile_spell]

theorem skip (h : SameCursor source c c') (hp : IsSteady p) : SameCursor source (c.skip p) (c'.skip p) := by
  have hpasses := c'.passes_skip p
  rw [h.run hp] at hpasses
  exact h.passes (c.passes_skip p) hpasses

theorem finish (h : SameCursor source c c') : SameCursor source c.finish c'.finish := by
  have hadvance := h.advance c.ahead.length
  rwa [List.take_length, ← h.ahead] at hadvance

/-- A text that cannot be found in references is found at the same place. -/
theorem indexOfBy? {same : Char → Char → Bool} (h : SameCursor source c c')
    (havoids : avoids same sought = true) :
    Text.indexOfBy? same sought c'.ahead =
      (Text.indexOfBy? same sought c.ahead).map fun i => (spell (c.ahead.take i)).length := by
  rw [h.ahead, indexOfBy?_spell havoids]

/-- A text that cannot be found in references is passed at the same place. -/
theorem pastOrFinish (sought : List Char) (h : SameCursor source c c')
    (havoids : avoids (· == ·) sought = true) (hkept : spell sought = sought) :
    SameCursor source (c.pastOrFinish sought) (c'.pastOrFinish sought) := by
  have hindex' := h.indexOfBy? havoids
  unfold Cursor.pastOrFinish Cursor.past? Text.indexOf?
  cases hindex : Text.indexOfBy? (· == ·) sought c.ahead with
  | none =>
    rw [hindex', hindex]
    exact h.finish
  | some i =>
    obtain ⟨rest, hrest⟩ := Text.prefix_drop_of_indexOf? hindex
    have hahead : c.ahead.take (i + sought.length) = c.ahead.take i ++ sought := by
      rw [List.take_add, ← hrest, List.take_left]
    have hadvance := h.advance (i + sought.length)
    rw [hahead, spell_append, hkept, List.length_append] at hadvance
    rw [hindex', hindex]
    exact hadvance

end SameCursor

/-! ## Results that are there or missing -/

section Rel

variable {α β γ δ : Type} {R : α → β → Prop} {S : γ → δ → Prop} {x : Option α} {y : Option β}

theorem rel_map {f : α → γ} {g : β → δ} (h : Option.Rel R x y) (hfg : ∀ a b, R a b → S (f a) (g b)) :
    Option.Rel S (x.map f) (y.map g) := by
  cases h with
  | none => exact .none
  | some hab => exact .some (hfg _ _ hab)

theorem eq_none_of_rel (h : Option.Rel R none y) : y = none := by
  cases h
  rfl

theorem exists_of_rel_some {a : α} (h : Option.Rel R (some a) y) : ∃ b, y = some b ∧ R a b := by
  cases h with
  | some hab => exact ⟨_, rfl, hab⟩

end Rel

/-! ## Start tags -/

variable {source : List Char} {c c' start start' value value' : Cursor}

/-- A value is read on both sides, with or without quotes. -/
theorem readValue?_spell (name name' : String) (h : SameCursor source value value') :
    Option.Rel (fun a b => SameCursor source a.2 b.2) (Attribute.readValue? start name value)
      (Attribute.readValue? start' name' value') := by
  unfold Attribute.readValue?
  rw [h.ahead]
  cases hahead : value.ahead with
  | nil => exact .none
  | cons q rest =>
    obtain ⟨rest', hrest'⟩ := exists_spell_cons q rest
    rw [hrest']
    dsimp only
    by_cases hq : q = '"' ∨ q = '\''
    · have hkept : written q = [q] := by rcases hq with rfl | rfl <;> decide
      have havoids : avoids (· == ·) [q] = true := by rcases hq with rfl | rfl <;> decide
      have hinitial : initial q = q := by rw [initial, hkept, List.headD_cons]
      have hinner : SameCursor source (value.advance 1) (value'.advance 1) := h.advance_one hahead hkept
      have hindex' := hinner.indexOfBy? havoids
      rw [hinitial, if_pos hq, if_pos hq, Text.indexOf?, Text.indexOf?, hindex']
      cases hindex : Text.indexOfBy? (· == ·) [q] (value.advance 1).ahead with
      | none => exact .none
      | some n =>
        obtain ⟨behind, hbehind⟩ := Text.prefix_drop_of_indexOf? hindex
        exact .some ((hinner.advance n).advance_one hbehind.symm hkept)
    · have hinitial : ¬ (initial q = '"' ∨ initial q = '\'') := by
        rwa [initial_eq_iff (by decide), initial_eq_iff (by decide)]
      rw [if_neg hq, if_neg hinitial]
      exact .some (h.skip (by decide))

/-- An attribute is read on both sides. -/
theorem readAttribute?_spell (h : SameCursor source c c') :
    Option.Rel (fun a b => SameCursor source a.2 b.2) (Attribute.read? c) (Attribute.read? c') := by
  have hbehind : SameCursor source (c.skip isAttributeChar) (c'.skip isAttributeChar) :=
    h.skip (by decide)
  have hmark := hbehind.skip (p := Text.isTagBlank) (by decide)
  unfold Attribute.read?
  dsimp only
  rw [hmark.ahead]
  cases hahead : ((c.skip isAttributeChar).skip Text.isTagBlank).ahead with
  | nil => exact .some hbehind
  | cons d rest =>
    obtain ⟨rest', hrest'⟩ := exists_spell_cons d rest
    rw [hrest']
    by_cases hd : d = '='
    · subst hd
      have hvalue := hmark.advance_one hahead (by decide)
      exact readValue?_spell _ _ (hvalue.skip (by decide))
    · have hinitial : initial d ≠ '=' := (initial_eq_iff (by decide) d).not.2 hd
      split
      · next heq => exact absurd (List.cons.inj heq).1 hd
      · split
        · next heq => exact absurd (List.cons.inj heq).1 hinitial
        · exact .some hbehind

/-- What follows the name of a start tag, on both sides. -/
structure SameBody (source : List Char) (body body' : TagBody) : Prop where
  /-- Both tags have a slash at their end, or none has. -/
  selfClosing : body'.selfClosing = body.selfClosing
  /-- Both end at the same place. -/
  next : SameCursor source body.next body'.next

/-- At a character of names an attribute is read, and what follows it like the rest of the tag. -/
theorem readBody?_attribute {d : Char} {rest : List Char} {lastEnd o : Nat} (hd : isAttributeChar d = true) :
    TagBody.read? lastEnd ⟨o, d :: rest⟩ =
      (Attribute.read? ⟨o, d :: rest⟩).bind fun (a, next) =>
        (TagBody.read? next.offset next).map fun body =>
          { body with attributes := a :: body.attributes } := by
  simp only [isAttributeChar, Bool.and_eq_true, Bool.not_eq_true', bne_iff_ne, ne_eq] at hd
  obtain ⟨⟨⟨hblank, hequals⟩, hgt⟩, hslash⟩ := hd
  rw [TagBody.read?, TagBody.skip_of_not_isTagBlank hblank]
  simp only [if_neg hgt, if_neg hslash, if_neg hequals]
  split
  · next hnone => rw [hnone]; rfl
  · next hsome =>
    rw [hsome]
    split
    · next hnone => rw [Option.bind_some, hnone]; rfl
    · next hbody => rw [Option.bind_some, hbody]; rfl

theorem readBody?_attribute_spell {d : Char} {cs rest : List Char} {lastEnd o : Nat}
    (hblank : ∀ d ∈ cs.head?, Text.isTagBlank d = false) (hahead : cs = d :: rest) (hgt : d ≠ '>')
    (hslash : d ≠ '/') (hequals : d ≠ '=') :
    TagBody.read? lastEnd ⟨o, spell cs⟩ =
      (Attribute.read? ⟨o, spell cs⟩).bind fun (a, next) =>
        (TagBody.read? next.offset next).map fun body =>
          { body with attributes := a :: body.attributes } := by
  subst hahead
  obtain ⟨rest', hrest'⟩ := exists_spell_cons d rest
  have hattribute : IsBlind isAttributeChar := by decide
  have hd : isAttributeChar d = true := by
    simp [isAttributeChar, hblank d rfl, hgt, hslash, hequals]
  rw [hrest', readBody?_attribute ((hattribute.apply_initial d).trans hd)]

/-- Only what stands behind the blanks is read. -/
theorem exists_readBody?_eq (h : SameCursor source c c') :
    ∃ o', SameCursor source (c.skip Text.isTagBlank) ⟨o', spell (c.skip Text.isTagBlank).ahead⟩ ∧
      ∀ lastEnd, TagBody.read? lastEnd c' =
        TagBody.read? lastEnd ⟨o', spell (c.skip Text.isTagBlank).ahead⟩ := by
  have hskip := h.skip (p := Text.isTagBlank) (by decide)
  have hagain : (c'.skip Text.isTagBlank).skip Text.isTagBlank = c'.skip Text.isTagBlank :=
    @Cursor.skip_append _ [] _ _ (by simp) (Cursor.head?_skip c' Text.isTagBlank)
  rw [← hskip.ahead]
  exact ⟨(c'.skip Text.isTagBlank).offset, hskip, fun lastEnd => (TagBody.read?_congr hagain).symm⟩

/-- **What follows the name of a start tag is read on both sides,** or it breaks off on both. -/
theorem readBody?_spell {lastEnd lastEnd' : Nat} (h : SameCursor source c c') :
    Option.Rel (SameBody source) (TagBody.read? lastEnd c) (TagBody.read? lastEnd' c') := by
  -- The cases are those of the source; the result is read from behind its blanks in each of them.
  fun_induction TagBody.read? lastEnd c generalizing lastEnd' c'
  all_goals
    obtain ⟨o', hhere, hread⟩ := exists_readBody?_eq h
    rw [hread]
  case case1 hahead =>
    rw [hahead, TagBody.read?]
    exact .none
  case case2 rest hahead =>
    have hnext := hhere.advance_one hahead (by decide)
    rw [hahead] at hnext ⊢
    show Option.Rel _ _ (TagBody.read? lastEnd' ⟨o', WrittenTag.closing false ++ spell rest⟩)
    rw [TagBody.read?_close]
    exact .some ⟨rfl, hnext⟩
  case case3 rest hhead hahead _ =>
    obtain ⟨rest, rfl⟩ := List.head?_eq_some_iff.1 hhead
    have hnext := hhere.advance_kept ['/', '>'] hahead (by decide)
    rw [hahead] at hnext ⊢
    show Option.Rel _ _ (TagBody.read? lastEnd' ⟨o', WrittenTag.closing true ++ spell rest⟩)
    rw [TagBody.read?_close]
    exact .some ⟨rfl, hnext⟩
  case case4 rest hhead hahead _ ih =>
    have hnext := hhere.advance_one hahead (by decide)
    rw [hahead] at hnext ⊢
    show Option.Rel _ _ (TagBody.read? lastEnd' ⟨o', '/' :: spell rest⟩)
    rw [TagBody.read?_stray rfl fun _ => (head?_spell_eq_some_iff (by decide)).not.2 hhead]
    exact ih hnext
  case case5 rest hahead _ _ ih =>
    have hnext := hhere.advance_one hahead (by decide)
    rw [hahead] at hnext ⊢
    show Option.Rel _ _ (TagBody.read? lastEnd' ⟨o', '=' :: spell rest⟩)
    rw [TagBody.read?_stray rfl fun heq => absurd heq (by decide)]
    exact ih hnext
  case case6 lastEnd c here ch rest hahead hgt hslash hequals ha =>
    have ha' := readAttribute?_spell hhere
    rw [show Attribute.read? (c.skip Text.isTagBlank) = none from ha] at ha'
    rw [readBody?_attribute_spell (Cursor.head?_skip c _) hahead hgt hslash hequals, eq_none_of_rel ha']
    exact .none
  case case7 lastEnd c here ch rest hahead hgt hslash hequals a next ha hbody ih =>
    have ha' := readAttribute?_spell hhere
    rw [show Attribute.read? (c.skip Text.isTagBlank) = some (a, next) from ha] at ha'
    obtain ⟨⟨a', next'⟩, ha', hnext⟩ := exists_of_rel_some ha'
    have hbody' : Option.Rel _ _ (TagBody.read? next'.offset next') := ih hnext
    rw [hbody] at hbody'
    rw [readBody?_attribute_spell (Cursor.head?_skip c _) hahead hgt hslash hequals, ha', Option.bind_some]
    dsimp only
    rw [eq_none_of_rel hbody']
    exact .none
  case case8 lastEnd c here ch rest hahead hgt hslash hequals a next ha body hbody ih =>
    have ha' := readAttribute?_spell hhere
    rw [show Attribute.read? (c.skip Text.isTagBlank) = some (a, next) from ha] at ha'
    obtain ⟨⟨a', next'⟩, ha', hnext⟩ := exists_of_rel_some ha'
    have hbody' : Option.Rel _ _ (TagBody.read? next'.offset next') := ih hnext
    rw [hbody] at hbody'
    obtain ⟨body', hbody', hsame⟩ := exists_of_rel_some hbody'
    rw [readBody?_attribute_spell (Cursor.head?_skip c _) hahead hgt hslash hequals, ha', Option.bind_some]
    dsimp only
    rw [hbody']
    exact .some ⟨hsame.selfClosing, hsame.next⟩

/-- Start tags of the same name at the same place. -/
structure SameTag (source : List Char) (tag tag' : StartTag) : Prop where
  /-- Both have the same name. -/
  name : tag'.name = tag.name
  /-- Both have a slash at their end, or none has. -/
  selfClosing : tag'.selfClosing = tag.selfClosing
  /-- They stand at the same place. -/
  span : SameSpan source tag.span tag'.span

/-- The characters of names are left alone. -/
theorem spell_run_isNameChar (c : Cursor) : spell (c.run isNameChar) = c.run isNameChar :=
  spell_of_forall fun _ hd => written_of_pos (by decide) (Cursor.of_mem_run _ hd)

/-- **A start tag is read on both sides,** or it breaks off on both. -/
theorem readStartTag?_spell {cs : List Char} (h : SameCursor source c c') (hahead : c.ahead = '<' :: cs) :
    Option.Rel (fun a b => SameTag source a.1 b.1 ∧ SameCursor source a.2 b.2) (StartTag.read? c)
      (StartTag.read? c') := by
  have hname : SameCursor source (c.advance 1) (c'.advance 1) := h.advance_one hahead (by decide)
  have hrun := hname.run (p := isNameChar) (by decide)
  rw [spell_run_isNameChar] at hrun
  refine rel_map (readBody?_spell (hname.skip (by decide))) fun body body' hbody => ?_
  exact ⟨⟨congrArg (fun name => String.ofList (Text.lower name)) hrun, hbody.selfClosing,
    h.spanTo hbody.next⟩, hbody.next⟩

/-! ## Tokens -/

/-- Tokens of the same kind and name at the same place. -/
inductive SameToken (source : List Char) : Token → Token → Prop where
  /-- Start tags. -/
  | startTag {tag tag' : StartTag} : SameTag source tag tag' →
    SameToken source (.startTag tag) (.startTag tag')
  /-- End tags. -/
  | endTag (name : String) {span span' : Span} : SameSpan source span span' →
    SameToken source (.endTag name span) (.endTag name span')
  /-- Comments. -/
  | comment {span span' : Span} : SameSpan source span span' →
    SameToken source (.comment span) (.comment span')
  /-- Declarations. -/
  | declaration {span span' : Span} : SameSpan source span span' →
    SameToken source (.declaration span) (.declaration span')
  /-- Raw texts. -/
  | rawText (element : String) {span span' : Span} : SameSpan source span span' →
    SameToken source (.rawText element span) (.rawText element span')

/-- Tokens that were read up to the same place. -/
structure SameTokens (source : List Char) (read read' : List Token × Cursor) : Prop where
  /-- Each is the same. -/
  tokens : List.Forall₂ (SameToken source) read.1 read'.1
  /-- What follows them is the same. -/
  next : SameCursor source read.2 read'.2

theorem SameTokens.singleton {token token' : Token} {next next' : Cursor}
    (h : SameToken source token token') (hnext : SameCursor source next next') :
    SameTokens source ([token], next) ([token'], next') := ⟨.cons h .nil, hnext⟩

/-- Raw text ends at the same place. -/
theorem rawTextEnd_spell {element : String} (h : SameCursor source c c')
    (helement : element ∈ Token.rawElements) :
    SameCursor source (Token.rawTextEnd element c) (Token.rawTextEnd element c') := by
  have hindex := h.indexOfBy? (MarkupPiece.avoids_endTag helement)
  unfold Token.rawTextEnd Text.indexOfFold?
  rw [hindex]
  cases Text.indexOfBy? Text.sameFold ('<' :: '/' :: element.toList) c.ahead with
  | none => exact h.finish
  | some n => exact h.advance n

theorem ofStartTag_spell {tag tag' : StartTag} (htag : SameTag source tag tag')
    (h : SameCursor source c c') :
    SameTokens source (Token.ofStartTag tag c) (Token.ofStartTag tag' c') := by
  unfold Token.ofStartTag
  rw [htag.name, htag.selfClosing]
  split
  · next hraw =>
    have hclose := rawTextEnd_spell h hraw.2
    exact ⟨.cons (.startTag htag) (.cons (.rawText _ (h.spanTo hclose)) .nil), hclose⟩
  · exact .singleton (.startTag htag) h

/-- An end tag is read on both sides. -/
theorem readEndTag?_spell {cs : List Char} (h : SameCursor source c c')
    (hahead : c.ahead = '<' :: '/' :: cs) :
    Option.Rel (fun a b => SameToken source a.1 b.1 ∧ SameCursor source a.2 b.2) (Token.readEndTag? c)
      (Token.readEndTag? c') := by
  have hname : SameCursor source (c.advance 2) (c'.advance 2) :=
    h.advance_kept ['<', '/'] hahead (by decide)
  have hrun := hname.run (p := isNameChar) (by decide)
  rw [spell_run_isNameChar] at hrun
  unfold Token.readEndTag?
  rw [hrun]
  dsimp only
  split
  · exact .none
  · have hskip := hname.skip (p := isNameChar) (by decide)
    have hnext := hskip.pastOrFinish ['>'] (by decide) (by decide)
    exact .some ⟨.endTag _ (h.spanTo hnext), hnext⟩

/-- A comment or a declaration is read on both sides. -/
theorem readDeclaration?_spell {d : Char} {ds : List Char} (hd : d = '!' ∨ d = '?')
    (h : SameCursor source c c') (hahead : c.ahead = '<' :: d :: ds) :
    Option.Rel (SameTokens source) (Token.read? c) (Token.read? c') := by
  obtain ⟨o, cs⟩ := c
  obtain ⟨o', cs'⟩ := c'
  obtain rfl : cs' = spell cs := h.ahead
  obtain rfl : cs = '<' :: d :: ds := hahead
  have hkept : written d = [d] := by rcases hd with rfl | rfl <;> decide
  have hbehind : spell (d :: ds) = d :: spell ds := by rw [spell_cons, hkept, List.singleton_append]
  have hspell : spell ('<' :: d :: ds) = '<' :: d :: spell ds := congrArg ('<' :: ·) hbehind
  by_cases hcomment : ['!', '-', '-'] <+: d :: ds
  · obtain ⟨rest, hrest⟩ := hcomment
    obtain ⟨rfl, rfl⟩ := List.cons.inj hrest
    have hbody := h.advance_kept ['<', '!', '-', '-'] rfl (by decide)
    have hnext := hbody.pastOrFinish ['-', '-', '>'] (by decide) (by decide)
    exact .some (.singleton (.comment (h.spanTo hnext)) hnext)
  · have hcomment' : ¬ ['!', '-', '-'] <+: d :: spell ds := by
      rwa [← hbehind, ← Text.beginsWithBy_beq_iff, beginsWithBy_spell (by decide),
        Text.beginsWithBy_beq_iff]
    have hbody := h.advance_kept ['<'] rfl (by decide)
    have hnext := hbody.pastOrFinish ['>'] (by decide) (by decide)
    rw [hspell] at hnext h ⊢
    rw [MarkupPiece.read?_declaration hd hcomment, MarkupPiece.read?_declaration hd hcomment']
    exact .some (.singleton (.declaration (h.spanTo hnext)) hnext)

/-- Nothing begins with a character, and nothing begins with it when it is written. -/
theorem read?_spell_eq_none {d : Char} {ds : List Char} {o : Nat}
    (h : d = '<' → MarkupPiece.begins ds = false) : Token.read? ⟨o, spell (d :: ds)⟩ = none := by
  rcases written_cases d with ⟨hkept, -⟩ | ⟨entry, hentry, rfl, href⟩
  · rw [spell_cons, hkept, List.singleton_append]
    exact MarkupPiece.read?_plain fun hd => (begins_spell ds).trans (h hd)
  · obtain ⟨tail, htail⟩ := exists_reference hentry
    rw [spell_cons, href, htail, List.cons_append]
    exact MarkupPiece.read?_plain fun hamp => absurd hamp (by decide)

/-- **The tokens that begin at a place are read on both sides,** or there are none on both. -/
theorem read?_spell (h : SameCursor source c c') :
    Option.Rel (SameTokens source) (Token.read? c) (Token.read? c') := by
  obtain ⟨o, cs⟩ := c
  obtain ⟨o', cs'⟩ := c'
  obtain rfl : cs' = spell cs := h.ahead
  cases cs with
  | nil => exact .none
  | cons d ds =>
    by_cases hnone : d = '<' → MarkupPiece.begins ds = false
    · rw [MarkupPiece.read?_plain hnone, read?_spell_eq_none hnone]
      exact .none
    · obtain ⟨rfl, hbegins⟩ := Classical.not_imp.1 hnone
      obtain ⟨e, es, rfl⟩ : ∃ e es, ds = e :: es := by
        refine List.exists_cons_of_ne_nil ?_
        rintro rfl
        exact hbegins rfl
      simp only [MarkupPiece.begins, Bool.not_eq_false, Bool.or_eq_true, Bool.and_eq_true, beq_iff_eq]
        at hbegins
      rcases hbegins with (hmark | hletter) | ⟨rfl, -⟩
      · exact readDeclaration?_spell hmark h rfl
      · have hkept : written e = [e] := written_of_pos (p := Char.isAlpha) (by decide) hletter
        have hspell : spell ('<' :: e :: es) = '<' :: e :: spell es := by
          rw [spell_cons, spell_cons, hkept]
          rfl
        have hread := readStartTag?_spell h rfl
        rw [MarkupPiece.read?_letter hletter]
        rw [hspell] at hread ⊢
        rw [MarkupPiece.read?_letter hletter]
        exact rel_map hread fun a b hab => ofStartTag_spell hab.1 hab.2
      · exact rel_map (readEndTag?_spell h rfl) fun a b hab => .singleton hab.1 hab.2

/-! ## A whole source -/

/-- Without a `<` there are no tokens. -/
theorem tokensFrom_append_of_not_mem {front : List Char} (hfront : '<' ∉ front) (o : Nat) (rest : List Char) :
    Token.tokensFrom ⟨o, front ++ rest⟩ = Token.tokensFrom ⟨o + Text.byteLength front, rest⟩ := by
  induction front generalizing o with
  | nil => rfl
  | cons d front ih =>
    obtain ⟨hd, hfront⟩ := not_or.1 fun hmem => hfront (List.mem_cons.2 hmem)
    have hplain : Token.read? ⟨o, d :: (front ++ rest)⟩ = none :=
      MarkupPiece.read?_plain fun heq => absurd heq.symm hd
    rw [List.cons_append, MarkupPiece.tokensFrom_of_none hplain, ih hfront, Nat.add_assoc,
      ← Text.byteLength_append]
    rfl

/-- **The tokens from a place on** are the same on both sides. -/
theorem tokensFrom_spell (h : SameCursor source c c') :
    List.Forall₂ (SameToken source) (Token.tokensFrom c) (Token.tokensFrom c') := by
  fun_induction Token.tokensFrom c generalizing c' with
  | case1 c hnil =>
    have hnil' : c'.ahead = [] := by rw [h.ahead, hnil]; rfl
    rw [Token.tokensFrom, dif_pos hnil']
    exact .nil
  | case2 c hne tokens next hread ih =>
    have hread' := read?_spell h
    rw [hread] at hread'
    obtain ⟨⟨tokens', next'⟩, hread', htokens, hnext⟩ := exists_of_rel_some hread'
    rw [MarkupPiece.tokensFrom_of_some hread']
    exact List.rel_append htokens (ih hnext)
  | case3 c hne hread ih =>
    have hread' := read?_spell h
    rw [hread] at hread'
    obtain ⟨d, ds, hahead⟩ := List.exists_cons_of_ne_nil hne
    obtain ⟨o, cs⟩ := c
    obtain ⟨o', cs'⟩ := c'
    obtain rfl : cs' = spell cs := h.ahead
    obtain rfl : cs = d :: ds := hahead
    have hnext : SameCursor source ⟨o + Text.byteLength [d], ds⟩
        ⟨o' + Text.byteLength (spell [d]), spell ds⟩ := by
      refine h.passes ⟨rfl, rfl⟩ ⟨?_, rfl⟩
      rw [← spell_append, List.singleton_append]
    have hstep : Token.tokensFrom ⟨o', spell (d :: ds)⟩ =
        Token.tokensFrom ⟨o' + Text.byteLength (spell [d]), spell ds⟩ := by
      have hone : spell [d] = written d := List.append_nil _
      rcases written_cases d with ⟨hkept, -⟩ | ⟨entry, hentry, rfl, href⟩
      · have hnone := eq_none_of_rel hread'
        rw [spell_cons, hkept, List.singleton_append] at hnone ⊢
        rw [MarkupPiece.tokensFrom_of_none hnone, hone, hkept]
      · have hapart : ∀ entry ∈ table, '<' ∉ entry.2.toList := by decide
        rw [spell_cons, hone, href, tokensFrom_append_of_not_mem (hapart entry hentry)]
    rw [hstep]
    exact ih hnext

/-- **The rule keeps every token of every source,** with references in it. -/
theorem tokenize_applyTo (source : String) :
    List.Forall₂ (SameToken source.toList) (Token.tokenize source)
      (Token.tokenize (rule.applyTo source)) := by
  rw [Token.tokenize, Token.tokenize, applyTo_eq, String.toList_ofList]
  exact tokensFrom_spell (.front source.toList)

end EmojiEntities

end MailTemplate
