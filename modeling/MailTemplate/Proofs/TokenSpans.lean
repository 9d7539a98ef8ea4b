import MailTemplate.Markup.Tokenizer

/-!
# Where tokens stand

Every reader of the tokenizer moves a cursor over a text, and the texts that are passed over one after
the other make up the source.  So each span that is taken between two places of a cursor can be cut
out of the source, and holds the text that was passed over in between.  A tag is its name, then
attributes with blanks, stray slashes and stray equality signs between them, then its end.

## Main definitions

* `Cursor.Passes` — a cursor passes over a text.
* `Attribute.Placed`, `AttributesPlaced`, `StartTag.Placed` — where the parts of a start tag stand.
* `Token.Placed`, `Token.PlacedFrom` — where tokens stand.

## Main results

* `Cursor.Passes.slice?` — the text between two places of a cursor.
* `Attribute.placed_of_read?`, `TagBody.placed_of_read?`, `StartTag.placed_of_read?` — what the readers
  of a tag give is placed.
* `Token.readTo_of_read?` — so are the tokens that begin at a place.
* `Token.tokenize_placed` — so are the tokens of a source, and they are in order and disjoint.
-/

namespace MailTemplate

/-! ## Passing over a text -/

namespace Cursor

/-- A cursor passes over a text from one place to another. -/
structure Passes (c : Cursor) (text : List Char) (d : Cursor) : Prop where
  /-- The text is ahead of the first place. -/
  ahead : c.ahead = text ++ d.ahead
  /-- The second place is behind it. -/
  offset : d.offset = c.offset + Text.byteLength text

variable {c d e : Cursor} {text more source : List Char}

theorem Passes.refl (c : Cursor) : c.Passes [] c := ⟨rfl, rfl⟩

theorem Passes.trans (h : c.Passes text d) (h' : d.Passes more e) : c.Passes (text ++ more) e := by
  refine ⟨?_, ?_⟩
  · rw [h.ahead, h'.ahead, List.append_assoc]
  · rw [h'.offset, h.offset, Text.byteLength_append, Nat.add_assoc]

theorem Passes.le (h : c.Passes text d) : c.offset ≤ d.offset := by
  have := h.offset
  omega

theorem passes_advance (c : Cursor) (n : Nat) : c.Passes (c.ahead.take n) (c.advance n) :=
  ⟨(List.take_append_drop n c.ahead).symm, rfl⟩

theorem passes_advance_of_ahead (text : List Char) (h : c.ahead = text ++ more) :
    c.Passes text (c.advance text.length) := by
  have hpasses := c.passes_advance text.length
  rwa [h, List.take_left] at hpasses

theorem passes_skip (c : Cursor) (p : Char → Bool) : c.Passes (c.run p) (c.skip p) := by
  exact passes_advance_of_ahead _ List.takeWhile_append_dropWhile.symm

theorem exists_passes_pastOrFinish (c : Cursor) (sought : List Char) :
    ∃ text, c.Passes text (c.pastOrFinish sought) := by
  unfold pastOrFinish past?
  cases Text.indexOf? sought c.ahead with
  | none => exact ⟨_, c.passes_advance _⟩
  | some i => exact ⟨_, c.passes_advance _⟩

theorem On.passes (hon : c.On source) (h : c.Passes text d) : d.On source := by
  obtain ⟨before, rfl, hoffset⟩ := hon
  refine ⟨before ++ text, ?_, ?_⟩
  · rw [h.ahead, List.append_assoc]
  · rw [h.offset, hoffset, Text.byteLength_append]

/-- **The span between two places of a cursor** holds the text that it passed over. -/
theorem Passes.slice? (hon : c.On source) (h : c.Passes text d) :
    Text.slice? (c.spanTo d) source = some text := by
  obtain ⟨before, rfl, hoffset⟩ := hon
  rw [Text.slice?_eq_some_iff]
  refine ⟨before, d.ahead, ?_, hoffset, ?_⟩
  · rw [h.ahead]
  · rw [spanTo, h.offset, hoffset]

end Cursor

/-! ## Attributes -/

/-- Where the parts of an attribute stand. -/
structure Attribute.Placed (source : List Char) (a : Attribute) : Prop where
  /-- The span begins with the name, whatever its case is, and the name is not empty. -/
  name : ∃ text, Text.slice? a.span source = some text ∧
    a.name = String.ofList (Text.lower (text.takeWhile isAttributeChar)) ∧
      text.takeWhile isAttributeChar ≠ []
  /-- An attribute with a value has a span for it. -/
  isSome_valueSpan : a.valueSpan.isSome = a.value.isSome
  /-- The span of the value lies in the whole span and holds the value. -/
  value : ∀ value ∈ a.value, ∀ span ∈ a.valueSpan,
    a.span.start ≤ span.start ∧ span.stop ≤ a.span.stop ∧
      Text.slice? span source = some value.toList

namespace Attribute

variable {source : List Char} {start next : Cursor} {a : Attribute}

/-- The name is what the characters of names at the front of an attribute are. -/
theorem exists_name (more : List Char) (hon : start.On source)
    (hspan : a.span = start.spanTo next) (hname : a.name = String.ofList (Text.lower
      (start.run isAttributeChar))) (hne : start.run isAttributeChar ≠ [])
    (hpasses : start.Passes (start.run isAttributeChar ++ more) next)
    (hmore : ∀ c ∈ more.head?, isAttributeChar c = false) :
    ∃ text, Text.slice? a.span source = some text ∧
      a.name = String.ofList (Text.lower (text.takeWhile isAttributeChar)) ∧
        text.takeWhile isAttributeChar ≠ [] := by
  have hall : ∀ c ∈ start.run isAttributeChar, isAttributeChar c = true :=
    List.all_eq_true.1 List.all_takeWhile
  have htake : (start.run isAttributeChar ++ more).takeWhile isAttributeChar =
      start.run isAttributeChar := by
    rw [List.takeWhile_append_of_pos hall]
    cases more with
    | nil => rw [List.takeWhile_nil, List.append_nil]
    | cons c more =>
      have hc := hmore c rfl
      rw [List.takeWhile_cons_of_neg (by simp [hc]), List.append_nil]
  refine ⟨start.run isAttributeChar ++ more, ?_, ?_, ?_⟩
  · rw [hspan]
    exact hpasses.slice? hon
  · rw [htake, hname]
  · rwa [htake]

/-- What is read for a value: the text inside its quotes, if it has any. -/
theorem passes_of_readValue? {value : Cursor} {name : String}
    (h : readValue? start name value = some (a, next)) :
    a.name = name ∧ a.span = start.spanTo next ∧ ∃ c d front inside back,
      value.Passes front c ∧ c.Passes inside d ∧ d.Passes back next ∧
        a.value = some (String.ofList inside) ∧ a.valueSpan = some (c.spanTo d) := by
  unfold readValue? at h
  split at h
  · exact absurd h (by simp)
  · split at h
    · dsimp only at h
      split at h
      · exact absurd h (by simp)
      · next n _ =>
        simp only [Option.some.injEq, Prod.mk.injEq] at h
        obtain ⟨rfl, rfl⟩ := h
        exact ⟨rfl, rfl, _, _, _, _, _, value.passes_advance 1, (value.advance 1).passes_advance n,
          ((value.advance 1).advance n).passes_advance 1, rfl, rfl⟩
    · simp only [Option.some.injEq, Prod.mk.injEq] at h
      obtain ⟨rfl, rfl⟩ := h
      exact ⟨rfl, rfl, _, _, _, _, _, .refl value, value.passes_skip isBareValueChar, .refl _, rfl,
        rfl⟩

/-- What stands between a name and an equality sign does not belong to the name. -/
theorem head?_blanks_sign (rest : List Char) :
    ∀ c ∈ ((start.skip isAttributeChar).run Text.isTagBlank ++ '=' :: rest).head?,
      isAttributeChar c = false := by
  have hall : ∀ c ∈ (start.skip isAttributeChar).run Text.isTagBlank, Text.isTagBlank c = true :=
    List.all_eq_true.1 List.all_takeWhile
  intro c hc
  cases hblanks : (start.skip isAttributeChar).run Text.isTagBlank with
  | nil =>
    rw [hblanks] at hc
    obtain rfl := Option.some.inj hc
    decide
  | cons b bs =>
    rw [hblanks] at hc hall
    obtain rfl := Option.some.inj hc
    have hblank := hall b List.mem_cons_self
    simp [isAttributeChar, hblank]

/-- **An attribute that is read is placed,** and it takes at least its name. -/
theorem placed_of_read? (hon : start.On source) (hne : start.run isAttributeChar ≠ [])
    (h : read? start = some (a, next)) :
    a.Placed source ∧ a.span = start.spanTo next ∧ ∃ text, start.Passes text next ∧ text ≠ [] := by
  have hrun := start.passes_skip isAttributeChar
  -- Behind the name an equality sign decides whether there is a value.
  simp only [read?] at h
  split at h
  · next rest hmark =>
    obtain ⟨hname, hspan, c, d, front, inside, back, hfront, hinside, hback, hvalue, hvalueSpan⟩ :=
      passes_of_readValue? h
    -- The attribute is its name, blanks, the sign, blanks and then what is read for the value.
    have hblanks := (start.skip isAttributeChar).passes_skip Text.isTagBlank
    have hsign := Cursor.passes_advance_of_ahead ['='] hmark
    have hmore := Cursor.passes_skip
      (((start.skip isAttributeChar).skip Text.isTagBlank).advance 1) Text.isTagBlank
    have hto := (hrun.trans (hblanks.trans (hsign.trans hmore))).trans hfront
    have hpasses := hrun.trans (hblanks.trans (hsign.trans (hmore.trans
      (hfront.trans (hinside.trans hback)))))
    refine ⟨⟨?_, ?_, ?_⟩, hspan, _, hpasses, ?_⟩
    · exact exists_name _ hon hspan hname hne hpasses (head?_blanks_sign _)
    · rw [hvalue, hvalueSpan]
      rfl
    · intro value hv span hs
      rw [hvalue] at hv
      rw [hvalueSpan] at hs
      obtain rfl := Option.some.inj hv
      obtain rfl := Option.some.inj hs
      rw [hspan, String.toList_ofList]
      exact ⟨hto.le, hback.le, hinside.slice? (hon.passes hto)⟩
    · exact fun hnil => hne (List.append_eq_nil_iff.1 hnil).1
  · -- A bare attribute is its name alone.
    simp only [Option.some.injEq, Prod.mk.injEq] at h
    obtain ⟨rfl, rfl⟩ := h
    refine ⟨⟨?_, rfl, ?_⟩, rfl, _, hrun, hne⟩
    · exact exists_name [] hon rfl rfl hne (by rwa [List.append_nil]) (by simp)
    · simp

end Attribute

/-! ## Tags -/

/-- The characters that may stand around the attributes of a tag. -/
def isStray (c : Char) : Bool := Text.isTagBlank c || c == '/' || c == '='

/-- Where the attributes of a tag stand between its name, which ends at `nameEnd`, and the end of the
tag at `stop`. -/
structure AttributesPlaced (source : List Char) (nameEnd : Nat) (attributes : List Attribute)
    (attributesEnd : Nat) (selfClosing : Bool) (stop : Nat) : Prop where
  /-- Each is placed. -/
  placed : ∀ a ∈ attributes, a.Placed source
  /-- They are in order and disjoint. -/
  ordered : attributes.Pairwise fun a b => a.span.stop ≤ b.span.start
  /-- They stand behind the name. -/
  behindName : ∀ a ∈ attributes, nameEnd ≤ a.span.start
  /-- They end where the last one ends, or the name if there is none. -/
  attributesEnd_eq :
    attributesEnd = (attributes.getLast?.map fun a => a.span.stop).getD nameEnd
  /-- None ends behind that. -/
  le_attributesEnd : nameEnd ≤ attributesEnd ∧ ∀ a ∈ attributes, a.span.stop ≤ attributesEnd
  /-- Only the end of the tag is left then, behind stray characters. -/
  closing : ∃ gap, (∀ c ∈ gap, isStray c = true) ∧ Text.slice? ⟨attributesEnd, stop⟩ source =
    some (gap ++ if selfClosing then ['/', '>'] else ['>'])

namespace AttributesPlaced

variable {source : List Char} {nameEnd attributesEnd stop : Nat} {attributes : List Attribute}
  {selfClosing : Bool}

theorem nil {gap : List Char} (hgap : ∀ c ∈ gap, isStray c = true)
    (hclosing : Text.slice? ⟨nameEnd, stop⟩ source =
      some (gap ++ if selfClosing then ['/', '>'] else ['>'])) :
    AttributesPlaced source nameEnd [] nameEnd selfClosing stop :=
  ⟨by simp, .nil, by simp, rfl, by simp, gap, hgap, hclosing⟩

/-- One more attribute before the others keeps them placed. -/
theorem cons {a : Attribute} (ha : a.Placed source) (hname : nameEnd ≤ a.span.start)
    (hspan : a.span.start ≤ a.span.stop)
    (h : AttributesPlaced source a.span.stop attributes attributesEnd selfClosing stop) :
    AttributesPlaced source nameEnd (a :: attributes) attributesEnd selfClosing stop := by
  obtain ⟨hend, hle⟩ := h.le_attributesEnd
  refine ⟨?_, ?_, ?_, ?_, ?_, h.closing⟩
  · exact List.forall_mem_cons.2 ⟨ha, h.placed⟩
  · exact List.pairwise_cons.2 ⟨h.behindName, h.ordered⟩
  · refine List.forall_mem_cons.2 ⟨hname, fun b hb => ?_⟩
    have := h.behindName b hb
    omega
  · rw [h.attributesEnd_eq, List.getLast?_cons]
    cases attributes.getLast? <;> rfl
  · exact ⟨by omega, List.forall_mem_cons.2 ⟨hend, hle⟩⟩

end AttributesPlaced

namespace TagBody

variable {source : List Char}

/-- Blanks are stray characters too. -/
theorem passes_blanks {last c : Cursor} {gap : List Char} (hgap : last.Passes gap c)
    (hstray : ∀ ch ∈ gap, isStray ch = true) :
    last.Passes (gap ++ c.run Text.isTagBlank) (c.skip Text.isTagBlank) ∧
      ∀ ch ∈ gap ++ c.run Text.isTagBlank, isStray ch = true := by
  refine ⟨hgap.trans (c.passes_skip Text.isTagBlank), fun ch hch => ?_⟩
  rcases List.mem_append.1 hch with hch | hch
  · exact hstray ch hch
  · have hblank : Text.isTagBlank ch = true := List.all_eq_true.1 List.all_takeWhile ch hch
    rw [isStray, hblank]
    rfl

theorem passes_stray {last c : Cursor} {gap rest : List Char} {ch : Char} (hgap : last.Passes gap c)
    (hstray : ∀ ch ∈ gap, isStray ch = true) (hch : isStray ch = true)
    (hahead : (c.skip Text.isTagBlank).ahead = ch :: rest) :
    last.Passes ((gap ++ c.run Text.isTagBlank) ++ [ch]) ((c.skip Text.isTagBlank).advance 1) ∧
      ∀ d ∈ (gap ++ c.run Text.isTagBlank) ++ [ch], isStray d = true := by
  obtain ⟨hhere, hblanks⟩ := passes_blanks hgap hstray
  refine ⟨hhere.trans (Cursor.passes_advance_of_ahead [ch] hahead), fun d hd => ?_⟩
  rcases List.mem_append.1 hd with hd | hd
  · exact hblanks d hd
  · exact List.mem_singleton.1 hd ▸ hch

/-- What is neither blank nor stray nor the end of a tag begins an attribute. -/
theorem run_isAttributeChar_ne_nil {c : Cursor} {ch : Char} {rest : List Char}
    (hahead : (c.skip Text.isTagBlank).ahead = ch :: rest) (hgt : ch ≠ '>') (hslash : ch ≠ '/')
    (hequals : ch ≠ '=') : (c.skip Text.isTagBlank).run isAttributeChar ≠ [] := by
  have hblank : Text.isTagBlank ch = false := by
    have hhead := List.head?_dropWhile_not Text.isTagBlank c.ahead
    rw [← Cursor.ahead_skip, hahead] at hhead
    simpa using hhead
  have hch : isAttributeChar ch = true := by
    simp [isAttributeChar, hblank, hgt, hslash, hequals]
  rw [Cursor.run, hahead, List.takeWhile_cons_of_pos hch]
  exact List.cons_ne_nil _ _

/-- **What follows the name of a tag is placed,** if only stray characters were passed over since
`last`, where the name or the last attribute ended. -/
theorem placed_of_read? {lastEnd : Nat} {last c : Cursor} {gap : List Char} {body : TagBody}
    (hon : last.On source) (hend : last.offset = lastEnd) (hgap : last.Passes gap c)
    (hstray : ∀ ch ∈ gap, isStray ch = true) (h : read? lastEnd c = some body) :
    AttributesPlaced source last.offset body.attributes body.attributesEnd body.selfClosing
        body.next.offset ∧ ∃ text, last.Passes text body.next := by
  -- The invariant: between `last` and the place that is reached there are stray characters only.
  fun_induction read? lastEnd c generalizing last gap body with
  | case1 => simp at h
  | case2 lastEnd c here rest =>
    rename_i hahead
    obtain ⟨hhere, hblanks⟩ := passes_blanks hgap hstray
    have hpasses := hhere.trans (Cursor.passes_advance_of_ahead ['>'] hahead)
    obtain rfl := Option.some.inj h
    subst hend
    exact ⟨.nil hblanks (hpasses.slice? hon), _, hpasses⟩
  | case3 lastEnd c here rest hhead hahead =>
    obtain ⟨hhere, hblanks⟩ := passes_blanks hgap hstray
    obtain ⟨rest, rfl⟩ := List.head?_eq_some_iff.1 hhead
    have hpasses := hhere.trans (Cursor.passes_advance_of_ahead ['/', '>'] hahead)
    obtain rfl := Option.some.inj h
    subst hend
    exact ⟨.nil hblanks (hpasses.slice? hon), _, hpasses⟩
  | case4 lastEnd c here rest hhead hahead =>
    rename_i ih
    obtain ⟨hpasses, hstrays⟩ := passes_stray hgap hstray (by decide) hahead
    exact ih hon hend hpasses hstrays h
  | case5 lastEnd c here rest hahead =>
    rename_i ih
    obtain ⟨hpasses, hstrays⟩ := passes_stray hgap hstray (by decide) hahead
    exact ih hon hend hpasses hstrays h
  | case6 => simp at h
  | case7 => simp at h
  | case8 lastEnd c here ch rest hahead hgt hslash hequals a next ha body' =>
    rename_i hbody ih
    obtain ⟨hhere, -⟩ := passes_blanks hgap hstray
    have hname := run_isAttributeChar_ne_nil hahead hgt hslash hequals
    obtain ⟨hplaced, hspan, text, hpasses, -⟩ := Attribute.placed_of_read? (hon.passes hhere) hname ha
    have hnext := hhere.trans hpasses
    -- The attribute is the last thing read for what follows it.
    obtain ⟨hbody, more, hmore⟩ := ih (hon.passes hnext) rfl (.refl next) (by simp) hbody
    obtain rfl := Option.some.inj h
    refine ⟨.cons hplaced ?_ ?_ ?_, _, hnext.trans hmore⟩
    · rw [hspan]
      exact hhere.le
    · rw [hspan]
      exact hpasses.le
    · rw [hspan]
      exact hbody

end TagBody

namespace StartTag

/-- The offset behind the name of a tag. -/
def nameEnd (tag : StartTag) : Nat := tag.span.start + 1 + Text.byteLength tag.name.toList

/-- Where the parts of a start tag stand. -/
structure Placed (source : List Char) (tag : StartTag) : Prop where
  /-- The tag begins with its name, whatever its case is. -/
  name : ∃ text, Text.slice? ⟨tag.span.start, tag.nameEnd⟩ source = some ('<' :: text) ∧
    tag.name = String.ofList (Text.lower text)
  /-- Behind the name stand the attributes and then the end of the tag. -/
  attributes : AttributesPlaced source tag.nameEnd tag.attributes tag.attributesEnd tag.selfClosing
    tag.span.stop

variable {source : List Char} {start next : Cursor} {tag : StartTag}

/-- **A start tag that is read is placed.** -/
theorem placed_of_read? {cs : List Char} (hon : start.On source) (hs : start.ahead = '<' :: cs)
    (h : read? start = some (tag, next)) :
    tag.Placed source ∧ tag.span = start.spanTo next ∧
      ∃ text, start.Passes text next ∧ text ≠ [] := by
  obtain ⟨body, hbody, heq⟩ := Option.map_eq_some_iff.1 h
  obtain ⟨rfl, rfl⟩ := Prod.mk.inj heq
  -- The name is passed over first; it is as long in lower case.
  have hopen := Cursor.passes_advance_of_ahead ['<'] hs
  have hname := hopen.trans ((start.advance 1).passes_skip isNameChar)
  obtain ⟨hattributes, more, hmore⟩ :=
    TagBody.placed_of_read? (hon.passes hname) rfl (.refl _) (by simp) hbody
  have hend : ((start.advance 1).skip isNameChar).offset =
      start.offset + 1 + Text.byteLength (Text.lower ((start.advance 1).run isNameChar)) := by
    rw [hname.offset, Text.byteLength_append, Text.byteLength_lower]
    exact (Nat.add_assoc _ _ _).symm
  refine ⟨⟨⟨(start.advance 1).run isNameChar, ?_, rfl⟩, ?_⟩, rfl, _, hname.trans hmore, ?_⟩
  · rw [nameEnd, String.toList_ofList]
    have hslice := hname.slice? hon
    rwa [Cursor.spanTo, hend] at hslice
  · rw [nameEnd, String.toList_ofList]
    rwa [hend] at hattributes
  · simp

end StartTag

/-! ## Tokens -/

namespace Token

/-- Where the parts of a token stand. -/
structure Placed (source : List Char) (token : Token) : Prop where
  /-- The span of a token holds a text, which is not empty unless it is raw. -/
  text : ∃ text, Text.slice? token.span source = some text ∧
    (text = [] → ∃ element span, token = rawText element span)
  /-- The parts of a start tag are placed. -/
  startTag : ∀ tag, token = startTag tag → tag.Placed source

/-- Tokens stand in order from an offset on. -/
structure PlacedFrom (source : List Char) (offset : Nat) (tokens : List Token) : Prop where
  /-- Each is placed. -/
  placed : ∀ t ∈ tokens, t.Placed source
  /-- None begins before the offset. -/
  behind : ∀ t ∈ tokens, offset ≤ t.span.start
  /-- They are in order and disjoint. -/
  ordered : tokens.Pairwise fun a b => a.span.stop ≤ b.span.start

variable {source : List Char} {start next : Cursor}

theorem PlacedFrom.nil (offset : Nat) : PlacedFrom source offset [] :=
  ⟨by simp, by simp, .nil⟩

theorem PlacedFrom.weaken {offset offset' : Nat} {tokens : List Token} (hle : offset' ≤ offset)
    (h : PlacedFrom source offset tokens) : PlacedFrom source offset' tokens :=
  ⟨h.placed, fun t ht => Nat.le_trans hle (h.behind t ht), h.ordered⟩

theorem PlacedFrom.append {offset middle : Nat} {first more : List Token} (hle : offset ≤ middle)
    (hfirst : PlacedFrom source offset first) (hstop : ∀ t ∈ first, t.span.stop ≤ middle)
    (hmore : PlacedFrom source middle more) : PlacedFrom source offset (first ++ more) := by
  refine ⟨?_, ?_, ?_⟩
  · exact List.forall_mem_append.2 ⟨hfirst.placed, hmore.placed⟩
  · exact List.forall_mem_append.2 ⟨hfirst.behind, (hmore.weaken hle).behind⟩
  · refine List.pairwise_append.2 ⟨hfirst.ordered, hmore.ordered, fun a ha b hb => ?_⟩
    exact Nat.le_trans (hstop a ha) (hmore.behind b hb)

theorem PlacedFrom.singleton {token : Token} (hplaced : token.Placed source)
    (hspan : token.span = start.spanTo next) : PlacedFrom source start.offset [token] := by
  refine ⟨?_, ?_, List.pairwise_singleton _ _⟩
  · exact List.forall_mem_singleton.2 hplaced
  · exact List.forall_mem_singleton.2 (by rw [hspan]; exact Nat.le_refl _)

/-- What is read at a place, and the place behind it. -/
structure ReadTo (source : List Char) (start : Cursor) (tokens : List Token) (next : Cursor) :
    Prop where
  /-- The tokens stand in order. -/
  placed : PlacedFrom source start.offset tokens
  /-- None ends behind the place. -/
  stop : ∀ t ∈ tokens, t.span.stop ≤ next.offset
  /-- A text is passed over. -/
  passes : ∃ text, start.Passes text next

theorem ReadTo.singleton {token : Token} {text : List Char} (hon : start.On source)
    (hpasses : start.Passes text next) (hspan : token.span = start.spanTo next)
    (hempty : text = [] → ∃ element span, token = rawText element span)
    (htag : ∀ tag, token = .startTag tag → tag.Placed source) :
    ReadTo source start [token] next := by
  have hslice : Text.slice? token.span source = some text := by
    rw [hspan]
    exact hpasses.slice? hon
  refine ⟨.singleton ⟨⟨text, hslice, hempty⟩, htag⟩ hspan, ?_, text, hpasses⟩
  exact List.forall_mem_singleton.2 (by rw [hspan]; exact Nat.le_refl _)

theorem ReadTo.append {first more : List Token} {behind : Cursor}
    (hfirst : ReadTo source start first next) (hmore : ReadTo source next more behind) :
    ReadTo source start (first ++ more) behind := by
  obtain ⟨text, htext⟩ := hfirst.passes
  obtain ⟨text', htext'⟩ := hmore.passes
  refine ⟨hfirst.placed.append htext.le hfirst.stop hmore.placed, ?_, _, htext.trans htext'⟩
  refine List.forall_mem_append.2 ⟨fun t ht => ?_, hmore.stop⟩
  exact Nat.le_trans (hfirst.stop t ht) htext'.le

theorem exists_passes_rawTextEnd (element : String) (c : Cursor) :
    ∃ text, c.Passes text (rawTextEnd element c) := by
  unfold rawTextEnd
  split
  · exact ⟨_, c.passes_advance _⟩
  · exact ⟨_, c.passes_advance _⟩

/-- A tag that is placed, with the raw text behind it. -/
theorem readTo_ofStartTag {tag : StartTag} {text : List Char} (hon : start.On source)
    (hpasses : start.Passes text next) (hne : text ≠ []) (hspan : tag.span = start.spanTo next)
    (htag : tag.Placed source) :
    ReadTo source start (ofStartTag tag next).1 (ofStartTag tag next).2 := by
  have hread : ReadTo source start [.startTag tag] next := by
    refine .singleton hon hpasses hspan (fun hnil => absurd hnil hne) fun tag' h => ?_
    obtain rfl := Token.startTag.inj h
    exact htag
  unfold ofStartTag
  split
  · obtain ⟨raw, hraw⟩ := exists_passes_rawTextEnd tag.name next
    exact hread.append
      (.singleton (hon.passes hpasses) hraw rfl (fun _ => ⟨_, _, rfl⟩) (by simp))
  · exact hread

/-- A token that is not a tag and runs to the first text of a kind, or to the end of the source. -/
theorem readTo_pastOrFinish {token : Token} {front sought : List Char} {behind : Cursor}
    (hon : start.On source) (hfront : start.Passes front behind) (hne : front ≠ [])
    (hspan : token.span = start.spanTo (behind.pastOrFinish sought))
    (htag : ∀ tag, token ≠ .startTag tag) :
    ReadTo source start [token] (behind.pastOrFinish sought) := by
  obtain ⟨text, htext⟩ := behind.exists_passes_pastOrFinish sought
  refine .singleton hon (hfront.trans htext) hspan (fun hnil => ?_) fun tag h => absurd h (htag tag)
  exact absurd (List.append_eq_nil_iff.1 hnil).1 hne

/-- **The tokens that begin at a place are placed.** -/
theorem readTo_of_read? {tokens : List Token} (hon : start.On source)
    (h : read? start = some (tokens, next)) : ReadTo source start tokens next := by
  unfold read? at h
  split at h
  · next hs =>
    obtain ⟨rfl, rfl⟩ := Prod.mk.inj (Option.some.inj h)
    have hfront := Cursor.passes_advance_of_ahead ['<', '!', '-', '-'] hs
    exact readTo_pastOrFinish hon hfront (by simp) rfl (by simp)
  · next hs =>
    obtain ⟨⟨token, behind⟩, hend, heq⟩ := Option.map_eq_some_iff.1 h
    obtain ⟨rfl, rfl⟩ := Prod.mk.inj heq
    simp only [readEndTag?] at hend
    split at hend
    · exact absurd hend (by simp)
    · obtain ⟨rfl, rfl⟩ := Prod.mk.inj (Option.some.inj hend)
      have hopen := Cursor.passes_advance_of_ahead ['<', '/'] hs
      have hname := hopen.trans ((start.advance 2).passes_skip isNameChar)
      exact readTo_pastOrFinish hon hname (by simp) rfl (by simp)
  · next hs =>
    obtain ⟨rfl, rfl⟩ := Prod.mk.inj (Option.some.inj h)
    have hfront := Cursor.passes_advance_of_ahead ['<'] hs
    exact readTo_pastOrFinish hon hfront (by simp) rfl (by simp)
  · next hs =>
    obtain ⟨rfl, rfl⟩ := Prod.mk.inj (Option.some.inj h)
    have hfront := Cursor.passes_advance_of_ahead ['<'] hs
    exact readTo_pastOrFinish hon hfront (by simp) rfl (by simp)
  · next hs =>
    split at h
    · obtain ⟨⟨tag, behind⟩, htag, heq⟩ := Option.map_eq_some_iff.1 h
      obtain ⟨hplaced, hspan, text, hpasses, hne⟩ := StartTag.placed_of_read? hon hs htag
      have hread := readTo_ofStartTag hon hpasses hne hspan hplaced
      dsimp only at heq
      rwa [heq] at hread
    · exact absurd h (by simp)
  · exact absurd h (by simp)

/-! ## A whole source -/

/-- **The tokens from a place on are placed,** whether something begins there or not. -/
theorem placedFrom_tokensFrom {c : Cursor} (hon : c.On source) :
    PlacedFrom source c.offset (tokensFrom c) := by
  fun_induction tokensFrom c with
  | case1 => exact .nil _
  | case2 c _ tokens next hread ih =>
    obtain ⟨hplaced, hstop, text, hpasses⟩ := readTo_of_read? hon hread
    exact hplaced.append hpasses.le hstop (ih (hon.passes hpasses))
  | case3 c _ _ ih =>
    -- Nothing begins here, and one character is plain text.
    have hpasses := c.passes_advance 1
    exact (ih (hon.passes hpasses)).weaken hpasses.le

/-- **The tokens of a source** are in order and disjoint, and each stands where its spans say: they can
be cut out of the source, and the parts of a start tag lie behind each other in it. -/
theorem tokenize_placed (source : String) :
    (tokenize source).Pairwise (fun a b => a.span.stop ≤ b.span.start) ∧
      ∀ t ∈ tokenize source, t.Placed source.toList := by
  have h := placedFrom_tokensFrom (Cursor.on_front source.toList)
  exact ⟨h.ordered, h.placed⟩

end Token

end MailTemplate
