import MailTemplate.Proofs.TextAhead

/-!
# Tags as they are written

A token says where the parts of a tag stand, but not how they are written.  Here a tag is taken apart
without losing anything: its name in its own letter case, attributes with their blanks and quotes, and
the stray characters between them.  What is written like this is read as the tag that it stands for, and
every tag that is read is written like this.

The parts of a tag depend on each other only through the characters that follow them: an attribute
without a value must not be followed by an equality sign, and a value without quotes must end where it
is meant to.

## Main definitions

* `WrittenAttribute`, `TagPart`, `WrittenTag` — attributes and tags as they are written.
* `WrittenAttribute.Fits`, `TagPart.Fit`, `WrittenTag.Fits` — what is read as it is meant.
* `WrittenTag.quoted` — a tag with its values in double quotes.
* `TagPart.Replaces` — one character may stand in the place of another one.

## Main results

* `Attribute.read?_written`, `StartTag.read?_written` — what is written is read as it is meant.
* `Attribute.exists_written`, `StartTag.exists_written` — what is read is written.
* `TagPart.Fit.replace` — only the first character behind some parts matters to them.
-/

namespace MailTemplate

/-! ## Attributes -/

/-- The value of an attribute with the equality sign before it. -/
structure WrittenValue where
  /-- The equality sign and the blanks around it. -/
  sign : List Char
  /-- The quote on both sides, if there is one. -/
  quote : Option Char
  /-- The value itself. -/
  text : List Char

/-- An attribute as it is written. -/
structure WrittenAttribute where
  /-- The name in its own letter case. -/
  name : List Char
  /-- The value, if it has one. -/
  value : Option WrittenValue

/-- How a value is written. -/
def WrittenValue.written (v : WrittenValue) : List Char :=
  v.sign ++ (v.quote.toList ++ (v.text ++ v.quote.toList))

/-- A value is read as it is meant in front of a rest. -/
structure WrittenValue.Fits (v : WrittenValue) (rest : List Char) : Prop where
  /-- There is one equality sign among blanks. -/
  sign : ∃ before behind, v.sign = before ++ '=' :: behind ∧
    (∀ c ∈ before, Text.isTagBlank c = true) ∧ ∀ c ∈ behind, Text.isTagBlank c = true
  /-- The value does not hold its quote. -/
  quoted : ∀ q ∈ v.quote, (q = '"' ∨ q = '\'') ∧ q ∉ v.text
  /-- Without a quote it holds no blanks, ends before the rest and does not begin with a quote. -/
  bare : v.quote = none → (∀ c ∈ v.text, isBareValueChar c = true) ∧
    (∀ c ∈ rest.head?, isBareValueChar c = false) ∧
      ∃ c, (v.text ++ rest).head? = some c ∧ Text.isTagBlank c = false ∧ c ≠ '"' ∧ c ≠ '\''

namespace WrittenAttribute

/-- How an attribute is written. -/
def written (a : WrittenAttribute) : List Char :=
  a.name ++ match a.value with
    | some v => v.written
    | none => []

/-- The name as it is read. -/
def key (a : WrittenAttribute) : String := String.ofList (Text.lower a.name)

/-- Where the value stands of an attribute that stands at an offset. -/
def valueStart (a : WrittenAttribute) (v : WrittenValue) (o : Nat) : Nat :=
  o + Text.byteLength a.name + Text.byteLength v.sign + Text.byteLength v.quote.toList

/-- The attribute that is read at an offset. -/
def at_ (a : WrittenAttribute) (o : Nat) : Attribute where
  name := a.key
  value := a.value.map fun v => String.ofList v.text
  span := ⟨o, o + Text.byteLength a.written⟩
  valueSpan := a.value.map fun v =>
    ⟨a.valueStart v o, a.valueStart v o + Text.byteLength v.text⟩

/-- An attribute is read as it is meant in front of a rest. -/
structure Fits (a : WrittenAttribute) (rest : List Char) : Prop where
  /-- It has a name. -/
  name_ne_nil : a.name ≠ []
  /-- The name consists of characters of names. -/
  name : ∀ c ∈ a.name, isAttributeChar c = true
  /-- The value is read as it is meant. -/
  value : ∀ v ∈ a.value, v.Fits rest
  /-- Without a value, the rest does not go on with the name, and no equality sign follows. -/
  bare : a.value = none → (∀ c ∈ rest.head?, isAttributeChar c = false) ∧
    (rest.dropWhile Text.isTagBlank).head? ≠ some '='

end WrittenAttribute

theorem isAttributeChar_of_isTagBlank {c : Char} (h : Text.isTagBlank c = true) :
    isAttributeChar c = false := by
  simp [isAttributeChar, h]

theorem indexOf?_singleton_append {q : Char} {text : List Char} (h : q ∉ text) (rest : List Char) :
    Text.indexOf? [q] (text ++ q :: rest) = some text.length := by
  unfold Text.indexOf?
  induction text with
  | nil => exact Text.indexOfBy?_of_begins (by simp [Text.beginsWithBy])
  | cons c cs ih =>
    have hc : q ≠ c := fun hqc => h (by simp [hqc])
    rw [List.cons_append, Text.indexOfBy?, ih fun hm => h (List.mem_cons_of_mem c hm)]
    simp [Text.beginsWithBy, hc]

/-- What stands between a name and an equality sign does not belong to the name. -/
theorem isAttributeChar_head?_sign {before : List Char}
    (h : ∀ c ∈ before, Text.isTagBlank c = true) (rest : List Char) :
    ∀ c ∈ (before ++ '=' :: rest).head?, isAttributeChar c = false := by
  intro c hc
  cases before with
  | nil =>
    obtain rfl := Option.some.inj hc
    decide
  | cons b bs =>
    obtain rfl := Option.some.inj hc
    exact isAttributeChar_of_isTagBlank (h b List.mem_cons_self)

/-- A value begins with its quote or with a character that is no blank. -/
theorem WrittenValue.Fits.isTagBlank_head? {v : WrittenValue} {rest : List Char} (h : v.Fits rest) :
    ∀ c ∈ (v.quote.toList ++ (v.text ++ v.quote.toList) ++ rest).head?,
      Text.isTagBlank c = false := by
  intro c hc
  cases hquote : v.quote with
  | some q =>
    rw [hquote] at hc
    obtain rfl := Option.some.inj hc
    rcases (h.quoted q hquote).1 with rfl | rfl <;> decide
  | none =>
    obtain ⟨-, -, d, hd, hblank, -⟩ := h.bare hquote
    rw [hquote] at hc
    simp only [Option.toList_none, List.nil_append, List.append_nil, hd] at hc
    obtain rfl := Option.some.inj hc
    exact hblank

theorem not_mem_take_of_indexOf? {q : Char} {text : List Char} {n : Nat}
    (h : Text.indexOf? [q] text = some n) : q ∉ text.take n := by
  unfold Text.indexOf? at h
  induction text generalizing n with
  | nil => simp
  | cons c cs ih =>
    rw [Text.indexOfBy?] at h
    split at h
    · obtain rfl := Option.some.inj h
      simp
    · next hc =>
      obtain ⟨m, hm, rfl⟩ := Option.map_eq_some_iff.1 h
      have hqc : q ≠ c := by simpa [Text.beginsWithBy] using hc
      simpa [hqc] using ih hm

namespace Attribute

/-- **A written value is read** as it is meant. -/
theorem readValue?_written {v : WrittenValue} {rest : List Char} (h : v.Fits rest) (start : Cursor)
    (name : String) (o : Nat) :
    let open_ := o + Text.byteLength v.quote.toList
    let close := open_ + Text.byteLength v.text
    let next : Cursor := ⟨close + Text.byteLength v.quote.toList, rest⟩
    readValue? start name ⟨o, v.quote.toList ++ (v.text ++ v.quote.toList) ++ rest⟩ =
      some (⟨name, some (String.ofList v.text), start.spanTo next, some ⟨open_, close⟩⟩, next) := by
  intro open_ close next
  cases hquote : v.quote with
  | some q =>
    obtain ⟨hq, hnot⟩ := h.quoted q hquote
    have hindex := indexOf?_singleton_append hnot rest
    have hinner : (⟨o, q :: (v.text ++ q :: rest)⟩ : Cursor).advance 1 =
        ⟨o + Text.byteLength [q], v.text ++ q :: rest⟩ :=
      Cursor.advance_append o [q] (v.text ++ q :: rest)
    have hclose := Cursor.advance_append (o + Text.byteLength [q]) v.text (q :: rest)
    have hnext : (⟨o + Text.byteLength [q] + Text.byteLength v.text, q :: rest⟩ : Cursor).advance 1 =
        ⟨o + Text.byteLength [q] + Text.byteLength v.text + Text.byteLength [q], rest⟩ :=
      Cursor.advance_append _ [q] rest
    have hshape : (some q).toList ++ (v.text ++ (some q).toList) ++ rest = q :: (v.text ++ q :: rest) := by
      simp
    rw [hshape]
    simp only [readValue?, if_pos hq, hinner, hindex, hclose, hnext, List.take_left, Cursor.spanTo,
      Option.toList_some, next, close, open_, hquote]
  | none =>
    obtain ⟨htext, hrest, c, hc, -, hdouble, hsingle⟩ := h.bare hquote
    have hshape : (none : Option Char).toList ++ (v.text ++ (none : Option Char).toList) ++ rest =
        v.text ++ rest := by simp
    obtain ⟨tail, htail⟩ := List.head?_eq_some_iff.1 hc
    have hnot : ¬ (c = '"' ∨ c = '\'') := by simp [hdouble, hsingle]
    have hrun := Cursor.run_append (o := o) htext hrest
    have hskip := Cursor.skip_append (o := o) htext hrest
    rw [hshape]
    rw [htail] at hrun hskip ⊢
    simp only [readValue?, if_neg hnot, hrun, hskip, Cursor.spanTo, Option.toList_none,
      Text.byteLength_nil, Nat.add_zero, next, close, open_, hquote]

/-- **A written attribute is read** as it is meant. -/
theorem read?_written {a : WrittenAttribute} {rest : List Char} (h : a.Fits rest) (o : Nat) :
    read? ⟨o, a.written ++ rest⟩ = some (a.at_ o, ⟨o + Text.byteLength a.written, rest⟩) := by
  cases hvalue : a.value with
  | none =>
    obtain ⟨hrest, hsign⟩ := h.bare hvalue
    have hwritten : a.written = a.name := by simp [WrittenAttribute.written, hvalue]
    have hrun := Cursor.run_append (o := o) h.name hrest
    have hskip := Cursor.skip_append (o := o) h.name hrest
    have hmark := Cursor.ahead_skip ⟨o + Text.byteLength a.name, rest⟩ Text.isTagBlank
    rw [hwritten]
    simp only [read?, hrun, hskip]
    split
    · next tail hahead =>
      rw [hmark] at hahead
      exact absurd (by rw [hahead]; rfl) hsign
    · simp [WrittenAttribute.at_, WrittenAttribute.key, hvalue, hwritten, Cursor.spanTo]
  | some v =>
    have hv := h.value v hvalue
    obtain ⟨before, behind, hsign, hbefore, hbehind⟩ := hv.sign
    have hwritten : a.written = a.name ++ v.written := by simp [WrittenAttribute.written, hvalue]
    have hshape : a.written ++ rest = a.name ++ (before ++ ('=' :: (behind ++
        (v.quote.toList ++ (v.text ++ v.quote.toList) ++ rest)))) := by
      simp [hwritten, WrittenValue.written, hsign]
    -- The name ends at a blank or at the sign, and the blanks end at the sign and at the value.
    have hname := isAttributeChar_head?_sign hbefore
      (behind ++ (v.quote.toList ++ (v.text ++ v.quote.toList) ++ rest))
    have hvalueHead := hv.isTagBlank_head?
    have hrun := Cursor.run_append (o := o) h.name hname
    have hskip := Cursor.skip_append (o := o) h.name hname
    have hmark : (⟨o + Text.byteLength a.name, before ++ '=' :: (behind ++
        (v.quote.toList ++ (v.text ++ v.quote.toList) ++ rest))⟩ : Cursor).skip Text.isTagBlank = _ :=
      Cursor.skip_append hbefore (by rintro c ⟨⟩; decide)
    have hsignEnd := Cursor.advance_append
      (o + Text.byteLength a.name + Text.byteLength before) ['=']
      (behind ++ (v.quote.toList ++ (v.text ++ v.quote.toList) ++ rest))
    have hstart := Cursor.skip_append
      (o := o + Text.byteLength a.name + Text.byteLength before + Text.byteLength ['=']) hbehind
      hvalueHead
    rw [hshape]
    simp only [List.cons_append, List.nil_append, List.length_cons, List.length_nil] at hsignEnd
    simp only [read?, hrun, hskip, hmark, hsignEnd, hstart, readValue?_written hv]
    have hlength : Text.byteLength v.sign =
        Text.byteLength before + Text.byteLength ['='] + Text.byteLength behind := by
      simp [hsign, Text.byteLength_append]; omega
    simp [WrittenAttribute.at_, WrittenAttribute.key, hvalue, hwritten, Cursor.spanTo,
      WrittenAttribute.valueStart, WrittenValue.written, Text.byteLength_append, hlength]
    omega

/-- **Every value that is read is written** in one of the two ways. -/
theorem exists_writtenValue {start value next : Cursor} {name : String} {a : Attribute}
    (before behind : List Char) (hbefore : ∀ c ∈ before, Text.isTagBlank c = true)
    (hbehind : ∀ c ∈ behind, Text.isTagBlank c = true)
    (hblank : ∀ c ∈ value.ahead.head?, Text.isTagBlank c = false)
    (h : readValue? start name value = some (a, next)) :
    ∃ v : WrittenValue, v.sign = before ++ '=' :: behind ∧ v.Fits next.ahead ∧
      value.ahead = v.quote.toList ++ (v.text ++ v.quote.toList) ++ next.ahead := by
  unfold readValue? at h
  split at h
  · exact absurd h (by simp)
  · next q rest hahead =>
    split at h
    · next hq =>
      dsimp only at h
      split at h
      · exact absurd h (by simp)
      · next n hindex =>
        obtain ⟨-, rfl⟩ := Prod.mk.inj (Option.some.inj h)
        -- The quote does not occur before the place where it is found first.
        have hinner : (value.advance 1).ahead = rest := by simp [hahead]
        rw [hinner] at hindex
        obtain ⟨more, hmore⟩ := Text.prefix_drop_of_indexOf? hindex
        have hn := Text.indexOfBy?_le hindex
        have hrest : rest = rest.take n ++ (q :: more) := by
          rw [← List.singleton_append, hmore, List.take_append_drop]
        have hnext : (((value.advance 1).advance n).advance 1).ahead = more := by
          simp [hahead, ← hmore]
        refine ⟨⟨before ++ '=' :: behind, some q, rest.take n⟩, rfl, ⟨⟨_, _, rfl, hbefore, hbehind⟩,
          fun q' hq' => ?_, fun hnone => absurd hnone (by simp)⟩, ?_⟩
        · obtain rfl := Option.some.inj hq'
          exact ⟨hq, not_mem_take_of_indexOf? hindex⟩
        · rw [hahead, hnext]
          simpa using hrest
    · next hq =>
      obtain ⟨-, rfl⟩ := Prod.mk.inj (Option.some.inj h)
      have hsplit := Cursor.ahead_eq_run_append value isBareValueChar
      refine ⟨⟨before ++ '=' :: behind, none, value.run isBareValueChar⟩, rfl,
        ⟨⟨_, _, rfl, hbefore, hbehind⟩, by simp, fun _ => ⟨Cursor.of_mem_run,
          value.head?_skip isBareValueChar, q, ?_, hblank q (by rw [hahead]; rfl), ?_⟩⟩, ?_⟩
      · rw [← hsplit, hahead]
        rfl
      · exact not_or.1 hq
      · simpa using hsplit

/-- **Every attribute that is read is written.** -/
theorem exists_written {start next : Cursor} {a : Attribute}
    (hne : start.run isAttributeChar ≠ []) (h : read? start = some (a, next)) :
    ∃ w : WrittenAttribute, w.Fits next.ahead ∧ start.ahead = w.written ++ next.ahead := by
  have hname := Cursor.ahead_eq_run_append start isAttributeChar
  have hblanks := Cursor.ahead_eq_run_append (start.skip isAttributeChar) Text.isTagBlank
  simp only [read?] at h
  split at h
  · next rest hmark =>
    have hvalue := Cursor.ahead_eq_run_append
      ((((start.skip isAttributeChar).skip Text.isTagBlank).advance 1)) Text.isTagBlank
    obtain ⟨v, hsign, hfits, hahead⟩ := exists_writtenValue
      ((start.skip isAttributeChar).run Text.isTagBlank)
      ((((start.skip isAttributeChar).skip Text.isTagBlank).advance 1).run Text.isTagBlank)
      Cursor.of_mem_run Cursor.of_mem_run (Cursor.head?_skip _ _) h
    refine ⟨⟨start.run isAttributeChar, some v⟩, ⟨hne, Cursor.of_mem_run, ?_, by simp⟩, ?_⟩
    · intro v' hv'
      obtain rfl := Option.some.inj hv'
      exact hfits
    · have hrest : (((start.skip isAttributeChar).skip Text.isTagBlank).advance 1).ahead = rest := by
        simp [hmark]
      rw [hrest, hahead] at hvalue
      rw [hname, hblanks, hmark, hvalue]
      simp [WrittenAttribute.written, WrittenValue.written, hsign]
  · next hmark =>
    obtain ⟨-, rfl⟩ := Prod.mk.inj (Option.some.inj h)
    refine ⟨⟨start.run isAttributeChar, none⟩, ⟨hne, Cursor.of_mem_run, by simp, fun _ =>
      ⟨Cursor.head?_skip _ _, fun hsign => ?_⟩⟩, ?_⟩
    · obtain ⟨rest, hrest⟩ := List.head?_eq_some_iff.1 hsign
      exact hmark rest (by rw [Cursor.ahead_skip, hrest])
    · simpa [WrittenAttribute.written] using hname

end Attribute

/-! ## Tags -/

/-- A part of a start tag behind its name. -/
inductive TagPart where
  /-- A blank, or a slash or an equality sign that belongs to nothing. -/
  | stray (c : Char)
  /-- An attribute. -/
  | named (a : WrittenAttribute)

/-- A start tag as it is written. -/
structure WrittenTag where
  /-- The name in its own letter case. -/
  name : List Char
  /-- What stands behind the name. -/
  parts : List TagPart
  /-- Whether a slash stands before the end. -/
  selfClosing : Bool

/-- How a part is written. -/
def TagPart.written : TagPart → List Char
  | stray c => [c]
  | named a => a.written

namespace TagPart

/-- The attributes among parts of which the first stands at an offset. -/
def attributes (o : Nat) : List TagPart → List Attribute
  | [] => []
  | stray c :: parts => attributes (o + Text.byteLength [c]) parts
  | named a :: parts => a.at_ o :: attributes (o + Text.byteLength a.written) parts

/-- Where the last attribute ends among parts of which the first stands at an offset; `lastEnd` if there
is none. -/
def attributesEnd (lastEnd o : Nat) : List TagPart → Nat
  | [] => lastEnd
  | stray c :: parts => attributesEnd lastEnd (o + Text.byteLength [c]) parts
  | named a :: parts =>
    attributesEnd (o + Text.byteLength a.written) (o + Text.byteLength a.written) parts

/-- The parts are read as they are meant in front of a rest. -/
def Fit : List TagPart → List Char → Prop
  | [], _ => True
  | stray c :: parts, rest => isStray c = true ∧
    (c = '/' → (parts.flatMap written ++ rest).head? ≠ some '>') ∧ Fit parts rest
  | named a :: parts, rest => a.Fits (parts.flatMap written ++ rest) ∧ Fit parts rest

theorem attributes_append (front back : List TagPart) (o : Nat) :
    attributes o (front ++ back) =
      attributes o front ++ attributes (o + Text.byteLength (front.flatMap written)) back := by
  induction front generalizing o with
  | nil => simp [attributes]
  | cons part front ih =>
    cases part <;> simp [attributes, ih, written, Text.byteLength_append, Nat.add_assoc]

theorem fit_append {front back : List TagPart} {rest : List Char} :
    Fit (front ++ back) rest ↔ Fit front (back.flatMap written ++ rest) ∧ Fit back rest := by
  induction front with
  | nil => simp [Fit]
  | cons part front ih => cases part <;> simp [Fit, ih, and_assoc]

end TagPart

namespace WrittenTag

/-- How the end of a tag is written. -/
def closing (selfClosing : Bool) : List Char := if selfClosing then ['/', '>'] else ['>']

/-- How a tag is written. -/
def written (t : WrittenTag) : List Char :=
  '<' :: t.name ++ (t.parts.flatMap TagPart.written ++ closing t.selfClosing)

/-- The name as it is read. -/
def key (t : WrittenTag) : String := String.ofList (Text.lower t.name)

/-- The offset behind the name of a tag that stands at an offset. -/
def nameEnd (t : WrittenTag) (o : Nat) : Nat := o + Text.byteLength ('<' :: t.name)

/-- The tag that is read at an offset. -/
def at_ (t : WrittenTag) (o : Nat) : StartTag where
  name := t.key
  attributes := TagPart.attributes (t.nameEnd o) t.parts
  span := ⟨o, o + Text.byteLength t.written⟩
  attributesEnd := TagPart.attributesEnd (t.nameEnd o) (t.nameEnd o) t.parts
  selfClosing := t.selfClosing

/-- A tag is read as it is meant. -/
structure Fits (t : WrittenTag) : Prop where
  /-- The name begins with a letter. -/
  letter : ∃ c cs, t.name = c :: cs ∧ c.isAlpha = true
  /-- The name consists of characters of names. -/
  name : ∀ c ∈ t.name, isNameChar c = true
  /-- What follows does not go on with the name. -/
  nameEnd : ∀ c ∈ (t.parts.flatMap TagPart.written ++ closing t.selfClosing).head?,
    isNameChar c = false
  /-- The parts are read as they are meant in front of the end. -/
  parts : TagPart.Fit t.parts (closing t.selfClosing)

end WrittenTag

namespace TagPart

variable {c c' : Char} {rest rest' : List Char}

/-- One character may stand in the place of another one in front of which something fits. -/
def Replaces (c c' : Char) : Prop :=
  c' = c ∨ isAttributeChar c = true ∧ isAttributeChar c' = true ∧ c' ≠ '"' ∧ c' ≠ '\''

/-- A first character that was no character of names still is none. -/
theorem Replaces.head? (hc : Replaces c c') {p : Char → Bool} {between : List Char}
    (hp : ∀ d, isAttributeChar d = true → p d = true)
    (h : ∀ d ∈ (between ++ c :: rest).head?, p d = false) :
    ∀ d ∈ (between ++ c' :: rest').head?, p d = false := by
  cases between with
  | cons b bs => exact h
  | nil =>
    have hpc := h c rfl
    rintro d ⟨⟩
    rcases hc with rfl | ⟨hattr, -⟩
    · exact hpc
    · exact absurd (hp c hattr) (by simp [hpc])

theorem Replaces.dropWhile_head? (hc : Replaces c c') (hblank : Text.isTagBlank c = false)
    (hblank' : Text.isTagBlank c' = false) {between : List Char}
    (h : ((between ++ c :: rest).dropWhile Text.isTagBlank).head? ≠ some '=') :
    ((between ++ c' :: rest').dropWhile Text.isTagBlank).head? ≠ some '=' := by
  induction between with
  | nil =>
    simp only [List.nil_append, List.dropWhile_cons, hblank, hblank', Bool.false_eq_true, if_false,
      List.head?_cons, ne_eq, Option.some.injEq] at h ⊢
    rcases hc with rfl | ⟨-, hattr, -⟩
    · exact h
    · rintro rfl
      exact absurd hattr (by decide)
  | cons b bs ih =>
    simp only [List.cons_append, List.dropWhile_cons] at h ⊢
    split at h
    · next hb => rw [if_pos hb]; exact ih h
    · next hb => rw [if_neg hb]; exact h

/-- **What fits in front of one character** fits in front of another one in its place. -/
theorem Fit.replace {parts : List TagPart} (hc : Replaces c c') (hblank : Text.isTagBlank c = false)
    (hblank' : Text.isTagBlank c' = false) (h : Fit parts (c :: rest)) : Fit parts (c' :: rest') := by
  induction parts with
  | nil => trivial
  | cons part parts ih =>
    cases part with
    | stray d =>
      obtain ⟨hstray, hslash, hparts⟩ := h
      refine ⟨hstray, fun hd => ?_, ih hparts⟩
      have hnext := hslash hd
      cases hbetween : parts.flatMap written with
      | cons b bs => rw [hbetween] at hnext; exact hnext
      | nil =>
        rw [hbetween] at hnext
        rcases hc with rfl | ⟨-, hattr, -⟩
        · exact hnext
        · rw [List.nil_append, List.head?_cons, ne_eq, Option.some.injEq]
          rintro rfl
          exact absurd hattr (by decide)
    | named a =>
      obtain ⟨ha, hparts⟩ := h
      refine ⟨⟨ha.name_ne_nil, ha.name, fun v hv => ?_, fun hnone => ?_⟩, ih hparts⟩
      · have hfits := ha.value v hv
        refine ⟨hfits.sign, hfits.quoted, fun hquote => ?_⟩
        obtain ⟨htext, hnext, d, hd, hdblank, hdouble, hsingle⟩ := hfits.bare hquote
        refine ⟨htext, hc.head? (fun e he => ?_) hnext, ?_⟩
        · simp only [isAttributeChar, isBareValueChar, Bool.and_eq_true] at he ⊢
          exact ⟨he.1.1.1, he.1.2⟩
        · rw [← List.append_assoc] at hd ⊢
          cases hfront : v.text ++ parts.flatMap written with
          | cons b bs => rw [hfront] at hd; exact ⟨d, hd, hdblank, hdouble, hsingle⟩
          | nil =>
            rw [hfront] at hd
            obtain rfl := Option.some.inj hd
            refine ⟨c', rfl, hblank', ?_⟩
            rcases hc with rfl | ⟨-, -, hquotes⟩
            · exact ⟨hdouble, hsingle⟩
            · exact hquotes
      · obtain ⟨hnext, hsign⟩ := ha.bare hnone
        exact ⟨hc.head? (fun _ he => he) hnext, hc.dropWhile_head? hblank hblank' hsign⟩

end TagPart

namespace TagBody

/-- Only what follows the blanks matters. -/
theorem read?_congr {lastEnd : Nat} {c d : Cursor}
    (h : c.skip Text.isTagBlank = d.skip Text.isTagBlank) : read? lastEnd c = read? lastEnd d := by
  rw [read?.eq_def, read?.eq_def lastEnd d, h]

variable {lastEnd : Nat} {o : Nat} {rest : List Char}

theorem skip_of_not_isTagBlank {c : Char} {cs : List Char} (hc : Text.isTagBlank c = false) :
    (⟨o, c :: cs⟩ : Cursor).skip Text.isTagBlank = ⟨o, c :: cs⟩ :=
  @Cursor.skip_append o [] (c :: cs) _ (by simp) (by rintro d ⟨⟩; exact hc)

theorem read?_blank {c : Char} (hc : Text.isTagBlank c = true) :
    read? lastEnd ⟨o, c :: rest⟩ = read? lastEnd ⟨o + Text.byteLength [c], rest⟩ := by
  refine read?_congr ?_
  have hrun := List.takeWhile_cons_of_pos (p := Text.isTagBlank) (l := rest) hc
  simp only [Cursor.skip, Cursor.run, Cursor.advance, hrun, List.length_cons, List.take_succ_cons,
    List.drop_succ_cons, Text.byteLength_cons, Text.byteLength_nil, Nat.add_zero, Nat.add_assoc]

theorem read?_close (selfClosing : Bool) :
    read? lastEnd ⟨o, WrittenTag.closing selfClosing ++ rest⟩ = some ⟨[], lastEnd, selfClosing,
      ⟨o + Text.byteLength (WrittenTag.closing selfClosing), rest⟩⟩ := by
  cases selfClosing with
  | false =>
    show read? lastEnd ⟨o, '>' :: rest⟩ = _
    rw [read?, skip_of_not_isTagBlank (by decide)]
    simp [WrittenTag.closing, Cursor.advance]
  | true =>
    show read? lastEnd ⟨o, '/' :: '>' :: rest⟩ = _
    rw [read?, skip_of_not_isTagBlank (by decide)]
    simp [WrittenTag.closing, Cursor.advance]

theorem read?_stray {c : Char} (hc : isStray c = true) (hslash : c = '/' → rest.head? ≠ some '>') :
    read? lastEnd ⟨o, c :: rest⟩ = read? lastEnd ⟨o + Text.byteLength [c], rest⟩ := by
  cases hblank : Text.isTagBlank c with
  | true => exact read?_blank hblank
  | false =>
    rw [read?, skip_of_not_isTagBlank hblank]
    simp only [isStray, hblank, Bool.false_or, Bool.or_eq_true, beq_iff_eq] at hc
    rcases hc with rfl | rfl
    · simp [hslash rfl, Cursor.advance]
    · simp [Cursor.advance]

theorem read?_named {a : WrittenAttribute} (h : a.Fits rest) :
    read? lastEnd ⟨o, a.written ++ rest⟩ =
      (read? (o + Text.byteLength a.written) ⟨o + Text.byteLength a.written, rest⟩).map fun body =>
        { body with attributes := a.at_ o :: body.attributes } := by
  have hread := Attribute.read?_written h o
  obtain ⟨c, cs, hname⟩ := List.exists_cons_of_ne_nil h.name_ne_nil
  have hc := h.name c (by simp [hname])
  have hfront : a.written ++ rest = c :: ((a.written ++ rest).tail) := by
    simp [WrittenAttribute.written, hname]
  simp only [isAttributeChar, Bool.and_eq_true, Bool.not_eq_true', bne_iff_ne, ne_eq] at hc
  obtain ⟨⟨⟨hblank, hequals⟩, hgt⟩, hslash⟩ := hc
  rw [hfront] at hread ⊢
  rw [read?, skip_of_not_isTagBlank hblank]
  simp only [if_neg hgt, if_neg hslash, if_neg hequals]
  split
  · next hnone => rw [hread] at hnone; exact absurd hnone (by simp)
  · next b next hsome =>
    rw [hread] at hsome
    obtain ⟨rfl, rfl⟩ := Prod.mk.inj (Option.some.inj hsome)
    split
    · next hnone => rw [hnone]; rfl
    · next body hsome => rw [hsome]; rfl

/-- **What stands behind the name of a written tag is read** as it is meant. -/
theorem read?_written {parts : List TagPart} {selfClosing : Bool}
    (h : TagPart.Fit parts (WrittenTag.closing selfClosing ++ rest)) (lastEnd o : Nat) :
    read? lastEnd ⟨o, parts.flatMap TagPart.written ++ (WrittenTag.closing selfClosing ++ rest)⟩ =
      some ⟨TagPart.attributes o parts, TagPart.attributesEnd lastEnd o parts, selfClosing,
        ⟨o + Text.byteLength (parts.flatMap TagPart.written ++ WrittenTag.closing selfClosing),
          rest⟩⟩ := by
  induction parts generalizing lastEnd o with
  | nil => exact read?_close selfClosing
  | cons part parts ih =>
    cases part with
    | stray c =>
      obtain ⟨hstray, hslash, hparts⟩ := h
      have hread := ih hparts lastEnd (o + Text.byteLength [c])
      rw [List.flatMap_cons, TagPart.written, List.singleton_append, List.cons_append,
        read?_stray hstray hslash, hread]
      simp [TagPart.attributes, TagPart.attributesEnd, Nat.add_assoc]
    | named a =>
      obtain ⟨ha, hparts⟩ := h
      rw [List.flatMap_cons, TagPart.written, List.append_assoc, read?_named ha, ih hparts]
      simp [TagPart.attributes, TagPart.attributesEnd, Text.byteLength_append, Nat.add_assoc]

/-- Blanks before something that is read are strays. -/
theorem exists_blanks (c : Cursor) (parts : List TagPart) {rest : List Char}
    (hfit : TagPart.Fit parts rest)
    (hahead : (c.skip Text.isTagBlank).ahead = parts.flatMap TagPart.written ++ rest) :
    ∃ parts', TagPart.Fit parts' rest ∧ c.ahead = parts'.flatMap TagPart.written ++ rest := by
  have hsplit := Cursor.ahead_eq_run_append c Text.isTagBlank
  have hblanks : ∀ d ∈ c.run Text.isTagBlank, Text.isTagBlank d = true := Cursor.of_mem_run
  refine ⟨(c.run Text.isTagBlank).map TagPart.stray ++ parts, TagPart.fit_append.2 ⟨?_, hfit⟩, ?_⟩
  · generalize c.run Text.isTagBlank = blanks at hblanks
    induction blanks with
    | nil => trivial
    | cons d blanks ih =>
      have hd := hblanks d List.mem_cons_self
      refine ⟨by simp [isStray, hd], ?_, ih fun e he => hblanks e (List.mem_cons_of_mem d he)⟩
      rintro rfl
      exact absurd hd (by decide)
  · rw [hsplit, hahead, List.flatMap_append, List.append_assoc, List.flatMap_map]
    congr 1
    exact (List.flatMap_singleton' _).symm

/-- **Everything that is read behind the name of a tag is written.** -/
theorem exists_written {c : Cursor} {body : TagBody} (h : read? lastEnd c = some body) :
    ∃ parts, TagPart.Fit parts (WrittenTag.closing body.selfClosing ++ body.next.ahead) ∧
      c.ahead = parts.flatMap TagPart.written ++
        (WrittenTag.closing body.selfClosing ++ body.next.ahead) := by
  fun_induction read? lastEnd c generalizing body with
  | case1 => exact absurd h (by simp)
  | case2 lastEnd c here rest =>
    rename_i hahead
    obtain rfl := Option.some.inj h
    refine exists_blanks c [] trivial (hahead.trans ?_)
    simp [WrittenTag.closing, hahead]
  | case3 lastEnd c here rest hhead hahead =>
    obtain rfl := Option.some.inj h
    obtain ⟨rest, rfl⟩ := List.head?_eq_some_iff.1 hhead
    refine exists_blanks c [] trivial (hahead.trans ?_)
    simp [WrittenTag.closing, hahead]
  | case4 lastEnd c here rest hhead hahead =>
    rename_i ih
    obtain ⟨parts, hfit, hparts⟩ := ih h
    have hrest : (here.advance 1).ahead = rest := by simp [hahead]
    rw [hrest] at hparts
    refine exists_blanks c (.stray '/' :: parts) ⟨rfl, fun _ => ?_, hfit⟩ ?_
    · rwa [← hparts]
    · rw [List.flatMap_cons, TagPart.written, List.singleton_append, List.cons_append, ← hparts]
      exact hahead
  | case5 lastEnd c here rest hahead =>
    rename_i ih
    obtain ⟨parts, hfit, hparts⟩ := ih h
    have hrest : (here.advance 1).ahead = rest := by simp [hahead]
    rw [hrest] at hparts
    refine exists_blanks c (.stray '=' :: parts) ⟨rfl, by simp, hfit⟩ ?_
    rw [List.flatMap_cons, TagPart.written, List.singleton_append, List.cons_append, ← hparts]
    exact hahead
  | case6 => exact absurd h (by simp)
  | case7 => exact absurd h (by simp)
  | case8 lastEnd c here ch rest hahead hgt hslash hequals a next ha body' =>
    rename_i hbody ih
    obtain ⟨parts, hfit, hparts⟩ := ih hbody
    obtain rfl := Option.some.inj h
    obtain ⟨w, hw, hwritten⟩ :=
      Attribute.exists_written (run_isAttributeChar_ne_nil hahead hgt hslash hequals) ha
    rw [hparts] at hw hwritten
    refine exists_blanks c (.named w :: parts) ⟨hw, hfit⟩ ?_
    rw [List.flatMap_cons, TagPart.written, List.append_assoc]
    exact hwritten

end TagBody

namespace WrittenTag

/-- Nothing but the first character of the end matters to what stands before it. -/
theorem fit_closing {parts : List TagPart} {selfClosing : Bool} (rest rest' : List Char)
    (h : TagPart.Fit parts (closing selfClosing ++ rest)) :
    TagPart.Fit parts (closing selfClosing ++ rest') := by
  cases selfClosing with
  | false => exact h.replace (.inl rfl) (by decide) (by decide)
  | true => exact h.replace (.inl rfl) (by decide) (by decide)

theorem head?_closing_append (more : List Char) (selfClosing : Bool) (rest : List Char) :
    (more ++ (closing selfClosing ++ rest)).head? = (more ++ closing selfClosing).head? := by
  cases more <;> cases selfClosing <;> rfl

end WrittenTag

namespace StartTag

variable {t : WrittenTag}

/-- **A written tag is read** as it is meant, whatever follows. -/
theorem read?_written (h : t.Fits) (o : Nat) (rest : List Char) :
    read? ⟨o, t.written ++ rest⟩ = some (t.at_ o, ⟨o + Text.byteLength t.written, rest⟩) := by
  have hshape : t.written ++ rest = ['<'] ++ (t.name ++ (t.parts.flatMap TagPart.written ++
      (WrittenTag.closing t.selfClosing ++ rest))) := by
    simp [WrittenTag.written]
  have hnext : ∀ c ∈ (t.parts.flatMap TagPart.written ++
      (WrittenTag.closing t.selfClosing ++ rest)).head?, isNameChar c = false := by
    rw [WrittenTag.head?_closing_append]
    exact h.nameEnd
  have hopen := Cursor.advance_append o ['<'] (t.name ++ (t.parts.flatMap TagPart.written ++
    (WrittenTag.closing t.selfClosing ++ rest)))
  have hrun := Cursor.run_append (o := o + Text.byteLength ['<']) h.name hnext
  have hskip := Cursor.skip_append (o := o + Text.byteLength ['<']) h.name hnext
  have hparts : TagPart.Fit t.parts (WrittenTag.closing t.selfClosing ++ rest) :=
    WrittenTag.fit_closing [] rest (by rw [List.append_nil]; exact h.parts)
  have hbody := TagBody.read?_written hparts (t.nameEnd o) (t.nameEnd o)
  have hnameEnd : o + Text.byteLength ['<'] + Text.byteLength t.name = t.nameEnd o := by
    simp [WrittenTag.nameEnd, Nat.add_assoc]
  rw [hshape]
  simp only [List.length_cons, List.length_nil] at hopen
  simp only [read?, hopen, hrun, hskip, hnameEnd, hbody, Option.map_some]
  simp [WrittenTag.at_, WrittenTag.key, WrittenTag.written, WrittenTag.nameEnd, Cursor.spanTo,
    Text.byteLength_append, Nat.add_assoc]

/-- **Every start tag that is read is written.** -/
theorem exists_written {start next : Cursor} {tag : StartTag} {c : Char} {cs : List Char}
    (hs : start.ahead = '<' :: c :: cs) (hc : c.isAlpha = true)
    (h : read? start = some (tag, next)) :
    ∃ t : WrittenTag, t.Fits ∧ start.ahead = t.written ++ next.ahead := by
  obtain ⟨body, hbody, heq⟩ := Option.map_eq_some_iff.1 h
  obtain ⟨-, rfl⟩ := Prod.mk.inj heq
  obtain ⟨parts, hfit, hparts⟩ := TagBody.exists_written hbody
  have hopen : (start.advance 1).ahead = c :: cs := by simp [hs]
  have hname := Cursor.ahead_eq_run_append (start.advance 1) isNameChar
  have hletter : isNameChar c = true := by simp [isNameChar, Char.isAlphanum, hc]
  refine ⟨⟨(start.advance 1).run isNameChar, parts, body.selfClosing⟩, ⟨?_, Cursor.of_mem_run, ?_, ?_⟩,
    ?_⟩
  · refine ⟨c, cs.takeWhile isNameChar, ?_, hc⟩
    rw [Cursor.run, hopen, List.takeWhile_cons_of_pos hletter]
  · have hhead := Cursor.head?_skip (start.advance 1) isNameChar
    rwa [hparts, WrittenTag.head?_closing_append] at hhead
  · have := WrittenTag.fit_closing _ [] hfit
    rwa [List.append_nil] at this
  · rw [hparts, hopen] at hname
    rw [hs, hname]
    simp [WrittenTag.written]

end StartTag

/-! ## Tags with quoted attributes -/

/-- An attribute with its value in double quotes. -/
def WrittenAttribute.quoted (name value : String) : WrittenAttribute :=
  ⟨name.toList, some ⟨['='], some '"', value.toList⟩⟩

/-- A tag with quoted attributes, one blank before each. -/
def WrittenTag.quoted (name : String) (attributes : List (String × String)) : WrittenTag :=
  ⟨name.toList, attributes.flatMap fun a => [.stray ' ', .named (.quoted a.1 a.2)], false⟩

theorem WrittenAttribute.fits_quoted {name value : String} (hne : name.toList ≠ [])
    (hname : name.toList.all isAttributeChar = true) (hvalue : '"' ∉ value.toList)
    (rest : List Char) : (quoted name value).Fits rest := by
  refine ⟨hne, List.all_eq_true.1 hname, ?_, by simp [quoted]⟩
  intro v hv
  obtain rfl := Option.some.inj hv
  refine ⟨⟨[], [], rfl, by simp, by simp⟩, ?_, by simp⟩
  rintro q ⟨⟩
  exact ⟨.inl rfl, hvalue⟩

/-- **A quoted tag is read as it is meant** if its names are names and no value holds a quote. -/
theorem WrittenTag.fits_quoted {name : String} {attributes : List (String × String)}
    (hletter : name.toList.head?.any Char.isAlpha = true)
    (hname : name.toList.all isNameChar = true)
    (hattributes : ∀ a ∈ attributes, a.1.toList ≠ [] ∧ a.1.toList.all isAttributeChar = true ∧
      '"' ∉ a.2.toList) : (quoted name attributes).Fits := by
  refine ⟨?_, List.all_eq_true.1 hname, ?_, ?_⟩
  · show ∃ c cs, name.toList = c :: cs ∧ _
    cases hchars : name.toList with
    | nil => simp [hchars] at hletter
    | cons c cs => exact ⟨c, cs, rfl, by simpa [hchars] using hletter⟩
  · cases attributes <;> rintro c ⟨⟩ <;> decide
  · show TagPart.Fit (attributes.flatMap _) _
    induction attributes with
    | nil => trivial
    | cons a attributes ih =>
      obtain ⟨ha, hattributes⟩ := List.forall_mem_cons.1 hattributes
      exact ⟨by decide, by simp, WrittenAttribute.fits_quoted ha.1 ha.2.1 ha.2.2 _, ih hattributes⟩

end MailTemplate
