import MailTemplate.Adaptation.TagStyle
import MailTemplate.Proofs.MarkupEdits
import MailTemplate.Proofs.StyleSpans

/-!
# Tags with other attributes

A rule changes a tag by putting another attribute in the place of one, or another text in its value.
The tag is still read as it is meant if the attribute is: what stands before it looks no further than
its first character, and what stands behind it does not look back.  A new value fits if it does not hold
the quote in which it stands, or, without quotes, neither blanks nor the end of the tag.

## Main definitions

* `Attribute.Admits` — a text can stand in the value of an attribute.

## Main results

* `WrittenTag.Fits.replaceParts` — a tag with another attribute is read as it is meant.
* `WrittenValue.Fits.withText` — so is a value with another text.
* `WrittenTag.exists_adaptsTo_style`, `WrittenTag.exists_adaptsTo_declarations` — a tag takes edits of
  its style.
-/

namespace MailTemplate

/-! ## One attribute for another -/

namespace TagPart

/-- The first attribute of a name stands somewhere among the parts of a tag. -/
theorem exists_split_of_find? {parts : List TagPart} {name : String} {o : Nat} {b : Attribute}
    (h : ((attributes o parts).find? fun a => a.name == name) = some b) :
    ∃ front a back, parts = front ++ .named a :: back ∧ a.key = name ∧
      b = a.at_ (o + Text.byteLength (front.flatMap written)) ∧
        ∀ d ∈ attributes o front, d.name ≠ name := by
  induction parts generalizing o with
  | nil => exact absurd h (by simp [attributes])
  | cons part parts ih =>
    cases part with
    | stray c =>
      obtain ⟨front, a, back, rfl, hkey, hb, hfirst⟩ := ih h
      refine ⟨.stray c :: front, a, back, rfl, hkey, ?_, hfirst⟩
      rw [hb, List.flatMap_cons, Text.byteLength_append, Nat.add_assoc]
      rfl
    | named a =>
      rw [attributes, List.find?_cons] at h
      split at h
      · next hname =>
        obtain rfl := Option.some.inj h
        exact ⟨[], a, parts, rfl, beq_iff_eq.1 hname, rfl, by simp [attributes]⟩
      · next hname =>
        obtain ⟨front, a', back, rfl, hkey, hb, hfirst⟩ := ih h
        refine ⟨.named a :: front, a', back, rfl, hkey, ?_, ?_⟩
        · rw [hb, List.flatMap_cons, Text.byteLength_append, Nat.add_assoc]
          rfl
        · rw [attributes]
          exact List.forall_mem_cons.2 ⟨by simpa using hname, hfirst⟩

theorem attributesEnd_of_attributes_eq_nil {parts : List TagPart} {lastEnd o : Nat}
    (h : attributes o parts = []) : attributesEnd lastEnd o parts = lastEnd := by
  induction parts generalizing o with
  | nil => rfl
  | cons part parts ih =>
    cases part with
    | stray c => exact ih h
    | named a => exact absurd h (List.cons_ne_nil _ _)

/-- The last attribute stands before parts that are none. -/
theorem exists_split_of_attributes_ne_nil {parts : List TagPart} {o : Nat} (lastEnd : Nat)
    (h : attributes o parts ≠ []) :
    ∃ front a back, parts = front ++ .named a :: back ∧ (∀ o', attributes o' back = []) ∧
      attributesEnd lastEnd o parts =
        o + Text.byteLength (front.flatMap written) + Text.byteLength a.written := by
  induction parts generalizing o lastEnd with
  | nil => exact absurd rfl h
  | cons part parts ih =>
    cases part with
    | stray c =>
      obtain ⟨front, a, back, rfl, hback, hend⟩ := ih lastEnd h
      refine ⟨.stray c :: front, a, back, rfl, hback, ?_⟩
      rw [attributesEnd, hend, List.flatMap_cons, Text.byteLength_append, ← Nat.add_assoc]
      rfl
    | named a =>
      by_cases hmore : attributes (o + Text.byteLength a.written) parts = []
      · -- Parts without attributes have none wherever they stand, and leave the end where it is.
        have hnone : ∀ o', attributes o' parts = [] := by
          intro o'
          have hlength := (@attributes_alike (fun _ => True) parts (o + Text.byteLength a.written)
            o').length_eq
          rw [hmore] at hlength
          exact List.eq_nil_of_length_eq_zero hlength.symm
        refine ⟨[], a, parts, rfl, hnone, ?_⟩
        rw [attributesEnd, attributesEnd_of_attributes_eq_nil hmore]
        simp
      · obtain ⟨front, a', back, rfl, hback, hend⟩ := ih (o + Text.byteLength a.written) hmore
        refine ⟨.named a :: front, a', back, rfl, hback, ?_⟩
        rw [attributesEnd, hend, List.flatMap_cons, Text.byteLength_append, ← Nat.add_assoc]
        rfl

end TagPart

/-- **An attribute ends at a blank** that no equality sign follows, unless its value is still to
come. -/
theorem WrittenAttribute.Fits.before_blank {a : WrittenAttribute} {rest more : List Char} {c : Char}
    (h : a.Fits rest) (hvalue : ∀ v ∈ a.value, v.quote = none → v.text ≠ [])
    (hblank : Text.isTagBlank c = false) (hc : c ≠ '=') : a.Fits (' ' :: c :: more) := by
  refine ⟨h.name_ne_nil, h.name, ?_, ?_⟩
  · intro v hv
    refine ⟨(h.value v hv).sign, (h.value v hv).quoted, ?_⟩
    intro hnone
    obtain ⟨hbare, -, d, hd, hfirst⟩ := (h.value v hv).bare hnone
    obtain ⟨e, es, he⟩ := List.exists_cons_of_ne_nil (hvalue v hv hnone)
    rw [he] at hd
    refine ⟨hbare, ?_, d, ?_, hfirst⟩
    · rintro f ⟨⟩
      decide
    · rw [he]
      exact hd
  · intro _
    constructor
    · rintro f ⟨⟩
      decide
    · have hskip : (' ' :: c :: more).dropWhile Text.isTagBlank = c :: more := by
        rw [List.dropWhile_cons_of_pos (by decide), List.dropWhile_cons_of_neg (by simp [hblank])]
      rw [hskip]
      simpa using hc

/-- So does the attribute whose value, if it has one, does not stand empty at its end. -/
theorem WrittenAttribute.Fits.before_blank_of_valueSpan {a : WrittenAttribute} {rest more : List Char}
    {c : Char} {o : Nat} (h : a.Fits rest)
    (hspan : ∀ span ∈ (a.at_ o).valueSpan, span ≠ ⟨(a.at_ o).span.stop, (a.at_ o).span.stop⟩)
    (hblank : Text.isTagBlank c = false) (hc : c ≠ '=') : a.Fits (' ' :: c :: more) := by
  refine h.before_blank ?_ hblank hc
  intro v hv hnone hnil
  have hv : a.value = some v := hv
  refine hspan _ (by rw [WrittenAttribute.at_, hv]; rfl) ?_
  simp only [WrittenAttribute.at_, WrittenAttribute.valueStart, WrittenAttribute.written, hv,
    WrittenValue.written, hnone, hnil, Text.byteLength_append, Option.toList_none,
    Text.byteLength_nil, Span.mk.injEq]
  omega

namespace WrittenTag

variable {t : WrittenTag} {front back back' : List TagPart} {a a' : WrittenAttribute} {o : Nat}

/-- A tag with other parts. -/
def withParts (t : WrittenTag) (parts : List TagPart) : WrittenTag := { t with parts }

/-- **A tag with other parts from an attribute on is read as it is meant** if they are. -/
theorem Fits.replaceParts {c c' : Char} {cs cs' : List Char} (h : t.Fits)
    (hparts : t.parts = front ++ .named a :: back) (hname : a.name = c :: cs)
    (hname' : a'.name = c' :: cs') (hc : TagPart.Replaces c c')
    (hchar : isNameChar c = false → isNameChar c' = false)
    (hfit : TagPart.Fit (.named a' :: back') (closing t.selfClosing)) :
    (t.withParts (front ++ .named a' :: back')).Fits := by
  -- What stands before the attribute sees the first character of its name.
  have hfirst {b : WrittenAttribute} {d : Char} {ds : List Char} (parts : List TagPart)
      (hb : b.name = d :: ds) :
      (TagPart.named b :: parts).flatMap TagPart.written ++ closing t.selfClosing =
        d :: (b.written ++ (parts.flatMap TagPart.written ++ closing t.selfClosing)).tail := by
    simp [TagPart.written, WrittenAttribute.written, hb]
  have hparts' := h.parts
  rw [hparts, TagPart.fit_append, hfirst back hname] at hparts'
  obtain ⟨hfront, ha, -⟩ := hparts'
  have hblank {b : WrittenAttribute} {d : Char} {ds rest : List Char} (hb : b.Fits rest)
      (hd : b.name = d :: ds) : Text.isTagBlank d = false := by
    refine Bool.eq_false_iff.2 fun hblank => ?_
    have := hb.name d (by rw [hd]; exact List.mem_cons_self)
    rw [isAttributeChar_of_isTagBlank hblank] at this
    exact absurd this (by simp)
  refine ⟨h.letter, h.name, ?_, ?_⟩
  · have hhead := h.nameEnd
    rw [hparts] at hhead
    show ∀ e ∈ ((front ++ .named a' :: back').flatMap TagPart.written ++ closing t.selfClosing).head?, _
    rw [List.flatMap_append, List.append_assoc] at hhead ⊢
    rw [hfirst back hname] at hhead
    rw [hfirst back' hname']
    cases hfrontText : front.flatMap TagPart.written with
    | cons b bs => rw [hfrontText] at hhead; exact hhead
    | nil =>
      rw [hfrontText] at hhead
      rintro e ⟨⟩
      exact hchar (hhead c rfl)
  · show TagPart.Fit (front ++ .named a' :: back') (closing t.selfClosing)
    rw [TagPart.fit_append, hfirst back' hname']
    exact ⟨hfront.replace hc (hblank ha hname) (hblank hfit.1 hname'), hfit⟩

/-- **Edits among the parts of a tag** make the tag with the edited parts. -/
theorem AdaptsTo.ofParts {alike : StartTag → StartTag → Prop} {edits : List Edit}
    (mids mids' : List TagPart) (pre : List Char) (mid : List EditPart) (post : List Char)
    (hparts : t.parts = front ++ (mids ++ back))
    (hfits : (t.withParts (front ++ (mids' ++ back))).Fits)
    (hold : mids.flatMap TagPart.written = pre ++ (mid.flatMap EditPart.old ++ post))
    (hnew : mids'.flatMap TagPart.written = pre ++ (mid.flatMap EditPart.new ++ post))
    (hedits : EditPart.edits (t.nameEnd o + Text.byteLength (front.flatMap TagPart.written) +
      Text.byteLength pre) mid = edits)
    (hstarts : edits.Pairwise fun e e' => e.span.start < e'.span.start)
    (halike : ∀ o', alike (t.at_ o) ((t.withParts (front ++ (mids' ++ back))).at_ o')) :
    t.AdaptsTo alike edits o (t.withParts (front ++ (mids' ++ back))) := by
  have hwritten : t.written = ('<' :: t.name ++ front.flatMap TagPart.written ++ pre) ++
      (mid.flatMap EditPart.old ++
        (post ++ (back.flatMap TagPart.written ++ closing t.selfClosing))) := by
    simp [written, hparts, hold]
  have hoffset : o + Text.byteLength ('<' :: t.name ++ front.flatMap TagPart.written ++ pre) =
      t.nameEnd o + Text.byteLength (front.flatMap TagPart.written) + Text.byteLength pre := by
    simp only [nameEnd, Text.byteLength_append, Nat.add_assoc]
  refine ⟨⟨[.kept ('<' :: t.name ++ front.flatMap TagPart.written ++ pre)] ++ (mid ++
    [.kept (post ++ (back.flatMap TagPart.written ++ closing t.selfClosing))]), ?_, ?_, ?_⟩, ?_, hfits,
    rfl, rfl, halike⟩
  · rw [hwritten]
    simp [EditPart.old]
  · simp [EditPart.new, written, withParts, hnew]
  · rw [EditPart.edits_append, EditPart.edits_append]
    simp only [EditPart.edits, List.flatMap_cons, List.flatMap_nil, List.append_nil, EditPart.old,
      List.nil_append, hoffset, hedits]
  · refine ⟨hstarts, fun e he => ?_⟩
    rw [← hedits] at he
    have hbounds := EditPart.edits_bounds e he
    have hstop := EditPart.edits_stop_le e he
    -- The end of the tag stands behind all edits.
    have hclosing : 0 < Text.byteLength (closing t.selfClosing) := by
      cases t.selfClosing <;> decide
    rw [hwritten]
    simp only [Text.byteLength_append] at hoffset ⊢
    omega

/-- A tag with another attribute of one name is alike but for its value. -/
theorem at_alikeBut {mayChange : String → Prop} (hparts : t.parts = front ++ .named a :: back)
    (hkey : a'.key = a.key) (hmay : mayChange a.key) (o o' : Nat) :
    (t.at_ o).AlikeBut mayChange ((t.withParts (front ++ .named a' :: back)).at_ o') := by
  refine ⟨rfl, rfl, ?_⟩
  show List.Forall₂ _ (TagPart.attributes _ t.parts) (TagPart.attributes _ (front ++ .named a' :: back))
  rw [hparts, TagPart.attributes_append, TagPart.attributes_append]
  exact List.rel_append (TagPart.attributes_alike _ _ _)
    (.cons ⟨hkey, fun h => absurd hmay h⟩ (TagPart.attributes_alike _ _ _))

end WrittenTag

/-! ## Another text in a value -/

/-- A text can stand in the value of an attribute of a source without ending it: it does not hold the
quote of the value or, if there is none, neither blanks nor a `>`. -/
def Attribute.Admits (source : List Char) (a : Attribute) (text : List Char) : Prop :=
  ∀ span ∈ a.valueSpan, ∀ c ∈ text,
    if Text.slice ⟨span.stop, a.span.stop⟩ source = [] then isBareValueChar c = true
    else c ∉ Text.slice ⟨span.stop, a.span.stop⟩ source

instance (source : List Char) (a : Attribute) (text : List Char) : Decidable (a.Admits source text) :=
  @Option.decidableForallMem _ _ (fun _ => List.decidableBAll _ text) a.valueSpan

namespace WrittenTag

variable {t : WrittenTag} {front back : List TagPart} {a : WrittenAttribute} {v : WrittenValue} {o : Nat}
  {source before after : List Char}

/-- Behind a value stands its quote. -/
theorem slice_quote (hsource : source = before ++ (t.written ++ after))
    (hparts : t.parts = front ++ .named a :: back) (hvalue : a.value = some v) :
    let p := t.nameEnd (Text.byteLength before) + Text.byteLength (front.flatMap TagPart.written)
    Text.slice ⟨a.valueStart v p + Text.byteLength v.text, p + Text.byteLength a.written⟩ source =
      v.quote.toList := by
  intro p
  have hslice : Text.slice? ⟨a.valueStart v p + Text.byteLength v.text,
      p + Text.byteLength a.written⟩ source = some v.quote.toList := by
    rw [Text.slice?_eq_some_iff]
    refine ⟨before ++ ('<' :: t.name) ++ front.flatMap TagPart.written ++ a.name ++ v.sign ++
      v.quote.toList ++ v.text, back.flatMap TagPart.written ++ (closing t.selfClosing ++ after), ?_, ?_, ?_⟩
    · simp [hsource, written, hparts, TagPart.written, WrittenAttribute.written, hvalue,
        WrittenValue.written]
    · simp only [WrittenAttribute.valueStart, nameEnd, Text.byteLength_append, p]
    · simp only [WrittenAttribute.written, hvalue, WrittenValue.written, nameEnd,
        Text.byteLength_append, p]
      omega
  rw [Text.slice, hslice, Option.getD_some]

/-- What a value admits does not hold its quote, or can stand without one. -/
theorem admits_iff (hsource : source = before ++ (t.written ++ after))
    (hparts : t.parts = front ++ .named a :: back) (hvalue : a.value = some v) (text : List Char) :
    let p := t.nameEnd (Text.byteLength before) + Text.byteLength (front.flatMap TagPart.written)
    (a.at_ p).Admits source text ↔
      ∀ c ∈ text, (v.quote = none → isBareValueChar c = true) ∧ ∀ q ∈ v.quote, c ≠ q := by
  intro p
  have hslice := slice_quote hsource hparts hvalue
  have hspan : (a.at_ p).valueSpan =
      some ⟨a.valueStart v p, a.valueStart v p + Text.byteLength v.text⟩ := by
    simp [WrittenAttribute.at_, hvalue]
  unfold Attribute.Admits
  rw [hspan]
  simp only [Option.mem_def, Option.some.injEq, forall_eq']
  have hspan : (a.at_ p).span.stop = p + Text.byteLength a.written := rfl
  rw [hspan, hslice]
  cases v.quote with
  | none => simp
  | some q => simp

end WrittenTag

/-- **A value with another text is read as it is meant** if the text can stand there and begins with the
same character. -/
theorem WrittenValue.Fits.withText {v : WrittenValue} {rest text : List Char} (h : v.Fits rest)
    (htext : ∀ c ∈ text, c ∈ v.text ∨
      (v.quote = none → isBareValueChar c = true) ∧ ∀ q ∈ v.quote, c ≠ q)
    (hhead : text.head? = v.text.head?) : ({ v with text } : WrittenValue).Fits rest := by
  refine ⟨h.sign, fun q hq => ⟨(h.quoted q hq).1, fun hmem => ?_⟩, fun hnone => ?_⟩
  · rcases htext q hmem with hold | ⟨-, hnew⟩
    · exact (h.quoted q hq).2 hold
    · exact hnew q hq rfl
  · obtain ⟨hbare, hrest, c, hc, hblank, hquotes⟩ := h.bare hnone
    refine ⟨fun d hd => ?_, hrest, c, ?_, hblank, hquotes⟩
    · rcases htext d hd with hold | ⟨hnew, -⟩
      · exact hbare d hold
      · exact hnew hnone
    · rw [← hc, List.head?_append, List.head?_append, hhead]

/-- A style that stands somewhere is the value of its attribute. -/
theorem StartTag.value?_of_style? {tag : StartTag} {style : String} {span : Span}
    (h : tag.style? = some (style, span)) : tag.value? "style" = some style := by
  unfold StartTag.style? at h
  obtain ⟨a, ha, h⟩ := Option.bind_eq_some_iff.1 h
  obtain ⟨value, hvalue, h⟩ := Option.bind_eq_some_iff.1 h
  obtain ⟨valueSpan, -, h⟩ := Option.bind_eq_some_iff.1 h
  obtain ⟨rfl, -⟩ := Prod.mk.inj (Option.some.inj h)
  rw [StartTag.value?, ha, Option.bind_some, hvalue]

namespace WrittenTag

variable {t : WrittenTag} {o : Nat} {source before after : List Char} {style : String} {span : Span}

/-- The style of a tag stands in the value of its first attribute of that name. -/
theorem exists_style (h : (t.at_ o).style? = some (style, span)) :
    ∃ front a v back, t.parts = front ++ .named a :: back ∧ a.key = "style" ∧ a.value = some v ∧
      style = String.ofList v.text ∧ (∀ d ∈ TagPart.attributes (t.nameEnd o) front, d.name ≠ "style") ∧
      let p := t.nameEnd o + Text.byteLength (front.flatMap TagPart.written)
      span = ⟨a.valueStart v p, a.valueStart v p + Text.byteLength v.text⟩ ∧
        (t.at_ o).attribute? "style" = some (a.at_ p) ∧
          (t.at_ o).declarations = Css.declarations style := by
  have hv := StartTag.value?_of_style? h
  unfold StartTag.style? at h
  obtain ⟨b, hb, h⟩ := Option.bind_eq_some_iff.1 h
  obtain ⟨front, a, back, hparts, hkey, rfl, hfirst⟩ := TagPart.exists_split_of_find? hb
  cases hvalue : a.value with
  | none => exact absurd h (by simp [WrittenAttribute.at_, hvalue])
  | some v =>
    simp only [WrittenAttribute.at_, hvalue, Option.map_some, Option.bind_eq_bind, Option.bind_some,
      Option.pure_def, Option.some.injEq, Prod.mk.injEq] at h
    obtain ⟨rfl, rfl⟩ := h
    refine ⟨front, a, v, back, hparts, hkey, hvalue, rfl, hfirst, rfl, hb, ?_⟩
    rw [StartTag.declarations, hv]

/-- A tag without a style that stands somewhere has none. -/
theorem value?_of_style?_eq_none (h : (t.at_ o).style? = none) : (t.at_ o).value? "style" = none := by
  unfold StartTag.style? at h
  rw [StartTag.value?]
  cases hb : (t.at_ o).attribute? "style" with
  | none => rfl
  | some b =>
    obtain ⟨front, a, back, -, -, rfl, -⟩ := TagPart.exists_split_of_find? hb
    cases hvalue : a.value with
    | none => simp [WrittenAttribute.at_, hvalue]
    | some v => exact absurd (hb ▸ h) (by simp [WrittenAttribute.at_, hvalue])

/-- The first attribute of a name gives the value, wherever the tag stands. -/
theorem value?_withParts {front back : List TagPart} {a : WrittenAttribute} {name : String}
    (hfirst : ∀ d ∈ TagPart.attributes (t.nameEnd o) front, d.name ≠ name) (hkey : a.key = name) (o' : Nat) :
    ((t.withParts (front ++ .named a :: back)).at_ o').value? name =
      a.value.map fun v => String.ofList v.text := by
  have hnone : ((TagPart.attributes (t.nameEnd o) front).find? fun d => d.name == name) = none :=
    List.find?_eq_none.2 fun d hd => by simpa using hfirst d hd
  have hsame := TagPart.map_value_find? name front (t.nameEnd o) (t.nameEnd o')
  rw [hnone, Option.map_none, eq_comm, Option.map_eq_none_iff] at hsame
  have hfound : ∀ p more, (a.at_ p :: more).find? (fun d => d.name == name) = some (a.at_ p) :=
    fun p more => List.find?_cons_of_pos (beq_iff_eq.2 hkey)
  show ((TagPart.attributes (t.nameEnd o') (front ++ .named a :: back)).find? _).bind _ = _
  rw [TagPart.attributes_append, List.find?_append, hsame, Option.none_or, TagPart.attributes, hfound]
  rfl

/-- **A tag takes edits of its style** that its value admits and that do not change its front. -/
theorem exists_adaptsTo_style {mayChange : String → Prop} (ht : t.Fits)
    (hsource : source = before ++ (t.written ++ after)) (hmay : mayChange "style")
    (hstyle : (t.at_ (Text.byteLength before)).style? = some (style, span)) {mid : List EditPart}
    (hold : mid.flatMap EditPart.old = style.toList)
    (hhead : (mid.flatMap EditPart.new).head? = style.toList.head?)
    (hstarts : (EditPart.edits 0 mid).Pairwise fun e e' => e.span.start < e'.span.start)
    (hadmits : ∀ e ∈ EditPart.edits 0 mid,
      ∀ a ∈ (t.at_ (Text.byteLength before)).attribute? "style", a.Admits source e.text.toList) :
    ∃ t', t.AdaptsTo (fun tag tag' => tag.AlikeBut mayChange tag' ∧
        tag'.value? "style" = some (String.ofList (mid.flatMap EditPart.new)))
      ((EditPart.edits 0 mid).map fun e => Edit.replace (e.span.shift span.start) e.text)
      (Text.byteLength before) t' := by
  obtain ⟨front, a, v, back, hparts, hkey, hvalue, rfl, hfirst, rfl, hattribute, -⟩ := exists_style hstyle
  rw [String.toList_ofList] at hold hhead
  have hfit := ht.parts
  rw [hparts, TagPart.fit_append] at hfit
  have ha : a.Fits (back.flatMap TagPart.written ++ closing t.selfClosing) := hfit.2.1
  obtain ⟨c, cs, hname⟩ := List.exists_cons_of_ne_nil ha.name_ne_nil
  -- Every character of the new value was in the old one or is admitted.
  have hv : ({ v with text := mid.flatMap EditPart.new } : WrittenValue).Fits
      (back.flatMap TagPart.written ++ closing t.selfClosing) := by
    refine (ha.value v hvalue).withText (fun d hd => ?_) hhead
    rcases @EditPart.mem_new 0 mid d hd with hmem | ⟨e, he, hmem⟩
    · exact .inl (hold ▸ hmem)
    · exact .inr ((admits_iff hsource hparts hvalue _).1 (hadmits e he _ hattribute) d hmem)
  let a' : WrittenAttribute := ⟨a.name, some { v with text := mid.flatMap EditPart.new }⟩
  have ha' : a'.Fits (back.flatMap TagPart.written ++ closing t.selfClosing) := by
    refine ⟨ha.name_ne_nil, ha.name, fun v' hv' => ?_, fun hnone => absurd hnone (by simp [a'])⟩
    obtain rfl := Option.some.inj hv'
    exact hv
  have hname' : a'.name = c :: cs := hname
  have hkey' : a'.key = a.key := rfl
  refine ⟨_, AdaptsTo.ofParts [.named a] [.named a'] (a.name ++ v.sign ++ v.quote.toList) mid
    v.quote.toList hparts (ht.replaceParts hparts hname hname' (.inl rfl) id ⟨ha', hfit.2.2⟩) ?_ ?_ ?_ ?_
    fun o' => ⟨at_alikeBut hparts hkey' (hkey ▸ hmay) _ o', value?_withParts hfirst (hkey'.trans hkey) o'⟩⟩
  · simp [TagPart.written, WrittenAttribute.written, hvalue, WrittenValue.written, hold]
  · simp [TagPart.written, WrittenAttribute.written, WrittenValue.written, a']
  · rw [← EditPart.edits_add]
    congr 1
    simp only [WrittenAttribute.valueStart, Text.byteLength_append]
    omega
  · rw [List.pairwise_map]
    exact hstarts.imp fun h => Nat.add_lt_add_right h _

/-- **A tag takes other values of its style,** each of which its attribute admits.  The parts of the style
that have the edits show what becomes of it. -/
theorem exists_adaptsTo_values {mayChange : String → Prop} (ht : t.Fits)
    (hsource : source = before ++ (t.written ++ after)) (hmay : mayChange "style")
    (hstyle : (t.at_ (Text.byteLength before)).style? = some (style, span))
    {ds : List Css.Declaration} (hds : ds.Sublist (Css.declarations style))
    {value : Css.Declaration → String} {mid : List EditPart} (hold : mid.flatMap EditPart.old = style.toList)
    (hedits : EditPart.edits 0 mid = ds.map fun d => Edit.replace d.valueSpan (value d)) (hadmits : ∀ d ∈ ds,
      ∀ a ∈ (t.at_ (Text.byteLength before)).attribute? "style", a.Admits source (value d).toList) :
    ∃ t', t.AdaptsTo (fun tag tag' => tag.AlikeBut mayChange tag' ∧
        tag'.value? "style" = some (String.ofList (mid.flatMap EditPart.new)))
      (ds.map fun d => Edit.replace (d.valueSpan.shift span.start) (value d))
      (Text.byteLength before) t' := by
  obtain ⟨hordered, hplaced⟩ := Css.declarations_placed style
  have hordered := hordered.sublist hds
  have hplaced : ∀ d ∈ ds, 0 < d.valueSpan.start ∧ d.valueSpan.start ≤ d.valueSpan.stop := by
    intro d hd
    obtain ⟨hstart, hslice, -⟩ := hplaced d (hds.subset hd)
    obtain ⟨_, _, -, hbegin, hend⟩ := Text.slice?_eq_some_iff.1 hslice
    exact ⟨hstart, by omega⟩
  have hmem : ∀ e ∈ EditPart.edits 0 mid, ∃ d ∈ ds, Edit.replace d.valueSpan (value d) = e := by
    intro e he
    exact List.mem_map.1 (hedits ▸ he)
  -- Before the first value there is at least the colon.
  have hhead : (mid.flatMap EditPart.new).head? = style.toList.head? := by
    rw [← hold]
    apply @EditPart.head?_new 0
    intro e he
    obtain ⟨d, hd, rfl⟩ := hmem e he
    exact (hplaced d hd).1
  have hstarts : (EditPart.edits 0 mid).Pairwise fun e e' => e.span.start < e'.span.start := by
    rw [hedits, List.pairwise_map]
    refine hordered.imp_of_mem fun {d d'} hd _ h => ?_
    have := (hplaced d hd).2
    dsimp only [Edit.replace]
    omega
  obtain ⟨t', ht'⟩ := exists_adaptsTo_style ht hsource hmay hstyle hold hhead hstarts (by
    intro e he
    obtain ⟨d, hd, rfl⟩ := hmem e he
    exact hadmits d hd)
  rw [hedits, List.map_map] at ht'
  exact ⟨t', ht'⟩

/-- The values stand in order, so the edits are those of some parts of the style. -/
theorem exists_adaptsTo_declarations {mayChange : String → Prop} (ht : t.Fits)
    (hsource : source = before ++ (t.written ++ after)) (hmay : mayChange "style")
    (hstyle : (t.at_ (Text.byteLength before)).style? = some (style, span))
    {ds : List Css.Declaration} (hds : ds.Sublist (Css.declarations style))
    (value : Css.Declaration → String) (hadmits : ∀ d ∈ ds,
      ∀ a ∈ (t.at_ (Text.byteLength before)).attribute? "style", a.Admits source (value d).toList) :
    ∃ t', t.AdaptsTo (StartTag.AlikeBut mayChange)
      (ds.map fun d => Edit.replace (d.valueSpan.shift span.start) (value d))
      (Text.byteLength before) t' := by
  obtain ⟨hordered, hplaced⟩ := Css.declarations_placed style
  obtain ⟨mid, hold, hedits⟩ : ∃ mid, mid.flatMap EditPart.old = style.toList ∧
      EditPart.edits 0 mid = ds.map fun d => Edit.replace d.valueSpan (value d) := by
    apply EditPart.exists_edits_eq [] style.toList
    · rw [List.pairwise_map]
      exact (hordered.sublist hds).imp fun h => Nat.le_of_lt h
    · intro e he
      obtain ⟨d, hd, rfl⟩ := List.mem_map.1 he
      exact ⟨_, (hplaced d (hds.subset hd)).2.1⟩
    · intro e _
      exact Nat.zero_le _
  obtain ⟨t', ht'⟩ := exists_adaptsTo_values ht hsource hmay hstyle hds hold hedits hadmits
  exact ⟨t', ht'.mono fun _ h => h.1⟩

end WrittenTag

end MailTemplate
