import MailTemplate.Proofs.RelatedLists
import MailTemplate.Proofs.StyleRewrites

/-!
# Styles with references to quotes

In markup a quote can be written as a reference, `&quot;` or `&#39;`, and both end with a semicolon.  So a
style can be read in two ways: as it stands, where the semicolon of a reference is a cut like any other one,
or with the quotes in the places of the references.  Both ways cut at the same places exactly if no piece but
the last one breaks off inside a reference and the quotes neither hide a cut nor lay one bare.

## Main definitions

* `Css.decoded` — a style with quotes in the places of the references.
* `Css.BreaksReference` — a piece breaks off before the semicolon of a reference.

## Main results

* `Css.decoded_append`, `Css.exists_of_decoded_eq_append` — a text is decoded in parts that no reference
  spans, and every cut of the outcome is one of the text.
* `Css.not_breaksReference_of_decoded`, `Css.decoded_joinWith` — when the pieces can be decoded one by one.
* `Css.exists_ofPiece?_of_decoded` — the font list of a piece that was decoded.
-/

namespace MailTemplate

namespace Css

/-- A style with quotes in the places of the references to them. -/
def decoded : List Char → List Char
  | '&' :: 'q' :: 'u' :: 'o' :: 't' :: ';' :: cs => '"' :: decoded cs
  | '&' :: '#' :: '3' :: '9' :: ';' :: cs => '\'' :: decoded cs
  | c :: cs => c :: decoded cs
  | [] => []

/-- The quotes that a style can refer to, with the references. -/
def references : List (Char × List Char) := [('"', "&quot;".toList), ('\'', "&#39;".toList)]

/-- A piece breaks off before the semicolon of a reference. -/
def BreaksReference (piece : List Char) : Prop := ∃ p ∈ references, p.2.dropLast <:+ piece

instance (piece : List Char) : Decidable (BreaksReference piece) :=
  inferInstanceAs (Decidable (∃ p ∈ references, p.2.dropLast <:+ piece))

variable {p : Char × List Char} {a b cs piece rest : List Char} {c : Char} {ps : List (List Char)}

/-! ## Decoding in parts -/

theorem decoded_reference (h : p ∈ references) (cs : List Char) : decoded (p.2 ++ cs) = p.1 :: decoded cs := by
  rw [references, List.mem_cons, List.mem_singleton] at h
  rcases h with rfl | rfl
  · exact decoded.eq_1 cs
  · exact decoded.eq_2 cs

theorem decoded_cons (h : ∀ p ∈ references, ¬ p.2 <+: c :: cs) : decoded (c :: cs) = c :: decoded cs := by
  rw [decoded]
  · intro rest hc hcs
    exact h ('"', "&quot;".toList) (by decide) ⟨rest, by rw [hc, hcs]; rfl⟩
  · intro rest hc hcs
    exact h ('\'', "&#39;".toList) (by decide) ⟨rest, by rw [hc, hcs]; rfl⟩

/-- A text is decoded from its front, a reference or another character at a time. -/
theorem decoded_induction {motive : List Char → Prop} (hnil : motive [])
    (hreference : ∀ p ∈ references, ∀ cs, motive cs → motive (p.2 ++ cs))
    (hcons : ∀ c cs, (∀ p ∈ references, ¬ p.2 <+: c :: cs) → motive cs → motive (c :: cs)) (cs : List Char) :
    motive cs := by
  induction cs using decoded.induct with
  | case1 cs ih => exact hreference ('"', "&quot;".toList) (by decide) cs ih
  | case2 cs ih => exact hreference ('\'', "&#39;".toList) (by decide) cs ih
  | case3 c cs h h' ih =>
    refine hcons c cs (fun p hp hprefix => ?_) ih
    obtain ⟨rest, hrest⟩ := hprefix
    rw [references, List.mem_cons, List.mem_singleton] at hp
    rcases hp with rfl | rfl
    · obtain ⟨hc, hcs⟩ := List.cons.inj hrest
      exact h rest hc.symm hcs.symm
    · obtain ⟨hc, hcs⟩ := List.cons.inj hrest
      exact h' rest hc.symm hcs.symm
  | case4 => exact hnil

/-- **Two parts are decoded one by one** if no reference begins in the one and ends in the other. -/
theorem decoded_append (h : ∀ p ∈ references, ∀ front back, p.2 = front ++ back → front ≠ [] →
    back ≠ [] → front <:+ a → ¬ back <+: b) : decoded (a ++ b) = decoded a ++ decoded b := by
  induction a using decoded_induction with
  | hnil => rfl
  | hreference p hp cs ih =>
    rw [List.append_assoc, decoded_reference hp, decoded_reference hp, ih]
    · rfl
    · intro p' hp' front back heq hfront hback hsuffix
      exact h p' hp' front back heq hfront hback (hsuffix.trans (List.suffix_append _ _))
  | hcons c cs hnone ih =>
    have hrest : decoded (cs ++ b) = decoded cs ++ decoded b := ih fun p' hp' front back heq hfront hback hsuffix =>
      h p' hp' front back heq hfront hback (hsuffix.trans (List.suffix_cons c cs))
    rw [decoded_cons hnone, List.cons_append, decoded_cons, hrest, List.cons_append]
    rintro p hp ⟨more, hmore⟩
    -- A reference at the front would end in the first part, or begin in it and end in the second one.
    rw [← List.cons_append] at hmore
    rcases List.append_eq_append_iff.1 hmore with ⟨x, hx, -⟩ | ⟨x, hx, hb⟩
    · exact hnone p hp ⟨x, hx.symm⟩
    · by_cases hnil : x = []
      · rw [hnil, List.append_nil] at hx
        exact hnone p hp (hx ▸ List.prefix_refl _)
      · exact h p hp (c :: cs) x hx (List.cons_ne_nil _ _) hnil (List.suffix_refl _) ⟨more, hb.symm⟩

/-- A reference begins with an ampersand and has no other one. -/
theorem head?_references : ∀ p ∈ references, p.2.head? = some '&' ∧ '&' ∉ p.2.tail := by decide

/-- A text without an ampersand stays as it is. -/
theorem decoded_append_of_not_mem (h : '&' ∉ a) (b : List Char) : decoded (a ++ b) = a ++ decoded b := by
  induction a with
  | nil => rfl
  | cons c a ih =>
    rw [List.mem_cons, not_or] at h
    rw [List.cons_append, decoded_cons, ih h.2, List.cons_append]
    rintro p hp ⟨more, hmore⟩
    have hhead := (head?_references p hp).1
    cases hreference : p.2 with
    | nil => rw [hreference] at hhead; exact absurd hhead (by simp)
    | cons d ds =>
      rw [hreference] at hhead hmore
      rw [(List.cons.inj hmore).1] at hhead
      exact h.1 (Option.some.inj hhead).symm

theorem decoded_of_not_mem (h : '&' ∉ a) : decoded a = a := by
  have hall := decoded_append_of_not_mem h []
  rwa [List.append_nil, decoded, List.append_nil] at hall

/-- A text without a semicolon stays as it is. -/
theorem decoded_of_not_mem_cut (h : ';' ∉ a) : decoded a = a := by
  induction a using decoded_induction with
  | hnil => rfl
  | hreference p hp cs ih =>
    have hcut : ∀ p ∈ references, ';' ∈ p.2 := by decide
    exact absurd (List.mem_append_left _ (hcut p hp)) h
  | hcons c cs hnone ih => rw [decoded_cons hnone, ih fun hmem => h (List.mem_cons_of_mem _ hmem)]

/-- A second part that begins with a character that no reference goes on with. -/
theorem decoded_append_of_head? (h : ∀ c ∈ b.head?, ∀ p ∈ references, c ∉ p.2.tail) :
    decoded (a ++ b) = decoded a ++ decoded b := by
  refine decoded_append fun p hp front back heq hfront hback _ hprefix => ?_
  obtain ⟨d, back, rfl⟩ := List.exists_cons_of_ne_nil hback
  obtain ⟨e, front, rfl⟩ := List.exists_cons_of_ne_nil hfront
  obtain ⟨more, rfl⟩ := hprefix
  refine h d rfl p hp ?_
  rw [heq, List.cons_append, List.tail_cons]
  exact List.mem_append_right _ List.mem_cons_self

/-- What is decoded holds the characters that were there, and quotes. -/
theorem mem_of_mem_decoded (hc : c ∈ decoded cs) : c ∈ cs ∨ c = '"' ∨ c = '\'' := by
  induction cs using decoded_induction with
  | hnil => exact absurd hc List.not_mem_nil
  | hreference p hp cs ih =>
    rw [decoded_reference hp] at hc
    have hquote : ∀ p ∈ references, p.1 = '"' ∨ p.1 = '\'' := by decide
    rcases List.mem_cons.1 hc with rfl | hc
    · exact .inr (hquote p hp)
    · exact (ih hc).imp_left fun hmem => List.mem_append_right _ hmem
  | hcons d cs hnone ih =>
    rw [decoded_cons hnone] at hc
    rcases List.mem_cons.1 hc with rfl | hc
    · exact .inl List.mem_cons_self
    · exact (ih hc).imp_left fun hmem => List.mem_cons_of_mem _ hmem

/-- A text in which no quote is found when it is decoded has no reference. -/
theorem decoded_eq_self (hdouble : '"' ∉ decoded cs) (hsingle : '\'' ∉ decoded cs) : decoded cs = cs := by
  induction cs using decoded_induction with
  | hnil => rfl
  | hreference p hp cs ih =>
    rw [decoded_reference hp, List.mem_cons, not_or] at hdouble hsingle
    have hquote : ∀ p ∈ references, p.1 = '"' ∨ p.1 = '\'' := by decide
    rcases hquote p hp with heq | heq
    · exact absurd heq.symm hdouble.1
    · exact absurd heq.symm hsingle.1
  | hcons d cs hnone ih =>
    rw [decoded_cons hnone, List.mem_cons, not_or] at hdouble hsingle
    rw [decoded_cons hnone, ih hdouble.2 hsingle.2]

/-- **A text is decoded in the parts that are found in the outcome.** -/
theorem exists_of_decoded_eq_append (h : decoded cs = a ++ b) :
    ∃ front back, cs = front ++ back ∧ decoded front = a ∧ decoded back = b := by
  induction cs using decoded_induction generalizing a with
  | hnil =>
    obtain ⟨rfl, rfl⟩ := List.append_eq_nil_iff.1 h.symm
    exact ⟨[], [], rfl, rfl, rfl⟩
  | hreference p hp cs ih =>
    rw [decoded_reference hp] at h
    cases a with
    | nil => exact ⟨[], p.2 ++ cs, rfl, rfl, (decoded_reference hp cs).trans h⟩
    | cons d a =>
      obtain ⟨rfl, hrest⟩ := List.cons.inj h
      obtain ⟨front, back, rfl, hfront, hback⟩ := ih hrest
      exact ⟨p.2 ++ front, back, (List.append_assoc ..).symm, by rw [decoded_reference hp, hfront], hback⟩
  | hcons c cs hnone ih =>
    cases a with
    | nil => exact ⟨[], c :: cs, rfl, rfl, h⟩
    | cons d a =>
      rw [decoded_cons hnone] at h
      obtain ⟨rfl, hrest⟩ := List.cons.inj h
      obtain ⟨front, back, rfl, hfront, hback⟩ := ih hrest
      refine ⟨c :: front, back, rfl, ?_, hback⟩
      rw [decoded_cons fun p hp hbegins => hnone p hp (hbegins.trans ⟨back, rfl⟩), hfront]

/-- What is decoded holds no reference, so it stays as it is when it is decoded again. -/
theorem decoded_decoded (cs : List Char) : decoded (decoded cs) = decoded cs := by
  have hquote : ∀ p ∈ references, '&' ∉ [p.1] ∧ p.2.head? = some '&' ∧ '"' ∉ p.2 ∧ '\'' ∉ p.2 := by
    decide
  induction cs using decoded_induction with
  | hnil => rfl
  | hreference p hp cs ih =>
    rw [decoded_reference hp, ← List.singleton_append, decoded_append_of_not_mem (hquote p hp).1, ih]
  | hcons c cs hnone ih =>
    rw [decoded_cons hnone, decoded_cons, ih]
    rintro p hp ⟨more, hmore⟩
    -- The characters of the reference have been there, since none of them is a quote.
    have hwhole : decoded (c :: cs) = p.2 ++ more := by rw [decoded_cons hnone, hmore]
    obtain ⟨front, back, heq, hfront, -⟩ := exists_of_decoded_eq_append hwhole
    obtain ⟨-, -, hdouble, hsingle⟩ := hquote p hp
    have hsame := decoded_eq_self (hfront.symm ▸ hdouble) (hfront.symm ▸ hsingle)
    exact hnone p hp ⟨back, by rw [heq, ← hfront, hsame]⟩

/-- A blank belongs to no reference. -/
theorem isBlank_references (h : p ∈ references) :
    Text.isBlank p.1 = false ∧ ∀ c ∈ p.2, Text.isBlank c = false := by
  have hall : ∀ p ∈ references, Text.isBlank p.1 = false ∧ p.2.all (!Text.isBlank ·) = true := by decide
  obtain ⟨hquote, hreference⟩ := hall p h
  exact ⟨hquote, fun c hc => by simpa using List.all_eq_true.1 hreference c hc⟩

theorem not_mem_of_isBlank (h : ∀ c ∈ a, Text.isBlank c = true) : '&' ∉ a := fun hmem =>
  absurd (h _ hmem) (by decide)

/-- Blanks around a text stay where they are. -/
theorem decoded_append_blanks {lead trail : List Char} (hlead : ∀ c ∈ lead, Text.isBlank c = true)
    (htrail : ∀ c ∈ trail, Text.isBlank c = true) (cs : List Char) :
    decoded (lead ++ (cs ++ trail)) = lead ++ (decoded cs ++ trail) := by
  rw [decoded_append_of_not_mem (not_mem_of_isBlank hlead), decoded_append_of_head?,
    decoded_of_not_mem (not_mem_of_isBlank htrail)]
  intro c hc p hp hmem
  have hblank := htrail c (List.mem_of_mem_head? hc)
  rw [(isBlank_references hp).2 c (List.mem_of_mem_tail hmem)] at hblank
  exact absurd hblank (by decide)

/-! ## Pieces that are decoded -/

/-- A semicolon is a character of its own unless the text before it breaks off in a reference. -/
theorem decoded_append_cut (h : ¬ BreaksReference piece) (rest : List Char) :
    decoded (piece ++ ';' :: rest) = decoded piece ++ ';' :: decoded rest := by
  have hcut : decoded (';' :: rest) = ';' :: decoded rest := decoded_append_of_not_mem (a := [';']) (by decide) rest
  rw [decoded_append, hcut]
  intro p hp front back heq hfront hback hsuffix hprefix
  -- The semicolon is the last character of a reference and occurs nowhere before.
  have hlast : ∀ p ∈ references, p.2.getLast? = some ';' ∧ ';' ∉ p.2.dropLast := by decide
  obtain ⟨d, back, rfl⟩ := List.exists_cons_of_ne_nil hback
  obtain ⟨rfl, -⟩ := List.cons_prefix_cons.1 hprefix
  have hnil : back = [] := by
    by_contra hne
    refine (hlast p hp).2 ?_
    rw [heq, List.dropLast_append_cons, List.dropLast_cons_of_ne_nil hne]
    exact List.mem_append_right _ List.mem_cons_self
  subst hnil
  refine h ⟨p, hp, ?_⟩
  rw [heq, List.dropLast_concat]
  exact hsuffix

/-- What breaks off in a reference does so behind what holds no ampersand, and not at a blank. -/
theorem BreaksReference.of_append {lead trail : List Char} (h : BreaksReference (lead ++ (a ++ trail)))
    (hlead : '&' ∉ lead) (htrail : ∀ c ∈ trail, Text.isBlank c = true) : BreaksReference a := by
  obtain ⟨p, hp, front, heq⟩ := h
  have hfront : ∀ p ∈ references, p.2.dropLast.head? = some '&' := by decide
  have hhead := hfront p hp
  have hlast : ∀ c ∈ p.2.dropLast.getLast?, Text.isBlank c = false := fun c hc =>
    (isBlank_references hp).2 c (List.dropLast_subset _ (List.mem_of_mem_getLast? hc))
  have hne : p.2.dropLast ≠ [] := fun hnil => absurd (hnil ▸ hhead) (by simp)
  -- Its last character is not a blank, so nothing stands behind.
  have hnil : trail = [] := by
    by_contra hsome
    have hend := congrArg List.getLast? heq
    rw [List.getLast?_append_of_ne_nil _ hne, ← List.append_assoc, List.getLast?_append_of_ne_nil _ hsome] at hend
    have hblank := htrail _ (List.mem_of_mem_getLast? (List.getLast?_eq_some_getLast hsome))
    rw [hlast _ (hend.trans (List.getLast?_eq_some_getLast hsome))] at hblank
    exact absurd hblank (by decide)
  rw [hnil, List.append_nil] at heq
  refine ⟨p, hp, ?_⟩
  rcases List.append_eq_append_iff.1 heq with ⟨x, rfl, hx⟩ | ⟨x, -, ha⟩
  · -- Its first character is an ampersand, so it does not begin before.
    cases x with
    | nil => exact ⟨[], hx⟩
    | cons c x =>
      rw [hx, List.cons_append, List.head?_cons] at hhead
      exact absurd (List.mem_append_right _ (Option.some.inj hhead ▸ List.mem_cons_self)) hlead
  · exact ⟨x, ha.symm⟩

/-- Where a reference is broken off, the semicolon is lost when it is decoded. -/
theorem decoded_append_cut_ne (h : BreaksReference piece) (rest more : List Char) :
    decoded (piece ++ ';' :: rest) ≠ decoded piece ++ more := by
  obtain ⟨p, hp, front, rfl⟩ := h
  have hwhole : ∀ p ∈ references, p.2.dropLast ++ [';'] = p.2 ∧ decoded p.2.dropLast = p.2.dropLast ∧
      p.2.dropLast.head? = some '&' ∧ p.1 ≠ '&' := by decide
  obtain ⟨hsplit, hkept, hhead, hquote⟩ := hwhole p hp
  have hinner : ∀ q ∈ references, '&' ∉ q.2.tail := fun q hq => (head?_references q hq).2
  have hfront : decoded (front ++ p.2.dropLast) = decoded front ++ p.2.dropLast := by
    rw [decoded_append_of_head?, hkept]
    intro c hc
    rw [hhead] at hc
    exact Option.some.inj hc ▸ hinner
  have hall : decoded (front ++ p.2.dropLast ++ ';' :: rest) = decoded front ++ p.1 :: decoded rest := by
    have htext : front ++ p.2.dropLast ++ ';' :: rest = front ++ (p.2 ++ rest) := by
      rw [List.append_assoc, ← List.singleton_append, ← List.append_assoc p.2.dropLast, hsplit]
    rw [htext, decoded_append_of_head?, decoded_reference hp]
    intro c hc
    have hp2 := (head?_references p hp).1
    rw [List.head?_append, hp2] at hc
    exact Option.some.inj hc ▸ hinner
  rw [hall, hfront, List.append_assoc]
  intro heq
  have heads := congrArg List.head? (List.append_cancel_left heq)
  rw [List.head?_cons, List.head?_append, hhead] at heads
  exact hquote (Option.some.inj heads)

/-- **Pieces are decoded one by one** if none but the last one breaks off in a reference. -/
theorem decoded_joinWith (h : ∀ piece ∈ ps.dropLast, ¬ BreaksReference piece) :
    decoded (Text.joinWith [';'] ps) = Text.joinWith [';'] (ps.map decoded) := by
  induction ps with
  | nil => rfl
  | cons piece more ih =>
    cases more with
    | nil => rfl
    | cons next more =>
      rw [List.dropLast_cons_of_ne_nil (List.cons_ne_nil next more)] at h
      obtain ⟨hpiece, hmore⟩ := List.forall_mem_cons.1 h
      rw [Text.joinWith, List.append_assoc, List.singleton_append, decoded_append_cut hpiece, ih hmore]
      · simp [Text.joinWith]
      · exact List.cons_ne_nil next more

/-- **Where pieces are decoded one by one** none but the last one breaks off in a reference. -/
theorem not_breaksReference_of_decoded
    (h : decoded (Text.joinWith [';'] ps) = Text.joinWith [';'] (ps.map decoded)) :
    ∀ piece ∈ ps.dropLast, ¬ BreaksReference piece := by
  induction ps with
  | nil => exact fun _ hmem => absurd hmem List.not_mem_nil
  | cons piece more ih =>
    cases more with
    | nil => exact fun _ hmem => absurd hmem List.not_mem_nil
    | cons next more =>
      have hjoin : Text.joinWith [';'] (piece :: next :: more) =
          piece ++ ';' :: Text.joinWith [';'] (next :: more) := by
        simp [Text.joinWith]
      have hjoin' : Text.joinWith [';'] ((piece :: next :: more).map decoded) =
          decoded piece ++ ';' :: Text.joinWith [';'] ((next :: more).map decoded) := by
        simp [Text.joinWith]
      rw [hjoin, hjoin'] at h
      have hpiece : ¬ BreaksReference piece := fun hbreaks => decoded_append_cut_ne hbreaks _ _ h
      rw [decoded_append_cut hpiece] at h
      rw [List.dropLast_cons_of_ne_nil (List.cons_ne_nil next more)]
      exact List.forall_mem_cons.2 ⟨hpiece, ih (List.cons.inj (List.append_cancel_left h)).2⟩

/-- **A declaration that is found in a decoded piece** is one of the piece, if its property has no quotes, and
its value is decoded. -/
theorem exists_ofPiece?_of_decoded {offset : Nat} {d : Declaration}
    (h : Declaration.ofPiece? offset (decoded piece) = some d)
    (hplain : ∀ c ∈ d.property.toList, isPlain c = true) :
    ∃ value span, Declaration.ofPiece? 0 piece = some ⟨d.property, String.ofList value, span⟩ ∧
      d.value = String.ofList (Text.trim (decoded value)) := by
  obtain ⟨head, lead, trail, heq, hcolon, -, -, hname, hproperty, -⟩ := Declaration.exists_of_ofPiece? h
  rw [hname, String.toList_ofList] at hplain
  have hhead := isPlain_of_propertyOf hplain
  -- Neither the property nor the colon has come from a reference.
  obtain ⟨front, rest, rfl, hfront, hrest⟩ := exists_of_decoded_eq_append heq
  obtain rfl : front = head := by
    rw [← hfront]
    refine (decoded_eq_self (fun hmem => ?_) fun hmem => ?_).symm <;> rw [hfront] at hmem <;>
      exact absurd (hhead _ hmem) (by decide)
  rw [← List.singleton_append] at hrest
  obtain ⟨colon, raw, rfl, hcolonText, hraw⟩ := exists_of_decoded_eq_append hrest
  obtain rfl : colon = [':'] := by
    rw [← hcolonText]
    exact (decoded_eq_self (hcolonText ▸ by decide) (hcolonText ▸ by decide)).symm
  obtain ⟨lead', trail', hsplit, hlead', htrail'⟩ := Text.exists_trim raw
  have hvalue : Text.trim (decoded raw) = Text.trim (decoded (Text.trim raw)) := by
    rw [hsplit, decoded_append_blanks hlead' htrail', Text.trim_append hlead' htrail', ← hsplit]
  obtain ⟨span, hpiece⟩ := Declaration.exists_ofPiece?_append 0 raw hcolon hproperty
    (List.forall_mem_nil _) (List.forall_mem_nil _)
  obtain ⟨span', hdecoded⟩ := Declaration.exists_ofPiece?_append offset (decoded raw) hcolon hproperty
    (List.forall_mem_nil _) (List.forall_mem_nil _)
  rw [List.nil_append, List.append_nil] at hpiece hdecoded
  refine ⟨Text.trim raw, span, ?_, ?_⟩
  · rw [hname]
    exact hpiece
  · rw [heq, ← hraw, hdecoded] at h
    rw [← hvalue]
    exact (congrArg Declaration.value (Option.some.inj h)).symm

/-! ## Groups of pieces -/

/-- Groups of texts with separators between them are all the texts with separators between them. -/
theorem joinWith_flatten {groups : List (List (List Char))} (hne : ∀ group ∈ groups, group ≠ []) :
    Text.joinWith [';'] groups.flatten = Text.joinWith [';'] (groups.map (Text.joinWith [';'])) := by
  induction groups with
  | nil => rfl
  | cons group groups ih =>
    obtain ⟨hgroup, hrest⟩ := List.forall_mem_cons.1 hne
    cases groups with
    | nil => rw [List.flatten_cons, List.flatten_nil, List.append_nil, List.map_cons, List.map_nil, Text.joinWith]
    | cons next groups =>
      have hnext : (next :: groups).flatten ≠ [] := fun hnil =>
        hrest next List.mem_cons_self (List.flatten_eq_nil_iff.1 hnil next List.mem_cons_self)
      rw [List.flatten_cons, Text.joinWith_append hgroup hnext, ih hrest]
      simp [Text.joinWith]

/-- Groups of its pieces make up a style. -/
theorem joinWith_of_pieces {groups : List (List (List Char))} (hne : ∀ group ∈ groups, group ≠ [])
    (hpieces : pieces cs = groups.flatten) :
    Text.joinWith [';'] (groups.map (Text.joinWith [';'])) = cs := by
  rw [← joinWith_flatten hne, ← hpieces, joinWith_pieces]

/-- The pieces of a style in groups, each of which is one piece of the decoded style.  Where a reference stands
outside of parentheses, its semicolon is a cut of the style and none of the decoded style. -/
structure AreGroups (style : List Char) (groups : List (List (List Char))) : Prop where
  /-- No group is empty. -/
  nonempty : ∀ group ∈ groups, group ≠ []
  /-- They are the pieces of the style. -/
  pieces : pieces style = groups.flatten
  /-- They are the pieces of the decoded style. -/
  decoded : Css.pieces (decoded style) = groups.map fun group => Css.decoded (Text.joinWith [';'] group)

/-- A text that can stand anywhere in a style and in the decoded style, as it is. -/
structure IsInert (text : List Char) : Prop where
  closed : IsClosed text
  decoded : Css.decoded text = text
  unbroken : ¬ BreaksReference text

/-- **Groups stay groups** if some of them give way to texts that can stand anywhere. -/
theorem AreGroups.of_eq_or_isInert {style style' : List Char} {groups groups' : List (List (List Char))}
    (h : AreGroups style groups) (hne : ∀ group ∈ groups', group ≠ [])
    (hpieces : Css.pieces style' = groups'.flatten)
    (hgroups : List.Forall₂ (fun group group' => Text.joinWith [';'] group' = Text.joinWith [';'] group ∨
      IsInert (Text.joinWith [';'] group')) groups groups') : AreGroups style' groups' := by
  refine ⟨hne, hpieces, ?_⟩
  have hdecoded : (groups.map fun group => Css.decoded (Text.joinWith [';'] group)) =
      (groups.map (Text.joinWith [';'])).map Css.decoded := List.map_map.symm
  have hstyle := joinWith_of_pieces h.nonempty h.pieces
  have hstyle' := joinWith_of_pieces hne hpieces
  have hunits : List.Forall₂ (fun unit unit' => unit' = unit ∨ IsInert unit')
      (groups.map (Text.joinWith [';'])) (groups'.map (Text.joinWith [';'])) := by
    rw [List.forall₂_map_left_iff, List.forall₂_map_right_iff]
    exact hgroups
  have hcut := hdecoded ▸ h.decoded
  show Css.pieces (Css.decoded style') = groups'.map (Css.decoded ∘ Text.joinWith [';'])
  rw [← List.map_map]
  generalize groups.map (Text.joinWith [';']) = units at hstyle hunits hcut
  generalize groups'.map (Text.joinWith [';']) = units' at hstyle' hunits ⊢
  subst hstyle hstyle'
  -- No unit breaks off in a reference, so the units are decoded one by one.
  have hjoin : Css.decoded (Text.joinWith [';'] units) = Text.joinWith [';'] (units.map Css.decoded) := by
    rw [← hcut, joinWith_pieces]
  have hunbroken : ∀ unit ∈ units'.dropLast, ¬ BreaksReference unit := by
    intro unit' hunit'
    obtain ⟨unit, hunit, rfl | hinert⟩ := exists_left_of_mem (forall₂_dropLast hunits) hunit'
    · exact not_breaksReference_of_decoded hjoin unit' hunit
    · exact hinert.unbroken
  rw [decoded_joinWith hunbroken]
  apply piecesFrom_joinWith
  have hpieces := arePieces_piecesFrom .neutral (Css.decoded (Text.joinWith [';'] units))
  rw [show piecesFrom .neutral (Css.decoded (Text.joinWith [';'] units)) = units.map Css.decoded from hcut] at hpieces
  refine .of_eq_or_isClosed rfl ?_ hpieces
  rw [List.forall₂_map_left_iff, List.forall₂_map_right_iff]
  refine hunits.imp fun unit unit' hunit => hunit.imp (congrArg Css.decoded) fun hinert => ?_
  rw [hinert.decoded]
  exact hinert.closed

end Css

end MailTemplate
