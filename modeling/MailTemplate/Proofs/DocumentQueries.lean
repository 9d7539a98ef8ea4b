import MailTemplate.Markup.Document
import MailTemplate.Proofs.MarkupFronts

/-!
# What a document is asked for

Rules ask a document for tags of a name, for raw texts and for the end of an element.  What they get are
tokens of the document, and of a document that is written in pieces they get the tags and the raw texts
of the pieces.

## Main definitions

* `MarkupPiece.tags`, `MarkupPiece.raws` — the tags of a name and the raw texts of an element among
  pieces.
* `StartTag.IsPlaceFree` — a test of tags that does not look where they stand.

## Main results

* `Document.mem_tokens_of_firstStart?` and others — what a document gives are tokens of it.
* `MarkupPiece.exists_split_of_startTag`, `MarkupPiece.exists_split_of_endTag` — a token is a piece.
* `MarkupPiece.any_startTags_iff` — the tags of a document in pieces.
* `MarkupPiece.map_text_rawTexts`, `MarkupPiece.head?_rawTexts_of_split` — its raw texts.
-/

namespace MailTemplate

/-! ## Tokens -/

namespace Document

variable {doc : Document} {name : String} {span : Span} {tag : StartTag}

theorem mem_tokens_of_firstStart? (h : doc.firstStart? name = some tag) :
    Token.startTag tag ∈ doc.tokens ∧ tag.name = name := by
  obtain ⟨t, ht, htag⟩ := List.exists_of_findSome?_eq_some h
  cases t with
  | startTag tag' =>
    simp only [Token.startTagNamed?] at htag
    split at htag
    · next hname =>
      obtain rfl := Option.some.inj htag
      exact ⟨ht, hname⟩
    · exact absurd htag (by simp)
  | _ => exact absurd htag (by simp [Token.startTagNamed?])

theorem mem_tokens_of_firstEnd? (h : doc.firstEnd? name = some span) :
    Token.endTag name span ∈ doc.tokens := by
  obtain ⟨t, ht, hspan⟩ := List.exists_of_findSome?_eq_some h
  split at hspan
  · split at hspan
    · next hname => exact hname ▸ Option.some.inj hspan ▸ ht
    · exact absurd hspan (by simp)
  · exact absurd hspan (by simp)

theorem mem_tokens_of_mem_rawTexts (h : span ∈ doc.rawTexts name) :
    Token.rawText name span ∈ doc.tokens := by
  obtain ⟨t, ht, hspan⟩ := List.mem_filterMap.1 h
  split at hspan
  · split at hspan
    · next hname => exact hname ▸ Option.some.inj hspan ▸ ht
    · exact absurd hspan (by simp)
  · exact absurd hspan (by simp)

theorem mem_of_closingEnd? {depth : Nat} {tokens : List Token}
    (h : closingEnd? name depth tokens = some span) : Token.endTag name span ∈ tokens := by
  fun_induction closingEnd? name depth tokens with
  | case1 => exact absurd h (by simp)
  | case3 => exact Option.some.inj h ▸ List.mem_cons_self
  | case2 | case4 | case5 | case6 =>
    rename_i ih
    exact List.mem_cons_of_mem _ (ih h)

/-- An element is closed by an end tag. -/
theorem mem_tokens_of_matchingEnd? {i : Nat} (h : doc.matchingEnd? i = some span) :
    ∃ name, Token.endTag name span ∈ doc.tokens := by
  unfold matchingEnd? at h
  split at h
  · next tag rest hrest =>
    have hmem : Token.endTag tag.name span ∈ doc.tokens.drop i := by
      rw [hrest]
      exact List.mem_cons_of_mem _ (mem_of_closingEnd? h)
    exact ⟨tag.name, List.mem_of_mem_drop hmem⟩
  · exact absurd h (by simp)

theorem mem_tokens_of_mem_allStartTags (h : tag ∈ doc.allStartTags) :
    Token.startTag tag ∈ doc.tokens := by
  obtain ⟨token, htoken, htag⟩ := List.mem_filterMap.1 h
  cases token with
  | startTag tag' =>
    obtain rfl := Option.some.inj htag
    exact htoken
  | _ => exact absurd htag (by simp [Token.startTag?])

theorem mem_startTags_iff {i : Nat} :
    (i, tag) ∈ doc.startTags name ↔ doc.tokens[i]? = some (.startTag tag) ∧ tag.name = name := by
  constructor
  · intro hmem
    obtain ⟨⟨token, j⟩, htoken, heq⟩ := List.mem_filterMap.1 hmem
    obtain ⟨named, hnamed, heq⟩ := Option.map_eq_some_iff.1 heq
    obtain ⟨rfl, rfl⟩ := Prod.mk.inj heq
    cases token with
    | startTag tag' =>
      simp only [Token.startTagNamed?] at hnamed
      split at hnamed
      · next hname =>
        obtain rfl := Option.some.inj hnamed
        exact ⟨List.mem_zipIdx_iff_getElem?.1 htoken, hname⟩
      · exact absurd hnamed (by simp)
    | _ => exact absurd hnamed (by simp [Token.startTagNamed?])
  · rintro ⟨hi, hname⟩
    refine List.mem_filterMap.2 ⟨(_, i), List.mem_zipIdx_iff_getElem?.2 hi, ?_⟩
    show (if tag.name = name then some tag else none).map _ = _
    rw [if_pos hname]
    rfl

/-- The start tags of a name are the tokens that are such tags. -/
theorem exists_mem_startTags_iff :
    (∃ i, (i, tag) ∈ doc.startTags name) ↔ Token.startTag tag ∈ doc.tokens ∧ tag.name = name := by
  constructor
  · rintro ⟨i, hmem⟩
    obtain ⟨hi, hname⟩ := mem_startTags_iff.1 hmem
    exact ⟨List.mem_of_getElem? hi, hname⟩
  · rintro ⟨hmem, hname⟩
    obtain ⟨i, hi⟩ := List.mem_iff_getElem?.1 hmem
    exact ⟨i, mem_startTags_iff.2 ⟨hi, hname⟩⟩

theorem mem_allStartTags_iff : tag ∈ doc.allStartTags ↔ Token.startTag tag ∈ doc.tokens :=
  ⟨mem_tokens_of_mem_allStartTags, fun h => List.mem_filterMap.2 ⟨_, h, rfl⟩⟩

/-- What holds of all start tags of a name does not depend on their places. -/
theorem forall_mem_startTags_iff {P : StartTag → Prop} :
    (∀ i tag, (i, tag) ∈ doc.startTags name → P tag) ↔
      ∀ tag ∈ doc.allStartTags, tag.name = name → P tag := by
  constructor
  · intro h tag htag hname
    obtain ⟨i, hi⟩ := exists_mem_startTags_iff.2 ⟨mem_allStartTags_iff.1 htag, hname⟩
    exact h i tag hi
  · intro h i tag hi
    obtain ⟨hmem, hname⟩ := exists_mem_startTags_iff.1 ⟨i, hi⟩
    exact h tag (mem_allStartTags_iff.2 hmem) hname

/-- They are listed in order. -/
theorem pairwise_startTags (doc : Document) (name : String) :
    (doc.startTags name).Pairwise fun a b => a.1 < b.1 := by
  have hplaces : doc.tokens.zipIdx.Pairwise fun a b => a.2 < b.2 := by
    rw [← List.pairwise_map, List.zipIdx_map_snd]
    exact List.pairwise_lt_range'
  refine hplaces.filterMap _ fun a a' hlt b hb b' hb' => ?_
  obtain ⟨_, -, rfl⟩ := Option.map_eq_some_iff.1 hb
  obtain ⟨_, -, rfl⟩ := Option.map_eq_some_iff.1 hb'
  exact hlt

theorem rawTexts_append (source : String) (tokens more : List Token) (element : String) :
    (Document.mk source (tokens ++ more)).rawTexts element =
      (Document.mk source tokens).rawTexts element ++ (Document.mk source more).rawTexts element :=
  List.filterMap_append

end Document

/-! ## Pieces -/

/-- A test of tags that does not look where they stand. -/
def StartTag.IsPlaceFree (test : StartTag → Bool) : Prop :=
  ∀ (t : WrittenTag) (o o' : Nat), test (t.at_ o) = test (t.at_ o')

section PlaceFree

theorem TagPart.map_value_find? (name : String) (parts : List TagPart) (o o' : Nat) :
    ((attributes o parts).find? fun a => a.name == name).map Attribute.value =
      ((attributes o' parts).find? fun a => a.name == name).map Attribute.value := by
  induction parts generalizing o o' with
  | nil => rfl
  | cons part parts ih =>
    cases part with
    | stray c => exact ih _ _
    | named a =>
      -- The name of an attribute does not depend on the place.
      rw [attributes, attributes]
      cases hkey : a.key == name with
      | true =>
        have hfound (o : Nat) (more : List Attribute) :
            (a.at_ o :: more).find? (fun b => b.name == name) = some (a.at_ o) :=
          List.find?_cons_of_pos hkey
        rw [hfound, hfound]
        rfl
      | false =>
        have hpassed (o : Nat) (more : List Attribute) :
            (a.at_ o :: more).find? (fun b => b.name == name) = more.find? fun b => b.name == name :=
          List.find?_cons_of_neg (Bool.eq_false_iff.1 hkey)
        rw [hpassed, hpassed]
        exact ih _ _

/-- The value of an attribute does not depend on the place. -/
theorem WrittenTag.value?_at_ (t : WrittenTag) (name : String) (o o' : Nat) :
    (t.at_ o).value? name = (t.at_ o').value? name := by
  have hjoin : ∀ found : Option Attribute, found.bind Attribute.value =
      (found.map Attribute.value).join := by
    intro found
    cases found <;> rfl
  simp only [StartTag.value?, StartTag.attribute?, hjoin]
  exact congrArg Option.join (TagPart.map_value_find? name t.parts _ _)

theorem StartTag.IsPlaceFree.value? (name : String) (test : Option String → Bool) :
    IsPlaceFree fun tag => test (tag.value? name) :=
  fun t o o' => congrArg test (t.value?_at_ name o o')

theorem StartTag.IsPlaceFree.isSome_attribute? (name : String) :
    IsPlaceFree fun tag => (tag.attribute? name).isSome := by
  intro t o o'
  have h := congrArg Option.isSome
    (TagPart.map_value_find? name t.parts (t.nameEnd o) (t.nameEnd o'))
  simpa [StartTag.attribute?, WrittenTag.at_] using h

theorem StartTag.IsPlaceFree.or {test more : StartTag → Bool} (h : IsPlaceFree test)
    (hmore : IsPlaceFree more) : IsPlaceFree fun tag => test tag || more tag := by
  intro t o o'
  show (test _ || more _) = (test _ || more _)
  rw [h t o o', hmore t o o']

end PlaceFree

namespace MarkupPiece

variable {p : MarkupPiece} {ps qs : List MarkupPiece} {o : Nat} {name element : String} {span : Span}

/-- The tag of a name that a piece is. -/
def tagNamed? (name : String) : MarkupPiece → Option WrittenTag
  | startTag t _ => if t.key = name then some t else none
  | _ => none

/-- The tags of a name among pieces. -/
def tags (name : String) (ps : List MarkupPiece) : List WrittenTag := ps.filterMap (tagNamed? name)

/-- The raw text of an element that a piece has. -/
def raw? (element : String) : MarkupPiece → Option (List Char)
  | startTag t raw => if t.IsRaw ∧ t.key = element then some raw else none
  | _ => none

/-- The raw texts of an element among pieces. -/
def raws (element : String) (ps : List MarkupPiece) : List (List Char) := ps.filterMap (raw? element)

theorem tokens_append (o : Nat) (ps qs : List MarkupPiece) :
    tokens o (ps ++ qs) = tokens o ps ++ tokens (o + Text.byteLength (text ps)) qs := by
  induction ps generalizing o with
  | nil => rfl
  | cons p ps ih =>
    rw [List.cons_append, tokens, tokens, ih, text_cons, Text.byteLength_append, List.append_assoc,
      Nat.add_assoc]

theorem tokens_read (hfit : Fit ps) :
    (Document.read (String.ofList (text ps))).tokens = tokens 0 ps := tokenize_text hfit

/-- A token of pieces is one of a piece. -/
theorem exists_split_of_mem_tokens {token : Token} (h : token ∈ tokens o ps) :
    ∃ front p back, ps = front ++ p :: back ∧
      token ∈ p.tokensAt (o + Text.byteLength (text front)) := by
  induction ps generalizing o with
  | nil => exact absurd h List.not_mem_nil
  | cons p ps ih =>
    rcases List.mem_append.1 h with h | h
    · exact ⟨[], p, ps, rfl, h⟩
    · obtain ⟨front, q, back, rfl, hq⟩ := ih h
      refine ⟨p :: front, q, back, rfl, ?_⟩
      rwa [text_cons, Text.byteLength_append, ← Nat.add_assoc]

theorem exists_split_of_startTag {tag : StartTag} (h : Token.startTag tag ∈ tokens o ps) :
    ∃ front t raw back, ps = front ++ startTag t raw :: back ∧
      tag = t.at_ (o + Text.byteLength (text front)) := by
  obtain ⟨front, p, back, rfl, hp⟩ := exists_split_of_mem_tokens h
  cases p with
  | startTag t raw =>
    refine ⟨front, t, raw, back, rfl, ?_⟩
    rcases List.mem_cons.1 hp with heq | hp
    · exact Token.startTag.inj heq
    · split at hp
      · exact absurd (List.mem_singleton.1 hp) (by simp)
      · exact absurd hp List.not_mem_nil
  | plain => exact absurd hp List.not_mem_nil
  | endTag | comment | declaration => exact absurd (List.mem_singleton.1 hp) (by simp)

theorem mem_tokens_of_split (o : Nat) (front : List MarkupPiece) (t : WrittenTag) (raw : List Char)
    (back : List MarkupPiece) :
    Token.startTag (t.at_ (o + Text.byteLength (text front))) ∈
      tokens o (front ++ startTag t raw :: back) := by
  rw [tokens_append]
  exact List.mem_append_right _ List.mem_cons_self

theorem exists_split_of_endTag (h : Token.endTag name span ∈ tokens o ps) :
    ∃ front written_ body back, ps = front ++ endTag written_ body :: back ∧
      name = String.ofList (Text.lower written_) ∧
        span = ⟨o + Text.byteLength (text front), o + Text.byteLength (text (front ++
          [endTag written_ body]))⟩ := by
  obtain ⟨front, p, back, rfl, hp⟩ := exists_split_of_mem_tokens h
  cases p with
  | endTag written_ body =>
    obtain ⟨rfl, rfl⟩ := Token.endTag.inj (List.mem_singleton.1 hp)
    refine ⟨front, written_, body, back, rfl, rfl, ?_⟩
    rw [text_append, Text.byteLength_append, Nat.add_assoc]
    simp [text]
  | startTag t raw =>
    rcases List.mem_cons.1 hp with heq | hp
    · exact absurd heq (by simp)
    · split at hp
      · exact absurd (List.mem_singleton.1 hp) (by simp)
      · exact absurd hp List.not_mem_nil
  | plain => exact absurd hp List.not_mem_nil
  | comment | declaration => exact absurd (List.mem_singleton.1 hp) (by simp)

/-- The first tag of an element without raw text. -/
theorem exists_split_of_firstStart? {tag : StartTag} (hfit : Fit ps)
    (h : (Document.read (String.ofList (text ps))).firstStart? name = some tag)
    (hname : name ∉ Token.rawElements) :
    ∃ front t back, ps = front ++ startTag t [] :: back ∧ t.key = name ∧ ¬ t.IsRaw ∧
      tag = t.at_ (Text.byteLength (text front)) := by
  obtain ⟨hmem, hkey⟩ := Document.mem_tokens_of_firstStart? h
  rw [tokens_read hfit] at hmem
  obtain ⟨front, t, raw, back, rfl, rfl⟩ := exists_split_of_startTag hmem
  have hkey : t.key = name := hkey
  have hplain : ¬ t.IsRaw := fun hraw => hname (hkey ▸ hraw.2)
  have hraw : raw = [] := by
    have hfits := hfit.behind.1.2
    rwa [if_neg hplain] at hfits
  exact ⟨front, t, back, by rw [hraw], hkey, hplain, by rw [Nat.zero_add]⟩

/-! ## Tags of a document in pieces -/

theorem mem_tags_iff {t : WrittenTag} :
    t ∈ tags name ps ↔ ∃ raw, startTag t raw ∈ ps ∧ t.key = name := by
  rw [tags, List.mem_filterMap]
  constructor
  · rintro ⟨p, hp, ht⟩
    cases p with
    | startTag t' raw =>
      simp only [tagNamed?] at ht
      split at ht
      · next hname =>
        obtain rfl := Option.some.inj ht
        exact ⟨raw, hp, hname⟩
      · exact absurd ht (by simp)
    | _ => exact absurd ht (by simp [tagNamed?])
  · rintro ⟨raw, hp, hname⟩
    exact ⟨_, hp, if_pos hname⟩

theorem tags_cons (name : String) (p : MarkupPiece) (ps : List MarkupPiece) :
    tags name (p :: ps) = (p.tagNamed? name).toList ++ tags name ps := by
  cases h : p.tagNamed? name <;> simp [tags, h]

theorem tags_append (name : String) (ps qs : List MarkupPiece) :
    tags name (ps ++ qs) = tags name ps ++ tags name qs := List.filterMap_append

/-- **A document in pieces has a tag** that passes a test if one of the pieces does. -/
theorem any_startTags_iff {test : StartTag → Bool} (htest : StartTag.IsPlaceFree test)
    (hfit : Fit ps) :
    (((Document.read (String.ofList (text ps))).startTags name).any fun p => test p.2) = true ↔
      ∃ t ∈ tags name ps, test (t.at_ 0) = true := by
  rw [List.any_eq_true]
  constructor
  · rintro ⟨⟨i, tag⟩, hmem, hpasses⟩
    obtain ⟨htoken, hname⟩ := Document.exists_mem_startTags_iff.1 ⟨i, hmem⟩
    rw [tokens_read hfit] at htoken
    obtain ⟨front, t, raw, back, rfl, rfl⟩ := exists_split_of_startTag htoken
    refine ⟨t, mem_tags_iff.2 ⟨raw, by simp, hname⟩, ?_⟩
    rwa [htest t 0 _]
  · rintro ⟨t, ht, hpasses⟩
    obtain ⟨raw, hmem, hname⟩ := mem_tags_iff.1 ht
    obtain ⟨front, back, rfl⟩ := List.append_of_mem hmem
    have htoken := mem_tokens_of_split 0 front t raw back
    rw [← tokens_read hfit] at htoken
    obtain ⟨i, hi⟩ := Document.exists_mem_startTags_iff.2 ⟨htoken, hname⟩
    exact ⟨_, hi, (htest t _ 0).trans hpasses⟩

/-! ## Raw texts of a document in pieces -/

@[simp] theorem raws_nil (element : String) : raws element [] = [] := rfl

theorem raws_cons (element : String) (p : MarkupPiece) (ps : List MarkupPiece) :
    raws element (p :: ps) = (p.raw? element).toList ++ raws element ps := by
  cases h : p.raw? element <;> simp [raws, h]

theorem raws_append (element : String) (ps qs : List MarkupPiece) :
    raws element (ps ++ qs) = raws element ps ++ raws element qs := List.filterMap_append

/-- The raw texts of one piece of a source. -/
theorem map_text_rawTexts_written {source : String} {before after : List Char}
    (hsource : source.toList = before ++ (p.written ++ after)) :
    ((Document.mk source (p.tokensAt (Text.byteLength before))).rawTexts element).map
      (Document.mk source (p.tokensAt (Text.byteLength before))).text = (p.raw? element).toList := by
  cases p with
  | startTag t raw =>
    by_cases hraw : t.IsRaw
    · by_cases helement : t.key = element
      · have hslice : Text.slice? ⟨Text.byteLength before + Text.byteLength t.written,
            Text.byteLength before + Text.byteLength (t.written ++ raw)⟩ source.toList = some raw := by
          refine Text.slice?_eq_some_iff.2 ⟨before ++ t.written, after, ?_, ?_, ?_⟩
          · rw [hsource, written, List.append_assoc, List.append_assoc]
          · exact (Text.byteLength_append _ _).symm
          · simp only [Text.byteLength_append, Nat.add_assoc]
        simp [Document.rawTexts, tokensAt, raw?, hraw, helement, Document.text, Text.slice, hslice]
      · simp [Document.rawTexts, tokensAt, raw?, hraw, helement]
    · simp [Document.rawTexts, tokensAt, raw?, hraw]
  | _ => rfl

theorem map_text_rawTexts_from {source : String} {before : List Char}
    (hsource : source.toList = before ++ text ps) :
    ((Document.mk source (tokens (Text.byteLength before) ps)).rawTexts element).map
      (Document.mk source (tokens (Text.byteLength before) ps)).text = raws element ps := by
  induction ps generalizing before with
  | nil => rfl
  | cons p ps ih =>
    rw [text_cons] at hsource
    have hfirst := @map_text_rawTexts_written p element source before (text ps) hsource
    have hrest := @ih (before ++ p.written) (by rw [hsource, List.append_assoc])
    rw [Text.byteLength_append] at hrest
    rw [tokens, Document.rawTexts_append, List.map_append]
    exact (congr (congrArg (· ++ ·) hfirst) hrest).trans (raws_cons element p ps).symm

/-- **The raw texts of a document in pieces** are those of the pieces. -/
theorem map_text_rawTexts (hfit : Fit ps) :
    ((Document.read (String.ofList (text ps))).rawTexts element).map
      (Document.read (String.ofList (text ps))).text = raws element ps := by
  have htokens := tokens_read hfit
  unfold Document.read at htokens ⊢
  rw [show Token.tokenize (String.ofList (text ps)) = tokens 0 ps from htokens]
  exact @map_text_rawTexts_from ps element (String.ofList (text ps)) [] (by simp)

/-- A raw text is that of a piece, and those before it are those of the pieces before. -/
theorem exists_split_of_raws {raw : List Char} {more : List (List Char)}
    (h : raws element ps = raw :: more) :
    ∃ front t back, ps = front ++ startTag t raw :: back ∧ t.IsRaw ∧ t.key = element ∧
      raws element front = [] ∧ raws element back = more := by
  obtain ⟨front, p, back, rfl, hfront, hp, hback⟩ := List.filterMap_eq_cons_iff.1 h
  cases p with
  | startTag t raw' =>
    simp only [raw?] at hp
    split at hp
    · next hcondition =>
      obtain rfl := Option.some.inj hp
      exact ⟨front, t, back, rfl, hcondition.1, hcondition.2, List.filterMap_eq_nil_iff.2 hfront, hback⟩
    · exact absurd hp (by simp)
  | _ => exact absurd hp (by simp [raw?])

/-- The first raw text begins behind its tag. -/
theorem head?_rawTexts_of_split {front back : List MarkupPiece} {t : WrittenTag} {raw : List Char}
    (hfit : Fit (front ++ startTag t raw :: back)) (hraw : t.IsRaw) (hkey : t.key = element)
    (hfront : raws element front = []) :
    ((Document.read (String.ofList (text (front ++ startTag t raw :: back)))).rawTexts
      element).head? = some ⟨Text.byteLength (text front) + Text.byteLength t.written,
        Text.byteLength (text front) + Text.byteLength (t.written ++ raw)⟩ := by
  have hnone : (Document.mk (String.ofList (text front)) (tokens 0 front)).rawTexts element = [] := by
    have htexts := @map_text_rawTexts_from front element (String.ofList (text front)) [] (by simp)
    rw [hfront] at htexts
    exact List.map_eq_nil_iff.1 htexts
  have htokens := tokens_read hfit
  unfold Document.read at htokens ⊢
  rw [show Token.tokenize _ = _ from htokens, tokens_append, tokens, Document.rawTexts_append,
    Document.rawTexts_append]
  show (Document.rawTexts (Document.mk (String.ofList (text front)) (tokens 0 front)) element ++ _).head? = _
  rw [hnone]
  simp [Document.rawTexts, tokensAt, hraw, hkey]

end MarkupPiece

end MailTemplate
