import MailTemplate.Proofs.EditPlaces
import MailTemplate.Proofs.MarkupInsertions

/-!
# Tokens around an insertion

Text that is inserted behind a token that has its own end is read for itself: the tokens before stay, the
inserted text has the tokens that it has alone, and the tokens behind are those that stood there.  They move,
and nothing else about them changes.

The scanner looks ahead without bound, for a quote, for the end of a comment and for the end of raw text.  A
token whose end is there does not look past it, and neither does a tag without raw text.  So the pieces before
the insertion fit before anything, and the inserted text does if the same holds of its last token.

## Main definitions

* `Attribute.shift`, `StartTag.shift`, `Token.shift` — tokens further on.
* `Token.IsClosedIn` — a token with its own end.
* `Token.ClosesAt` — a place where such a token ends.

## Main results

* `MarkupPiece.tokens_add` — the tokens of pieces move with them.
* `MarkupPiece.isFree_of_isClosedIn` — a piece with its own end does not look at what follows.
* `Token.tokenize_insert` — the tokens of a source with a text inserted.
* `Token.completes_insert` — it has no broken tag, and text can be inserted behind the text again.
-/

namespace MailTemplate

/-! ## Tokens that move -/

/-- An attribute further on. -/
def Attribute.shift (a : Attribute) (k : Nat) : Attribute :=
  { a with span := a.span.shift k, valueSpan := a.valueSpan.map fun span => span.shift k }

/-- A start tag further on. -/
def StartTag.shift (tag : StartTag) (k : Nat) : StartTag :=
  { tag with
    attributes := tag.attributes.map fun a => a.shift k
    span := tag.span.shift k
    attributesEnd := tag.attributesEnd + k }

/-- A token further on. -/
def Token.shift (token : Token) (k : Nat) : Token :=
  match token with
  | startTag tag => startTag (tag.shift k)
  | endTag name span => endTag name (span.shift k)
  | comment span => comment (span.shift k)
  | declaration span => declaration (span.shift k)
  | rawText element span => rawText element (span.shift k)

theorem Span.shift_mk (start stop k : Nat) : (Span.mk start stop).shift k = ⟨start + k, stop + k⟩ := rfl

/-- An attribute moves with its text. -/
theorem WrittenAttribute.at_add (a : WrittenAttribute) (o k : Nat) : a.at_ (o + k) = (a.at_ o).shift k := by
  have hvalue (v : WrittenValue) : a.valueStart v (o + k) = a.valueStart v o + k := by
    simp only [valueStart]
    omega
  simp only [at_, Attribute.shift, Span.shift_mk, Option.map_map, Function.comp_def, hvalue,
    Nat.add_right_comm _ _ k]

namespace TagPart

variable {parts : List TagPart}

theorem attributes_add (o k : Nat) (parts : List TagPart) :
    attributes (o + k) parts = (attributes o parts).map fun a => a.shift k := by
  induction parts generalizing o with
  | nil => rfl
  | cons part parts ih =>
    cases part with
    | stray c => rw [attributes, attributes, Nat.add_right_comm, ih]
    | named a => rw [attributes, attributes, List.map_cons, Nat.add_right_comm, ih, a.at_add]

theorem attributesEnd_add (lastEnd o k : Nat) (parts : List TagPart) :
    attributesEnd (lastEnd + k) (o + k) parts = attributesEnd lastEnd o parts + k := by
  induction parts generalizing lastEnd o with
  | nil => rfl
  | cons part parts ih =>
    cases part with
    | stray c => rw [attributesEnd, attributesEnd, Nat.add_right_comm o, ih]
    | named a => rw [attributesEnd, attributesEnd, Nat.add_right_comm o, ih]

end TagPart

theorem WrittenTag.at_add (t : WrittenTag) (o k : Nat) : t.at_ (o + k) = (t.at_ o).shift k := by
  have hname : t.nameEnd (o + k) = t.nameEnd o + k := Nat.add_right_comm _ _ _
  simp only [at_, StartTag.shift, hname, TagPart.attributes_add, TagPart.attributesEnd_add, Span.shift_mk,
    Nat.add_right_comm _ _ k]

namespace MarkupPiece

variable {p : MarkupPiece} {ps : List MarkupPiece} {token : Token} {o : Nat}

theorem tokensAt_add (o k : Nat) (p : MarkupPiece) :
    p.tokensAt (o + k) = (p.tokensAt o).map fun token => token.shift k := by
  cases p with
  | plain c => rfl
  | startTag t raw =>
    rw [tokensAt, tokensAt, t.at_add, List.map_cons]
    split
    · simp only [List.map_cons, List.map_nil, Token.shift, Span.shift_mk, Nat.add_right_comm _ _ k]
    · rfl
  | endTag | comment | declaration =>
    simp only [tokensAt, List.map_cons, List.map_nil, Token.shift, Span.shift_mk, Nat.add_right_comm _ _ k]

/-- **The tokens of pieces move with them.** -/
theorem tokens_add (o k : Nat) (ps : List MarkupPiece) :
    tokens (o + k) ps = (tokens o ps).map fun token => token.shift k := by
  induction ps generalizing o with
  | nil => rfl
  | cons p ps ih => rw [tokens, tokens, List.map_append, tokensAt_add, Nat.add_right_comm, ih]

/-- A token ends behind the beginning of its piece, and not behind its end. -/
theorem stop_of_mem_tokensAt (h : token ∈ p.tokensAt o) :
    o < token.span.stop ∧ token.span.stop ≤ o + Text.byteLength p.written := by
  have hpos := Text.byteLength_pos (written_ne_nil p)
  cases p with
  | plain => exact absurd h List.not_mem_nil
  | startTag t raw =>
    have htag : 0 < Text.byteLength t.written := Text.byteLength_pos (by simp [WrittenTag.written])
    have hlength : Text.byteLength (t.written ++ raw) = Text.byteLength t.written + Text.byteLength raw :=
      Text.byteLength_append _ _
    rcases List.mem_cons.1 h with rfl | h
    · simp only [Token.span, WrittenTag.at_, written, hlength]
      omega
    · split at h
      · obtain rfl := List.mem_singleton.1 h
        simp only [Token.span, written, hlength]
        omega
      · exact absurd h List.not_mem_nil
  | endTag | comment | declaration =>
    obtain rfl := List.mem_singleton.1 h
    simp only [Token.span]
    omega

theorem stop_of_mem_tokens (h : token ∈ tokens o ps) :
    o < token.span.stop ∧ token.span.stop ≤ o + Text.byteLength (text ps) := by
  obtain ⟨front, p, back, rfl, hp⟩ := exists_split_of_mem_tokens h
  have hstop := stop_of_mem_tokensAt hp
  simp only [text_append, text_cons, Text.byteLength_append]
  omega

/-- The tokens of pieces are told apart by where they end. -/
theorem filter_tokens (o : Nat) (ps qs : List MarkupPiece) :
    (tokens o (ps ++ qs)).filter (fun token => token.span.stop ≤ o + Text.byteLength (text ps)) =
        tokens o ps ∧
      (tokens o (ps ++ qs)).filter (fun token => o + Text.byteLength (text ps) < token.span.stop) =
        tokens (o + Text.byteLength (text ps)) qs := by
  rw [tokens_append, List.filter_append, List.filter_append]
  constructor
  · rw [List.filter_eq_self.2, List.filter_eq_nil_iff.2, List.append_nil]
    · intro token htoken
      have hstop := stop_of_mem_tokens htoken
      simp only [decide_eq_true_eq]
      omega
    · exact fun token htoken => decide_eq_true (stop_of_mem_tokens htoken).2
  · rw [List.filter_eq_nil_iff.2, List.filter_eq_self.2, List.nil_append]
    · exact fun token htoken => decide_eq_true (stop_of_mem_tokens htoken).1
    · intro token htoken
      have hstop := stop_of_mem_tokens htoken
      simp only [decide_eq_true_eq]
      omega

/-- Pieces between others are read as alone, and what follows them moves. -/
theorem tokens_insert (ps qs back : List MarkupPiece) :
    tokens 0 (ps ++ (qs ++ back)) =
      tokens 0 ps ++ ((tokens 0 qs).map fun token => token.shift (Text.byteLength (text ps))) ++
        ((tokens (0 + Text.byteLength (text ps)) back).map
          fun token => token.shift (Text.byteLength (text qs))) := by
  rw [tokens_append, tokens_append, tokens_add 0, tokens_add (0 + _), List.append_assoc]

end MarkupPiece

/-! ## Tokens with their own end -/

theorem Text.slice?_middle (before text after : List Char) :
    slice? ⟨byteLength before, byteLength before + byteLength text⟩ (before ++ (text ++ after)) = some text :=
  slice?_eq_some_iff.2 ⟨before, after, rfl, rfl, rfl⟩

namespace Token

/-- A token has its own end: what ends it stands at its end, and a start tag has no raw text behind it. -/
def IsClosedIn (source : List Char) : Token → Prop
  | startTag tag => ¬ (tag.selfClosing = false ∧ tag.name ∈ rawElements)
  | endTag _ span | declaration span => ∃ inner, Text.slice? span source = some (inner ++ ['>'])
  | comment span =>
    ∃ inner, Text.slice? span source = some (['<', '!', '-', '-'] ++ (inner ++ ['-', '-', '>']))
  | rawText _ _ => False

/-- A token with its own end ends at a place. -/
def ClosesAt (source : String) (place : Nat) : Prop :=
  ∃ token ∈ tokenize source, token.span.stop = place ∧ token.IsClosedIn source.toList

@[simp] theorem span_shift (token : Token) (k : Nat) : (token.shift k).span = token.span.shift k := by
  cases token <;> rfl

/-- A token keeps its own end where its text stands in another one. -/
theorem IsClosedIn.shift {token : Token} {text : List Char} (before after : List Char)
    (h : token.IsClosedIn text) :
    (token.shift (Text.byteLength before)).IsClosedIn (before ++ (text ++ after)) := by
  have hslice := Text.slice?_middle before text after
  cases token with
  | startTag tag => exact h
  | rawText element span => exact h
  | endTag name span | comment span | declaration span =>
    obtain ⟨inner, hinner⟩ := h
    exact ⟨inner, Text.slice?_shift hslice hinner⟩

end Token

namespace MarkupPiece

variable {p : MarkupPiece} {ps : List MarkupPiece} {token : Token} {before after : List Char} {source : String}
  {place : Nat}

/-- **A piece with its own end** does not look at what follows, and ends where its token does. -/
theorem isFree_of_isClosedIn (hfits : p.FitsBefore ps) (hmem : token ∈ p.tokensAt (Text.byteLength before))
    (hclosed : token.IsClosedIn (before ++ (p.written ++ after))) :
    p.IsFree ∧ token.span.stop = Text.byteLength before + Text.byteLength p.written := by
  have hslice := Text.slice?_middle before p.written after
  cases p with
  | plain => exact absurd hmem List.not_mem_nil
  | startTag t raw =>
    rcases List.mem_cons.1 hmem with rfl | hmem
    · have hplain : ¬ t.IsRaw := hclosed
      have hraw := hfits.2
      rw [if_neg hplain] at hraw
      subst hraw
      refine ⟨.startTag hplain, ?_⟩
      rw [written, List.append_nil]
      rfl
    · split at hmem
      · obtain rfl := List.mem_singleton.1 hmem
        exact hclosed.elim
      · exact absurd hmem List.not_mem_nil
  | endTag name body =>
    obtain rfl := List.mem_singleton.1 hmem
    obtain ⟨inner, hinner⟩ := hclosed
    have hwritten := Option.some.inj (hslice.symm.trans hinner)
    -- The name holds no `>`, so the last character stands behind it.
    have hlast : '>' ∈ (endTag name body).written := by simp [hwritten]
    have hname : '>' ∉ name := fun h => absurd (hfits.2.1 _ h) (by decide)
    refine ⟨.endTag ?_, rfl⟩
    simpa [written, hname] using hlast
  | comment body =>
    obtain rfl := List.mem_singleton.1 hmem
    obtain ⟨inner, hinner⟩ := hclosed
    have hwritten := Option.some.inj (hslice.symm.trans hinner)
    have hbody : body = inner ++ ['-', '-', '>'] := by simpa [written] using hwritten
    exact ⟨.comment (hbody ▸ List.suffix_append inner _).isInfix, rfl⟩
  | declaration body =>
    obtain rfl := List.mem_singleton.1 hmem
    obtain ⟨inner, hinner⟩ := hclosed
    have hwritten := Option.some.inj (hslice.symm.trans hinner)
    have hlast : '>' ∈ (declaration body).written := by simp [hwritten]
    refine ⟨.declaration ?_, rfl⟩
    simpa [written] using hlast

/-- A source where a token with its own end ends at a place is written in pieces, of which one that does not
look at what follows ends there. -/
theorem exists_split_of_closesAt (hsource : Token.completes source = true) (hplace : Token.ClosesAt source place) :
    ∃ front p back, Fit (front ++ p :: back) ∧ p.IsFree ∧ source = String.ofList (text (front ++ p :: back)) ∧
      Text.byteLength (text (front ++ [p])) = place := by
  obtain ⟨ps, hfit, rfl⟩ := exists_of_completes hsource
  obtain ⟨token, hmem, rfl, hclosed⟩ := hplace
  rw [tokenize_text hfit] at hmem
  obtain ⟨front, p, back, rfl, hp⟩ := exists_split_of_mem_tokens hmem
  rw [Nat.zero_add] at hp
  rw [String.toList_ofList, text_append, text_cons] at hclosed
  obtain ⟨hfree, hstop⟩ := isFree_of_isClosedIn hfit.behind.1 hp hclosed
  refine ⟨front, p, back, hfit, hfree, rfl, ?_⟩
  rw [hstop, text_append, Text.byteLength_append]
  simp [text]

/-- **A text that ends with its own end** can be inserted where a token ends so. -/
theorem exists_insertion {block : String} (hsource : Token.completes source = true)
    (hplace : Token.ClosesAt source place) (hblock : Token.completes block = true)
    (hend : Token.ClosesAt block (Text.byteLength block.toList)) :
    ∃ A B qs, source = String.ofList (text (A ++ B)) ∧ Text.byteLength (text A) = place ∧
      block = String.ofList (text qs) ∧ Fit (A ++ B) ∧ Fit qs ∧ Fit (A ++ (qs ++ B)) := by
  obtain ⟨front, p, back, hfit, hp, rfl, hfront⟩ := exists_split_of_closesAt hsource hplace
  obtain ⟨more, q, behind, hmore, hq, rfl, hlast⟩ := exists_split_of_closesAt hblock hend
  -- Nothing stands behind the last token of the inserted text.
  obtain rfl : behind = [] := by
    have hsplit : more ++ q :: behind = (more ++ [q]) ++ behind := List.append_cons ..
    rw [String.toList_ofList, hsplit, text_append _ behind, Text.byteLength_append] at hlast
    exact eq_nil_of_byteLength (by omega)
  have hinserted := hfit.insert_behind hp (Stands.of_isFree hq hmore)
  refine ⟨front ++ [p], back, more ++ [q], ?_, hfront, rfl, ?_, hmore, ?_⟩
  · rw [List.append_assoc, List.singleton_append]
  · rwa [List.append_assoc, List.singleton_append]
  · rwa [List.append_assoc, List.singleton_append]

end MarkupPiece

/-! ## Tokens around an insertion -/

namespace Token

open MarkupPiece (tokens text tokenize_text filter_tokens tokens_insert exists_insertion)

variable {source block : String} {place : Nat}

/-- **Insertion is local.**  A text that has no broken tag and ends with a token that has its own end is
inserted where a token ends so.  Then the source has the tokens before the place, those of the text, which
move to the place, and the tokens behind it, which move by the length of the text. -/
theorem tokenize_insert (hsource : completes source = true) (hplace : ClosesAt source place)
    (hblock : completes block = true) (hend : ClosesAt block (Text.byteLength block.toList)) :
    ∃ before after, source = before ++ after ∧ Text.byteLength before.toList = place ∧
      tokenize (before ++ block ++ after) =
        (tokenize source).filter (fun token => token.span.stop ≤ place) ++
          ((tokenize block).map fun token => token.shift place) ++
          (((tokenize source).filter fun token => place < token.span.stop).map
            fun token => token.shift (Text.byteLength block.toList)) := by
  obtain ⟨A, B, qs, rfl, rfl, rfl, hfit, hqs, hinserted⟩ := exists_insertion hsource hplace hblock hend
  refine ⟨String.ofList (text A), String.ofList (text B), ?_, by rw [String.toList_ofList], ?_⟩
  · rw [← String.ofList_append, MarkupPiece.text_append]
  · obtain ⟨hfront, hback⟩ := filter_tokens 0 A B
    rw [Nat.zero_add] at hfront hback
    rw [← String.ofList_append, ← String.ofList_append, ← MarkupPiece.text_append, ← MarkupPiece.text_append,
      List.append_assoc, tokenize_text hinserted, tokenize_text hfit, tokenize_text hqs, String.toList_ofList,
      hfront, hback, tokens_insert, Nat.zero_add]

/-- A tag with an attribute and a comment go behind the front of a head, whose style keeps its raw text. -/
theorem tokens_of_head_insertion : completes "<head><style>a</style></head>" = true ∧
    ClosesAt "<head><style>a</style></head>" 6 ∧ completes "<meta a=b><!--c-->" = true ∧
    ClosesAt "<meta a=b><!--c-->" 18 ∧
    ∃ before after, "<head><style>a</style></head>" = before ++ after ∧ Text.byteLength before.toList = 6 ∧
      tokenize (before ++ "<meta a=b><!--c-->" ++ after) =
        [startTag ⟨"head", [], ⟨0, 6⟩, 5, false⟩,
          startTag ⟨"meta", [⟨"a", some "b", ⟨12, 15⟩, some ⟨14, 15⟩⟩], ⟨6, 16⟩, 15, false⟩, comment ⟨16, 24⟩,
          startTag ⟨"style", [], ⟨24, 31⟩, 30, false⟩, rawText "style" ⟨31, 32⟩, endTag "style" ⟨32, 40⟩,
          endTag "head" ⟨40, 47⟩] := by
  have hsource : completes "<head><style>a</style></head>" = true := by decide +kernel
  have hblock : completes "<meta a=b><!--c-->" = true := by decide +kernel
  have hread : tokenize "<head><style>a</style></head>" =
      [startTag ⟨"head", [], ⟨0, 6⟩, 5, false⟩, startTag ⟨"style", [], ⟨6, 13⟩, 12, false⟩,
        rawText "style" ⟨13, 14⟩, endTag "style" ⟨14, 22⟩, endTag "head" ⟨22, 29⟩] := by decide +kernel
  have hreadBlock : tokenize "<meta a=b><!--c-->" =
      [startTag ⟨"meta", [⟨"a", some "b", ⟨6, 9⟩, some ⟨8, 9⟩⟩], ⟨0, 10⟩, 9, false⟩, comment ⟨10, 18⟩] := by
    decide +kernel
  have hplace : ClosesAt "<head><style>a</style></head>" 6 :=
    ⟨_, by rw [hread]; exact List.mem_cons_self, rfl, by simp [IsClosedIn, rawElements]⟩
  have hend : ClosesAt "<meta a=b><!--c-->" 18 :=
    ⟨comment ⟨10, 18⟩, by rw [hreadBlock]; simp, rfl, ['c'], by decide⟩
  obtain ⟨before, after, hsplit, hlength, htokens⟩ := tokenize_insert hsource hplace hblock hend
  refine ⟨hsource, hplace, hblock, hend, before, after, hsplit, hlength, ?_⟩
  rw [htokens, hread, hreadBlock]
  rfl

/-- **An edit inserts such a text,** which leaves no broken tag, and more text can be inserted behind it. -/
theorem completes_insert (hsource : completes source = true) (hplace : ClosesAt source place)
    (hblock : completes block = true) (hend : ClosesAt block (Text.byteLength block.toList)) :
    ∃ source', Edit.applyTo? [Edit.insert place block] source = some source' ∧ completes source' = true ∧
      ClosesAt source' (place + Text.byteLength block.toList) := by
  obtain ⟨A, B, qs, rfl, rfl, rfl, hfit, hqs, hinserted⟩ := exists_insertion hsource hplace hblock hend
  have hrewrites : MarkupPiece.Rewrites 0 (A ++ B) (A ++ (qs ++ B)) _ :=
    (MarkupPiece.Rewrites.refl 0 A).append (.inserted qs (.refl _ B))
  rw [List.nil_append, Nat.zero_add] at hrewrites
  refine ⟨_, hrewrites.applyTo? fun _ => rfl, MarkupPiece.completes_iff.2 ⟨_, hinserted, rfl⟩, ?_⟩
  obtain ⟨token, hmem, hstop, hclosed⟩ := hend
  rw [tokenize_text hqs] at hmem
  refine ⟨token.shift (Text.byteLength (text A)), ?_, ?_, ?_⟩
  · rw [tokenize_text hinserted, tokens_insert]
    exact List.mem_append_left _ (List.mem_append_right _ (List.mem_map_of_mem hmem))
  · rw [span_shift, Span.shift, hstop]
    exact Nat.add_comm _ _
  · rw [String.toList_ofList] at hclosed
    rw [String.toList_ofList, MarkupPiece.text_append, MarkupPiece.text_append]
    exact hclosed.shift _ _

end Token

end MailTemplate
