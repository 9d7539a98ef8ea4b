import MailTemplate.Proofs.EditParts
import MailTemplate.Proofs.WrittenMarkup

/-!
# What tokens look like

The tokenizer looks at one `<` after the other.  What it reads there is a construct of markup: a comment,
an end tag, a declaration, or a start tag with the raw text behind it.  Where it reads nothing it goes on one
character further, so there is no `<` that it passes over without looking: each one lies in a token, or no
construct begins with it.

The argument is about places.  A place that is reached from the front of a source lies in what is read
before it, or is reached from behind that, or is one where the tokenizer stands itself.

## Main definitions

* `Token.RawEndsAt` — raw text runs to what looks like the front of an end tag.
* `Token.Construct` — the constructs of markup, each with its tokens.
* `Token.BeginsNothing` — no construct begins with a `<`.

## Main results

* `Token.construct_of_read?` — what is read at a place is a construct.
* `Token.Construct.covers` — the tokens of a construct cover it.
* `Token.exists_read_of_split` — every token is read at some place, with what stands around it.
* `Token.read?_eq_none_of_apart` — nothing is read at a place that lies in no token.
* `Token.tokens_are_markup` — the tokens of a source are exactly the constructs in it.
-/

namespace MailTemplate

namespace Cursor

variable {c d e : Cursor} {text more : List Char}

/-- Of two places that are reached from one place, the farther is reached from the nearer. -/
theorem Passes.exists_between (h : c.Passes text d) (h' : c.Passes more e) (hle : d.offset ≤ e.offset) :
    ∃ rest, d.Passes rest e := by
  have hd := h.offset
  have he := h'.offset
  obtain ⟨rest, rfl, hrest⟩ :=
    EditPart.exists_append_of_byteLength_le (h.ahead.symm.trans h'.ahead) (by omega)
  rw [Text.byteLength_append] at he
  exact ⟨rest, hrest, by omega⟩

/-- What is passed over up to the first occurrence of a text. -/
theorem exists_passes_endsAt (c : Cursor) (sought : List Char) :
    ∃ text, c.Passes text (c.pastOrFinish sought) ∧
      EndsAt sought text (c.pastOrFinish sought).ahead := by
  obtain ⟨text, hpasses⟩ := c.exists_passes_pastOrFinish sought
  obtain ⟨text', hahead, hends⟩ := c.exists_endsAt sought
  obtain rfl := List.append_cancel_right (hpasses.ahead.symm.trans hahead)
  exact ⟨text, hpasses, hends⟩

end Cursor

namespace Token

open Cursor (EndsAt)

/-! ## Constructs -/

/-- The raw text of an element runs to the first text that looks like the front of its end tag, whatever the
letter case is, or, if there is none, to the end of the source. -/
def RawEndsAt (element : String) (body rest : List Char) : Prop :=
  Text.indexOfFold? ('<' :: '/' :: element.toList) (body ++ rest) = some body.length ∨
    Text.indexOfFold? ('<' :: '/' :: element.toList) body = none ∧ rest = []

/-- **The constructs of markup,** each with the place where it begins, its tokens, and the place behind it. -/
inductive Construct (start : Cursor) : List Token → Cursor → Prop
  /-- A comment runs from its first four characters through the first `-->` behind them. -/
  | comment {body : List Char} {next : Cursor}
      (passes : start.Passes ('<' :: '!' :: '-' :: '-' :: body) next)
      (ends : EndsAt ['-', '-', '>'] body next.ahead) :
      Construct start [comment (start.spanTo next)] next
  /-- An end tag has a name, which is as long as it can be, and runs through the first `>`. -/
  | endTag {name body : List Char} {next : Cursor}
      (passes : start.Passes ('<' :: '/' :: (name ++ body)) next)
      (named : name ≠ [] ∧ ∀ c ∈ name, isNameChar c = true)
      (longest : ∀ c ∈ (body ++ next.ahead).head?, isNameChar c = false)
      (ends : EndsAt ['>'] body next.ahead) :
      Construct start [endTag (String.ofList (Text.lower name)) (start.spanTo next)] next
  /-- A declaration begins with `!` or `?`, but not as a comment, and runs through the first `>`. -/
  | declaration {body : List Char} {next : Cursor} (passes : start.Passes ('<' :: body) next)
      (sign : body.head? = some '!' ∨ body.head? = some '?')
      (other : ¬ ['!', '-', '-'] <+: body ++ next.ahead)
      (ends : EndsAt ['>'] body next.ahead) :
      Construct start [declaration (start.spanTo next)] next
  /-- A start tag of an element whose text is markup, or one without an element. -/
  | startTag {c : Char} {rest : List Char} {tag : StartTag} {next : Cursor}
      (ahead : start.ahead = '<' :: c :: rest) (letter : c.isAlpha = true)
      (read : StartTag.read? start = some (tag, next))
      (plain : ¬ (tag.selfClosing = false ∧ tag.name ∈ rawElements)) :
      Construct start [startTag tag] next
  /-- A start tag of an element with raw text, and the raw text directly behind it. -/
  | rawElement {c : Char} {rest body : List Char} {tag : StartTag} {behind next : Cursor}
      (ahead : start.ahead = '<' :: c :: rest) (letter : c.isAlpha = true)
      (read : StartTag.read? start = some (tag, behind))
      (raw : tag.selfClosing = false ∧ tag.name ∈ rawElements)
      (passes : behind.Passes body next) (ends : RawEndsAt tag.name body next.ahead) :
      Construct start [startTag tag, rawText tag.name (behind.spanTo next)] next

variable {start next c : Cursor} {tokens front more : List Token} {token : Token}

theorem span_of_read? {tag : StartTag} (h : StartTag.read? start = some (tag, next)) :
    tag.span = start.spanTo next := by
  obtain ⟨body, -, heq⟩ := Option.map_eq_some_iff.1 h
  obtain ⟨rfl, rfl⟩ := Prod.mk.inj heq
  rfl

/-- What runs to where raw text ends. -/
theorem exists_passes_rawEndsAt (element : String) (c : Cursor) :
    ∃ body, c.Passes body (rawTextEnd element c) ∧ RawEndsAt element body (rawTextEnd element c).ahead := by
  unfold rawTextEnd
  split
  · next n hindex =>
    have hn : (c.ahead.take n).length = n := List.length_take_of_le (Text.indexOfBy?_le hindex)
    refine ⟨_, c.passes_advance n, .inl ?_⟩
    rw [Cursor.ahead_advance, List.take_append_drop, hn, hindex]
  · next hindex =>
    refine ⟨_, c.passes_advance _, .inr ⟨?_, List.drop_length⟩⟩
    rwa [List.take_length]

/-- A start tag that is read begins a construct, with the raw text behind it or without any. -/
theorem construct_ofStartTag {d : Char} {rest : List Char} {tag : StartTag} (hs : start.ahead = '<' :: d :: rest)
    (hd : d.isAlpha = true) (hread : StartTag.read? start = some (tag, next)) :
    Construct start (ofStartTag tag next).1 (ofStartTag tag next).2 := by
  unfold ofStartTag
  split
  · next hraw =>
    obtain ⟨body, hpasses, hends⟩ := exists_passes_rawEndsAt tag.name next
    exact .rawElement hs hd hread hraw hpasses hends
  · next hplain => exact .startTag hs hd hread hplain

/-- A declaration that is read is a construct. -/
theorem construct_declaration {d : Char} {rest : List Char} (hs : start.ahead = '<' :: d :: rest)
    (hd : d = '!' ∨ d = '?') (hother : ¬ ['!', '-', '-'] <+: d :: rest) :
    Construct start [declaration (start.spanTo ((start.advance 1).pastOrFinish ['>']))]
      ((start.advance 1).pastOrFinish ['>']) := by
  obtain ⟨body, hbody, hends⟩ := (start.advance 1).exists_passes_endsAt ['>']
  have hopen : start.Passes ['<'] (start.advance 1) := Cursor.passes_advance_of_ahead ['<'] hs
  have hahead : d :: rest = body ++ ((start.advance 1).pastOrFinish ['>']).ahead := by
    rw [← hbody.ahead, Cursor.ahead_advance, hs]
    rfl
  refine .declaration (hopen.trans hbody) ?_ (hahead ▸ hother) hends
  cases body with
  | cons b body =>
    obtain ⟨rfl, -⟩ := List.cons.inj hahead
    simpa using hd
  | nil =>
    -- It takes at least its sign, since it ends behind a character or at the end of the source.
    rcases hends with ⟨inner, hinner, -⟩ | ⟨-, hrest⟩
    · exact absurd hinner (by simp)
    · exact absurd hahead (by simp [hrest])

/-- **What is read at a place is a construct.** -/
theorem construct_of_read? (h : read? start = some (tokens, next)) : Construct start tokens next := by
  unfold read? at h
  -- One case for each form that the reader tells apart: a comment, an end tag, the two declarations, a start
  -- tag, and what is none of them.
  split at h
  · next hs =>
    obtain ⟨rfl, rfl⟩ := Prod.mk.inj (Option.some.inj h)
    obtain ⟨body, hbody, hends⟩ := (start.advance 4).exists_passes_endsAt ['-', '-', '>']
    exact .comment ((Cursor.passes_advance_of_ahead ['<', '!', '-', '-'] hs).trans hbody) hends
  · next hs =>
    obtain ⟨⟨token, behind⟩, hend, heq⟩ := Option.map_eq_some_iff.1 h
    obtain ⟨rfl, rfl⟩ := Prod.mk.inj heq
    simp only [readEndTag?] at hend
    split at hend
    · exact absurd hend (by simp)
    · next hne =>
      obtain ⟨rfl, rfl⟩ := Prod.mk.inj (Option.some.inj hend)
      obtain ⟨body, hbody, hends⟩ := ((start.advance 2).skip isNameChar).exists_passes_endsAt ['>']
      have hopen := Cursor.passes_advance_of_ahead ['<', '/'] hs
      have hname := (start.advance 2).passes_skip isNameChar
      refine .endTag (hopen.trans (hname.trans hbody)) ⟨hne, Cursor.of_mem_run⟩ ?_ hends
      rw [← hbody.ahead]
      exact Cursor.head?_skip _ _
  · next hcomment hs =>
    obtain ⟨rfl, rfl⟩ := Prod.mk.inj (Option.some.inj h)
    refine construct_declaration hs (.inl rfl) fun hprefix => ?_
    obtain ⟨-, rest, hrest⟩ := List.cons_prefix_cons.1 hprefix
    exact hcomment rest hrest.symm
  · next hs =>
    obtain ⟨rfl, rfl⟩ := Prod.mk.inj (Option.some.inj h)
    exact construct_declaration hs (.inr rfl) (by simp [List.cons_prefix_cons])
  · next hs =>
    split at h
    · next hletter =>
      obtain ⟨⟨tag, behind⟩, htag, heq⟩ := Option.map_eq_some_iff.1 h
      have hconstruct := construct_ofStartTag hs hletter htag
      dsimp only at heq
      rwa [heq] at hconstruct
    · exact absurd h (by simp)
  · exact absurd h (by simp)

/-- **The tokens of a construct cover it.** -/
theorem Construct.covers (h : Construct start tokens next) {offset : Nat} (hle : start.offset ≤ offset)
    (hlt : offset < next.offset) : ∃ t ∈ tokens, t.span.start ≤ offset ∧ offset < t.span.stop := by
  cases h with
  | comment | endTag | declaration => exact ⟨_, List.mem_cons_self, hle, hlt⟩
  | startTag _ _ hread _ =>
    refine ⟨_, List.mem_cons_self, ?_⟩
    rw [span, span_of_read? hread]
    exact ⟨hle, hlt⟩
  | @rawElement _ _ _ tag behind _ _ _ hread _ _ _ =>
    rcases Nat.lt_or_ge offset behind.offset with htag | hraw
    · refine ⟨_, List.mem_cons_self, ?_⟩
      rw [span, span_of_read? hread]
      exact ⟨hle, htag⟩
    · exact ⟨_, List.mem_cons_of_mem _ List.mem_cons_self, hraw, hlt⟩

/-! ## The places of the tokenizer -/

/-- **Every token is read at some place,** with what stands around it. -/
theorem exists_read_of_split {source : List Char} (hon : c.On source)
    (h : tokensFrom c = front ++ token :: more) :
    ∃ start tokens next before pre post, start.On source ∧ read? start = some (tokens, next) ∧
      tokens = pre ++ token :: post ∧ front = before ++ pre ∧ more = post ++ tokensFrom next := by
  fun_induction tokensFrom c generalizing front with
  | case1 => exact absurd h (by simp)
  | case2 c hne tokens next hread ih =>
    obtain ⟨text, hpasses⟩ := (readTo_of_read? hon hread).passes
    -- The token is one of those that are read here, or it is read later.
    rcases List.append_eq_append_iff.1 h with ⟨gap, rfl, hgap⟩ | ⟨gap, rfl, hgap⟩
    · obtain ⟨start, later, next', before, pre, post, hstart, hlater, htokens, rfl, hmore⟩ :=
        ih (hon.passes hpasses) hgap
      exact ⟨start, later, next', tokens ++ before, pre, post, hstart, hlater, htokens,
        (List.append_assoc _ _ _).symm, hmore⟩
    · cases gap with
      | nil =>
        have hlater : tokensFrom next = [] ++ token :: more := hgap.symm
        obtain ⟨start, later, next', before, pre, post, hstart, hlater, htokens, hbefore, hmore⟩ :=
          ih (hon.passes hpasses) hlater
        obtain ⟨rfl, rfl⟩ := List.append_eq_nil_iff.1 hbefore.symm
        exact ⟨start, later, next', front, [], post, hstart, hlater, htokens, by simp, hmore⟩
      | cons t gap =>
        obtain ⟨rfl, rfl⟩ := List.cons.inj hgap
        exact ⟨c, _, next, [], front, gap, hon, hread, rfl, rfl, rfl⟩
  | case3 c _ _ ih => exact ih (hon.passes (c.passes_advance 1)) h

/-- **Nothing is read at a place that lies in no token.** -/
theorem read?_eq_none_of_apart {source text : List Char} {place : Cursor} (hon : c.On source)
    (hplace : c.Passes text place) (hne : place.ahead ≠ [])
    (hapart : ∀ t ∈ tokensFrom c, ¬ (t.span.start ≤ place.offset ∧ place.offset < t.span.stop)) :
    read? place = none := by
  -- The induction is on the places where the tokenizer stands; the one that is asked for stays ahead of them.
  fun_induction tokensFrom c generalizing text with
  | case1 c hnil =>
    have hahead := hplace.ahead
    rw [hnil] at hahead
    exact absurd (List.append_eq_nil_iff.1 hahead.symm).2 hne
  | case2 c _ tokens next hread ih =>
    obtain ⟨hfirst, hlater⟩ := List.forall_mem_append.1 hapart
    obtain ⟨passed, hpasses⟩ := (readTo_of_read? hon hread).passes
    rcases Nat.lt_or_ge place.offset next.offset with hlt | hge
    · -- The place would lie in what is read here.
      obtain ⟨t, ht, hinside⟩ := (construct_of_read? hread).covers hplace.le hlt
      exact absurd hinside (hfirst t ht)
    · obtain ⟨rest, hrest⟩ := hpasses.exists_between hplace hge
      exact ih (hon.passes hpasses) hrest hlater
  | case3 c _ hread ih =>
    cases text with
    | nil =>
      obtain rfl : place = c := by
        obtain ⟨offset, ahead⟩ := place
        obtain ⟨hahead, hoffset⟩ := hplace
        cases c
        simp_all
      exact hread
    | cons d text =>
      -- The place is reached from behind the character that is passed over.
      have hpasses := c.passes_advance 1
      have hahead := hplace.ahead
      have hoffset : (c.advance 1).offset ≤ place.offset := by
        rw [hpasses.offset, hplace.offset, hahead, List.cons_append, List.take_succ_cons, List.take_zero,
          Text.byteLength_cons, Text.byteLength_cons, Text.byteLength_nil]
        omega
      obtain ⟨rest, hrest⟩ := hpasses.exists_between hplace hoffset
      exact ih (hon.passes hpasses) hrest hapart

/-! ## A whole source -/

/-- No construct begins with the `<` at a place, which a rest follows. -/
structure BeginsNothing (place : Cursor) (rest : List Char) : Prop where
  /-- There is no declaration, and no comment. -/
  declaration : rest.head? ≠ some '!' ∧ rest.head? ≠ some '?'
  /-- There is no end tag. -/
  endTag : ∀ d ds, rest = '/' :: d :: ds → isNameChar d = false
  /-- There is no start tag, unless one breaks off. -/
  startTag : ∀ d ds, rest = d :: ds → d.isAlpha = true → StartTag.read? place = none

theorem beginsNothing_of_read?_eq_none {place : Cursor} {rest : List Char} (hs : place.ahead = '<' :: rest)
    (h : read? place = none) : BeginsNothing place rest := by
  obtain ⟨offset, ahead⟩ := place
  obtain rfl : ahead = '<' :: rest := hs
  refine ⟨⟨fun hbang => ?_, fun hquestion => ?_⟩, ?_, ?_⟩
  · obtain ⟨ds, rfl⟩ := List.head?_eq_some_iff.1 hbang
    exact MarkupPiece.read?_ne_none (.inl rfl) h
  · obtain ⟨ds, rfl⟩ := List.head?_eq_some_iff.1 hquestion
    exact MarkupPiece.read?_ne_none (.inr (.inl rfl)) h
  · rintro d ds rfl
    exact Bool.eq_false_iff.2 fun hname =>
      MarkupPiece.read?_ne_none (.inr (.inr ⟨rfl, by simpa using hname⟩)) h
  · rintro d ds rfl hletter
    rw [MarkupPiece.read?_letter hletter] at h
    exact Option.map_eq_none_iff.1 h

/-- **The tokens of a source are exactly the constructs in it.**  Every token belongs to a construct that
stands at a place of the source, with the other tokens of the construct around it: raw text directly behind
its start tag.  At a `<` that lies in no token no construct begins. -/
theorem tokens_are_markup (source : String) :
    (∀ front token more, tokenize source = front ++ token :: more →
      ∃ start tokens next pre post, start.On source.toList ∧ Construct start tokens next ∧
        tokens = pre ++ token :: post ∧ pre <:+ front ∧ post <+: more) ∧
    ∀ place rest, place.On source.toList → place.ahead = '<' :: rest →
      (∀ t ∈ tokenize source, ¬ (t.span.start ≤ place.offset ∧ place.offset < t.span.stop)) →
        BeginsNothing place rest := by
  have hfront := Cursor.on_front source.toList
  constructor
  · intro front token more h
    obtain ⟨start, tokens, next, before, pre, post, hon, hread, htokens, rfl, rfl⟩ :=
      exists_read_of_split hfront h
    exact ⟨start, tokens, next, pre, post, hon, construct_of_read? hread, htokens,
      List.suffix_append _ _, List.prefix_append _ _⟩
  · rintro place rest ⟨before, hsource, hoffset⟩ hahead hapart
    have hplace : (Cursor.front source.toList).Passes before place :=
      ⟨hsource, by rw [hoffset]; exact (Nat.zero_add _).symm⟩
    exact beginsNothing_of_read?_eq_none hahead
      (read?_eq_none_of_apart hfront hplace (by simp [hahead]) hapart)

end Token

end MailTemplate
