import MailTemplate.Proofs.WrittenTags

/-!
# Markup as it is written

A source is taken apart without losing anything: into start tags with their raw text, end tags,
comments, declarations, and single characters that belong to no token.  What is written like this is
read as the tokens of the pieces, and every source in which no start tag breaks off is written like
this.

The pieces hardly depend on each other.  A start tag does not depend on what follows it at all, a
character outside of tokens depends on the next two, and raw text on the end tag behind it.  A start tag
that breaks off would depend on everything that follows, to the end of the source.

## Main definitions

* `MarkupPiece` — the pieces of a source as they are written.
* `MarkupPiece.FitsBefore`, `MarkupPiece.Fit` — what is read as it is meant.
* `Token.completes` — no start tag breaks off.

## Main results

* `MarkupPiece.read?_written` — a piece is read in front of others.
* `MarkupPiece.tokensFrom_text`, `MarkupPiece.tokenize_text` — what is written is read as the tokens it
  stands for.
* `MarkupPiece.exists_of_completes` — a source without a broken tag is written in pieces.
* `MarkupPiece.completes_iff` — and what is written in pieces has no broken tag.
-/

namespace MailTemplate

/-! ## Pieces of a source -/

/-- A piece of a source as it is written. -/
inductive MarkupPiece where
  /-- A character that belongs to no token. -/
  | plain (c : Char)
  /-- A start tag, with the raw text behind it if its element has raw text. -/
  | startTag (t : WrittenTag) (raw : List Char)
  /-- An end tag: its name, and the rest with the `>`. -/
  | endTag (name body : List Char)
  /-- A comment behind its first four characters. -/
  | comment (body : List Char)
  /-- A declaration behind its first character. -/
  | declaration (body : List Char)

/-- A tag with raw text behind it. -/
def WrittenTag.IsRaw (t : WrittenTag) : Prop :=
  t.selfClosing = false ∧ t.key ∈ Token.rawElements

instance (t : WrittenTag) : Decidable t.IsRaw := inferInstanceAs (Decidable (_ ∧ _))

namespace MarkupPiece

/-- How a piece is written. -/
def written : MarkupPiece → List Char
  | plain c => [c]
  | startTag t raw => t.written ++ raw
  | endTag name body => '<' :: '/' :: (name ++ body)
  | comment body => '<' :: '!' :: '-' :: '-' :: body
  | declaration body => '<' :: body

/-- How pieces are written. -/
def text (ps : List MarkupPiece) : List Char := ps.flatMap written

/-- The tokens of a piece that stands at an offset. -/
def tokensAt (o : Nat) (p : MarkupPiece) : List Token :=
  match p with
  | plain _ => []
  | startTag t raw => .startTag (t.at_ o) :: if t.IsRaw then [.rawText t.key
      ⟨o + Text.byteLength t.written, o + Text.byteLength (t.written ++ raw)⟩] else []
  | endTag name body =>
    [.endTag (String.ofList (Text.lower name)) ⟨o, o + Text.byteLength (endTag name body).written⟩]
  | comment body => [.comment ⟨o, o + Text.byteLength (comment body).written⟩]
  | declaration body => [.declaration ⟨o, o + Text.byteLength (declaration body).written⟩]

/-- The tokens of pieces of which the first stands at an offset. -/
def tokens (o : Nat) : List MarkupPiece → List Token
  | [] => []
  | p :: ps => p.tokensAt o ++ tokens (o + Text.byteLength p.written) ps

/-- Whether something begins with a `<` that a text follows: a declaration, an end tag or a start
tag. -/
def begins : List Char → Bool
  | [] => false
  | c :: cs => c == '!' || c == '?' || c.isAlpha || (c == '/' && cs.head?.any isNameChar)

/-- Raw text ends where the end tag of its element begins, or at the end of the source. -/
def RawFits (element : String) (raw : List Char) (ps : List MarkupPiece) : Prop :=
  Text.indexOfFold? ('<' :: '/' :: element.toList) raw = none ∧
    (ps = [] ∨ ∃ name body ps', ps = endTag name body :: ps' ∧ element.toList <+: Text.lower name)

/-- A piece is read as it is meant in front of other pieces. -/
def FitsBefore (ps : List MarkupPiece) : MarkupPiece → Prop
  | plain c => c = '<' → begins (text ps) = false
  | startTag t raw => t.Fits ∧ if t.IsRaw then RawFits t.key raw ps else raw = []
  | endTag name body => name ≠ [] ∧ (∀ c ∈ name, isNameChar c = true) ∧
    (∀ c ∈ body.head?, isNameChar c = false) ∧ Cursor.EndsAt ['>'] body (text ps)
  | comment body => Cursor.EndsAt ['-', '-', '>'] body (text ps)
  | declaration body => (body.head? = some '!' ∨ body.head? = some '?') ∧
    ¬ ['!', '-', '-'] <+: body ∧ Cursor.EndsAt ['>'] body (text ps)

/-- Pieces are read as they are meant. -/
def Fit : List MarkupPiece → Prop
  | [] => True
  | p :: ps => p.FitsBefore ps ∧ Fit ps

/-! ## Reading pieces -/

variable {o : Nat} {ps : List MarkupPiece} {rest : List Char}

@[simp] theorem text_cons (p : MarkupPiece) (ps : List MarkupPiece) :
    text (p :: ps) = p.written ++ text ps := rfl

theorem written_ne_nil (p : MarkupPiece) : p.written ≠ [] := by
  cases p <;> simp [written, WrittenTag.written]

theorem read?_plain {c : Char} (h : c = '<' → begins rest = false) :
    Token.read? ⟨o, c :: rest⟩ = none := by
  unfold Token.read?
  split
  · next hs =>
    obtain ⟨rfl, rfl⟩ := List.cons.inj hs
    exact absurd (h rfl) (by simp [begins])
  · next rest' hs =>
    obtain ⟨rfl, rfl⟩ := List.cons.inj hs
    have hnext : rest'.head?.any isNameChar = false := by simpa [begins] using h rfl
    have hrun : ((⟨o, '<' :: '/' :: rest'⟩ : Cursor).advance 2).run isNameChar = [] := by
      cases rest' with
      | nil => rfl
      | cons d ds => exact List.takeWhile_cons_of_neg (by simpa using hnext)
    rw [Token.readEndTag?, if_pos hrun]
    rfl
  · next hs =>
    obtain ⟨rfl, rfl⟩ := List.cons.inj hs
    exact absurd (h rfl) (by simp [begins])
  · next hs =>
    obtain ⟨rfl, rfl⟩ := List.cons.inj hs
    exact absurd (h rfl) (by simp [begins])
  · next hs =>
    obtain ⟨rfl, rfl⟩ := List.cons.inj hs
    have hletter := h rfl
    simp only [begins, Bool.or_eq_false_iff] at hletter
    rw [if_neg (by simp [hletter.1.2])]
  · rfl

theorem tokensFrom_of_none {c : Char} (h : Token.read? ⟨o, c :: rest⟩ = none) :
    Token.tokensFrom ⟨o, c :: rest⟩ = Token.tokensFrom ⟨o + Text.byteLength [c], rest⟩ := by
  rw [Token.tokensFrom, dif_neg (by simp)]
  split
  · next hsome => rw [h] at hsome; exact absurd hsome (by simp)
  · rfl

theorem tokensFrom_of_some {c next : Cursor} {ts : List Token} (h : Token.read? c = some (ts, next)) :
    Token.tokensFrom c = ts ++ Token.tokensFrom next := by
  have hne : c.ahead ≠ [] := by
    intro hnil
    rw [Token.read?, hnil] at h
    exact absurd h (by simp)
  rw [Token.tokensFrom, dif_neg hne]
  split
  · next hsome =>
    rw [h] at hsome
    obtain ⟨rfl, rfl⟩ := Prod.mk.inj (Option.some.inj hsome)
    rfl
  · next hnone => rw [h] at hnone; exact absurd hnone (by simp)

theorem rawTextEnd_written {t : WrittenTag} {raw : List Char} (hraw : t.IsRaw)
    (h : RawFits t.key raw ps) :
    Token.rawTextEnd t.key ⟨o, raw ++ text ps⟩ = ⟨o + Text.byteLength raw, text ps⟩ := by
  obtain ⟨hno, rfl | ⟨name, body, ps, rfl, hprefix⟩⟩ := h
  · have hfinish := Cursor.advance_append o raw []
    simp only [List.append_nil] at hfinish
    simp [Token.rawTextEnd, text, hno, Cursor.finish, hfinish]
  · have hlower := (Token.rawElements_isLower t.key hraw.2).2
    -- The end tag begins with a character that occurs nowhere else in what is sought.
    have hother : ∀ b ∈ '/' :: t.key.toList, Text.sameFold b '<' = false := by
      intro b hb
      refine Bool.eq_false_iff.2 fun hsame => ?_
      rcases List.mem_cons.1 hb with rfl | hb
      · exact absurd hsame (by decide)
      · obtain ⟨hb, hbLower⟩ := hlower b hb
        exact absurd (Text.isNameChar_of_sameFold hb hbLower hsame).1 (by decide)
    have hbegins : Text.beginsWithBy Text.sameFold ('<' :: '/' :: t.key.toList)
        ('<' :: '/' :: (name ++ (body ++ text ps))) = true := by
      simp only [Text.beginsWithBy, Bool.and_eq_true]
      exact ⟨rfl, rfl, Text.beginsWithBy_of_prefix_lower hlower hprefix⟩
    have hindex := Text.indexOfBy?_append_begins hno hother hbegins
    have hadvance := Cursor.advance_append o raw ('<' :: '/' :: (name ++ (body ++ text ps)))
    have htext : text (endTag name body :: ps) = '<' :: '/' :: (name ++ (body ++ text ps)) := by
      simp [written]
    rw [Token.rawTextEnd, htext]
    simp only [Text.indexOfFold?, hindex, hadvance]

theorem read?_letter {c : Char} {cs : List Char} (hc : c.isAlpha = true) :
    Token.read? ⟨o, '<' :: c :: cs⟩ =
      (StartTag.read? ⟨o, '<' :: c :: cs⟩).map fun (tag, next) => Token.ofStartTag tag next := by
  have hne {d : Char} (hd : d.isAlpha = false) : c ≠ d := by
    rintro rfl
    exact absurd hc (by simp [hd])
  unfold Token.read?
  split
  · next hs => exact absurd (List.cons.inj (List.cons.inj hs).2).1 (hne (by decide))
  · next hs => exact absurd (List.cons.inj (List.cons.inj hs).2).1 (hne (by decide))
  · next hs => exact absurd (List.cons.inj (List.cons.inj hs).2).1 (hne (by decide))
  · next hs => exact absurd (List.cons.inj (List.cons.inj hs).2).1 (hne (by decide))
  · next hs =>
    obtain ⟨rfl, rfl⟩ := List.cons.inj (List.cons.inj hs).2
    rw [if_pos hc]
  · next hs => exact absurd rfl (hs c cs)

theorem read?_declaration {c : Char} {cs : List Char} (hc : c = '!' ∨ c = '?')
    (hcomment : ¬ ['!', '-', '-'] <+: c :: cs) :
    Token.read? ⟨o, '<' :: c :: cs⟩ =
      let next := ((⟨o, '<' :: c :: cs⟩ : Cursor).advance 1).pastOrFinish ['>']
      some ([.declaration (Cursor.spanTo ⟨o, '<' :: c :: cs⟩ next)], next) := by
  unfold Token.read?
  split
  · next hs =>
    obtain ⟨rfl, rfl⟩ := List.cons.inj (List.cons.inj hs).2
    exact absurd (List.cons_prefix_cons.2 ⟨rfl, List.prefix_append ['-', '-'] _⟩) hcomment
  · next hs =>
    obtain ⟨rfl, -⟩ := List.cons.inj (List.cons.inj hs).2
    exact absurd hc (by decide)
  · rfl
  · rfl
  · next _ _ hbang hquestion hs =>
    obtain ⟨rfl, rfl⟩ := List.cons.inj (List.cons.inj hs).2
    rcases hc with rfl | rfl
    · exact (hbang rfl).elim
    · exact (hquestion rfl).elim
  · next hs => exact absurd rfl (hs c cs)

theorem readEndTag?_written {name body : List Char} (hne : name ≠ [])
    (hname : ∀ c ∈ name, isNameChar c = true)
    (hnext : ∀ c ∈ (body ++ rest).head?, isNameChar c = false)
    (hends : Cursor.EndsAt ['>'] body rest) :
    Token.readEndTag? ⟨o, '<' :: '/' :: (name ++ (body ++ rest))⟩ =
      some (.endTag (String.ofList (Text.lower name))
        ⟨o, o + Text.byteLength (endTag name body).written⟩,
        ⟨o + Text.byteLength (endTag name body).written, rest⟩) := by
  have hopen : (⟨o, '<' :: '/' :: (name ++ (body ++ rest))⟩ : Cursor).advance 2 =
      ⟨o + Text.byteLength ['<', '/'], name ++ (body ++ rest)⟩ :=
    Cursor.advance_append o ['<', '/'] _
  have hrun := Cursor.run_append (o := o + Text.byteLength ['<', '/']) hname hnext
  have hskip := Cursor.skip_append (o := o + Text.byteLength ['<', '/']) hname hnext
  have hend := Cursor.pastOrFinish_of_endsAt
    (o + Text.byteLength ['<', '/'] + Text.byteLength name) hends
  simp only [Token.readEndTag?, hopen, hrun, hskip, if_neg hne, hend, Cursor.spanTo]
  simp [written, Text.byteLength_append, Nat.add_assoc]

theorem head?_body {name body : List Char} (h : (endTag name body).FitsBefore ps) :
    ∀ c ∈ (body ++ text ps).head?, isNameChar c = false := by
  obtain ⟨-, -, hnext, hends⟩ := h
  cases body with
  | cons b bs => exact hnext
  | nil =>
    rcases hends with ⟨inner, hinner, -⟩ | ⟨-, hrest⟩
    · exact absurd hinner (by simp)
    · simp [hrest]

/-- A declaration that ends does not begin a comment with what follows: it has its end before. -/
theorem not_comment_append {body : List Char} (h : ¬ ['!', '-', '-'] <+: body)
    (hends : Cursor.EndsAt ['>'] body rest) : ¬ ['!', '-', '-'] <+: body ++ rest := by
  rcases hends with ⟨inner, rfl, -⟩ | ⟨-, rfl⟩
  · intro hprefix
    -- A shorter declaration would have its end among the first three characters.
    have hlength : ['!', '-', '-'].length ≤ (inner ++ ['>']).length := by
      rcases inner with _ | ⟨a, _ | ⟨b, inner⟩⟩
      · simp [List.cons_prefix_cons] at hprefix
      · simp [List.cons_prefix_cons] at hprefix
      · simp
    exact h (List.prefix_of_prefix_length_le hprefix (List.prefix_append _ _) hlength)
  · rwa [List.append_nil]

/-- **A piece is read** as its tokens, if it fits before what follows. -/
theorem read?_written {p : MarkupPiece} (hp : ∀ c, p ≠ plain c) (h : p.FitsBefore ps) :
    Token.read? ⟨o, p.written ++ text ps⟩ =
      some (p.tokensAt o, ⟨o + Text.byteLength p.written, text ps⟩) := by
  cases p with
  | plain c => exact absurd rfl (hp c)
  | startTag t raw =>
    obtain ⟨ht, hraw⟩ := h
    obtain ⟨c, cs, hname, hletter⟩ := ht.letter
    have hread := StartTag.read?_written ht o (raw ++ text ps)
    have hfront : t.written ++ (raw ++ text ps) = '<' :: c :: (cs ++ (t.parts.flatMap TagPart.written ++
        (WrittenTag.closing t.selfClosing ++ (raw ++ text ps)))) := by
      simp [WrittenTag.written, hname]
    rw [written, List.append_assoc, hfront, read?_letter hletter, ← hfront, hread]
    simp only [Option.map_some, Option.some.injEq]
    unfold Token.ofStartTag
    have hcondition : ((t.at_ o).selfClosing = false ∧ (t.at_ o).name ∈ Token.rawElements) = t.IsRaw :=
      rfl
    simp only [hcondition, tokensAt]
    by_cases hisRaw : t.IsRaw
    · rw [if_pos hisRaw] at hraw
      have hend : Token.rawTextEnd (t.at_ o).name _ = _ :=
        rawTextEnd_written (o := o + Text.byteLength t.written) hisRaw hraw
      rw [if_pos hisRaw, if_pos hisRaw]
      simp only [hend]
      simp [Cursor.spanTo, Text.byteLength_append, Nat.add_assoc, WrittenTag.at_]
    · rw [if_neg hisRaw] at hraw
      simp [hisRaw, hraw]
  | endTag name body =>
    have hnext := head?_body h
    obtain ⟨hne, hname, -, hends⟩ := h
    show (Token.readEndTag? ⟨o, '<' :: '/' :: (name ++ body ++ text ps)⟩).map _ = _
    rw [List.append_assoc, readEndTag?_written hne hname hnext hends]
    rfl
  | comment body =>
    have hopen : (⟨o, '<' :: '!' :: '-' :: '-' :: (body ++ text ps)⟩ : Cursor).advance 4 =
        ⟨o + Text.byteLength ['<', '!', '-', '-'], body ++ text ps⟩ :=
      Cursor.advance_append o ['<', '!', '-', '-'] _
    have hend := Cursor.pastOrFinish_of_endsAt (o + Text.byteLength ['<', '!', '-', '-']) h
    show some ([Token.comment (Cursor.spanTo _ (Cursor.pastOrFinish (Cursor.advance
      ⟨o, '<' :: '!' :: '-' :: '-' :: (body ++ text ps)⟩ 4) _))], Cursor.pastOrFinish (Cursor.advance
        ⟨o, '<' :: '!' :: '-' :: '-' :: (body ++ text ps)⟩ 4) _) = _
    rw [hopen, hend]
    simp [tokensAt, written, Cursor.spanTo, Nat.add_assoc]
  | declaration body =>
    obtain ⟨hfront, hcomment, hends⟩ := h
    have hopen : (⟨o, '<' :: (body ++ text ps)⟩ : Cursor).advance 1 =
        ⟨o + Text.byteLength ['<'], body ++ text ps⟩ := Cursor.advance_append o ['<'] _
    have hend := Cursor.pastOrFinish_of_endsAt (o + Text.byteLength ['<']) hends
    have hcomment := not_comment_append hcomment hends
    obtain ⟨c, cs, rfl⟩ : ∃ c cs, body = c :: cs := by
      cases body with
      | nil => simp at hfront
      | cons c cs => exact ⟨c, cs, rfl⟩
    have hread : Token.read? ⟨o, '<' :: c :: (cs ++ text ps)⟩ = _ :=
      read?_declaration (by simpa using hfront) hcomment
    refine hread.trans ?_
    show some ([Token.declaration (Cursor.spanTo _ (Cursor.pastOrFinish (Cursor.advance
      ⟨o, '<' :: (c :: cs ++ text ps)⟩ 1) _))], Cursor.pastOrFinish (Cursor.advance
        ⟨o, '<' :: (c :: cs ++ text ps)⟩ 1) _) = _
    rw [hopen, hend]
    simp [tokensAt, written, Cursor.spanTo, Nat.add_assoc]

/-- Behind a piece reading goes on. -/
theorem tokensFrom_written {p : MarkupPiece} (h : p.FitsBefore ps) :
    Token.tokensFrom ⟨o, p.written ++ text ps⟩ =
      p.tokensAt o ++ Token.tokensFrom ⟨o + Text.byteLength p.written, text ps⟩ := by
  cases p with
  | plain c => exact tokensFrom_of_none (read?_plain h)
  | _ => exact tokensFrom_of_some (read?_written (by simp) h)

/-- **What is written is read**: the tokens of the pieces, whatever the offset is. -/
theorem tokensFrom_text (h : Fit ps) : Token.tokensFrom ⟨o, text ps⟩ = tokens o ps := by
  induction ps generalizing o with
  | nil => rw [Token.tokensFrom, dif_pos (by rfl)]; rfl
  | cons p ps ih =>
    rw [text_cons, tokensFrom_written h.1, ih h.2]
    rfl

theorem tokenize_text (h : Fit ps) : Token.tokenize (String.ofList (text ps)) = tokens 0 ps := by
  rw [Token.tokenize, String.toList_ofList]
  exact tokensFrom_text h

end MarkupPiece

/-! ## Sources without a broken tag -/

namespace Token

/-- Whether a start tag is begun at a place. -/
def beginsTag (c : Cursor) : Bool :=
  match c.ahead with
  | '<' :: d :: _ => d.isAlpha
  | _ => false

/-- Whether no start tag breaks off from a place on. -/
def completesFrom (c : Cursor) : Bool :=
  if _h : c.ahead = [] then true
  else
    match _hr : read? c with
    | some (_, next) => completesFrom next
    | none => !beginsTag c && completesFrom (c.advance 1)
termination_by c.ahead.length
decreasing_by
  · exact length_read?_lt _hr
  · exact Cursor.length_advance_lt (by omega) _h

/-- Whether no start tag of a source breaks off: wherever one is begun, it is read. -/
def completes (source : String) : Bool := completesFrom (.front source.toList)

end Token

namespace MarkupPiece

/-- Raw text that is followed by something is followed by the end tag of its element. -/
theorem exists_endTag_of_begins {element : List Char} {ps : List MarkupPiece} (hne : element ≠ [])
    (hlower : ∀ a ∈ element, a.isLower = true ∧ a.toLower = a) (hfit : Fit ps)
    (h : Text.beginsWithBy Text.sameFold ('<' :: '/' :: element) (text ps) = true) :
    ∃ name body ps', ps = endTag name body :: ps' ∧ element <+: Text.lower name := by
  obtain ⟨a, as, rfl⟩ := List.exists_cons_of_ne_nil hne
  -- The pieces begin with the two characters before the name, and nothing but an end tag does so.
  obtain ⟨more, htext, hmore⟩ := Text.exists_of_begins_endTag h
  obtain ⟨hlowerA, hA⟩ := hlower a List.mem_cons_self
  cases ps with
  | nil => exact absurd htext (by simp [text])
  | cons p ps =>
    obtain ⟨hp, -⟩ := hfit
    rw [text_cons] at htext
    cases p with
    | plain c =>
      obtain ⟨rfl, hrest⟩ : c = '<' ∧ text ps = '/' :: more := List.cons.inj htext
      have hbegins := hp rfl
      rw [hrest] at hbegins
      cases more with
      | nil => exact absurd hmore (by simp [Text.beginsWithBy])
      | cons c more =>
        simp only [Text.beginsWithBy, Bool.and_eq_true] at hmore
        have hc := (Text.isNameChar_of_sameFold hlowerA hA hmore.1).1
        exact absurd hbegins (by simp [begins, hc])
    | startTag t raw =>
      obtain ⟨c, cs, hname, hletter⟩ := hp.1.letter
      simp only [written, WrittenTag.written, hname, List.cons_append, List.cons.injEq] at htext
      obtain ⟨-, rfl, -⟩ := htext
      exact absurd hletter (by decide)
    | comment body => exact absurd htext (by simp [written])
    | declaration body =>
      obtain ⟨hfront, -⟩ := hp
      rcases hfront with hfront | hfront
      · obtain ⟨rest, rfl⟩ := List.head?_eq_some_iff.1 hfront
        exact absurd htext (by simp [written])
      · obtain ⟨rest, rfl⟩ := List.head?_eq_some_iff.1 hfront
        exact absurd htext (by simp [written])
    | endTag name body =>
      refine ⟨name, body, ps, rfl, ?_⟩
      have hshape : more = name ++ (body ++ text ps) := by simpa [written, eq_comm] using htext
      rw [hshape] at hmore
      exact Text.prefix_lower_of_beginsWithBy hlower (head?_body hp) hmore

theorem exists_raw {t : WrittenTag} {behind : Cursor} {ps : List MarkupPiece} (hfit : Fit ps)
    (hisRaw : t.IsRaw) (hnext : (Token.rawTextEnd t.key behind).ahead = text ps) :
    ∃ raw, RawFits t.key raw ps ∧ behind.ahead = raw ++ text ps := by
  obtain ⟨hne, hlower⟩ := Token.rawElements_isLower t.key hisRaw.2
  unfold Token.rawTextEnd at hnext
  split at hnext
  · next n hindex =>
    rw [Cursor.ahead_advance] at hnext
    refine ⟨behind.ahead.take n, ⟨Text.indexOfBy?_take (by simp) hindex, .inr ?_⟩, ?_⟩
    · refine exists_endTag_of_begins hne hlower hfit ?_
      rw [← hnext]
      exact Text.begins_drop_of_indexOfBy? hindex
    · rw [← hnext, List.take_append_drop]
  · next hindex =>
    have hps : text ps = [] := by rw [← hnext]; simp [Cursor.finish]
    have hnil : ps = [] := by
      cases ps with
      | nil => rfl
      | cons p ps => exact absurd (List.append_eq_nil_iff.1 hps).1 (written_ne_nil p)
    exact ⟨behind.ahead, ⟨hindex, .inl hnil⟩, by rw [hps, List.append_nil]⟩

theorem exists_declaration {c next : Cursor} {d : Char} {cs : List Char} {ps : List MarkupPiece}
    (hs : c.ahead = '<' :: d :: cs) (hd : d = '!' ∨ d = '?') (hcomment : ¬ ['!', '-', '-'] <+: d :: cs)
    (hnext : next.ahead = text ps) (h : (c.advance 1).pastOrFinish ['>'] = next) :
    ∃ p : MarkupPiece, p.FitsBefore ps ∧ c.ahead = p.written ++ text ps := by
  obtain ⟨body, hbody, hends⟩ := (c.advance 1).exists_endsAt ['>']
  rw [h, hnext] at hbody hends
  have hahead : d :: cs = body ++ text ps := by simpa [hs] using hbody
  refine ⟨declaration body, ⟨?_, fun hprefix => hcomment ?_, hends⟩, ?_⟩
  · cases body with
    | nil =>
      -- A declaration is not empty, since its first character is not the end of the source.
      rcases hends with ⟨inner, hinner, -⟩ | ⟨-, hrest⟩
      · exact absurd hinner (by simp)
      · exact absurd hahead (by simp [hrest])
    | cons b bs =>
      obtain ⟨rfl, -⟩ := List.cons.inj hahead
      simpa using hd
  · rw [hahead]
    exact hprefix.trans (List.prefix_append _ _)
  · rw [hs, hahead]
    rfl

/-- **What is read at a place is a piece** that fits before what is read behind it. -/
theorem exists_fitsBefore {c next : Cursor} {ts : List Token} {ps : List MarkupPiece} (hfit : Fit ps)
    (hnext : next.ahead = text ps) (h : Token.read? c = some (ts, next)) :
    ∃ p : MarkupPiece, p.FitsBefore ps ∧ c.ahead = p.written ++ text ps := by
  unfold Token.read? at h
  split at h
  · next hs =>
    obtain ⟨-, rfl⟩ := Prod.mk.inj (Option.some.inj h)
    obtain ⟨body, hbody, hends⟩ := (c.advance 4).exists_endsAt ['-', '-', '>']
    rw [hnext] at hbody hends
    refine ⟨comment body, hends, ?_⟩
    rw [hs, written, List.cons_append, List.cons_append, List.cons_append, List.cons_append, ← hbody]
    simp [hs]
  · next hs =>
    obtain ⟨⟨token, behind⟩, hend, heq⟩ := Option.map_eq_some_iff.1 h
    obtain ⟨rfl, rfl⟩ := Prod.mk.inj heq
    simp only [Token.readEndTag?] at hend
    split at hend
    · exact absurd hend (by simp)
    · next hne =>
      obtain ⟨rfl, rfl⟩ := Prod.mk.inj (Option.some.inj hend)
      obtain ⟨body, hbody, hends⟩ := ((c.advance 2).skip isNameChar).exists_endsAt ['>']
      rw [hnext] at hbody hends
      have hname := Cursor.ahead_eq_run_append (c.advance 2) isNameChar
      have hhead := Cursor.head?_skip (c.advance 2) isNameChar
      refine ⟨endTag ((c.advance 2).run isNameChar) body, ⟨hne, Cursor.of_mem_run, ?_, hends⟩, ?_⟩
      · intro d hd
        refine hhead d ?_
        rw [hbody]
        cases body with
        | nil => exact absurd hd (by simp)
        | cons b bs => exact hd
      · rw [hbody] at hname
        rw [hs, written]
        simpa [hs] using hname
  · next hcomment hs =>
    obtain ⟨-, hend⟩ := Prod.mk.inj (Option.some.inj h)
    refine exists_declaration hs (.inl rfl) (fun hprefix => ?_) hnext hend
    obtain ⟨-, more, hmore⟩ := List.cons_prefix_cons.1 hprefix
    exact hcomment more hmore.symm
  · next hs =>
    obtain ⟨-, hend⟩ := Prod.mk.inj (Option.some.inj h)
    exact exists_declaration hs (.inr rfl) (by simp [List.cons_prefix_cons]) hnext hend
  · next hs =>
    split at h
    · next hc =>
      obtain ⟨⟨tag, behind⟩, htag, heq⟩ := Option.map_eq_some_iff.1 h
      obtain ⟨t, ht, hwritten⟩ := StartTag.exists_written hs hc htag
      -- What is written there is the tag that was read.
      have hread := StartTag.read?_written ht c.offset behind.ahead
      rw [← hwritten, htag] at hread
      obtain ⟨rfl, -⟩ := Prod.mk.inj (Option.some.inj hread)
      dsimp only [Token.ofStartTag] at heq
      split at heq
      · next hisRaw =>
        have hisRaw : t.IsRaw := hisRaw
        obtain ⟨-, rfl⟩ := Prod.mk.inj heq
        obtain ⟨raw, hraw, hbehind⟩ := exists_raw (t := t) hfit hisRaw hnext
        exact ⟨startTag t raw, ⟨ht, by rwa [if_pos hisRaw]⟩, by
          rw [hwritten, hbehind, written, List.append_assoc]⟩
      · next hisRaw =>
        have hisRaw : ¬ t.IsRaw := hisRaw
        obtain ⟨-, rfl⟩ := Prod.mk.inj heq
        exact ⟨startTag t [], ⟨ht, by rw [if_neg hisRaw]⟩, by
          rw [hwritten, hnext, written, List.append_nil]⟩
    · exact absurd h (by simp)
  · exact absurd h (by simp)

/-- A declaration, a comment or an end tag is read wherever one begins. -/
theorem read?_ne_none {d : Char} {ds : List Char}
    (h : d = '!' ∨ d = '?' ∨ d = '/' ∧ ds.head?.any isNameChar = true) :
    Token.read? ⟨o, '<' :: d :: ds⟩ ≠ none := by
  by_cases hslash : d = '/' ∧ ds.head?.any isNameChar = true
  · obtain ⟨rfl, hname⟩ := hslash
    obtain ⟨c, cs, rfl⟩ : ∃ c cs, ds = c :: cs := by
      cases ds with
      | nil => exact absurd hname (by simp)
      | cons c cs => exact ⟨c, cs, rfl⟩
    have hc : isNameChar c = true := by simpa using hname
    have hrun : ((⟨o, '<' :: '/' :: c :: cs⟩ : Cursor).advance 2).run isNameChar ≠ [] := by
      show (c :: cs).takeWhile isNameChar ≠ []
      rw [List.takeWhile_cons_of_pos hc]
      exact List.cons_ne_nil _ _
    show (Token.readEndTag? ⟨o, '<' :: '/' :: c :: cs⟩).map _ ≠ none
    rw [Token.readEndTag?, if_neg hrun]
    exact Option.some_ne_none _
  · have hd : d = '!' ∨ d = '?' := by
      rcases h with h | h | h
      · exact .inl h
      · exact .inr h
      · exact absurd h hslash
    by_cases hcomment : ['!', '-', '-'] <+: d :: ds
    · obtain ⟨more, hmore⟩ := hcomment
      rw [← hmore]
      exact Option.some_ne_none _
    · rw [read?_declaration hd hcomment]
      exact Option.some_ne_none _

/-- Where nothing is read and no start tag breaks off, the `<` stands for itself. -/
theorem begins_eq_false {rest : List Char} (hread : Token.read? ⟨o, '<' :: rest⟩ = none)
    (htag : Token.beginsTag ⟨o, '<' :: rest⟩ = false) : begins rest = false := by
  cases rest with
  | nil => rfl
  | cons d ds =>
    have hletter : d.isAlpha = false := htag
    refine Bool.eq_false_iff.2 fun hbegins => ?_
    simp only [begins, hletter, Bool.or_false, Bool.or_eq_true, Bool.and_eq_true, beq_iff_eq,
      or_assoc] at hbegins
    exact read?_ne_none hbegins hread

/-- **A source without a broken tag is written in pieces.** -/
theorem exists_of_completesFrom {c : Cursor} (h : Token.completesFrom c = true) :
    ∃ ps, Fit ps ∧ c.ahead = text ps := by
  fun_induction Token.completesFrom c with
  | case1 c hnil => exact ⟨[], trivial, hnil⟩
  | case2 c hne ts next hread ih =>
    obtain ⟨ps, hfit, hps⟩ := ih h
    obtain ⟨p, hp, hahead⟩ := exists_fitsBefore hfit hps hread
    exact ⟨p :: ps, ⟨hp, hfit⟩, hahead⟩
  | case3 c hne hread ih =>
    obtain ⟨d, rest, hahead⟩ := List.exists_cons_of_ne_nil hne
    simp only [Bool.and_eq_true, Bool.not_eq_true'] at h
    obtain ⟨ps, hfit, hps⟩ := ih h.2
    have hrest : rest = text ps := by simpa [hahead] using hps
    refine ⟨plain d :: ps, ⟨?_, hfit⟩, by rw [hahead, hrest]; rfl⟩
    rintro rfl
    obtain ⟨o, ahead⟩ := c
    obtain rfl : ahead = '<' :: rest := hahead
    rw [← hrest]
    exact begins_eq_false hread h.1

theorem exists_of_completes {source : String} (h : Token.completes source = true) :
    ∃ ps, Fit ps ∧ source = String.ofList (text ps) := by
  obtain ⟨ps, hfit, hps⟩ := exists_of_completesFrom h
  refine ⟨ps, hfit, ?_⟩
  rw [← hps, Cursor.front, String.ofList_toList]

/-- A `<` that stands for itself begins no tag. -/
theorem beginsTag_plain {c : Char} (h : c = '<' → begins rest = false) :
    Token.beginsTag ⟨o, c :: rest⟩ = false := by
  unfold Token.beginsTag
  split
  · next heq =>
    obtain ⟨rfl, rfl⟩ := List.cons.inj heq
    have hnone := h rfl
    simp only [begins, Bool.or_eq_false_iff] at hnone
    exact hnone.1.2
  · rfl

/-- What fits is written without a broken tag. -/
theorem completesFrom_text (h : Fit ps) : Token.completesFrom ⟨o, text ps⟩ = true := by
  induction ps generalizing o with
  | nil => rw [Token.completesFrom, dif_pos (by rfl)]
  | cons p ps ih =>
    have hne : text (p :: ps) ≠ [] := fun hnil => written_ne_nil p (List.append_eq_nil_iff.1 hnil).1
    rw [Token.completesFrom, dif_neg hne]
    cases p with
    | plain c =>
      have hread : Token.read? ⟨o, text (plain c :: ps)⟩ = none := read?_plain h.1
      split
      · next hsome => exact absurd (hread.symm.trans hsome) (by simp)
      · have htag : Token.beginsTag ⟨o, text (plain c :: ps)⟩ = false := beginsTag_plain h.1
        rw [htag]
        exact ih h.2
    | startTag | endTag | comment | declaration =>
      have hread : Token.read? ⟨o, text (_ :: ps)⟩ = _ := read?_written (by simp) h.1
      split
      · next hsome =>
        obtain ⟨-, rfl⟩ := Prod.mk.inj (Option.some.inj (hread.symm.trans hsome))
        exact ih h.2
      · next hnone => exact absurd (hread.symm.trans hnone) (by simp)

/-- **The sources without a broken tag** are those that are written in pieces. -/
theorem completes_iff {source : String} : Token.completes source = true ↔
    ∃ ps, Fit ps ∧ source = String.ofList (text ps) := by
  refine ⟨exists_of_completes, ?_⟩
  rintro ⟨ps, hfit, rfl⟩
  rw [Token.completes, String.toList_ofList]
  exact completesFrom_text hfit

end MarkupPiece

end MailTemplate
