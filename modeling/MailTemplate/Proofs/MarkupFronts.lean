import Mathlib.Data.List.Infix
import MailTemplate.Proofs.WrittenMarkup

/-!
# Markup in the place of other markup

A piece of a source looks at what follows it only in three ways: a lone `<` at the next two characters,
raw text at the end tag behind it, and whatever runs to the end of the source at that end.  So other
pieces can take the place of those behind it if they look the same in these respects, and markup that is
read as it is meant before anything can be inserted where it does not change them.

## Main definitions

* `MarkupPiece.StandsFor` — pieces can take the place of others.
* `MarkupPiece.IsFree` — a piece does not look at what follows it.
* `MarkupPiece.Stands` — pieces are read as they are meant before anything.

## Main results

* `MarkupPiece.Fit.standsFor` — pieces still fit if others take the place of those behind them.
* `MarkupPiece.Fit.insert_behind` — markup is inserted behind a piece that ends for itself.
* `MarkupPiece.Fit.fill` — a raw text takes the place of another one.
-/

namespace MailTemplate

namespace MarkupPiece

variable {p : MarkupPiece} {ps ps' qs more front : List MarkupPiece} {element : String}

theorem text_append (ps qs : List MarkupPiece) : text (ps ++ qs) = text ps ++ text qs :=
  List.flatMap_append

theorem text_eq_nil_iff : text ps = [] ↔ ps = [] := by
  cases ps with
  | nil => exact iff_of_true rfl rfl
  | cons p ps =>
    refine iff_of_false (fun h => ?_) (List.cons_ne_nil _ _)
    exact written_ne_nil p (List.append_eq_nil_iff.1 h).1

/-! ## What a piece sees of those behind it -/

/-- The raw text of an element ends before pieces. -/
def EndsRaw (element : String) (ps : List MarkupPiece) : Prop :=
  ps = [] ∨ ∃ name body ps', ps = endTag name body :: ps' ∧ element.toList <+: Text.lower name

theorem not_endsRaw_startTag (element : String) (t : WrittenTag) (raw : List Char)
    (ps : List MarkupPiece) : ¬ EndsRaw element (.startTag t raw :: ps) := by
  rintro (hnil | ⟨name, body, qs, heq, -⟩)
  · exact absurd hnil (List.cons_ne_nil _ _)
  · exact absurd (List.cons.inj heq).1 (by simp)

/-- Pieces can take the place of others: what stands before them sees no difference. -/
structure StandsFor (ps ps' : List MarkupPiece) : Prop where
  /-- No declaration or tag begins with a `<` before them if none did. -/
  begins : begins (text ps) = false → begins (text ps') = false
  /-- They do not go on with a name if the others did not. -/
  head : (text ps).head?.any isNameChar = false → (text ps').head?.any isNameChar = false
  /-- They are there only if the others were. -/
  nil : ps = [] → ps' = []
  /-- Raw text ends before them if it did before the others. -/
  raw : ∀ element ∈ Token.rawElements, EndsRaw element ps → EndsRaw element ps'

theorem StandsFor.refl (ps : List MarkupPiece) : StandsFor ps ps := ⟨id, id, id, fun _ _ => id⟩

/-- All pieces but single characters begin with a `<`, and nothing begins with another one before it. -/
theorem begins_of_not_plain (h : ∀ c, p ≠ plain c) (ps : List MarkupPiece) :
    begins (text (p :: ps)) = false ∧ (text (p :: ps)).head? = some '<' := by
  cases p with
  | plain c => exact absurd rfl (h c)
  | startTag => exact ⟨rfl, rfl⟩
  | endTag => exact ⟨rfl, rfl⟩
  | comment => exact ⟨rfl, rfl⟩
  | declaration => exact ⟨rfl, rfl⟩

/-- Behind a piece that is no single character anything may stand. -/
theorem StandsFor.behind (hp : ∀ c, p ≠ plain c) (ps ps' : List MarkupPiece) :
    StandsFor (p :: ps) (p :: ps') := by
  obtain ⟨hbegins, hhead⟩ := begins_of_not_plain hp ps'
  refine ⟨fun _ => hbegins, fun _ => ?_, fun h => absurd h (List.cons_ne_nil _ _), ?_⟩
  · rw [hhead]
    rfl
  · rintro element - (h | ⟨name, body, qs, heq, hname⟩)
    · exact absurd h (List.cons_ne_nil _ _)
    · obtain ⟨rfl, -⟩ := List.cons.inj heq
      exact .inr ⟨name, body, ps', rfl, hname⟩

theorem StandsFor.cons (p : MarkupPiece) (h : StandsFor ps ps') : StandsFor (p :: ps) (p :: ps') := by
  cases p with
  | plain c =>
    refine ⟨fun hbegins => ?_, id, fun hnil => absurd hnil (List.cons_ne_nil _ _), ?_⟩
    · -- Behind a slash only the next character matters.
      have hhead := h.head
      simp only [text_cons, written, List.singleton_append, MarkupPiece.begins, Bool.or_eq_false_iff,
        Bool.and_eq_false_iff] at hbegins ⊢
      exact ⟨hbegins.1, hbegins.2.imp_right hhead⟩
    · rintro element - (hnil | ⟨name, body, qs, heq, -⟩)
      · exact absurd hnil (List.cons_ne_nil _ _)
      · exact absurd (List.cons.inj heq).1 (by simp)
  | startTag => exact .behind (by simp) ps ps'
  | endTag => exact .behind (by simp) ps ps'
  | comment => exact .behind (by simp) ps ps'
  | declaration => exact .behind (by simp) ps ps'

theorem StandsFor.append (front : List MarkupPiece) (h : StandsFor ps ps') :
    StandsFor (front ++ ps) (front ++ ps') := by
  induction front with
  | nil => exact h
  | cons p front ih => exact ih.cons p

/-- Pieces that begin with a line feed or a `<` may stand where no raw text ends. -/
theorem StandsFor.ofHead {c : Char} (hne : ps ≠ []) (hc : (text ps').head? = some c)
    (hfeed : c = '\n' ∨ c = '<') (hraw : ∀ element ∈ Token.rawElements, ¬ EndsRaw element ps) :
    StandsFor ps ps' := by
  obtain ⟨cs, hcs⟩ := List.head?_eq_some_iff.1 hc
  refine ⟨fun _ => ?_, fun _ => ?_, fun h => absurd h hne, fun element he h => absurd h (hraw element he)⟩
  · rw [hcs]
    rcases hfeed with rfl | rfl <;> rfl
  · rw [hc]
    rcases hfeed with rfl | rfl <;> rfl

theorem endsAt_standsFor {sought body : List Char} (h : StandsFor ps ps')
    (hends : Cursor.EndsAt sought body (text ps)) : Cursor.EndsAt sought body (text ps') := by
  rcases hends with hinner | ⟨hnone, hrest⟩
  · exact .inl hinner
  · exact .inr ⟨hnone, text_eq_nil_iff.2 (h.nil (text_eq_nil_iff.1 hrest))⟩

/-- **A piece still fits** if other pieces take the place of those behind it. -/
theorem FitsBefore.standsFor (h : StandsFor ps ps') (hfits : p.FitsBefore ps) : p.FitsBefore ps' := by
  cases p with
  | plain c => exact fun hc => h.begins (hfits hc)
  | startTag t raw =>
    obtain ⟨ht, hraw⟩ := hfits
    refine ⟨ht, ?_⟩
    by_cases hisRaw : t.IsRaw
    · rw [if_pos hisRaw] at hraw ⊢
      exact ⟨hraw.1, h.raw t.key hisRaw.2 hraw.2⟩
    · rwa [if_neg hisRaw] at hraw ⊢
  | endTag name body => exact ⟨hfits.1, hfits.2.1, hfits.2.2.1, endsAt_standsFor h hfits.2.2.2⟩
  | comment body => exact endsAt_standsFor h hfits
  | declaration body => exact ⟨hfits.1, hfits.2.1, endsAt_standsFor h hfits.2.2⟩

/-- **Pieces still fit** if others take the place of those at their end. -/
theorem Fit.standsFor (h : StandsFor ps ps') (hfit : Fit (front ++ ps)) (hps : Fit ps') :
    Fit (front ++ ps') := by
  induction front with
  | nil => exact hps
  | cons p front ih => exact ⟨hfit.1.standsFor (h.append front), ih hfit.2⟩

theorem Fit.behind (hfit : Fit (front ++ ps)) : Fit ps := by
  induction front with
  | nil => exact hfit
  | cons p front ih => exact ih hfit.2

/-! ## Pieces that end for themselves -/

/-- A piece that does not look at what follows it. -/
structure IsFree (p : MarkupPiece) : Prop where
  /-- It is no single character. -/
  notPlain : ∀ c, p ≠ plain c
  /-- It fits before anything if it fits at all. -/
  fitsBefore : ∀ ps ps', p.FitsBefore ps → p.FitsBefore ps'

theorem IsFree.startTag {t : WrittenTag} {raw : List Char} (h : ¬ t.IsRaw) : (startTag t raw).IsFree := by
  refine ⟨by simp, fun ps ps' hfits => ⟨hfits.1, ?_⟩⟩
  have hnone := hfits.2
  rwa [if_neg h] at hnone ⊢

/-- An end tag with its `>`. -/
theorem IsFree.endTag {name body : List Char} (h : '>' ∈ body) : (endTag name body).IsFree :=
  ⟨by simp, fun _ _ hfits =>
    ⟨hfits.1, hfits.2.1, hfits.2.2.1, hfits.2.2.2.of_contains ((List.singleton_infix_iff _ _).2 h) _⟩⟩

/-- A comment with its end. -/
theorem IsFree.comment {body : List Char} (h : ['-', '-', '>'] <:+: body) : (comment body).IsFree :=
  ⟨by simp, fun _ _ (hfits : Cursor.EndsAt _ _ _) => hfits.of_contains h _⟩

/-- A declaration with its `>`. -/
theorem IsFree.declaration {body : List Char} (h : '>' ∈ body) : (declaration body).IsFree :=
  ⟨by simp, fun _ _ hfits => ⟨hfits.1, hfits.2.1, hfits.2.2.of_contains ((List.singleton_infix_iff _ _).2 h) _⟩⟩

/-! ## Markup that can be inserted -/

/-- Pieces are read as they are meant before whatever follows. -/
def Stands (qs : List MarkupPiece) : Prop := ∀ ps, Fit ps → Fit (qs ++ ps)

theorem Stands.nil : Stands [] := fun _ h => h

theorem Stands.append (h : Stands qs) (hmore : Stands more) : Stands (qs ++ more) := by
  intro ps hps
  rw [List.append_assoc]
  exact h _ (hmore ps hps)

/-- Pieces that end with one that does not look at what follows are read as they are meant before anything. -/
theorem Stands.of_isFree (hp : p.IsFree) (hfit : Fit (front ++ [p])) : Stands (front ++ [p]) := by
  intro ps hps
  rw [List.append_assoc, List.singleton_append]
  exact hfit.standsFor (.behind hp.notPlain [] ps) ⟨hp.fitsBefore _ _ hfit.behind.1, hps⟩

theorem Stands.plain {c : Char} (hc : c ≠ '<') : Stands [plain c] :=
  fun _ hps => ⟨fun h => absurd h hc, hps⟩

/-- A tag without raw text. -/
theorem Stands.startTag {t : WrittenTag} (ht : t.Fits) (hraw : ¬ t.IsRaw) : Stands [startTag t []] :=
  fun _ hps => ⟨⟨ht, by rw [if_neg hraw]⟩, hps⟩

/-- A comment with its end. -/
theorem Stands.comment {body : List Char} (hbody : ∃ inner, body = inner ++ ['-', '-', '>'] ∧
    ∀ rest, Text.indexOf? ['-', '-', '>'] (body ++ rest) = some inner.length) :
    Stands [comment body] :=
  fun _ hps => ⟨.inl hbody, hps⟩

/-- A comment that does not end before its end. -/
theorem Stands.closedComment {inner : List Char}
    (h : ¬ ['-', '-', '>'] <:+: inner ++ ['-', '-']) :
    Stands [.comment (inner ++ ['-', '-', '>'])] :=
  .comment ⟨inner, rfl, Text.indexOf?_of_not_infix h⟩

/-- A raw element as a whole. -/
theorem Stands.rawElement {t : WrittenTag} {raw : List Char} (ht : t.Fits) (hraw : t.IsRaw)
    (hno : Text.indexOfFold? ('<' :: '/' :: t.key.toList) raw = none) :
    Stands [.startTag t raw, endTag t.key.toList ['>']] := by
  obtain ⟨hne, hlower⟩ := Token.rawElements_isLower t.key hraw.2
  have hname : Text.lower t.key.toList = t.key.toList := by
    rw [Text.lower]
    exact (List.map_congr_left fun a ha => (hlower a ha).2).trans (List.map_id _)
  intro ps hps
  refine ⟨⟨ht, ?_⟩, ⟨hne, ?_, ?_, ?_⟩, hps⟩
  · rw [if_pos hraw]
    exact ⟨hno, .inr ⟨_, _, _, rfl, [], by rw [List.append_nil, hname]⟩⟩
  · intro a ha
    have halpha : a.isAlpha = true := Bool.or_eq_true_iff.2 (.inr (hlower a ha).1)
    have hletter : a.isAlphanum = true := Bool.or_eq_true_iff.2 (.inl halpha)
    simp [isNameChar, hletter]
  · rintro c ⟨⟩
    decide
  · exact .inl ⟨[], rfl, fun more => Text.indexOfBy?_of_begins (by simp [Text.beginsWithBy])⟩

/-- **Markup is inserted behind a piece** that does not look at it. -/
theorem Fit.insert_behind (hp : p.IsFree) (hstands : Stands qs) (hfit : Fit (front ++ p :: ps)) :
    Fit (front ++ p :: (qs ++ ps)) :=
  hfit.standsFor (.behind hp.notPlain _ _) ⟨hp.fitsBefore _ _ hfit.behind.1, hstands ps hfit.behind.2⟩

/-- **A raw text takes the place of another one** if it does not hold the front of its end tag. -/
theorem Fit.fill {t : WrittenTag} {raw raw' : List Char} (hraw : t.IsRaw)
    (hno : Text.indexOfFold? ('<' :: '/' :: t.key.toList) raw' = none)
    (hfit : Fit (front ++ .startTag t raw :: ps)) : Fit (front ++ .startTag t raw' :: ps) := by
  obtain ⟨⟨ht, hends⟩, hps⟩ := hfit.behind
  rw [if_pos hraw] at hends
  refine hfit.standsFor (.ofHead (List.cons_ne_nil _ _) rfl (.inr rfl) fun element _ =>
    not_endsRaw_startTag element t raw ps) ⟨⟨ht, ?_⟩, hps⟩
  rw [if_pos hraw]
  exact ⟨hno, hends.2⟩

end MarkupPiece

end MailTemplate
