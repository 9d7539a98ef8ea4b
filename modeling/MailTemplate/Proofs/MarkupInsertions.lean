import MailTemplate.Adaptation.Rule
import MailTemplate.Proofs.DocumentQueries
import MailTemplate.Proofs.EditParts

/-!
# Insertions between pieces

Some rules insert markup between the pieces of a source, and one fills in a raw text.  What they do is
said piece by piece, without any offsets: the edits of the pieces, put in order, turn the text of the old
pieces into the text of the new ones.

A rule may insert at many places at once, and several times at one of them.  It is enough to say of each
insertion alone that it may stand where it does.

## Main definitions

* `MarkupPiece.Rewrites` — pieces with others between them and with other raw texts, and the edits that
  make them.
* `MarkupPiece.Inserts` — pieces that can be inserted, and the edits that insert them.
* `MarkupPiece.Takes` — an edit inserts markup that may stand in its place.

## Main results

* `MarkupPiece.Rewrites.applyTo?`, `MarkupPiece.Rewrites.applyTo` — what the edits do, if those of one
  place are listed in their order.
* `MarkupPiece.exists_inserted` — what insertions at many places make of a source.
-/

namespace MailTemplate

namespace MarkupPiece

/-- Pieces of which the first stands at an offset, the same pieces with others inserted and raw texts
filled in, and the edits for it in order. -/
inductive Rewrites : Nat → List MarkupPiece → List MarkupPiece → List Edit → Prop
  | nil (o : Nat) : Rewrites o [] [] []
  | same {o : Nat} {ps ps' : List MarkupPiece} {es : List Edit} (p : MarkupPiece)
    (h : Rewrites (o + Text.byteLength p.written) ps ps' es) : Rewrites o (p :: ps) (p :: ps') es
  | inserted {o : Nat} {ps ps' : List MarkupPiece} {es : List Edit} (qs : List MarkupPiece)
    (h : Rewrites o ps ps' es) :
    Rewrites o ps (qs ++ ps') (Edit.insert o (String.ofList (text qs)) :: es)
  | filled {o : Nat} {ps ps' : List MarkupPiece} {es : List Edit} (t : WrittenTag)
    (raw raw' : List Char) (h : Rewrites (o + Text.byteLength (t.written ++ raw)) ps ps' es) :
    Rewrites o (startTag t raw :: ps) (startTag t raw' :: ps')
      (Edit.replace ⟨o + Text.byteLength t.written, o + Text.byteLength (t.written ++ raw)⟩
        (String.ofList raw') :: es)

namespace Rewrites

variable {o : Nat} {ps ps' qs qs' : List MarkupPiece} {es fs : List Edit}

theorem refl (o : Nat) (ps : List MarkupPiece) : Rewrites o ps ps [] := by
  induction ps generalizing o with
  | nil => exact .nil o
  | cons p ps ih => exact .same p (ih _)

theorem append (h : Rewrites o ps ps' es)
    (hmore : Rewrites (o + Text.byteLength (text ps)) qs qs' fs) :
    Rewrites o (ps ++ qs) (ps' ++ qs') (es ++ fs) := by
  induction h with
  | nil => exact hmore
  | same p _ ih =>
    rw [text_cons, Text.byteLength_append, ← Nat.add_assoc] at hmore
    exact .same p (ih hmore)
  | inserted more _ ih =>
    rw [List.append_assoc]
    exact .inserted more (ih hmore)
  | filled t raw raw' _ ih =>
    rw [text_cons, Text.byteLength_append, ← Nat.add_assoc] at hmore
    exact .filled t raw raw' (ih hmore)

/-- The edits are those of parts of the text. -/
theorem exists_parts (h : Rewrites o ps ps' es) :
    ∃ parts, parts.flatMap EditPart.old = text ps ∧ parts.flatMap EditPart.new = text ps' ∧
      EditPart.edits o parts = es := by
  induction h with
  | nil => exact ⟨[], rfl, rfl, rfl⟩
  | same p _ ih =>
    obtain ⟨parts, hold, hnew, hedits⟩ := ih
    refine ⟨.kept p.written :: parts, ?_, ?_, hedits⟩
    · rw [List.flatMap_cons, hold]
      rfl
    · rw [List.flatMap_cons, hnew]
      rfl
  | inserted more _ ih =>
    obtain ⟨parts, hold, hnew, hedits⟩ := ih
    refine ⟨.replaced [] (String.ofList (text more)) :: parts, hold, ?_, ?_⟩
    · rw [List.flatMap_cons, hnew, EditPart.new, String.toList_ofList, text_append]
    · exact congrArg _ hedits
  | @filled o ps ps' es t raw raw' _ ih =>
    obtain ⟨parts, hold, hnew, hedits⟩ := ih
    refine ⟨.kept t.written :: .replaced raw (String.ofList raw') :: parts, ?_, ?_, ?_⟩
    · simp [EditPart.old, hold, written]
    · simp [EditPart.new, hnew, written]
    · rw [Text.byteLength_append, ← Nat.add_assoc] at hedits ⊢
      rw [EditPart.edits, EditPart.edits, hedits]

/-- **The edits turn the pieces into the new ones,** in any order that keeps those of one place as they
are. -/
theorem applyTo? (h : Rewrites 0 ps ps' es)
    (hlisted : ∀ span, Edit.onSpan span fs = Edit.onSpan span es) :
    Edit.applyTo? fs (String.ofList (text ps)) = some (String.ofList (text ps')) := by
  obtain ⟨parts, hold, hnew, hedits⟩ := h.exists_parts
  have hordered := EditPart.pairwise_comesBefore 0 parts
  rw [hedits] at hordered
  have happly := @EditPart.applyTo?_of_edits_eq parts fs
    (by rw [hedits, Edit.mergeSort_eq_of_onSpan_eq hordered hlisted])
  rwa [hold, hnew] at happly

/-- A rule whose edits these are turns the pieces into the new ones. -/
theorem applyTo (h : Rewrites 0 ps ps' es) {rule : Rule} (hlisted : ∀ span,
    Edit.onSpan span (rule.editsOf (String.ofList (text ps))) = Edit.onSpan span es) :
    rule.applyTo (String.ofList (text ps)) = String.ofList (text ps') := by
  rw [Rule.applyTo, h.applyTo? hlisted, Option.getD_some]

/-- A raw text is replaced. -/
theorem fill (o : Nat) (front : List MarkupPiece) (t : WrittenTag) (raw raw' : List Char)
    (back : List MarkupPiece) :
    Rewrites o (front ++ startTag t raw :: back) (front ++ startTag t raw' :: back)
      [Edit.replace ⟨o + Text.byteLength (text front) + Text.byteLength t.written,
        o + Text.byteLength (text front) + Text.byteLength (t.written ++ raw)⟩
        (String.ofList raw')] :=
  (refl o front).append (.filled t raw raw' (refl _ back))

end Rewrites

/-- Pieces that are read as they are meant before anything, and the edits that insert them at an
offset. -/
structure Inserts (o : Nat) (qs : List MarkupPiece) (es : List Edit) : Prop where
  /-- The pieces can be inserted. -/
  stands : Stands qs
  /-- The edits insert them. -/
  rewrites : ∀ {ps ps' : List MarkupPiece} {fs : List Edit}, Rewrites o ps ps' fs →
    Rewrites o ps (qs ++ ps') (es ++ fs)

namespace Inserts

variable {o : Nat} {qs more : List MarkupPiece} {es fs : List Edit}

theorem nil (o : Nat) : Inserts o [] [] := ⟨.nil, id⟩

theorem single (o : Nat) (h : Stands qs) :
    Inserts o qs [Edit.insert o (String.ofList (text qs))] := ⟨h, .inserted qs⟩

theorem append (h : Inserts o qs es) (hmore : Inserts o more fs) :
    Inserts o (qs ++ more) (es ++ fs) := by
  refine ⟨h.stands.append hmore.stands, fun hrest => ?_⟩
  rw [List.append_assoc, List.append_assoc]
  exact h.rewrites (hmore.rewrites hrest)

end Inserts

/-! ## Insertions at many places -/

/-- Pieces that can be inserted, as a text, and hold no raw text of an element. -/
structure IsBlock (element : String) (qs : List MarkupPiece) (block : String) : Prop where
  /-- They are read as they are meant before anything. -/
  stands : Stands qs
  /-- They make up the text. -/
  written : String.ofList (text qs) = block
  /-- They begin so that nothing before them goes on with them. -/
  head : ∃ c, (text qs).head? = some c ∧ (c = '\n' ∨ c = '<')
  /-- They hold no raw text of the element. -/
  raws : raws element qs = []

theorem IsBlock.inserts {element block : String} {qs : List MarkupPiece} (h : IsBlock element qs block)
    (o : Nat) : Inserts o qs [Edit.insert o block] := by
  have hsingle := Inserts.single o h.stands
  rwa [h.written] at hsingle

/-- A comment without dashes, on a line of its own. -/
theorem IsBlock.comment (element : String) {inner : List Char} {block : String} (h : '-' ∉ inner)
    (hblock : String.ofList (text [plain '\n', .comment (inner ++ ['-', '-', '>'])]) = block) :
    IsBlock element [plain '\n', .comment (inner ++ ['-', '-', '>'])] block :=
  ⟨(Stands.plain (by decide)).append (.closedComment (Text.not_infix_of_no_dash h)), hblock,
    ⟨_, rfl, .inl rfl⟩, rfl⟩

/-- An edit inserts a block behind a piece that does not look at it, or before a piece where no raw text
ends. -/
def Takes (element : String) (ps : List MarkupPiece) (e : Edit) : Prop :=
  ∃ A B qs, ps = A ++ B ∧ e = Edit.insert (Text.byteLength (text A)) e.text ∧ IsBlock element qs e.text ∧
    ((∃ A' p, A = A' ++ [p] ∧ p.IsFree) ∨ B ≠ [] ∧ ∀ raw ∈ Token.rawElements, ¬ EndsRaw raw B)

/-- The edits between pieces of which the first stands at an offset, in order. -/
def editsBetween (es : List Edit) (o : Nat) : List MarkupPiece → List Edit
  | [] => Edit.onSpan ⟨o, o⟩ es
  | p :: ps => Edit.onSpan ⟨o, o⟩ es ++ editsBetween es (o + Text.byteLength p.written) ps

variable {element : String} {all ps A B : List MarkupPiece} {es : List Edit} {o : Nat}

theorem mem_editsBetween {e : Edit} (h : e ∈ editsBetween es o ps) : e ∈ es ∧ o ≤ e.span.start := by
  induction ps generalizing o with
  | nil =>
    obtain ⟨hmem, hspan⟩ := Edit.mem_onSpan_iff.1 h
    exact ⟨hmem, Nat.le_of_eq (congrArg Span.start hspan).symm⟩
  | cons p ps ih =>
    rcases List.mem_append.1 h with h | h
    · obtain ⟨hmem, hspan⟩ := Edit.mem_onSpan_iff.1 h
      exact ⟨hmem, Nat.le_of_eq (congrArg Span.start hspan).symm⟩
    · obtain ⟨hmem, hle⟩ := ih h
      exact ⟨hmem, Nat.le_of_add_right_le hle⟩

/-- Behind a place no edits of the place are left. -/
theorem onSpan_editsBetween_of_lt {place : Nat} (h : place < o) (es : List Edit)
    (ps : List MarkupPiece) : Edit.onSpan ⟨place, place⟩ (editsBetween es o ps) = [] := by
  refine Edit.onSpan_eq_nil fun e he hspan => ?_
  have hle := (mem_editsBetween he).2
  rw [hspan] at hle
  exact absurd h (Nat.not_lt.2 hle)

/-- Between two pieces stand the edits of that place. -/
theorem onSpan_editsBetween (es : List Edit) {place : Nat} (A B : List MarkupPiece)
    (hplace : place = o + Text.byteLength (text A)) :
    Edit.onSpan ⟨place, place⟩ (editsBetween es o (A ++ B)) = Edit.onSpan ⟨place, place⟩ es := by
  induction A generalizing o with
  | nil =>
    obtain rfl : place = o := hplace
    cases B with
    | nil => exact Edit.onSpan_onSpan_self _ es
    | cons p B =>
      have hpos := Text.byteLength_pos (written_ne_nil p)
      rw [List.nil_append, editsBetween, Edit.onSpan_append, Edit.onSpan_onSpan_self,
        onSpan_editsBetween_of_lt (by omega), List.append_nil]
  | cons p A ih =>
    have hpos := Text.byteLength_pos (written_ne_nil p)
    rw [text_cons, Text.byteLength_append, ← Nat.add_assoc] at hplace
    rw [List.cons_append, editsBetween, Edit.onSpan_append, ih hplace, Edit.onSpan_eq_nil,
      List.nil_append]
    intro e he hspan
    have hfirst := (Edit.mem_onSpan_iff.1 he).2
    rw [hspan] at hfirst
    have hstart : place = o := congrArg Span.start hfirst
    omega

/-- Edits that all stand between pieces are listed in the order of the pieces. -/
theorem onSpan_eq_editsBetween (h : ∀ e ∈ es, Takes element ps e) (span : Span) :
    Edit.onSpan span es = Edit.onSpan span (editsBetween es 0 ps) := by
  by_cases hsome : ∃ e ∈ es, e.span = span
  · obtain ⟨e, he, rfl⟩ := hsome
    obtain ⟨A, B, qs, rfl, hspan, -⟩ := h e he
    rw [hspan]
    exact (onSpan_editsBetween es A B (Nat.zero_add _).symm).symm
  · rw [Edit.onSpan_eq_nil fun e he heq => hsome ⟨e, he, heq⟩, Edit.onSpan_eq_nil]
    intro e he heq
    exact hsome ⟨e, (mem_editsBetween he).1, heq⟩

theorem eq_nil_of_byteLength (h : Text.byteLength (text ps) = 0) : ps = [] := by
  refine text_eq_nil_iff.1 (Classical.byContradiction fun hne => ?_)
  have := Text.byteLength_pos hne
  omega

/-- Pieces are split at one place only. -/
theorem append_inj_of_byteLength {A' B' : List MarkupPiece} (h : A ++ B = A' ++ B')
    (hlength : Text.byteLength (text A) = Text.byteLength (text A')) : A = A' ∧ B = B' := by
  rcases List.append_eq_append_iff.1 h with ⟨gap, rfl, rfl⟩ | ⟨gap, rfl, rfl⟩
  · rw [text_append, Text.byteLength_append] at hlength
    obtain rfl : gap = [] := eq_nil_of_byteLength (by omega)
    simp
  · rw [text_append, Text.byteLength_append] at hlength
    obtain rfl : gap = [] := eq_nil_of_byteLength (by omega)
    simp

/-- Blocks are inserted one behind the other at one place. -/
theorem exists_blocks (o : Nat)
    (h : ∀ e ∈ es, ∃ qs, IsBlock element qs e.text ∧ e = Edit.insert o e.text) :
    ∃ qs, Inserts o qs es ∧ raws element qs = [] ∧
      (qs = [] ∨ es ≠ [] ∧ ∃ c, (text qs).head? = some c ∧ (c = '\n' ∨ c = '<')) := by
  induction es with
  | nil => exact ⟨[], .nil o, rfl, .inl rfl⟩
  | cons e es ih =>
    obtain ⟨⟨qs, hqs, he⟩, hes⟩ := List.forall_mem_cons.1 h
    obtain ⟨more, hmore, hraws, -⟩ := ih hes
    have hfirst := hqs.inserts o
    rw [← he] at hfirst
    obtain ⟨c, hc, hfeed⟩ := hqs.head
    refine ⟨qs ++ more, hfirst.append hmore, ?_, .inr ⟨List.cons_ne_nil _ _, c, ?_, hfeed⟩⟩
    · rw [raws_append, hqs.raws, hraws]
      rfl
    · rw [text_append, List.head?_append, hc]
      rfl

/-- What is inserted at one place, and why it may stand there. -/
theorem exists_blocks_between (h : ∀ e ∈ es, Takes element (A ++ B) e) :
    let o := Text.byteLength (text A)
    ∃ qs, Inserts o qs (Edit.onSpan ⟨o, o⟩ es) ∧ raws element qs = [] ∧
      (qs = [] ∨ (∃ c, (text qs).head? = some c ∧ (c = '\n' ∨ c = '<')) ∧
        ((∃ A' p, A = A' ++ [p] ∧ p.IsFree) ∨
          B ≠ [] ∧ ∀ raw ∈ Token.rawElements, ¬ EndsRaw raw B)) := by
  intro o
  have hhere : ∀ e ∈ Edit.onSpan ⟨o, o⟩ es,
      (∃ qs, IsBlock element qs e.text ∧ e = Edit.insert o e.text) ∧
        ((∃ A' p, A = A' ++ [p] ∧ p.IsFree) ∨
          B ≠ [] ∧ ∀ raw ∈ Token.rawElements, ¬ EndsRaw raw B) := by
    intro e he
    obtain ⟨hmem, hspan⟩ := Edit.mem_onSpan_iff.1 he
    obtain ⟨A', B', qs, hsplit, heq, hblock, hplace⟩ := h e hmem
    rw [heq] at hspan
    have hlength : Text.byteLength (text A') = o := congrArg Span.start hspan
    obtain ⟨rfl, rfl⟩ := append_inj_of_byteLength hsplit.symm hlength
    exact ⟨⟨qs, hblock, heq⟩, hplace⟩
  obtain ⟨qs, hqs, hraws, hnil | ⟨hne, hhead⟩⟩ := exists_blocks o fun e he => (hhere e he).1
  · exact ⟨qs, hqs, hraws, .inl hnil⟩
  · obtain ⟨e, he⟩ := List.exists_mem_of_ne_nil _ hne
    exact ⟨qs, hqs, hraws, .inr ⟨hhead, (hhere e he).2⟩⟩

/-- **Pieces with all blocks inserted** are read as they are meant, and the other pieces stay. -/
theorem exists_inserted {front : List MarkupPiece} (h : ∀ e ∈ es, Takes element (front ++ ps) e)
    (hfit : Fit ps) :
    ∃ ps', Rewrites (Text.byteLength (text front)) ps ps'
        (editsBetween es (Text.byteLength (text front)) ps) ∧
      Fit ps' ∧ raws element ps' = raws element ps ∧
      ((∀ front' p, front = front' ++ [p] → ¬ p.IsFree) → StandsFor ps ps') := by
  induction ps generalizing front with
  | nil =>
    obtain ⟨qs, hqs, hraws, hplace⟩ := exists_blocks_between h
    refine ⟨qs ++ [], ?_, hqs.stands [] trivial, by simp [hraws], fun hfree => ?_⟩
    · simpa [editsBetween] using hqs.rewrites (.nil _)
    · rw [List.append_nil]
      rcases hplace with rfl | ⟨-, ⟨A', p, hfront, hp⟩ | ⟨hne, -⟩⟩
      · exact .refl []
      · exact absurd hp (hfree A' p hfront)
      · exact absurd rfl hne
  | cons p ps ih =>
    obtain ⟨qs, hqs, hraws, hplace⟩ := exists_blocks_between h
    have hsplit : front ++ p :: ps = (front ++ [p]) ++ ps := by simp
    rw [hsplit] at h
    obtain ⟨ps', hrewrites, hfit', hraws', hstands⟩ := ih h hfit.2
    have hoffset : Text.byteLength (text (front ++ [p])) =
        Text.byteLength (text front) + Text.byteLength p.written := by
      rw [text_append, Text.byteLength_append]
      simp [text]
    rw [hoffset] at hrewrites
    -- Either the piece does not look behind it, or what stands there looks the same to it.
    have hp : p.FitsBefore ps' ∧ StandsFor (p :: ps) (p :: ps') := by
      by_cases hfree : p.IsFree
      · exact ⟨hfree.fitsBefore _ _ hfit.1, .behind hfree.notPlain _ _⟩
      · have hbehind := hstands fun front' p' heq => by
          obtain rfl := List.singleton_inj.1 (List.append_inj' heq rfl).2
          exact hfree
        exact ⟨hfit.1.standsFor hbehind, hbehind.cons p⟩
    refine ⟨qs ++ p :: ps', hqs.rewrites (.same p hrewrites), hqs.stands _ ⟨hp.1, hfit'⟩, ?_,
      fun hfree => ?_⟩
    · rw [raws_append, raws_cons, raws_cons, hraws, hraws', List.nil_append]
    · rcases hplace with rfl | ⟨⟨c, hc, hfeed⟩, ⟨A', p', hfront, hp'⟩ | ⟨hne, hends⟩⟩
      · exact hp.2
      · exact absurd hp' (hfree A' p' hfront)
      · refine .ofHead hne ?_ hfeed hends
        rw [text_append, List.head?_append, hc]
        rfl

end MarkupPiece

end MailTemplate
