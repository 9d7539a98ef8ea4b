import MailTemplate.Proofs.StyleRewrites

/-!
# What a style declares

Where a declaration stands does not matter for what it declares: a style is read as a list of pairs, each
a property and its value.  A declaration that is appended is one more pair at the end, if nothing is open
there; the value of one declaration is replaced in its pair, if the new value can stand anywhere.

## Main definitions

* `Css.pairs` — the properties and values that a style declares.
* `Css.winner?` — the value that wins for a property.

## Main results

* `Css.map_pair_declarations` — the pairs are those of the declarations.
* `Css.pairs_append` — an appended declaration is the last pair.
* `Css.exists_pairs_of_edit` — a replaced value is the value of its pair.
-/

namespace MailTemplate

namespace Css

/-! ## Pairs -/

/-- A property and its value. -/
def Declaration.pair (d : Declaration) : String × String := (d.property, d.value)

/-- What the pieces of a style declare. -/
def pairsOf (ps : List (List Char)) : List (String × String) :=
  ps.filterMap fun piece => (Declaration.ofPiece? 0 piece).map Declaration.pair

/-- What a style declares. -/
def pairs (style : List Char) : List (String × String) := pairsOf (pieces style)

/-- The value that wins for a property: that of the last pair with the property. -/
def winner? (ds : List (String × String)) (property : String) : Option String :=
  (ds.reverse.find? fun d => d.1 == property).map Prod.snd

theorem pairsOf_append (ps qs : List (List Char)) : pairsOf (ps ++ qs) = pairsOf ps ++ pairsOf qs :=
  List.filterMap_append

/-- What a piece declares does not depend on its place. -/
theorem Declaration.map_pair_ofPiece? (offset offset' : Nat) (piece : List Char) :
    (ofPiece? offset piece).map pair = (ofPiece? offset' piece).map pair := by
  cases h : ofPiece? offset piece with
  | none =>
    cases h' : ofPiece? offset' piece with
    | none => rfl
    | some d =>
      obtain ⟨span, hspan⟩ := exists_ofPiece?_at h' offset
      exact absurd (h.symm.trans hspan) (by simp)
  | some d =>
    obtain ⟨span, hspan⟩ := exists_ofPiece?_at h offset'
    rw [hspan]
    rfl

theorem pairsOf_cons (offset : Nat) (piece : List Char) (ps : List (List Char)) :
    pairsOf (piece :: ps) =
      (Declaration.ofPiece? offset piece).toList.map Declaration.pair ++ pairsOf ps := by
  rw [pairsOf, List.filterMap_cons, Declaration.map_pair_ofPiece? 0 offset]
  cases Declaration.ofPiece? offset piece with
  | none => rfl
  | some d => rfl

theorem map_pair_declarationsFrom (offset : Nat) (ps : List (List Char)) :
    (declarationsFrom offset ps).map Declaration.pair = pairsOf ps := by
  induction ps generalizing offset with
  | nil => rfl
  | cons piece ps ih => rw [declarationsFrom, List.map_append, ih, pairsOf_cons offset]

/-- **The pairs of a style are those of its declarations.** -/
theorem map_pair_declarations (style : String) :
    (declarations style).map Declaration.pair = pairs style.toList :=
  map_pair_declarationsFrom 0 _

theorem map_value_lastOf? (ds : List Declaration) (property : String) :
    (lastOf? ds property).map Declaration.value = winner? (ds.map Declaration.pair) property := by
  rw [winner?, ← List.map_reverse, List.find?_map, Option.map_map]
  rfl

/-- A property wins with its last pair. -/
theorem winner?_append_cons {before after : List (String × String)} {property value : String}
    (h : ∀ d ∈ after, d.1 ≠ property) :
    winner? (before ++ (property, value) :: after) property = some value := by
  have hnone : (after.reverse.find? fun d => d.1 == property) = none := by
    refine List.find?_eq_none.2 fun d hd => ?_
    simpa using h d (List.mem_reverse.1 hd)
  rw [winner?, List.reverse_append, List.reverse_cons, List.append_assoc, List.find?_append, hnone,
    Option.none_or]
  simp

theorem exists_append_of_winner? {ds : List (String × String)} {property value : String}
    (h : winner? ds property = some value) :
    ∃ before after, ds = before ++ (property, value) :: after ∧ ∀ d ∈ after, d.1 ≠ property := by
  obtain ⟨d, hd, rfl⟩ := Option.map_eq_some_iff.1 h
  obtain ⟨hproperty, later, earlier, heq, hlater⟩ := List.find?_eq_some_iff_append.1 hd
  obtain rfl : d.1 = property := beq_iff_eq.1 hproperty
  refine ⟨earlier.reverse, later.reverse, ?_, fun e he => ?_⟩
  · rw [← List.reverse_reverse ds, heq]
    simp
  · have hother := hlater e (List.mem_reverse.1 he)
    simp only [Bool.not_eq_true', beq_eq_false_iff_ne] at hother
    exact hother

/-! ## An appended declaration -/

namespace Scan

variable {s : Scan} {cs : List Char} {c : Char}

/-- Only a quote is ever open as one. -/
theorem quote_run (hs : ∀ q ∈ s.quote, q = '"' ∨ q = '\'') (cs : List Char) :
    ∀ q ∈ (s.run cs).quote, q = '"' ∨ q = '\'' := by
  induction cs generalizing s with
  | nil => exact hs
  | cons c cs ih =>
    apply ih
    intro q hq
    unfold step at hq
    split at hq
    · split at hq
      · exact absurd hq (by simp)
      · exact hs q hq
    · next hnone =>
      split at hq
      · next hc =>
        obtain rfl := Option.some.inj hq
        exact hc
      · -- Parentheses open no quote.
        split at hq
        · exact hs q hq
        · split at hq
          · exact hs q hq
          · exact hs q hq

/-- A character that is no quote and no parenthesis changes no state. -/
theorem step_eq_self (hs : ∀ q ∈ s.quote, q = '"' ∨ q = '\'') (hquotes : c ≠ '"' ∧ c ≠ '\'')
    (hparens : c ≠ '(' ∧ c ≠ ')') : s.step c = s := by
  unfold step
  split
  · next q hq =>
    have hne : c ≠ q := by
      rintro rfl
      exact (hs c hq).elim hquotes.1 hquotes.2
    rw [if_neg hne]
  · rw [if_neg (by simp [hquotes]), if_neg hparens.1, if_neg hparens.2]

theorem step_blank (hs : ∀ q ∈ s.quote, q = '"' ∨ q = '\'') (hc : Text.isBlank c = true) :
    s.step c = s := by
  have hplain := isPlain_of_isBlank hc
  simp only [isPlain, Bool.not_eq_true', Bool.or_eq_false_iff, beq_eq_false_iff_ne] at hplain
  exact step_eq_self hs ⟨hplain.1.1.1.1, hplain.1.1.1.2⟩ ⟨hplain.1.1.2, hplain.1.2⟩

theorem run_blanks (hs : ∀ q ∈ s.quote, q = '"' ∨ q = '\'')
    (h : ∀ c ∈ cs, Text.isBlank c = true) : s.run cs = s := by
  induction cs with
  | nil => rfl
  | cons c cs ih =>
    obtain ⟨hc, hcs⟩ := List.forall_mem_cons.1 h
    show (s.step c).run cs = s
    rw [step_blank hs hc, ih hcs]

theorem passes_blanks (h : ∀ c ∈ cs, Text.isBlank c = true) (s : Scan) : s.passes cs = true := by
  induction cs generalizing s with
  | nil => rfl
  | cons c cs ih =>
    obtain ⟨hc, hcs⟩ := List.forall_mem_cons.1 h
    have hcut : s.cuts c = false := by
      refine Bool.eq_false_iff.2 fun hcut => ?_
      rw [(eq_neutral_of_cuts hcut).2] at hc
      exact absurd hc (by decide)
    rw [passes, hcut, ih hcs]
    rfl

end Scan

/-- Where nothing is open a text can be cut at one more semicolon. -/
theorem piecesFrom_append_semicolon {s : Scan} {a : List Char} (h : s.run a = .neutral)
    (b : List Char) : piecesFrom s (a ++ ';' :: b) = piecesFrom s a ++ pieces b := by
  induction a generalizing s with
  | nil =>
    obtain rfl : s = .neutral := h
    rfl
  | cons c a ih =>
    rw [List.cons_append, piecesFrom, piecesFrom]
    split
    · next hcut =>
      obtain ⟨rfl, rfl⟩ := Scan.eq_neutral_of_cuts hcut
      have hrest : piecesFrom .neutral (a ++ ';' :: b) = piecesFrom .neutral a ++ pieces b := ih h
      rw [hrest]
      rfl
    · obtain ⟨piece, more, heq⟩ := List.exists_cons_of_ne_nil (piecesFrom_ne_nil (s.step c) a)
      rw [ih h, heq]
      rfl

/-- Blanks at the end belong to the last piece. -/
theorem exists_piecesFrom_append_blanks {trail : List Char}
    (htrail : ∀ c ∈ trail, Text.isBlank c = true) (s : Scan) (a : List Char) :
    ∃ front last, piecesFrom s a = front ++ [last] ∧
      piecesFrom s (a ++ trail) = front ++ [last ++ trail] := by
  induction a generalizing s with
  | nil => exact ⟨[], [], rfl, piecesFrom_of_passes (Scan.passes_blanks htrail s)⟩
  | cons c a ih =>
    rw [List.cons_append, piecesFrom, piecesFrom]
    split
    · obtain ⟨front, last, heq, heq'⟩ := ih s
      exact ⟨[] :: front, last, by rw [heq]; rfl, by rw [heq']; rfl⟩
    · obtain ⟨front, last, heq, heq'⟩ := ih (s.step c)
      rw [heq, heq']
      cases front with
      | nil => exact ⟨[], c :: last, rfl, rfl⟩
      | cons piece front => exact ⟨(c :: piece) :: front, last, rfl, rfl⟩

/-- A piece with a colon declares the value behind it, if there is a property before it. -/
theorem Declaration.map_pair_ofPiece?_colon {head : List Char} (hcolon : ':' ∉ head) (raw : List Char) :
    (ofPiece? 0 (head ++ ':' :: raw)).map pair = if propertyOf head = [] then none
      else some (String.ofList (propertyOf head), String.ofList (Text.trim raw)) := by
  obtain ⟨htake, hdrop⟩ := takeWhile_append_colon hcolon raw
  unfold ofPiece?
  rw [htake, hdrop]
  dsimp only
  rw [propertyOf]
  split
  · rfl
  · rfl

/-- Blanks behind a piece do not change what it declares. -/
theorem Declaration.map_pair_ofPiece?_append {trail : List Char}
    (htrail : ∀ c ∈ trail, Text.isBlank c = true) (piece : List Char) :
    (ofPiece? 0 (piece ++ trail)).map pair = (ofPiece? 0 piece).map pair := by
  have hcolon : ':' ∉ trail := fun hmem => absurd (htrail _ hmem) (by decide)
  by_cases hmem : ':' ∈ piece
  · obtain ⟨head, raw, rfl, hhead⟩ := List.eq_append_cons_of_mem hmem
    have hnil : ∀ c ∈ ([] : List Char), Text.isBlank c = true := List.forall_mem_nil _
    have hvalue : Text.trim (raw ++ trail) = Text.trim raw := Text.trim_append hnil htrail
    rw [List.append_assoc, List.cons_append, map_pair_ofPiece?_colon hhead,
      map_pair_ofPiece?_colon hhead, hvalue]
  · have hnone : ∀ {cs : List Char}, ':' ∉ cs → ofPiece? 0 cs = none := by
      intro cs hcs
      have hdrop : cs.dropWhile (· ≠ ':') = [] := List.dropWhile_eq_nil_iff.2 fun c hc =>
        decide_eq_true fun heq => hcs (heq ▸ hc)
      unfold ofPiece?
      rw [hdrop]
    rw [hnone hmem, hnone fun h => (List.mem_append.1 h).elim hmem hcolon]

/-- Blanks at the end of a style declare nothing. -/
theorem pairs_append_blanks {trail : List Char} (htrail : ∀ c ∈ trail, Text.isBlank c = true)
    (style : List Char) : pairs (style ++ trail) = pairs style := by
  obtain ⟨front, last, heq, heq'⟩ := exists_piecesFrom_append_blanks htrail .neutral style
  have hlast : pairsOf [last ++ trail] = pairsOf [last] := by
    rw [pairsOf, pairsOf, List.filterMap_cons, List.filterMap_cons,
      Declaration.map_pair_ofPiece?_append htrail]
  unfold pairs pieces
  rw [heq, heq', pairsOf_append, pairsOf_append, hlast]

/-- A style that closes what it opens, with another one behind a semicolon. -/
theorem pairs_append_semicolon {a : List Char} (h : Scan.neutral.run a = .neutral) (b : List Char) :
    pairs (a ++ ';' :: b) = pairs a ++ pairs b := by
  rw [pairs, pieces, piecesFrom_append_semicolon h, pairsOf_append]
  rfl

/-- A style with one more declaration: without the blanks at its end, and with a semicolon if there is
something else than a semicolon. -/
theorem toList_append (style property value : String) : (append style property value).toList =
    Text.trimEnd style.toList ++
      ((if Text.trimEnd style.toList = [] ∨ (Text.trimEnd style.toList).getLast? = some ';' then [] else [';']) ++
        (property.toList ++ ':' :: (value.toList ++ [';']))) := by
  simp only [append, String.toList_append, String.toList_ofList, List.append_assoc]
  split
  · rfl
  · rfl

/-- The blanks at the end neither open nor close anything. -/
theorem run_trimEnd {style : List Char} (h : Scan.neutral.run style = .neutral) :
    Scan.neutral.run (Text.trimEnd style) = .neutral := by
  obtain ⟨trail, htrail, hblank⟩ := Text.exists_dropEndWhile Text.isBlank style
  rw [← Text.trimEnd] at htrail
  have hsound := Scan.quote_run (s := .neutral) (by simp [Scan.neutral]) (Text.trimEnd style)
  rwa [htrail, Scan.run_append, Scan.run_blanks hsound hblank] at h

/-- **An appended declaration is declared last,** if nothing is open at the end of the style. -/
theorem pairs_append {style : String} (h : Scan.neutral.run style.toList = .neutral)
    (property value : String) : pairs (append style property value).toList =
      pairs style.toList ++ pairs (property.toList ++ ':' :: (value.toList ++ [';'])) := by
  have hkept := run_trimEnd h
  obtain ⟨trail, htrail, hblank⟩ := Text.exists_dropEndWhile Text.isBlank style.toList
  rw [← Text.trimEnd] at htrail
  have hpairs : pairs style.toList = pairs (Text.trimEnd style.toList) :=
    (congrArg pairs htrail).trans (pairs_append_blanks hblank _)
  rw [toList_append, hpairs]
  generalize Text.trimEnd style.toList = kept at hkept
  split
  · next hends =>
    rcases hends with rfl | hlast
    · rfl
    · -- The semicolon at the end cuts off an empty piece.
      obtain ⟨front, rfl⟩ : ∃ front, kept = front ++ [';'] := List.getLast?_eq_some_iff.1 hlast
      have hfront : Scan.neutral.run front = .neutral := by
        have hsound : ∀ q ∈ (Scan.neutral.run front).quote, q = '"' ∨ q = '\'' :=
          Scan.quote_run (by simp [Scan.neutral]) front
        rw [Scan.run_append] at hkept
        exact (Scan.step_eq_self (c := ';') hsound (by decide) (by decide)).symm.trans hkept
      rw [List.nil_append, List.append_assoc, List.singleton_append, pairs_append_semicolon hfront,
        pairs_append_semicolon hfront []]
      have hnone : pairs [] = [] := by decide
      rw [hnone, List.append_nil]
  · exact pairs_append_semicolon hkept _

/-! ## Another value for one declaration -/

/-- A piece in a style stands between pieces with their semicolons. -/
theorem joinWith_append_cons (ps qs : List (List Char)) (piece : List Char) :
    Text.joinWith [';'] (ps ++ piece :: qs) =
      ps.flatMap (· ++ [';']) ++ (piece ++ qs.flatMap (';' :: ·)) := by
  induction ps with
  | nil => exact Text.joinWith_cons [';'] piece qs
  | cons p ps ih =>
    obtain ⟨next, more, heq⟩ := List.exists_cons_of_ne_nil
      (List.append_ne_nil_of_right_ne_nil ps (List.cons_ne_nil piece qs))
    rw [List.cons_append, heq, Text.joinWith, ← heq, ih, List.flatMap_cons]
    · simp only [List.append_assoc]
    · exact List.cons_ne_nil _ _

theorem byteLength_flatMap_cons (piece : List Char) (ps : List (List Char)) :
    Text.byteLength ((piece :: ps).flatMap (· ++ [';'])) =
      Text.byteLength piece + 1 + Text.byteLength (ps.flatMap (· ++ [';'])) := by
  have hone : Text.byteLength [';'] = 1 := by decide
  rw [List.flatMap_cons, Text.byteLength_append, Text.byteLength_append, hone]

/-- Pieces are read one after the other, each where those before it end. -/
theorem declarationsFrom_append (offset : Nat) (ps qs : List (List Char)) :
    declarationsFrom offset (ps ++ qs) = declarationsFrom offset ps ++
      declarationsFrom (offset + Text.byteLength (ps.flatMap (· ++ [';']))) qs := by
  induction ps generalizing offset with
  | nil => rfl
  | cons piece ps ih =>
    rw [List.cons_append, declarationsFrom, declarationsFrom, ih, byteLength_flatMap_cons,
      List.append_assoc]
    simp only [Nat.add_assoc]

/-- A declaration stands in its piece, between the pieces of those before it and behind it. -/
theorem exists_split_of_declarationsFrom {ps : List (List Char)} {offset : Nat}
    {before after : List Declaration} {d : Declaration}
    (h : declarationsFrom offset ps = before ++ d :: after) :
    ∃ front piece back, ps = front ++ piece :: back ∧
      Declaration.ofPiece? (offset + Text.byteLength (front.flatMap (· ++ [';']))) piece = some d ∧
        declarationsFrom offset front = before ∧
          declarationsFrom (offset + Text.byteLength (front.flatMap (· ++ [';'])) +
            Text.byteLength piece + 1) back = after := by
  induction ps generalizing offset before with
  | nil => exact absurd h.symm (by simp [declarationsFrom])
  | cons piece ps ih =>
    rw [declarationsFrom] at h
    -- The piece is that of the declaration, or it stands before it.
    have hlater {before' : List Declaration}
        (hbefore : before = (Declaration.ofPiece? offset piece).toList ++ before')
        (hrest : declarationsFrom (offset + Text.byteLength piece + 1) ps = before' ++ d :: after) :
        ∃ front piece' back, piece :: ps = front ++ piece' :: back ∧
          Declaration.ofPiece? (offset + Text.byteLength (front.flatMap (· ++ [';']))) piece' = some d ∧
            declarationsFrom offset front = before ∧
              declarationsFrom (offset + Text.byteLength (front.flatMap (· ++ [';'])) +
                Text.byteLength piece' + 1) back = after := by
      obtain ⟨front, piece', back, rfl, hpiece, hfront, hback⟩ := ih hrest
      have hoffset : offset + Text.byteLength ((piece :: front).flatMap (· ++ [';'])) =
          offset + Text.byteLength piece + 1 + Text.byteLength (front.flatMap (· ++ [';'])) := by
        rw [byteLength_flatMap_cons]
        omega
      refine ⟨piece :: front, piece', back, rfl, ?_, ?_, ?_⟩
      · rw [hoffset, hpiece]
      · rw [declarationsFrom, hfront, hbefore]
      · rw [hoffset, hback]
    cases hpiece : Declaration.ofPiece? offset piece with
    | none =>
      rw [hpiece] at h
      exact hlater (by rw [hpiece]; rfl) h
    | some e =>
      rw [hpiece] at h
      cases before with
      | nil =>
        obtain ⟨rfl, hrest⟩ := List.cons.inj h
        exact ⟨[], piece, ps, rfl, hpiece, rfl, hrest⟩
      | cons b before =>
        obtain ⟨rfl, hrest⟩ := List.cons.inj h
        exact hlater (by rw [hpiece]; rfl) hrest

section

variable {style new : String} {front back : List (List Char)} {head lead trail value : List Char}
  {span : Span} {parts : List EditPart}

/-- A style in which the value of a piece is replaced is joined from its pieces with another one. -/
theorem flatMap_new_of_edit (hold : parts.flatMap EditPart.old = style.toList)
    (hpieces : pieces style.toList = front ++ (head ++ ':' :: (lead ++ (value ++ trail))) :: back)
    (hspan : span = ⟨0 + Text.byteLength (front.flatMap (· ++ [';'])) + Text.byteLength (head ++ ':' :: lead),
      0 + Text.byteLength (front.flatMap (· ++ [';'])) + Text.byteLength (head ++ ':' :: lead) +
        Text.byteLength value⟩)
    (hedits : EditPart.edits 0 parts = [Edit.replace span new]) :
    parts.flatMap EditPart.new = Text.joinWith [';']
      (front ++ (head ++ ':' :: (lead ++ (new.toList ++ trail))) :: back) := by
  -- The parts are the value and the texts before and behind it.
  let parts' : List EditPart := [.kept (front.flatMap (· ++ [';']) ++ (head ++ ':' :: lead)),
    .replaced value new, .kept (trail ++ back.flatMap (';' :: ·))]
  have hold' : parts'.flatMap EditPart.old = style.toList := by
    rw [← joinWith_pieces style.toList, hpieces, joinWith_append_cons]
    simp [parts', EditPart.old]
  have hedits' : EditPart.edits 0 parts' = [Edit.replace span new] := by
    simp only [parts', EditPart.edits, hspan, Text.byteLength_append, Nat.zero_add]
  rw [EditPart.flatMap_new_eq (hold.trans hold'.symm) (hedits.trans hedits'.symm),
    joinWith_append_cons]
  simp [parts', EditPart.new]

/-- It is cut into these pieces, if the other one can stand anywhere. -/
theorem pieces_joinWith_of_isClosed {piece piece' : List Char}
    (hpieces : pieces style.toList = front ++ piece :: back) (hclosed : IsClosed piece') :
    pieces (Text.joinWith [';'] (front ++ piece' :: back)) = front ++ piece' :: back := by
  have hsame {ps : List (List Char)} : List.Forall₂ (fun p p' => p' = p ∨ IsClosed p') ps ps :=
    List.forall₂_same.2 fun _ _ => .inl rfl
  have hwere := arePieces_piecesFrom .neutral style.toList
  rw [← pieces, hpieces] at hwere
  apply piecesFrom_joinWith
  exact .of_eq_or_isClosed rfl (List.rel_append hsame (.cons (.inr hclosed) hsame)) hwere

end

/-- **The value of the declaration that wins is replaced in its pair,** if the new value can stand
anywhere. -/
theorem exists_pairs_of_edit {style property new : String} {d : Declaration} {parts : List EditPart}
    (hlast : lastOf? (declarations style) property = some d)
    (hold : parts.flatMap EditPart.old = style.toList)
    (hedits : EditPart.edits 0 parts = [Edit.replace d.valueSpan new])
    (hclosed : IsClosed new.toList) (hplain : ∀ c ∈ property.toList, isPlain c = true) :
    ∃ before after, (∀ e ∈ after, e.1 ≠ property) ∧
      pairs style.toList = before ++ (property, d.value) :: after ∧
        pairs (parts.flatMap EditPart.new) = before ++ (property, Text.trimString new) :: after := by
  obtain ⟨hd, later, earlier, heq, hlater⟩ := List.find?_eq_some_iff_append.1 hlast
  obtain rfl : d.property = property := beq_iff_eq.1 hd
  have hds : declarations style = earlier.reverse ++ d :: later.reverse := by
    rw [← List.reverse_reverse (declarations style), heq]
    simp
  obtain ⟨front, piece, back, hpieces, hpiece, hfront, hback⟩ := exists_split_of_declarationsFrom hds
  obtain ⟨head, lead, trail, rfl, hcolon, hlead, htrail, hproperty, hne, hspan⟩ :=
    Declaration.exists_of_ofPiece? hpiece
  have hname : d.property.toList = propertyOf head := by rw [hproperty, String.toList_ofList]
  have hcut : pieces (parts.flatMap EditPart.new) =
      front ++ (head ++ ':' :: (lead ++ (new.toList ++ trail))) :: back := by
    rw [flatMap_new_of_edit hold hpieces hspan hedits]
    exact pieces_joinWith_of_isClosed hpieces
      (isClosed_of_propertyOf (hname ▸ hplain) hlead htrail hclosed)
  obtain ⟨span, hread⟩ := Declaration.exists_ofPiece?_append 0 new.toList hcolon hne hlead htrail
  refine ⟨earlier.reverse.map Declaration.pair, later.reverse.map Declaration.pair, ?_, ?_, ?_⟩
  · intro e he
    obtain ⟨d', hd', rfl⟩ := List.mem_map.1 he
    have hother := hlater d' (List.mem_reverse.1 hd')
    simp only [Bool.not_eq_true', beq_eq_false_iff_ne] at hother
    exact hother
  · rw [← map_pair_declarations, hds, List.map_append, List.map_cons]
    rfl
  · rw [pairs, hcut, pairsOf_append, pairsOf_cons 0, ← map_pair_declarationsFrom 0 front, hfront,
      ← map_pair_declarationsFrom _ back, hback, hread, hproperty]
    rfl

end Css

end MailTemplate
