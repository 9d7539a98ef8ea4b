import Mathlib.Data.List.Forall2
import MailTemplate.Proofs.EditParts
import MailTemplate.Proofs.StyleSpans

/-!
# Other values in a style

A style text is cut at the semicolons outside quotes and parentheses, so a value can be replaced without
moving any cut if the new value has no such semicolon and closes what it opens, and if nothing before the
value opens anything.  Then the declarations stay one after the other, each with its old value or its new
one.

## Main definitions

* `Css.Scan.run`, `Css.Scan.passes` — a scan over a text, and whether it ends no piece there.
* `Css.IsClosed` — a text that can stand as a value anywhere.
* `Css.ArePieces` — texts that are the pieces of a style.
* `Css.Revalues` — a piece with the value that it is to have.

## Main results

* `Css.piecesFrom_joinWith` — pieces with semicolons between them are cut into these pieces.
* `Css.exists_revalues` — what the edits of values make of a style.
* `Css.pieces_of_revalues`, `Css.declarationsFrom_of_revalues` — how the new style is read.
-/

namespace MailTemplate

namespace Css

/-! ## Scanning over texts -/

namespace Scan

/-- The state behind a text. -/
def run (s : Scan) (cs : List Char) : Scan := cs.foldl step s

/-- Whether no character of a text ends a piece. -/
def passes (s : Scan) : List Char → Bool
  | [] => true
  | c :: cs => !s.cuts c && (s.step c).passes cs

variable {s : Scan} {a b cs : List Char}

theorem run_append (s : Scan) (a b : List Char) : s.run (a ++ b) = (s.run a).run b := List.foldl_append

theorem passes_append (s : Scan) (a b : List Char) :
    s.passes (a ++ b) = (s.passes a && (s.run a).passes b) := by
  induction a generalizing s with
  | nil => rfl
  | cons c a ih =>
    rw [List.cons_append, passes, passes, ih, Bool.and_assoc]
    rfl

/-- A scan cuts only where nothing is open. -/
theorem eq_neutral_of_cuts {c : Char} (h : s.cuts c = true) : s = neutral ∧ c = ';' := by
  rw [cuts, Bool.and_eq_true, beq_iff_eq, beq_iff_eq] at h
  exact h

end Scan

/-- A character that opens nothing, closes nothing and ends no piece. -/
def isPlain (c : Char) : Bool := !(c == '"' || c == '\'' || c == '(' || c == ')' || c == ';')

/-- A text that can stand as a value: it has no semicolon outside quotes and parentheses, and it closes what
it opens. -/
def IsClosed (text : List Char) : Prop :=
  Scan.neutral.passes text = true ∧ Scan.neutral.run text = .neutral

instance (text : List Char) : Decidable (IsClosed text) :=
  inferInstanceAs (Decidable (Scan.neutral.passes text = true ∧ Scan.neutral.run text = .neutral))

theorem IsClosed.append {a b : List Char} (ha : IsClosed a) (hb : IsClosed b) : IsClosed (a ++ b) := by
  refine ⟨?_, ?_⟩
  · rw [Scan.passes_append, ha.1, ha.2, hb.1]
    rfl
  · rw [Scan.run_append, ha.2, hb.2]

theorem isClosed_of_isPlain {cs : List Char} (h : ∀ c ∈ cs, isPlain c = true) : IsClosed cs := by
  induction cs with
  | nil => exact ⟨rfl, rfl⟩
  | cons c cs ih =>
    obtain ⟨hc, hcs⟩ := List.forall_mem_cons.1 h
    have hstep : Scan.neutral.step c = .neutral ∧ Scan.neutral.cuts c = false := by
      simp only [isPlain, Bool.not_eq_true', Bool.or_eq_false_iff, beq_eq_false_iff_ne] at hc
      simp [Scan.step, Scan.cuts, Scan.neutral, hc]
    obtain ⟨hpasses, hrun⟩ := ih hcs
    refine ⟨?_, ?_⟩
    · rw [Scan.passes, hstep.1, hstep.2, hpasses]
      rfl
    · rw [Scan.run, List.foldl_cons, hstep.1]
      exact hrun

theorem isPlain_of_isBlank {c : Char} (h : Text.isBlank c = true) : isPlain c = true := by
  by_contra hnot
  simp only [isPlain, Bool.not_eq_true', Bool.not_eq_false, Bool.or_eq_true, beq_iff_eq] at hnot
  rcases hnot with (((rfl | rfl) | rfl) | rfl) | rfl <;> exact absurd h (by decide)

/-- Lower case is plain only where the text is. -/
theorem isPlain_of_toLower {c : Char} (h : isPlain c.toLower = true) : isPlain c = true := by
  by_contra hnot
  simp only [isPlain, Bool.not_eq_true', Bool.not_eq_false, Bool.or_eq_true, beq_iff_eq] at hnot
  rcases hnot with (((rfl | rfl) | rfl) | rfl) | rfl <;> exact absurd h (by decide)

/-! ## Pieces -/

/-- Texts are cut into by a scan: none has a cut inside, and all but the last close what is open. -/
def ArePieces (s : Scan) : List (List Char) → Prop
  | [] => False
  | [piece] => s.passes piece = true
  | piece :: next :: more =>
    (s.passes piece = true ∧ s.run piece = .neutral) ∧ ArePieces .neutral (next :: more)

theorem arePieces_piecesFrom (s : Scan) (cs : List Char) : ArePieces s (piecesFrom s cs) := by
  induction cs generalizing s with
  | nil => exact (rfl : s.passes [] = true)
  | cons c cs ih =>
    rw [piecesFrom]
    split
    · next hcuts =>
      obtain ⟨rfl, -⟩ := Scan.eq_neutral_of_cuts hcuts
      obtain ⟨next, more, heq⟩ := List.exists_cons_of_ne_nil (piecesFrom_ne_nil .neutral cs)
      have hrest := ih .neutral
      rw [heq] at hrest ⊢
      exact ⟨⟨rfl, rfl⟩, hrest⟩
    · next hcuts =>
      obtain ⟨piece, more, heq⟩ := List.exists_cons_of_ne_nil (piecesFrom_ne_nil (s.step c) cs)
      have hrest := ih (s.step c)
      rw [heq] at hrest ⊢
      -- The character goes to the front of the first piece.
      have hpasses : s.passes (c :: piece) = (s.step c).passes piece := by
        rw [Scan.passes, Bool.eq_false_iff.2 hcuts]
        rfl
      cases more with
      | nil => exact hpasses.trans hrest
      | cons next more => exact ⟨⟨hpasses.trans hrest.1.1, hrest.1.2⟩, hrest.2⟩

theorem piecesFrom_of_passes {s : Scan} {cs : List Char} (h : s.passes cs = true) : piecesFrom s cs = [cs] := by
  induction cs generalizing s with
  | nil => rfl
  | cons c cs ih =>
    rw [Scan.passes, Bool.and_eq_true, Bool.not_eq_true'] at h
    rw [piecesFrom, h.1, ih h.2]
    rfl

theorem piecesFrom_append_cut {s : Scan} {piece : List Char} (h : s.passes piece = true)
    (hrun : s.run piece = .neutral) (rest : List Char) :
    piecesFrom s (piece ++ ';' :: rest) = piece :: pieces rest := by
  induction piece generalizing s with
  | nil =>
    obtain rfl : s = .neutral := hrun
    rfl
  | cons c piece ih =>
    rw [Scan.passes, Bool.and_eq_true, Bool.not_eq_true'] at h
    rw [List.cons_append, piecesFrom, h.1, ih h.2 hrun]
    rfl

/-- **Pieces with semicolons between them** are cut into these pieces. -/
theorem piecesFrom_joinWith {s : Scan} {ps : List (List Char)} (h : ArePieces s ps) :
    piecesFrom s (Text.joinWith [';'] ps) = ps := by
  induction ps generalizing s with
  | nil => exact absurd h id
  | cons piece more ih =>
    cases more with
    | nil => exact piecesFrom_of_passes h
    | cons next more =>
      obtain ⟨⟨hpasses, hrun⟩, hmore⟩ := h
      rw [Text.joinWith, List.append_assoc, List.singleton_append, piecesFrom_append_cut hpasses hrun, pieces,
        ih hmore]
      exact List.cons_ne_nil _ _

/-! ## Declarations -/

section Declarations

variable {new? : String → String → Option String} {head lead value trail piece : List Char} {offset : Nat}
  {ps ps' : List (List Char)}

theorem takeWhile_append_colon (hcolon : ':' ∉ head) (raw : List Char) :
    (head ++ ':' :: raw).takeWhile (· ≠ ':') = head ∧
      (head ++ ':' :: raw).dropWhile (· ≠ ':') = ':' :: raw := by
  have hhead : ∀ c ∈ head, decide (c ≠ ':') = true := fun c hc =>
    decide_eq_true fun heq => hcolon (heq ▸ hc)
  refine ⟨?_, ?_⟩
  · rw [List.takeWhile_append_of_pos hhead, List.takeWhile_cons_of_neg (by simp), List.append_nil]
  · rw [List.dropWhile_append_of_pos hhead, List.dropWhile_cons_of_neg (by simp)]

/-- A piece with a property, a colon and a value with blanks around it is a declaration. -/
theorem Declaration.exists_ofPiece?_append (offset : Nat) (value : List Char) (hcolon : ':' ∉ head)
    (hproperty : propertyOf head ≠ [])
    (hlead : ∀ c ∈ lead, Text.isBlank c = true) (htrail : ∀ c ∈ trail, Text.isBlank c = true) :
    ∃ span, Declaration.ofPiece? offset (head ++ ':' :: (lead ++ (value ++ trail))) =
      some ⟨String.ofList (propertyOf head), String.ofList (Text.trim value), span⟩ := by
  obtain ⟨htake, hdrop⟩ := takeWhile_append_colon hcolon (lead ++ (value ++ trail))
  unfold Declaration.ofPiece?
  rw [htake, hdrop]
  dsimp only
  rw [if_neg (show ¬ Text.lower (Text.trim head) = [] from hproperty), Text.trim_append hlead htrail]
  exact ⟨_, rfl⟩

/-- A piece with the value that it is to have, which depends on its property and its value: either it is to
stay, or it is a declaration and its value gives way to a new one. -/
inductive Revalues (new? : String → String → Option String) : List Char → List Char → Prop
  /-- The piece stays. -/
  | kept {piece : List Char}
    (h : ∀ d, Declaration.ofPiece? 0 piece = some d → new? d.property d.value = none) :
    Revalues new? piece piece
  /-- The value gives way. -/
  | changed {head lead value trail : List Char} {new : String} (hcolon : ':' ∉ head)
    (hproperty : propertyOf head ≠ []) (hlead : ∀ c ∈ lead, Text.isBlank c = true)
    (htrail : ∀ c ∈ trail, Text.isBlank c = true)
    (hnew : new? (String.ofList (propertyOf head)) (String.ofList (Text.trim value)) = some new) :
    Revalues new? (head ++ ':' :: (lead ++ (value ++ trail))) (head ++ ':' :: (lead ++ (new.toList ++ trail)))

/-- The edit for the value of a declaration. -/
def Declaration.edit? (new? : String → String → Option String) (d : Declaration) : Option Edit :=
  (new? d.property d.value).map (Edit.replace d.valueSpan)

/-- Where a piece stands does not matter for its property and its value. -/
theorem Declaration.exists_ofPiece?_at {d : Declaration} (h : Declaration.ofPiece? offset piece = some d)
    (offset' : Nat) : ∃ span, Declaration.ofPiece? offset' piece = some ⟨d.property, d.value, span⟩ := by
  unfold Declaration.ofPiece? at h ⊢
  dsimp only at h ⊢
  split at h
  · exact absurd h (by simp)
  split at h
  · exact absurd h (by simp)
  next hproperty =>
  obtain rfl := Option.some.inj h
  rw [if_neg hproperty]
  exact ⟨_, rfl⟩

/-- A piece with the edit for its value. -/
theorem exists_revalues_piece (new? : String → String → Option String) (offset : Nat) (piece : List Char) :
    ∃ parts piece', parts.flatMap EditPart.old = piece ∧ parts.flatMap EditPart.new = piece' ∧
      EditPart.edits offset parts =
        (Declaration.ofPiece? offset piece).toList.filterMap (Declaration.edit? new?) ∧
      Revalues new? piece piece' := by
  cases hpiece : Declaration.ofPiece? offset piece with
  | none =>
    refine ⟨[.kept piece], piece, by simp [EditPart.old], by simp [EditPart.new], rfl, .kept fun d hd => ?_⟩
    obtain ⟨span, hspan⟩ := Declaration.exists_ofPiece?_at hd offset
    exact absurd (hpiece.symm.trans hspan) (by simp)
  | some d =>
    cases hnew : new? d.property d.value with
    | none =>
      refine ⟨[.kept piece], piece, by simp [EditPart.old], by simp [EditPart.new], ?_, .kept fun e he => ?_⟩
      · simp [Declaration.edit?, hnew, EditPart.edits]
      · obtain ⟨span, hspan⟩ := Declaration.exists_ofPiece?_at he offset
        obtain rfl := Option.some.inj (hpiece.symm.trans hspan)
        exact hnew
    | some new =>
      -- The value stands between blanks behind the colon, and only the value is replaced.
      obtain ⟨head, lead, trail, rfl, hcolon, hlead, htrail, hname, hproperty, hvalue⟩ :=
        Declaration.exists_of_ofPiece? hpiece
      obtain ⟨span, hspan⟩ :=
        Declaration.exists_ofPiece?_append offset d.value.toList hcolon hproperty hlead htrail
      have hd : d.value = String.ofList (Text.trim d.value.toList) :=
        congrArg Declaration.value (Option.some.inj (hpiece.symm.trans hspan))
      refine ⟨[.kept (head ++ ':' :: lead), .replaced d.value.toList new, .kept trail], _,
        by simp [EditPart.old], rfl, ?_, ?_⟩
      · simp [Declaration.edit?, hnew, EditPart.edits, hvalue]
      · have hchanged : Revalues new? (head ++ ':' :: (lead ++ (d.value.toList ++ trail)))
            (head ++ ':' :: (lead ++ (new.toList ++ trail))) := by
          refine .changed hcolon hproperty hlead htrail ?_
          rw [← hname, ← hd, hnew]
        simpa [EditPart.new] using hchanged

/-- **The edits of values** make a style of which each piece has the value that it is to have. -/
theorem exists_revalues_from (new? : String → String → Option String) (offset : Nat)
    (ps : List (List Char)) :
    ∃ parts ps', parts.flatMap EditPart.old = Text.joinWith [';'] ps ∧
      parts.flatMap EditPart.new = Text.joinWith [';'] ps' ∧
      EditPart.edits offset parts = (declarationsFrom offset ps).filterMap (Declaration.edit? new?) ∧
      List.Forall₂ (Revalues new?) ps ps' := by
  induction ps generalizing offset with
  | nil => exact ⟨[], [], rfl, rfl, rfl, .nil⟩
  | cons piece more ih =>
    obtain ⟨first, piece', hfirstOld, hfirstNew, hfirstEdits, hfirst⟩ := exists_revalues_piece new? offset piece
    obtain ⟨parts, more', hold, hnew, hedits, hmore⟩ := ih (offset + Text.byteLength piece + 1)
    rw [declarationsFrom, List.filterMap_append, ← hfirstEdits, ← hedits]
    cases hmore with
    | nil =>
      have hnone : EditPart.edits (offset + Text.byteLength piece + 1) parts = [] := hedits
      refine ⟨first, [piece'], hfirstOld, hfirstNew, ?_, .cons hfirst .nil⟩
      rw [hnone, List.append_nil]
    | cons hnext hmore =>
      -- A semicolon stands between the piece and the next one.
      have hone : Text.byteLength [';'] = 1 := by decide
      refine ⟨first ++ (.kept [';'] :: parts), _, ?_, ?_, ?_, .cons hfirst (.cons hnext hmore)⟩
      · rw [List.flatMap_append, List.flatMap_cons, hfirstOld, hold]
        simp [EditPart.old, Text.joinWith]
      · rw [List.flatMap_append, List.flatMap_cons, hfirstNew, hnew]
        simp [EditPart.new, Text.joinWith]
      · rw [EditPart.edits_append, hfirstOld, EditPart.edits, hone]

theorem exists_revalues (new? : String → String → Option String) (style : String) :
    ∃ parts ps', parts.flatMap EditPart.old = style.toList ∧
      parts.flatMap EditPart.new = Text.joinWith [';'] ps' ∧
      EditPart.edits 0 parts = (declarations style).filterMap (Declaration.edit? new?) ∧
      List.Forall₂ (Revalues new?) (pieces style.toList) ps' := by
  obtain ⟨parts, ps', hold, hrest⟩ := exists_revalues_from new? 0 (pieces style.toList)
  exact ⟨parts, ps', hold.trans (joinWith_pieces _), hrest⟩

/-! ## Reading the new style -/

/-- New values that can stand anywhere, behind properties that open nothing. -/
def AreClosed (new? : String → String → Option String) : Prop :=
  ∀ property value new, new? property value = some new →
    IsClosed new.toList ∧ ∀ c ∈ property.toList, isPlain c = true

/-- What stands before a colon is the property and blanks. -/
theorem isBlank_or_mem_propertyOf {c : Char} (hc : c ∈ head) :
    Text.isBlank c = true ∨ c.toLower ∈ propertyOf head := by
  obtain ⟨lead, trail, heq, hlead, htrail⟩ := Text.exists_trim head
  rw [heq, List.mem_append, List.mem_append] at hc
  rcases hc with hc | hc | hc
  · exact .inl (hlead c hc)
  · exact .inr (List.mem_map_of_mem hc)
  · exact .inl (htrail c hc)

theorem isPlain_of_propertyOf (h : ∀ c ∈ propertyOf head, isPlain c = true) : ∀ c ∈ head, isPlain c = true :=
  fun _ hc => (isBlank_or_mem_propertyOf hc).elim isPlain_of_isBlank fun hmem => isPlain_of_toLower (h _ hmem)

/-- A piece with another value opens nothing and has no cut. -/
theorem isClosed_piece {new : List Char} (hhead : ∀ c ∈ head, isPlain c = true)
    (hlead : ∀ c ∈ lead, Text.isBlank c = true) (htrail : ∀ c ∈ trail, Text.isBlank c = true)
    (hnew : IsClosed new) : IsClosed (head ++ ':' :: (lead ++ (new ++ trail))) := by
  have hcolon : IsClosed [':'] := by decide
  have hblanks : ∀ {cs : List Char}, (∀ c ∈ cs, Text.isBlank c = true) → IsClosed cs := fun h =>
    isClosed_of_isPlain fun c hc => isPlain_of_isBlank (h c hc)
  exact (isClosed_of_isPlain hhead).append
    (hcolon.append ((hblanks hlead).append (hnew.append (hblanks htrail))))

theorem isClosed_of_propertyOf {new : List Char} (hproperty : ∀ c ∈ propertyOf head, isPlain c = true)
    (hlead : ∀ c ∈ lead, Text.isBlank c = true) (htrail : ∀ c ∈ trail, Text.isBlank c = true)
    (hnew : IsClosed new) : IsClosed (head ++ ':' :: (lead ++ (new ++ trail))) :=
  isClosed_piece (isPlain_of_propertyOf hproperty) hlead htrail hnew

/-- A new value leaves nothing open and brings no cut. -/
theorem Revalues.eq_or_isClosed (hclosed : AreClosed new?) {piece' : List Char} (h : Revalues new? piece piece') :
    piece' = piece ∨ IsClosed piece' := by
  cases h with
  | kept => exact .inl rfl
  | changed _ _ hlead htrail hnew =>
    obtain ⟨hvalue, hplain⟩ := hclosed _ _ _ hnew
    rw [String.toList_ofList] at hplain
    exact .inr (isClosed_of_propertyOf hplain hlead htrail hvalue)

/-- **Pieces stay pieces** if some of them give way to others that can stand anywhere. -/
theorem ArePieces.of_eq_or_isClosed {s : Scan} (hs : s = .neutral)
    (h : List.Forall₂ (fun p p' => p' = p ∨ IsClosed p') ps ps') (hps : ArePieces s ps) : ArePieces s ps' := by
  subst hs
  -- A piece that gives way ends no piece and leaves nothing open, whatever the old one left.
  have hpasses : ∀ {p p' : List Char}, p' = p ∨ IsClosed p' → Scan.neutral.passes p = true →
      Scan.neutral.passes p' = true := fun h hp => h.elim (fun heq => heq ▸ hp) fun h => h.1
  induction h with
  | nil => exact hps
  | cons hfirst hmore ih =>
    cases hmore with
    | nil => exact hpasses hfirst hps
    | cons =>
      obtain ⟨⟨hold, hrun⟩, hrest⟩ := hps
      exact ⟨⟨hpasses hfirst hold, hfirst.elim (fun heq => heq ▸ hrun) fun h => h.2⟩, ih hrest⟩

/-- **The new style is cut where the old one was.** -/
theorem pieces_of_revalues (hclosed : AreClosed new?) {style : List Char}
    (h : List.Forall₂ (Revalues new?) (pieces style) ps') : pieces (Text.joinWith [';'] ps') = ps' :=
  piecesFrom_joinWith (.of_eq_or_isClosed rfl (h.imp fun _ _ h => h.eq_or_isClosed hclosed)
    (arePieces_piecesFrom _ _))

/-- A declaration that keeps its property, and its value or else has a new one. -/
def Declaration.Becomes (new? : String → String → Option String) (d d' : Declaration) : Prop :=
  d'.property = d.property ∧
    d'.value = ((new? d.property d.value).map Text.trimString).getD d.value

/-- A piece stays a declaration, or none. -/
theorem Revalues.rel_ofPiece? {piece' : List Char} (h : Revalues new? piece piece') (offset offset' : Nat) :
    List.Forall₂ (Declaration.Becomes new?) (Declaration.ofPiece? offset piece).toList
      (Declaration.ofPiece? offset' piece').toList := by
  cases h with
  | kept hkept =>
    cases hpiece : Declaration.ofPiece? offset piece with
    | none =>
      cases hpiece' : Declaration.ofPiece? offset' piece with
      | none => exact .nil
      | some d =>
        obtain ⟨span, hspan⟩ := Declaration.exists_ofPiece?_at hpiece' offset
        exact absurd (hpiece.symm.trans hspan) (by simp)
    | some d =>
      -- That the piece stays is said of it at the front, so it is read there first.
      obtain ⟨span, hspan⟩ := Declaration.exists_ofPiece?_at hpiece 0
      obtain ⟨span', hspan'⟩ := Declaration.exists_ofPiece?_at hpiece offset'
      have hnone : new? d.property d.value = none := hkept ⟨d.property, d.value, span⟩ hspan
      rw [hspan']
      refine .cons ⟨rfl, ?_⟩ .nil
      rw [hnone]
      rfl
  | @changed head lead value trail new hcolon hproperty hlead htrail hnew =>
    obtain ⟨span, hspan⟩ := Declaration.exists_ofPiece?_append offset value hcolon hproperty hlead htrail
    obtain ⟨span', hspan'⟩ :=
      Declaration.exists_ofPiece?_append offset' new.toList hcolon hproperty hlead htrail
    rw [hspan, hspan']
    refine .cons ⟨rfl, ?_⟩ .nil
    dsimp only
    rw [hnew]
    rfl

/-- **The declarations stay one after the other,** each with the value that it is to have. -/
theorem declarationsFrom_of_revalues (h : List.Forall₂ (Revalues new?) ps ps') (offset offset' : Nat) :
    List.Forall₂ (Declaration.Becomes new?) (declarationsFrom offset ps) (declarationsFrom offset' ps') := by
  induction h generalizing offset offset' with
  | nil => exact .nil
  | cons hfirst _ ih => exact List.rel_append (hfirst.rel_ofPiece? _ _) (ih _ _)

/-- **The new style has the declarations of the old one,** each with the value that it is to have. -/
theorem declarations_of_revalues (hclosed : AreClosed new?) {style : String}
    (h : List.Forall₂ (Revalues new?) (pieces style.toList) ps') :
    List.Forall₂ (Declaration.Becomes new?) (declarations style)
      (declarations (String.ofList (Text.joinWith [';'] ps'))) := by
  rw [declarations, declarations, String.toList_ofList, pieces_of_revalues hclosed h]
  exact declarationsFrom_of_revalues h 0 0

end Declarations

end Css

end MailTemplate
