import MailTemplate.Proofs.EditPlaces
import MailTemplate.Proofs.StylePairs

/-!
# One value of a style

The spans of the values of a style stand in order, lie between characters and hold the values.  So a value
can be replaced in its span, and the style is read as before but for this value, if the new value can stand
anywhere and the property opens nothing: a declaration begins outside quotes and parentheses, hence nothing
is open in front of the value either, and the cut behind it stays where it was.  What other declarations
leave open does not matter, not even at the end of the style.

The declarations that follow move with the text.  An empty value stands where the blanks behind the colon
end, so the declaration whose value becomes empty may move its span over the blanks behind it.

## Main definitions

* `Css.IsMark` — a quote or a parenthesis.
* `Css.Declaration.moved` — a declaration that follows a text of another length.

## Main results

* `Css.Declaration.ofPiece?_add` — a declaration moves with its piece.
* `Css.declarations_of_edit` — what a style declares with another value for one declaration.
* `Css.values_stand_and_replace` — where values stand, and that each can be replaced.
-/

namespace MailTemplate

namespace Css

/-! ## Properties that open nothing -/

/-- The characters that change the state of a scan. -/
def IsMark (c : Char) : Prop := c = '"' ∨ c = '\'' ∨ c = '(' ∨ c = ')'

instance (c : Char) : Decidable (IsMark c) := inferInstanceAs (Decidable (_ ∨ _))

theorem not_isMark_of_isPlain {c : Char} (h : isPlain c = true) : ¬ IsMark c := by
  rintro (rfl | rfl | rfl | rfl) <;> exact absurd h (by decide)

theorem not_isMark_of_toLower {c : Char} (h : ¬ IsMark c.toLower) : ¬ IsMark c := by
  rintro (rfl | rfl | rfl | rfl) <;> exact h (by decide)

/-- Where nothing is opened, only a semicolon can end a piece, and it does. -/
theorem isPlain_of_passes {cs rest : List Char} (h : Scan.neutral.passes (cs ++ rest) = true)
    (hmarks : ∀ c ∈ cs, ¬ IsMark c) : ∀ c ∈ cs, isPlain c = true := by
  induction cs with
  | nil => exact List.forall_mem_nil _
  | cons c cs ih =>
    obtain ⟨hc, hcs⟩ := List.forall_mem_cons.1 hmarks
    simp only [IsMark, not_or] at hc
    rw [List.cons_append, Scan.passes, Bool.and_eq_true, Bool.not_eq_true',
      Scan.step_eq_self (by simp [Scan.neutral]) ⟨hc.1, hc.2.1⟩ hc.2.2] at h
    have hsemicolon : c ≠ ';' := by
      rintro rfl
      exact absurd h.1 (by decide)
    refine List.forall_mem_cons.2 ⟨?_, ih h.2 hcs⟩
    simp [isPlain, hc, hsemicolon]

theorem ArePieces.passes {ps : List (List Char)} (h : ArePieces .neutral ps) :
    ∀ piece ∈ ps, Scan.neutral.passes piece = true := by
  induction ps with
  | nil => exact List.forall_mem_nil _
  | cons piece more ih =>
    cases more with
    | nil => exact List.forall_mem_singleton.2 h
    | cons next more => exact List.forall_mem_cons.2 ⟨h.1.1, ih h.2⟩

/-- Before the colon of a piece stands nothing that a scan reacts to, if the property has no quotes and
parentheses. -/
theorem isPlain_of_mem_pieces {style head rest : List Char} (hpiece : head ++ rest ∈ pieces style)
    (hmarks : ∀ c ∈ propertyOf head, ¬ IsMark c) : ∀ c ∈ head, isPlain c = true := by
  refine isPlain_of_passes ((arePieces_piecesFrom _ _).passes _ hpiece) fun c hc => ?_
  rcases isBlank_or_mem_propertyOf hc with hblank | hmem
  · exact not_isMark_of_isPlain (isPlain_of_isBlank hblank)
  · exact not_isMark_of_toLower (hmarks _ hmem)

/-! ## Declarations that move -/

/-- A declaration further on. -/
def Declaration.shift (d : Declaration) (k : Nat) : Declaration :=
  { d with valueSpan := d.valueSpan.shift k }

/-- A declaration that follows a text of another length: the new one in place of the old one. -/
def Declaration.moved (old new : String) (d : Declaration) : Declaration :=
  let place (offset : Nat) := offset - Text.byteLength old.toList + Text.byteLength new.toList
  { d with valueSpan := ⟨place d.valueSpan.start, place d.valueSpan.stop⟩ }

theorem Declaration.moved_shift {d : Declaration} {old new : String} {k k' : Nat}
    (hold : Text.byteLength old.toList ≤ k)
    (hnew : k' + Text.byteLength old.toList = k + Text.byteLength new.toList) :
    (d.shift k).moved old new = d.shift k' := by
  simp only [shift, moved, Span.shift]
  congr 2 <;> omega

/-- **A declaration moves with its piece.** -/
theorem Declaration.ofPiece?_add (offset k : Nat) (piece : List Char) :
    ofPiece? (offset + k) piece = (ofPiece? offset piece).map (shift · k) := by
  unfold ofPiece?
  dsimp only
  split
  · rfl
  · split
    · rfl
    · simp only [Option.map_some, shift, Span.shift]
      congr 3 <;> omega

theorem declarationsFrom_add (offset k : Nat) (ps : List (List Char)) :
    declarationsFrom (offset + k) ps = (declarationsFrom offset ps).map (Declaration.shift · k) := by
  induction ps generalizing offset with
  | nil => rfl
  | cons piece ps ih =>
    have hnext : offset + k + Text.byteLength piece + 1 = offset + Text.byteLength piece + 1 + k := by omega
    rw [declarationsFrom, declarationsFrom, List.map_append, hnext, ih, Declaration.ofPiece?_add]
    cases Declaration.ofPiece? offset piece with
    | none => rfl
    | some d => rfl

/-! ## The value of a piece -/

/-- A value has no blanks around it. -/
theorem Declaration.trimString_value {offset : Nat} {piece : List Char} {d : Declaration}
    (h : ofPiece? offset piece = some d) : Text.trimString d.value = d.value := by
  unfold ofPiece? at h
  dsimp only at h
  split at h
  · exact absurd h (by simp)
  · split at h
    · exact absurd h (by simp)
    · obtain rfl := Option.some.inj h
      rw [Text.trimString, String.toList_ofList, Text.trim_trim]

theorem trimString_value_of_mem {style : String} {d : Declaration} (h : d ∈ declarations style) :
    Text.trimString d.value = d.value := by
  obtain ⟨before, after, hds⟩ := List.append_of_mem h
  obtain ⟨_, _, _, -, hpiece, -⟩ := exists_split_of_declarationsFrom hds
  exact Declaration.trimString_value hpiece

section

variable {head lead trail value : List Char}

/-- A value that is not empty stands behind the blanks that follow the colon. -/
theorem Declaration.ofPiece?_append (offset : Nat) (hcolon : ':' ∉ head) (hproperty : propertyOf head ≠ [])
    (hlead : ∀ c ∈ lead, Text.isBlank c = true) (htrail : ∀ c ∈ trail, Text.isBlank c = true)
    (hvalue : Text.trim value = value) (hne : value ≠ []) :
    ofPiece? offset (head ++ ':' :: (lead ++ (value ++ trail))) =
      some ⟨String.ofList (propertyOf head), String.ofList value,
        ⟨offset + Text.byteLength (head ++ ':' :: lead),
          offset + Text.byteLength (head ++ ':' :: lead) + Text.byteLength value⟩⟩ := by
  have hfirst : (value ++ trail).takeWhile Text.isBlank = [] := by
    obtain ⟨c, cs, rfl⟩ := List.exists_cons_of_ne_nil hne
    have hc : Text.isBlank c = false := Text.isBlank_of_mem_head?_trim c (by rw [hvalue]; rfl)
    rw [List.cons_append, List.takeWhile_cons_of_neg (by rw [hc]; exact Bool.false_ne_true)]
  have hblanks : (lead ++ (value ++ trail)).takeWhile Text.isBlank = lead := by
    rw [List.takeWhile_append_of_pos hlead, hfirst, List.append_nil]
  have hone : ':'.utf8Size = 1 := by decide
  obtain ⟨htake, hdrop⟩ := takeWhile_append_colon hcolon (lead ++ (value ++ trail))
  unfold ofPiece?
  rw [htake, hdrop]
  dsimp only
  rw [if_neg (show ¬ Text.lower (Text.trim head) = [] from hproperty), Text.trim_append hlead htrail,
    hvalue, hblanks, Text.byteLength_append, Text.byteLength_cons, hone, propertyOf]
  simp only [Nat.add_assoc]

/-- An empty value stands where the blanks end. -/
theorem Declaration.exists_ofPiece?_of_trim (offset : Nat) (hcolon : ':' ∉ head)
    (hproperty : propertyOf head ≠ []) (hlead : ∀ c ∈ lead, Text.isBlank c = true)
    (htrail : ∀ c ∈ trail, Text.isBlank c = true) (hvalue : Text.trim value = value) :
    ∃ span, ofPiece? offset (head ++ ':' :: (lead ++ (value ++ trail))) =
      some ⟨String.ofList (propertyOf head), String.ofList value, span⟩ ∧
        (value ≠ [] → span = ⟨offset + Text.byteLength (head ++ ':' :: lead),
          offset + Text.byteLength (head ++ ':' :: lead) + Text.byteLength value⟩) := by
  by_cases hne : value = []
  · obtain ⟨span, hread⟩ := exists_ofPiece?_append offset value hcolon hproperty hlead htrail
    rw [hvalue] at hread
    exact ⟨span, hread, fun h => absurd hne h⟩
  · exact ⟨_, ofPiece?_append offset hcolon hproperty hlead htrail hvalue hne, fun _ => rfl⟩

end

/-! ## Another value -/

section

variable {style new : String} {front back : List (List Char)} {head lead trail value : List Char}
  {span : Span}

/-- The edit replaces the value in its piece, and the pieces are found again. -/
theorem exists_pieces_of_edit
    (hpieces : pieces style.toList = front ++ (head ++ ':' :: (lead ++ (value ++ trail))) :: back)
    (hspan : span = ⟨0 + Text.byteLength (front.flatMap (· ++ [';'])) + Text.byteLength (head ++ ':' :: lead),
      0 + Text.byteLength (front.flatMap (· ++ [';'])) + Text.byteLength (head ++ ':' :: lead) +
        Text.byteLength value⟩)
    (hslice : Text.slice? span style.toList = some value)
    (hclosed : IsClosed (head ++ ':' :: (lead ++ (new.toList ++ trail)))) :
    ∃ style', Edit.applyTo? [Edit.replace span new] style = some style' ∧
      pieces style'.toList = front ++ (head ++ ':' :: (lead ++ (new.toList ++ trail))) :: back := by
  obtain ⟨parts, hold, hedits⟩ :=
    EditPart.exists_edits_eq [] style.toList
      (List.pairwise_singleton _ (Edit.replace span new)) (List.forall_mem_singleton.2 ⟨value, hslice⟩)
      (List.forall_mem_singleton.2 (Nat.zero_le _))
  refine ⟨String.ofList (parts.flatMap EditPart.new), ?_, ?_⟩
  · have happly := EditPart.applyTo?_of_edits_eq (hedits.trans (List.mergeSort_singleton _).symm)
    rwa [hold, String.ofList_toList] at happly
  · rw [String.toList_ofList, flatMap_new_of_edit hold hpieces hspan hedits]
    exact pieces_joinWith_of_isClosed hpieces hclosed

end

/-- **A style with another value for one declaration** declares what it declared but for this value, and
what follows moves by the difference of the lengths. -/
theorem declarations_of_edit {style new : String} {before after : List Declaration} {d : Declaration}
    (hds : declarations style = before ++ d :: after) (hmarks : ∀ c ∈ d.property.toList, ¬ IsMark c)
    (htrim : Text.trimString new = new) (hclosed : IsClosed new.toList) :
    ∃ style' span, Edit.applyTo? [Edit.replace d.valueSpan new] style = some style' ∧
      declarations style' =
        before ++ ⟨d.property, new, span⟩ :: after.map (Declaration.moved d.value new) ∧
      (new ≠ "" → span =
        ⟨d.valueSpan.start, d.valueSpan.start + Text.byteLength new.toList⟩) := by
  have hslice := ((declarations_placed style).2 d (by rw [hds]; simp)).2.1
  obtain ⟨front, piece, back, hpieces, hpiece, hfront, hback⟩ := exists_split_of_declarationsFrom hds
  obtain ⟨head, lead, trail, rfl, hcolon, hlead, htrail, hproperty, hne, hspan⟩ :=
    Declaration.exists_of_ofPiece? hpiece
  have hhead : ∀ c ∈ head, isPlain c = true := by
    have hmem : head ++ ':' :: (lead ++ (d.value.toList ++ trail)) ∈ pieces style.toList := by
      rw [hpieces]
      exact List.mem_append_right _ List.mem_cons_self
    rw [hproperty, String.toList_ofList] at hmarks
    exact isPlain_of_mem_pieces hmem hmarks
  have hvalue : Text.trim new.toList = new.toList := by
    rw [← String.toList_ofList (l := Text.trim new.toList), ← Text.trimString, htrim]
  obtain ⟨style', happly, hcut⟩ :=
    exists_pieces_of_edit hpieces hspan hslice (isClosed_piece hhead hlead htrail hclosed)
  obtain ⟨span, hread, hstart⟩ := Declaration.exists_ofPiece?_of_trim
    (0 + Text.byteLength (front.flatMap (· ++ [';']))) hcolon hne hlead htrail hvalue
  refine ⟨style', span, happly, ?_, fun hnew => ?_⟩
  · -- The pieces behind are read further on than before, by the same distance from their front.
    have hmoved : declarationsFrom (0 + Text.byteLength (front.flatMap (· ++ [';'])) +
        Text.byteLength (head ++ ':' :: (lead ++ (new.toList ++ trail))) + 1) back =
          after.map (Declaration.moved d.value new) := by
      have hzero (k : Nat) : declarationsFrom k back =
          (declarationsFrom 0 back).map (Declaration.shift · k) := by
        rw [← declarationsFrom_add, Nat.zero_add]
      rw [← hback, hzero, hzero (_ + 1), List.map_map]
      refine List.map_congr_left fun e _ => (Declaration.moved_shift ?_ ?_).symm
      all_goals simp only [Text.byteLength_append, Text.byteLength_cons]
      all_goals omega
    rw [declarations, hcut, declarationsFrom_append, declarationsFrom, hread, hfront, hmoved,
      hproperty, String.ofList_toList]
    rfl
  · rw [hstart (by simpa using hnew), hspan]

/-- **Values stand where their spans say, and each can be replaced.**  The spans of the values of a style
are in order and do not meet, and each holds its value without the blanks around it.  If a property has no
quotes and parentheses, its value gives way to any other one that can stand anywhere, and the style is read
as before but for this value, what follows being moved. -/
theorem values_stand_and_replace (style : String) :
    ((declarations style).Pairwise fun d e => d.valueSpan.stop < e.valueSpan.start) ∧
    (∀ d ∈ declarations style, d.valueSpan.start ≤ d.valueSpan.stop ∧
      Text.slice? d.valueSpan style.toList = some d.value.toList ∧ Text.trimString d.value = d.value) ∧
    ∀ (before after : List Declaration) (d : Declaration) (new : String),
      declarations style = before ++ d :: after → (∀ c ∈ d.property.toList, ¬ IsMark c) →
      Text.trimString new = new → IsClosed new.toList →
      ∃ style' span, Edit.applyTo? [Edit.replace d.valueSpan new] style = some style' ∧
        declarations style' =
          before ++ ⟨d.property, new, span⟩ :: after.map (Declaration.moved d.value new) ∧
        (new ≠ "" → span =
          ⟨d.valueSpan.start, d.valueSpan.start + Text.byteLength new.toList⟩) := by
  obtain ⟨hordered, hplaced⟩ := declarations_placed style
  refine ⟨hordered, fun d hd => ?_, fun before after d new hds hmarks htrim hclosed => ?_⟩
  · have hslice := (hplaced d hd).2.1
    exact ⟨Text.le_of_slice? hslice, hslice, trimString_value_of_mem hd⟩
  · exact declarations_of_edit hds hmarks htrim hclosed

/-- The line height of a spacer is set to nothing between other declarations, one of which has a semicolon
in its value. -/
theorem spacer_value_replaced : ∃ before d after,
    declarations "font : a ; line-height: 20px ;src:url(b;c)" = before ++ d :: after ∧
      d.property = "line-height" ∧ ∃ style' span,
        Edit.applyTo? [Edit.replace d.valueSpan "0"] "font : a ; line-height: 20px ;src:url(b;c)" =
          some style' ∧
        declarations style' = before ++ ⟨"line-height", "0", span⟩ ::
          after.map (Declaration.moved "20px" "0") ∧
        ("0" ≠ "" → span = ⟨d.valueSpan.start, d.valueSpan.start + Text.byteLength "0".toList⟩) := by
  have hread : declarations "font : a ; line-height: 20px ;src:url(b;c)" =
      [⟨"font", "a", ⟨7, 8⟩⟩] ++ ⟨"line-height", "20px", ⟨24, 28⟩⟩ :: [⟨"src", "url(b;c)", ⟨34, 42⟩⟩] := by
    decide +kernel
  have hmarks : ∀ c ∈ "line-height".toList, ¬ IsMark c := by simp [IsMark]
  exact ⟨_, _, _, hread, rfl, (values_stand_and_replace _).2.2 _ _ _ "0" hread hmarks (by decide) (by decide)⟩

end Css

end MailTemplate
