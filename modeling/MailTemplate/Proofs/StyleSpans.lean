import MailTemplate.Css.Declaration
import MailTemplate.Proofs.TrimmedText
import MailTemplate.Text.Span

/-!
# Where declarations stand

A style text is its pieces with semicolons between them, and a piece with a colon is a property, the
colon, and a value with blanks around it.  So the spans of the values stand in order and hold the
values.

## Main results

* `Css.Declaration.placed_of_ofPiece?` — where the value of a piece stands.
* `Css.declarations_placed` — where the values of a style text stand.
-/

namespace MailTemplate

namespace Css

/-- The property that the text before a colon names. -/
def propertyOf (head : List Char) : List Char := Text.lower (Text.trim head)

/-- **A declaration is** a property, a colon and a value with blanks around it. -/
theorem Declaration.exists_of_ofPiece? {d : Declaration} (h : Declaration.ofPiece? offset piece = some d) :
    ∃ head lead trail, piece = head ++ ':' :: (lead ++ (d.value.toList ++ trail)) ∧ ':' ∉ head ∧
      (∀ c ∈ lead, Text.isBlank c = true) ∧ (∀ c ∈ trail, Text.isBlank c = true) ∧
      d.property = String.ofList (propertyOf head) ∧ propertyOf head ≠ [] ∧
      d.valueSpan = ⟨offset + Text.byteLength (head ++ ':' :: lead),
        offset + Text.byteLength (head ++ ':' :: lead) + Text.byteLength d.value.toList⟩ := by
  have hsplit : piece.takeWhile (· ≠ ':') ++ piece.dropWhile (· ≠ ':') = piece :=
    List.takeWhile_append_dropWhile
  have hcolon : ':' ∉ piece.takeWhile (· ≠ ':') := by
    intro hmem
    exact absurd (List.all_eq_true.1 List.all_takeWhile _ hmem) (by simp)
  unfold Declaration.ofPiece? at h
  dsimp only at h
  split at h
  · exact absurd h (by simp)
  next colon raw hraw =>
  split at h
  · exact absurd h (by simp)
  next hproperty =>
  obtain rfl := Option.some.inj h
  obtain rfl : colon = ':' := by
    have hhead := List.head?_dropWhile_not (fun c : Char => decide (c ≠ ':')) piece
    rw [hraw] at hhead
    simpa using hhead
  obtain ⟨trail, htrail, hblank⟩ := Text.exists_dropEndWhile Text.isBlank (raw.dropWhile Text.isBlank)
  have hone : ':'.utf8Size = 1 := by decide
  refine ⟨_, raw.takeWhile Text.isBlank, trail, ?_, hcolon,
    fun _ hc => List.mem_takeWhile_imp hc, hblank, rfl, hproperty, ?_⟩
  · rw [String.toList_ofList, Text.trim, Text.trimStart, Text.trimEnd, ← htrail,
      List.takeWhile_append_dropWhile, ← hraw, hsplit]
  · simp only [Text.byteLength_append, Text.byteLength_cons, String.toList_ofList, hone, Span.mk.injEq]
    omega

/-- Where the value of a declaration stands that begins behind an offset and ends before another one. -/
structure Declaration.PlacedIn (style : List Char) (start stop : Nat) (d : Declaration) : Prop where
  /-- Its span holds it. -/
  slice : Text.slice? d.valueSpan style = some d.value.toList
  /-- Something stands before it. -/
  start : start < d.valueSpan.start
  /-- It ends in time. -/
  stop : d.valueSpan.stop ≤ stop
  /-- There is a colon. -/
  colon : ':' ∈ style

/-- **The value of a piece stands in the piece,** behind its colon. -/
theorem Declaration.placed_of_ofPiece? {front piece : List Char} (rest : List Char) {d : Declaration}
    (h : Declaration.ofPiece? (Text.byteLength front) piece = some d) :
    d.PlacedIn (front ++ (piece ++ rest)) (Text.byteLength front)
      (Text.byteLength front + Text.byteLength piece) := by
  obtain ⟨head, lead, trail, rfl, -, -, -, -, -, hspan⟩ := Declaration.exists_of_ofPiece? h
  have hone : ':'.utf8Size = 1 := by decide
  simp only [Text.byteLength_append, Text.byteLength_cons] at hspan
  refine ⟨Text.slice?_eq_some_iff.2 ⟨front ++ (head ++ ':' :: lead), trail ++ rest, ?_, ?_, ?_⟩, ?_, ?_, ?_⟩
  · simp
  · simp only [Text.byteLength_append, Text.byteLength_cons, hspan]
  · simp only [Text.byteLength_append, Text.byteLength_cons, hspan]
  · rw [hspan]
    dsimp only
    omega
  · simp only [Text.byteLength_append, Text.byteLength_cons, hspan]
    omega
  · simp

/-- The values of pieces stand in order, behind what precedes the pieces. -/
theorem declarationsFrom_placed (front : List Char) (pieces : List (List Char)) :
    ((declarationsFrom (Text.byteLength front) pieces).Pairwise fun d d' =>
        d.valueSpan.stop < d'.valueSpan.start) ∧
      ∀ d ∈ declarationsFrom (Text.byteLength front) pieces,
        Text.byteLength front < d.valueSpan.start ∧
          Text.slice? d.valueSpan (front ++ Text.joinWith [';'] pieces) = some d.value.toList ∧
            ':' ∈ front ++ Text.joinWith [';'] pieces := by
  induction pieces generalizing front with
  | nil => exact ⟨.nil, fun d hd => absurd hd (by simp [declarationsFrom])⟩
  | cons piece more ih =>
    -- What follows the piece stands behind it and its semicolon.
    obtain ⟨rest, hrest, hmore⟩ : ∃ rest,
        front ++ Text.joinWith [';'] (piece :: more) = front ++ (piece ++ rest) ∧
          ∀ d ∈ declarationsFrom (Text.byteLength front + Text.byteLength piece + 1) more,
            front ++ (piece ++ rest) = front ++ piece ++ [';'] ++ Text.joinWith [';'] more := by
      cases more with
      | nil => exact ⟨[], by simp [Text.joinWith], fun d hd => absurd hd (by simp [declarationsFrom])⟩
      | cons next more =>
        exact ⟨[';'] ++ Text.joinWith [';'] (next :: more), by simp [Text.joinWith], by simp⟩
    have hoffset : Text.byteLength (front ++ piece ++ [';']) =
        Text.byteLength front + Text.byteLength piece + 1 := by
      simp only [Text.byteLength_append]
      rfl
    obtain ⟨hordered, hplaced⟩ := ih (front ++ piece ++ [';'])
    rw [hoffset] at hordered hplaced
    have hfirst : ∀ d ∈ (Declaration.ofPiece? (Text.byteLength front) piece).toList,
        d.PlacedIn (front ++ (piece ++ rest)) (Text.byteLength front)
          (Text.byteLength front + Text.byteLength piece) := fun d hd =>
      Declaration.placed_of_ofPiece? rest (Option.mem_toList.1 hd)
    rw [declarationsFrom, hrest]
    refine ⟨List.pairwise_append.2 ⟨?_, hordered, fun d hd d' hd' => ?_⟩, fun d hd => ?_⟩
    · cases Declaration.ofPiece? (Text.byteLength front) piece with
      | none => exact .nil
      | some d => exact List.pairwise_singleton _ _
    · have hstop := (hfirst d hd).stop
      have hstart := (hplaced d' hd').1
      omega
    · rcases List.mem_append.1 hd with hd | hd
      · exact ⟨(hfirst d hd).start, (hfirst d hd).slice, (hfirst d hd).colon⟩
      · obtain ⟨hstart, hslice⟩ := hplaced d hd
        exact ⟨by omega, by rwa [hmore d hd]⟩

/-- **The values of a style text stand in order,** none at its front or right behind another one, and
their spans hold them.  A style text with a value has a colon. -/
theorem declarations_placed (style : String) :
    ((declarations style).Pairwise fun d d' => d.valueSpan.stop < d'.valueSpan.start) ∧
      ∀ d ∈ declarations style, 0 < d.valueSpan.start ∧
        Text.slice? d.valueSpan style.toList = some d.value.toList ∧ ':' ∈ style.toList := by
  have h := declarationsFrom_placed [] (pieces style.toList)
  rwa [List.nil_append, joinWith_pieces] at h

end Css

end MailTemplate
