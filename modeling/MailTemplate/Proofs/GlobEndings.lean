import MailTemplate.Project.Selection
import MailTemplate.Proofs.Computations

/-!
# Endings of globs

A glob that ends with letters selects only paths that end with them, whatever wildcards stand before: each
piece of a pattern matches something and leaves an end of the path to the pieces behind it.

## Main definitions

* `PathSettings.SelectsOnly` — the globs select only what ends with a text.

## Main results

* `Glob.exists_suffix_of_matchPieces` — what is left to the last pieces.
* `PathSettings.selectsOnly_of_pieces` — globs with an ending select only what ends with it.
-/

namespace MailTemplate

namespace Glob

variable {literalSeparators : Bool} {goOn : List Char → Outcome} {cs : List Char} {front back : List Piece}

theorem orElse_eq_matched {a : Outcome} {b : Unit → Outcome} (h : a.orElse b = .matched) :
    a = .matched ∨ b () = .matched := by
  cases a with
  | matched => exact .inl rfl
  | differs => exact .inr h
  | tooShort => exact .inl h

theorem exists_suffix_of_afterRun (h : afterRun literalSeparators goOn cs = .matched) :
    ∃ ds, ds <:+ cs ∧ goOn ds = .matched := by
  induction cs with
  | nil => exact ⟨[], List.suffix_rfl, h⟩
  | cons c cs ih =>
    rcases orElse_eq_matched h with hhere | hlater
    · exact ⟨c :: cs, List.suffix_rfl, hhere⟩
    · split at hlater
      · exact absurd hlater (by simp)
      · obtain ⟨ds, hds, hmatched⟩ := ih hlater
        exact ⟨ds, hds.trans (List.suffix_cons c cs), hmatched⟩

theorem exists_suffix_of_afterDirectory (h : afterDirectory goOn cs = .matched) :
    ∃ ds, ds <:+ cs ∧ goOn ds = .matched := by
  induction cs with
  | nil => exact ⟨[], List.suffix_rfl, h⟩
  | cons c cs ih =>
    have hlater : ∀ {ds : List Char}, ds <:+ cs → ds <:+ c :: cs := fun hds =>
      hds.trans (List.suffix_cons c cs)
    rw [afterDirectory] at h
    split at h
    · rcases orElse_eq_matched h with hhere | hrest
      · exact ⟨cs, List.suffix_cons c cs, hhere⟩
      · obtain ⟨ds, hds, hmatched⟩ := ih hrest
        exact ⟨ds, hlater hds, hmatched⟩
    · obtain ⟨ds, hds, hmatched⟩ := ih h
      exact ⟨ds, hlater hds, hmatched⟩

/-- A piece that takes one character leaves what stands behind it. -/
theorem exists_suffix_of_takes {piece : Piece}
    (hnil : matchPieces literalSeparators (piece :: back) [] = .tooShort)
    (hcons : ∀ c cs, matchPieces literalSeparators (piece :: back) (c :: cs) =
      if piece.takes literalSeparators c then matchPieces literalSeparators back cs else .differs)
    (h : matchPieces literalSeparators (piece :: back) cs = .matched) :
    ∃ ds, ds <:+ cs ∧ matchPieces literalSeparators back ds = .matched := by
  cases cs with
  | nil => exact absurd (hnil.symm.trans h) (by simp)
  | cons c cs =>
    rw [hcons] at h
    split at h
    · exact ⟨cs, List.suffix_cons c cs, h⟩
    · exact absurd h (by simp)

/-- Every piece leaves an end of the text to the pieces behind it. -/
theorem exists_suffix_of_cons {piece : Piece}
    (h : matchPieces literalSeparators (piece :: back) cs = .matched) :
    ∃ ds, ds <:+ cs ∧ matchPieces literalSeparators back ds = .matched := by
  cases piece with
  | literal => exact exists_suffix_of_takes rfl (fun _ _ => rfl) h
  | anyChar => exact exists_suffix_of_takes rfl (fun _ _ => rfl) h
  | oneOf => exact exists_suffix_of_takes rfl (fun _ _ => rfl) h
  | anyRun =>
    rw [matchPieces] at h
    exact exists_suffix_of_afterRun h
  | anyDirectories =>
    rw [matchPieces] at h
    rcases orElse_eq_matched h with hhere | hlater
    · exact ⟨cs, List.suffix_rfl, hhere⟩
    · exact exists_suffix_of_afterDirectory hlater

/-- **What pieces match ends** with something that the last pieces match. -/
theorem exists_suffix_of_matchPieces (h : matchPieces literalSeparators (front ++ back) cs = .matched) :
    ∃ ds, ds <:+ cs ∧ matchPieces literalSeparators back ds = .matched := by
  induction front generalizing cs with
  | nil => exact ⟨cs, List.suffix_rfl, h⟩
  | cons piece front ih =>
    obtain ⟨ds, hds, hrest⟩ := exists_suffix_of_cons h
    obtain ⟨ds', hds', hback⟩ := ih hrest
    exact ⟨ds', hds'.trans hds, hback⟩

/-- **A glob that ends with letters** selects only paths that end with them. -/
theorem suffix_of_accepts {glob : Glob} {path ending : String}
    (hglob : ending.toList.map .literal <:+ glob.pieces)
    (h : glob.accepts literalSeparators path = true) : ending.toList <:+ path.toList := by
  obtain ⟨front, hfront⟩ := hglob
  rw [accepts, beq_iff_eq, ← hfront] at h
  obtain ⟨ds, hds, hmatched⟩ := exists_suffix_of_matchPieces h
  have hliteral : accepts ⟨ending.toList.map .literal⟩ literalSeparators (String.ofList ds) = true := by
    rw [accepts, beq_iff_eq, String.toList_ofList]
    exact hmatched
  rw [accepts_literal_iff, String.ofList_toList] at hliteral
  rwa [← hliteral, String.toList_ofList]

end Glob

/-- Whatever the globs of some settings select ends with a text. -/
def PathSettings.SelectsOnly (settings : PathSettings) (ending : String) : Prop :=
  ∀ selection, Selection.read settings.includes settings.excludes = .ok selection →
    ∀ path, selection.accepts path = true → ending.toList <:+ path.toList

/-- **Globs that end with a text** select only what ends with it. -/
theorem PathSettings.selectsOnly_of_pieces {settings : PathSettings} {ending : String}
    (h : ∀ globs, readGlobs settings.includes = .ok globs →
      ∀ glob ∈ globs, ending.toList.map .literal <:+ glob.pieces) : settings.SelectsOnly ending := by
  intro selection hselection path haccepts
  obtain ⟨globs, hglobs, hrest⟩ := bind_eq_ok_iff.1 hselection
  obtain ⟨excluded, -, hpair⟩ := bind_eq_ok_iff.1 hrest
  obtain rfl := Except.ok.inj hpair
  obtain ⟨⟨glob, hmem, hglob⟩, -⟩ := Selection.accepts_iff.1 haccepts
  exact Glob.suffix_of_accepts (h globs hglobs glob hmem) hglob

end MailTemplate
