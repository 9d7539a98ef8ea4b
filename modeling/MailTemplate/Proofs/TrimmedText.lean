import MailTemplate.Text.Basic
import Mathlib.Data.List.TakeWhile

/-!
# Trimmed texts

What a class of characters drops at the ends of a text, and a text without the blanks around it.

## Main results

* `Text.dropWhile_append_of_head?`, `Text.dropEndWhile_append_of_getLast?` — nothing is dropped beyond a
  character outside the class.
* `Text.exists_trim`, `Text.trim_append` — a text is its trimmed text with blanks around it, and these do not
  matter when it is trimmed.
-/

namespace MailTemplate

namespace Text

variable {p : Char → Bool} {a b cs lead trail : List Char}

/-! ## Classes of characters -/

/-- What begins with no character of a class loses nothing of it. -/
theorem dropWhile_of_head? (h : ∀ c ∈ cs.head?, p c = false) :
    cs.dropWhile p = cs ∧ cs.takeWhile p = [] := by
  cases cs with
  | nil => exact ⟨rfl, rfl⟩
  | cons c cs =>
    have hc := h c rfl
    exact ⟨List.dropWhile_cons_of_neg (by simp [hc]), List.takeWhile_cons_of_neg (by simp [hc])⟩

/-- Nothing is dropped beyond a character outside the class. -/
theorem dropWhile_append_of_head? (h : ∀ c ∈ b.head?, p c = false) :
    (a ++ b).dropWhile p = a.dropWhile p ++ b := by
  rw [List.dropWhile_append]
  split
  · next hempty => rw [List.isEmpty_iff.1 hempty, (dropWhile_of_head? h).1, List.nil_append]
  · rfl

theorem dropEndWhile_append (htrail : ∀ c ∈ trail, p c = true) :
    dropEndWhile p (cs ++ trail) = dropEndWhile p cs := by
  have hreverse : ∀ c ∈ trail.reverse, p c = true := fun c hc => htrail c (List.mem_reverse.1 hc)
  rw [dropEndWhile, dropEndWhile, List.reverse_append, List.dropWhile_append_of_pos hreverse]

/-- What is dropped at the end of a text is of the class. -/
theorem exists_dropEndWhile (p : Char → Bool) (cs : List Char) :
    ∃ trail, cs = dropEndWhile p cs ++ trail ∧ ∀ c ∈ trail, p c = true := by
  refine ⟨(cs.reverse.takeWhile p).reverse, ?_, fun c hc => ?_⟩
  · rw [dropEndWhile, ← List.reverse_append, List.takeWhile_append_dropWhile, List.reverse_reverse]
  · exact List.all_eq_true.1 (List.all_takeWhile (p := p) (l := cs.reverse)) c (List.mem_reverse.1 hc)

/-- What ends with no character of a class loses nothing of it. -/
theorem dropEndWhile_of_getLast? (h : ∀ c ∈ cs.getLast?, p c = false) : dropEndWhile p cs = cs := by
  rw [← List.head?_reverse] at h
  rw [dropEndWhile, (dropWhile_of_head? h).1, List.reverse_reverse]

theorem dropEndWhile_append_of_getLast? (h : ∀ c ∈ a.getLast?, p c = false) :
    dropEndWhile p (a ++ b) = a ++ dropEndWhile p b := by
  rw [← List.head?_reverse] at h
  rw [dropEndWhile, dropEndWhile, List.reverse_append,
    dropWhile_append_of_head? h, List.reverse_append, List.reverse_reverse]

/-! ## Blanks -/

/-- Blanks around a text do not matter when it is trimmed. -/
theorem trim_append (hlead : ∀ c ∈ lead, isBlank c = true) (htrail : ∀ c ∈ trail, isBlank c = true) :
    trim (lead ++ (cs ++ trail)) = trim cs := by
  rw [trim, trim, trimStart, trimStart, List.dropWhile_append_of_pos hlead, List.dropWhile_append]
  split
  · next hempty =>
    -- The text holds blanks only.
    rw [List.isEmpty_iff.1 hempty, List.dropWhile_eq_nil_iff.2 fun c hc => htrail c hc]
  · exact dropEndWhile_append htrail

/-- A text is its trimmed text with blanks around it. -/
theorem exists_trim (cs : List Char) : ∃ lead trail, cs = lead ++ (trim cs ++ trail) ∧
    (∀ c ∈ lead, isBlank c = true) ∧ ∀ c ∈ trail, isBlank c = true := by
  obtain ⟨trail, htrail, hblank⟩ := exists_dropEndWhile isBlank (cs.dropWhile isBlank)
  refine ⟨cs.takeWhile isBlank, trail, ?_, fun c hc => ?_, hblank⟩
  · rw [trim, trimStart, trimEnd, ← htrail, List.takeWhile_append_dropWhile]
  · exact List.mem_takeWhile_imp hc

/-- A trimmed text begins with no blank and ends with none. -/
theorem isBlank_of_mem_head?_trim : ∀ c ∈ (trim cs).head?, isBlank c = false := by
  obtain ⟨trail, htrail, -⟩ := exists_dropEndWhile isBlank (cs.dropWhile isBlank)
  intro c hc
  have hhead := List.head?_dropWhile_not isBlank cs
  rw [htrail, List.head?_append, show (dropEndWhile isBlank (cs.dropWhile isBlank)).head? = some c from hc] at hhead
  exact hhead

theorem isBlank_of_mem_getLast?_trim : ∀ c ∈ (trim cs).getLast?, isBlank c = false := by
  intro c hc
  have hhead := List.head?_dropWhile_not isBlank (trimStart cs).reverse
  rw [trim, trimEnd, dropEndWhile, List.getLast?_reverse, Option.mem_def] at hc
  rw [hc] at hhead
  exact hhead

theorem trim_of_forall (h : ∀ c ∈ cs, isBlank c = true) : trim cs = [] := by
  rw [trim, trimStart, List.dropWhile_eq_nil_iff.2 h]
  rfl

theorem mem_of_mem_trim {c : Char} (h : c ∈ trim cs) : c ∈ cs := by
  obtain ⟨lead, trail, heq, -, -⟩ := exists_trim cs
  rw [heq]
  exact List.mem_append_right _ (List.mem_append_left _ h)

theorem trim_trim (cs : List Char) : trim (trim cs) = trim cs := by
  obtain ⟨lead, trail, heq, hlead, htrail⟩ := exists_trim cs
  have htrim := @trim_append (trim cs) lead trail hlead htrail
  rw [← heq] at htrim
  exact htrim.symm

end Text

end MailTemplate
