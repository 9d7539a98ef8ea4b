import MailTemplate.Adaptation.VmlBackground
import MailTemplate.Proofs.TitleKeeping

/-!
# Wrapping tables keeps the title

The rule for background colours writes a width and a colour into a conditional comment before a table, and
a second comment behind its end tag.  The comments are read as they are meant if neither value ends the
first one, and if the end tag does not run to the end of the source.

## Main definitions

* `VmlBackground.FitsIn` — what is written about each table can stand in its comment.

## Main results

* `VmlBackground.exists_isBlock_opening`, `VmlBackground.exists_isBlock_closing` — the two blocks as
  markup.
* `VmlBackground.keepsTitles` — the rule keeps the titles of a document that it fits.
-/

namespace MailTemplate

open MarkupPiece

namespace VmlBackground

/-- What the rule writes about each table does not end a comment, and the table's end tag is closed. -/
def FitsIn (default_ source : String) : Prop :=
  ∀ entry ∈ (Document.read source).startTags "table", ∀ colour ∈ colour? entry.2,
    ∀ close ∈ (Document.read source).matchingEnd? entry.1,
      isWrapped (Document.read source) entry.1 = true ∨
        (¬ ['-', '-', '>'] <:+: (width default_ entry.2).toList ∧
          ¬ ['-', '-', '>'] <:+: colour.toList ∧ '>' ∈ (Document.read source).text close)

instance (default_ source : String) : Decidable (FitsIn default_ source) :=
  inferInstanceAs (Decidable (∀ entry ∈ (Document.read source).startTags "table",
    ∀ colour ∈ colour? entry.2, ∀ close ∈ (Document.read source).matchingEnd? entry.1, _ ∨ _))

/-! ## The two blocks -/

/-- The comment before a table up to the width. -/
def upToWidth : List Char :=
  "[if gte mso 9]>\n".toList ++
    ("<v:rect xmlns:v=\"urn:schemas-microsoft-com:vml\" fill=\"true\" stroke=\"false\" ".toList ++
      "style=\"width:".toList)

/-- The comment between width and colour. -/
def upToColour : List Char := ";\">\n".toList ++ "<v:fill type=\"tile\" color=\"".toList

/-- The comment behind the colour. -/
def upToEnd : List Char :=
  "\" />\n".toList ++ ("<v:textbox inset=\"0,0,0,0\">\n".toList ++ "<![endif]".toList)

theorem toList_opening (width colour : String) :
    (opening width colour).toList = text [comment (upToWidth ++ (width.toList ++ (upToColour ++
      (colour.toList ++ upToEnd))) ++ ['-', '-', '>']), plain '\n'] := by
  have hfirst : "<!--[if gte mso 9]>\n".toList = '<' :: '!' :: '-' :: '-' :: "[if gte mso 9]>\n".toList := by
    decide +kernel
  have hlast : "<![endif]-->\n".toList = "<![endif]".toList ++ ['-', '-', '>', '\n'] := by
    decide +kernel
  unfold opening upToWidth upToColour upToEnd
  simp only [String.toList_append, -String.reduceToList, hfirst, hlast, text_cons, written,
    List.cons_append, List.append_assoc, List.nil_append]
  rfl

/-- **The opening block** is a comment if neither the width nor the colour ends it. -/
theorem exists_isBlock_opening (element : String) {width colour : String}
    (hwidth : ¬ ['-', '-', '>'] <:+: width.toList) (hcolour : ¬ ['-', '-', '>'] <:+: colour.toList) :
    ∃ qs, IsBlock element qs (opening width colour) := by
  have hfront : upToWidth.getLast? = some ':' ∧ Text.contains upToWidth ['-', '-', '>'] = false := by
    decide +kernel
  have hmiddle : upToColour.getLast? = some '"' ∧ upToColour.head? = some ';' ∧
      Text.contains upToColour ['-', '-', '>'] = false := by
    decide +kernel
  have hback : upToEnd.head? = some '"' ∧
      Text.contains (upToEnd ++ ['-', '-']) ['-', '-', '>'] = false := by
    decide +kernel
  -- The quotes and signs around the values belong to no end of a comment.
  have hclosed : ¬ ['-', '-', '>'] <:+: upToWidth ++ (width.toList ++ (upToColour ++
      (colour.toList ++ upToEnd))) ++ ['-', '-'] := by
    simp only [List.append_assoc]
    refine Text.not_infix_append_of_getLast? (by simp [hfront.1]) ?_ ?_
    · rw [← Text.contains_iff, hfront.2]
      simp
    refine Text.not_infix_append_of_head? (by simp [List.head?_append, hmiddle.2.1]) hwidth ?_
    refine Text.not_infix_append_of_getLast? (by simp [hmiddle.1]) ?_ ?_
    · rw [← Text.contains_iff, hmiddle.2.2]
      simp
    refine Text.not_infix_append_of_head? (by simp [List.head?_append, hback.1]) hcolour ?_
    rw [← Text.contains_iff, hback.2]
    simp
  refine ⟨_, (Stands.closedComment hclosed).append (@Stands.plain '\n' (by decide)), ?_,
    ⟨_, rfl, .inr rfl⟩, rfl⟩
  rw [← String.toList_inj, String.toList_ofList, toList_opening]
  rfl

/-- The comment behind a table. -/
def shut : List Char := "[if gte mso 9]>\n</v:textbox>\n</v:rect>\n<![endif]".toList

/-- **The closing block** is a comment. -/
theorem exists_isBlock_closing (element : String) : ∃ qs, IsBlock element qs closing :=
  ⟨_, @IsBlock.comment element shut closing (by decide +kernel) (by decide +kernel)⟩

/-! ## The title -/

/-- An end tag with its `>` has it behind its name. -/
theorem mem_body_of_mem_text {front back : List MarkupPiece} {name body : List Char}
    (hfit : Fit (front ++ endTag name body :: back))
    (h : '>' ∈ (Document.read (String.ofList (text (front ++ endTag name body :: back)))).text
      ⟨Text.byteLength (text front), Text.byteLength (text (front ++ [endTag name body]))⟩) :
    '>' ∈ body := by
  have hslice : Text.slice? ⟨Text.byteLength (text front),
      Text.byteLength (text (front ++ [endTag name body]))⟩
        (text (front ++ endTag name body :: back)) = some (endTag name body).written := by
    refine Text.slice?_eq_some_iff.2 ⟨text front, text back, ?_, rfl, ?_⟩
    · simp [text]
    · simp [text, Text.byteLength_append]
  rw [Document.text, Text.slice, Document.read, String.toList_ofList, hslice] at h
  have hname : '>' ∉ name := fun hmem => absurd (hfit.behind.1.2.1 '>' hmem) (by decide)
  simpa [written, hname] using h

/-- **Wrapping keeps the title** if what the rule writes fits. -/
theorem keepsTitles {default_ source : String} (h : FitsIn default_ source) :
    (rule default_).KeepsTitles source := by
  refine .of_takes fun ps hfit hsource e he => ?_
  subst hsource
  obtain ⟨⟨i, table⟩, htable, he⟩ := List.mem_flatMap.1 he
  simp only [tableEdits] at he
  split at he
  swap
  · exact absurd he List.not_mem_nil
  next colour close hcolour hclose =>
  split at he
  · exact absurd he List.not_mem_nil
  next hopen =>
  obtain ⟨hwidth, hinside, hend⟩ := (h _ htable colour hcolour close hclose).resolve_left hopen
  simp only [List.mem_cons, List.not_mem_nil, or_false] at he
  rcases he with rfl | rfl
  · -- The opening block stands before the start tag, where no raw text ends.
    have hmem := (Document.exists_mem_startTags_iff.1 ⟨i, htable⟩).1
    rw [tokens_read hfit] at hmem
    obtain ⟨front, t, raw, back, rfl, rfl⟩ := exists_split_of_startTag hmem
    obtain ⟨qs, hqs⟩ := exists_isBlock_opening "title" hwidth hinside
    refine ⟨front, _, qs, rfl, ?_, hqs, .inr ⟨List.cons_ne_nil _ _, fun element _ =>
      not_endsRaw_startTag element t raw back⟩⟩
    simp [WrittenTag.at_, Edit.insert]
  · -- The closing block stands behind the end tag, which does not look at it.
    obtain ⟨name, hmem⟩ := Document.mem_tokens_of_matchingEnd? hclose
    rw [tokens_read hfit] at hmem
    obtain ⟨front, written_, body, back, rfl, -, rfl⟩ := exists_split_of_endTag hmem
    rw [Nat.zero_add, Nat.zero_add] at hend
    obtain ⟨qs, hqs⟩ := exists_isBlock_closing "title"
    refine ⟨front ++ [endTag written_ body], back, qs, by simp, ?_, hqs,
      .inl ⟨front, _, rfl, .endTag (mem_body_of_mem_text hfit hend)⟩⟩
    simp [Edit.insert]

end VmlBackground

end MailTemplate
