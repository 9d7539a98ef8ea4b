import MailTemplate.Proofs.FontNames
import MailTemplate.Proofs.TextAhead

/-!
# The names in a font list

A font list is cut at commas, and a mark behind it does not belong to it.  So neither the blanks around a list
nor its mark matter for the names in it, and a list in which a reference gives way to a quote names what it
named before.

## Main definitions

* `Css.listsFont` — whether a list without a mark names one of some fonts.

## Main results

* `Css.namesFont_trim`, `Css.namesFont_append_mark` — blanks around a list and a mark behind it.
* `Css.namesFont_of_decoded` — a font list that names a font when it is decoded does so as it stands.
-/

namespace MailTemplate

namespace Css

variable {a cs lead trail mark : List Char} {c : Char} {fonts : List String}

/-! ## Lists -/

/-- Whether a list without a mark names one of the fonts. -/
def listsFont (list : List Char) (fonts : List String) : Bool :=
  (list.splitOn ',').any fun entry => fonts.any fun font => Text.equalsFold font.toList (fontName entry)

theorem namesFont_eq (list : List Char) (fonts : List String) :
    namesFont list fonts = listsFont (splitImportant list).1 fonts := rfl

/-- Blanks around an entry do not matter for its name. -/
theorem fontName_append_blanks (hlead : ∀ c ∈ lead, Text.isBlank c = true)
    (htrail : ∀ c ∈ trail, Text.isBlank c = true) (entry : List Char) :
    fontName (lead ++ (entry ++ trail)) = fontName entry := by
  have hkept : decoded trail = trail := decoded_of_not_mem (not_mem_of_isBlank htrail)
  have hframe : IsFrame (decoded trail) :=
    ⟨trail, [], [], by rw [hkept, List.append_nil, List.append_nil], htrail, by simp, by simp⟩
  rw [fontName_eq, fontName_eq, unreferenced_append_of_not_mem (not_mem_of_isBlank hlead),
    unreferenced_append_frame hframe, unreferenced_of_decoded hkept, plainName, plainName,
    Text.trim_append hlead htrail]

/-- A list is a name if there is no comma in it. -/
theorem listsFont_of_not_mem (hcomma : ',' ∉ a) (fonts : List String) :
    listsFont a fonts = fonts.any fun font => Text.equalsFold font.toList (fontName a) := by
  rw [listsFont, List.splitOn_eq_singleton hcomma, List.any_cons, List.any_nil, Bool.or_false]

/-- With a comma it is two lists. -/
theorem listsFont_append_comma (a b : List Char) (fonts : List String) :
    listsFont (a ++ ',' :: b) fonts = (listsFont a fonts || listsFont b fonts) := by
  rw [listsFont, List.splitOn_append_cons_self, List.any_append]
  rfl

theorem not_mem_comma_of_isBlank (h : ∀ c ∈ a, Text.isBlank c = true) : ',' ∉ a := fun hmem =>
  absurd (h _ hmem) (by decide)

/-- Blanks around a list belong to its first entry and to its last one. -/
theorem listsFont_append_blanks (hlead : ∀ c ∈ lead, Text.isBlank c = true)
    (htrail : ∀ c ∈ trail, Text.isBlank c = true) (cs : List Char) (fonts : List String) :
    listsFont (lead ++ (cs ++ trail)) fonts = listsFont cs fonts := by
  have hleadComma := not_mem_comma_of_isBlank hlead
  have htrailComma := not_mem_comma_of_isBlank htrail
  have hnone : ∀ c ∈ ([] : List Char), Text.isBlank c = true := fun _ hc => absurd hc List.not_mem_nil
  have hback : ∀ cs, listsFont (cs ++ trail) fonts = listsFont cs fonts := by
    intro cs
    by_cases hcomma : ',' ∈ cs
    · -- The last entry stands behind the last comma, which is the first one from behind.
      obtain ⟨last, front, heq, hlast⟩ := List.eq_append_cons_of_mem (List.mem_reverse.2 hcomma)
      obtain rfl : cs = front.reverse ++ ',' :: last.reverse := by
        rw [← List.reverse_reverse cs, heq, List.reverse_append, List.reverse_cons, List.append_assoc]
        rfl
      have hlast : ',' ∉ last.reverse := fun hmem => hlast (List.mem_reverse.1 hmem)
      rw [List.append_assoc, List.cons_append, listsFont_append_comma, listsFont_append_comma,
        listsFont_of_not_mem (List.not_mem_append hlast htrailComma), listsFont_of_not_mem hlast,
        ← List.nil_append (last.reverse ++ trail), fontName_append_blanks hnone htrail]
    · rw [listsFont_of_not_mem (List.not_mem_append hcomma htrailComma), listsFont_of_not_mem hcomma,
        ← List.nil_append (cs ++ trail), fontName_append_blanks hnone htrail]
  rw [← List.append_assoc, hback]
  by_cases hcomma : ',' ∈ cs
  · obtain ⟨first, more, rfl, hfirst⟩ := List.eq_append_cons_of_mem hcomma
    have hname := fontName_append_blanks hlead hnone first
    rw [List.append_nil] at hname
    rw [← List.append_assoc, listsFont_append_comma, listsFont_append_comma,
      listsFont_of_not_mem (List.not_mem_append hleadComma hfirst), listsFont_of_not_mem hfirst, hname]
  · have hname := fontName_append_blanks hlead hnone cs
    rw [List.append_nil] at hname
    rw [listsFont_of_not_mem (List.not_mem_append hleadComma hcomma), listsFont_of_not_mem hcomma, hname]

/-- A text that is equal to one without quotes in lower case has none. -/
theorem isQuote_of_equalsFold {as bs : List Char} (h : Text.equalsFold as bs = true)
    (has : ∀ c ∈ as, isQuote c = false) : ∀ c ∈ bs, isQuote c = false := by
  rw [Text.equalsFold, beq_iff_eq] at h
  intro c hc
  by_contra hquote
  obtain ⟨d, hd, heq⟩ := List.mem_map.1 (show c.toLower ∈ Text.lower as from h ▸ List.mem_map_of_mem hc)
  have hsame : Text.sameFold c d = true := beq_iff_eq.2 heq.symm
  simp only [isQuote, Bool.not_eq_false, Bool.or_eq_true, beq_iff_eq] at hquote
  rcases hquote with rfl | rfl
  · rw [Text.eq_of_sameFold (by decide) (by decide) hsame] at hd
    exact absurd (has _ hd) (by decide)
  · rw [Text.eq_of_sameFold (by decide) (by decide) hsame] at hd
    exact absurd (has _ hd) (by decide)

/-- **A list that names a font when it is decoded** does so as it stands. -/
theorem listsFont_of_decoded (hfonts : ∀ font ∈ fonts, ∀ c ∈ font.toList, isQuote c = false)
    (h : listsFont (decoded cs) fonts = true) : listsFont cs fonts = true := by
  have hentry : ∀ entry, ',' ∉ entry → listsFont (decoded entry) fonts = true →
      listsFont entry fonts = true := by
    intro entry hcomma hnamed
    have hdecoded : ',' ∉ decoded entry := fun hmem =>
      (mem_of_mem_decoded hmem).elim hcomma fun hquote => absurd hquote (by decide)
    rw [listsFont_of_not_mem hdecoded, List.any_eq_true] at hnamed
    obtain ⟨font, hfont, hequal⟩ := hnamed
    rw [listsFont_of_not_mem hcomma, List.any_eq_true]
    refine ⟨font, hfont, ?_⟩
    rw [fontName_of_decoded (isQuote_of_equalsFold hequal (hfonts font hfont))]
    exact hequal
  -- Entry by entry, from the front.
  induction hn : cs.length using Nat.strong_induction_on generalizing cs with
  | _ n ih =>
    by_cases hcomma : ',' ∈ cs
    · obtain ⟨first, more, rfl, hfirst⟩ := List.eq_append_cons_of_mem hcomma
      have hhead : ∀ c ∈ (',' :: more).head?, ∀ p ∈ references, c ∉ p.2.tail := fun c hc =>
        Option.some.inj hc ▸ (by decide)
      have hdecoded : decoded (first ++ ',' :: more) = decoded first ++ ',' :: decoded more := by
        rw [decoded_append_of_head? hhead, ← List.singleton_append, decoded_append_of_not_mem (by decide)]
        rfl
      rw [hdecoded, listsFont_append_comma, Bool.or_eq_true] at h
      rw [listsFont_append_comma, Bool.or_eq_true]
      refine h.imp (hentry first hfirst) fun hmore => ih more.length ?_ hmore rfl
      rw [← hn, List.length_append, List.length_cons]
      omega
    · exact hentry cs hcomma h

/-! ## Marks -/

/-- A blank is not a capital. -/
theorem toLower_of_isBlank (h : Text.isBlank c = true) : c.toLower = c := by
  unfold Char.toLower
  split
  · next hupper =>
    have hlow : 65 ≤ c.toNat := hupper.1
    have hhigh : c.toNat ≤ 90 := hupper.2
    simp only [Text.isBlank, Bool.or_eq_true, Bool.and_eq_true, decide_eq_true_eq, beq_iff_eq] at h
    omega
  · rfl

/-- A mark begins with an exclamation point, and it has neither blanks nor quotes nor ampersands. -/
theorem mark_spec (hmark : Text.lower mark = importantMark) : mark.length = importantMark.length ∧
    mark.head? = some '!' ∧ ∀ c ∈ mark, Text.isBlank c = false ∧ isQuote c = false ∧ c ≠ '&' := by
  have hletters : ∀ c ∈ importantMark, Text.isBlank c = false ∧ isPlain c = true ∧ c ≠ '&' := fun c hc => by
    have hall : importantMark.all (fun c => !Text.isBlank c && isPlain c && c != '&') = true := by decide
    simpa [and_assoc] using List.all_eq_true.1 hall c hc
  refine ⟨?_, ?_, fun c hc => ?_⟩
  · rw [← hmark, Text.lower, List.length_map]
  · cases mark with
    | nil => exact absurd hmark (by decide)
    | cons c mark =>
      have hc : c.toLower = '!' := (List.cons.inj hmark).1
      exact congrArg some (Text.eq_of_sameFold (by decide) (by decide) (beq_iff_eq.2 hc.symm))
  · -- In lower case it is a letter of the mark.
    have hlower : c.toLower ∈ importantMark := hmark ▸ List.mem_map_of_mem hc
    obtain ⟨hblank, hplain, hampersand⟩ := hletters _ hlower
    refine ⟨?_, ?_, ?_⟩
    · by_contra h
      have h : Text.isBlank c = true := by simpa using h
      rw [toLower_of_isBlank h, h] at hblank
      exact absurd hblank (by decide)
    · have hplain := isPlain_of_toLower hplain
      simp only [isPlain, Bool.not_eq_true', Bool.or_eq_false_iff] at hplain
      rw [isQuote, hplain.1.1.1.1, hplain.1.1.1.2]
      rfl
    · rintro rfl
      exact hampersand rfl

/-- **A value with a mark** is split before the mark. -/
theorem splitImportant_append_mark (hmark : Text.lower mark = importantMark)
    (htrail : ∀ c ∈ trail, Text.isBlank c = true) (value : List Char) :
    splitImportant (value ++ (mark ++ trail)) = (Text.trimEnd value, true) := by
  obtain ⟨hlength, hhead, hmem⟩ := mark_spec hmark
  have hne : mark ≠ [] := fun hnil => absurd (hnil ▸ hhead) (by simp)
  have htrim : Text.trimEnd (value ++ (mark ++ trail)) = value ++ mark := by
    rw [← List.append_assoc, Text.trimEnd, Text.dropEndWhile_append htrail, Text.dropEndWhile_of_getLast?]
    rw [List.getLast?_append_of_ne_nil _ hne]
    exact fun c hc => (hmem c (List.mem_of_mem_getLast? hc)).1
  have hkept : (value ++ mark).length - importantMark.length = value.length := by
    rw [List.length_append, hlength, Nat.add_sub_cancel]
  unfold splitImportant
  simp only [htrim, hkept, List.drop_left, List.take_left, if_pos hmark]

/-- A value has a mark or is left as it is. -/
theorem splitImportant_cases (cs : List Char) :
    (∃ value mark trail, cs = value ++ (mark ++ trail) ∧ Text.lower mark = importantMark ∧
      ∀ c ∈ trail, Text.isBlank c = true) ∨ splitImportant cs = (Text.trimEnd cs, false) := by
  obtain ⟨trail, heq, htrail⟩ := Text.exists_dropEndWhile Text.isBlank cs
  by_cases hmark : Text.lower ((Text.trimEnd cs).drop ((Text.trimEnd cs).length - importantMark.length)) =
      importantMark
  · refine .inl ⟨(Text.trimEnd cs).take ((Text.trimEnd cs).length - importantMark.length), _, trail, ?_, hmark,
      htrail⟩
    rw [← List.append_assoc, List.take_append_drop]
    exact heq
  · exact .inr (if_neg hmark)

/-- A list without blanks at its end names what it names with them. -/
theorem listsFont_trimEnd (cs : List Char) (fonts : List String) :
    listsFont (Text.trimEnd cs) fonts = listsFont cs fonts := by
  obtain ⟨trail, heq, htrail⟩ := Text.exists_dropEndWhile Text.isBlank cs
  have hall := listsFont_append_blanks (List.forall_mem_nil _) htrail (Text.trimEnd cs) fonts
  rw [List.nil_append, Text.trimEnd, ← heq] at hall
  exact hall.symm

theorem listsFont_trimStart (cs : List Char) (fonts : List String) :
    listsFont (Text.trimStart cs) fonts = listsFont cs fonts := by
  have hlead : ∀ c ∈ cs.takeWhile Text.isBlank, Text.isBlank c = true := fun _ hc =>
    List.mem_takeWhile_imp hc
  have hall := listsFont_append_blanks hlead (List.forall_mem_nil _) (Text.trimStart cs) fonts
  rw [List.append_nil, Text.trimStart, List.takeWhile_append_dropWhile] at hall
  exact hall.symm

/-- **The mark behind a list** does not matter for the names in it. -/
theorem namesFont_append_mark (hmark : Text.lower mark = importantMark)
    (htrail : ∀ c ∈ trail, Text.isBlank c = true) (value : List Char) (fonts : List String) :
    namesFont (value ++ (mark ++ trail)) fonts = listsFont value fonts := by
  rw [namesFont_eq, splitImportant_append_mark hmark htrail, listsFont_trimEnd]

theorem namesFont_of_unmarked (h : (splitImportant cs).2 = false) (fonts : List String) :
    namesFont cs fonts = listsFont cs fonts := by
  rcases splitImportant_cases cs with ⟨value, mark, trail, rfl, hmark, htrail⟩ | hcs
  · rw [splitImportant_append_mark hmark htrail] at h
    exact absurd h (by simp)
  · rw [namesFont_eq, hcs, listsFont_trimEnd]

/-- **Blanks around a list** do not matter for the names in it. -/
theorem namesFont_trim (cs : List Char) (fonts : List String) :
    namesFont (Text.trim cs) fonts = namesFont cs fonts := by
  rcases splitImportant_cases cs with ⟨value, mark, trail, rfl, hmark, htrail⟩ | hcs
  · -- The mark is left with what stands before it.
    obtain ⟨-, hhead, hmem⟩ := mark_spec hmark
    have hstart : Text.trimStart (value ++ (mark ++ trail)) = Text.trimStart value ++ (mark ++ trail) := by
      apply Text.dropWhile_append_of_head?
      intro c hc
      rw [List.head?_append, hhead] at hc
      exact Option.some.inj hc ▸ (by decide)
    have hend : ∀ cs, splitImportant (Text.trimEnd cs) = splitImportant cs := by
      intro cs
      have htwice : Text.trimEnd (Text.trimEnd cs) = Text.trimEnd cs := by
        obtain ⟨trail, heq, htrail⟩ := Text.exists_dropEndWhile Text.isBlank cs
        rw [Text.trimEnd, ← Text.dropEndWhile_append htrail]
        exact congrArg Text.trimEnd heq.symm
      rw [splitImportant, htwice]
      rfl
    rw [Text.trim, hstart, namesFont_eq, hend, ← namesFont_eq, namesFont_append_mark hmark htrail,
      namesFont_append_mark hmark htrail, listsFont_trimStart]
  · have hmarked : (splitImportant (Text.trim cs)).2 = false := by
      rcases splitImportant_cases (Text.trim cs) with ⟨value, mark, trail, heq, hmark, htrail⟩ | htrim
      · -- Such a mark would be one of the whole list.
        obtain ⟨lead, more, hsplit, -, hmore⟩ := Text.exists_trim cs
        have hall : cs = (lead ++ value) ++ (mark ++ (trail ++ more)) := by
          rw [hsplit, heq]
          simp only [List.append_assoc]
        have hblank : ∀ c ∈ trail ++ more, Text.isBlank c = true := fun c hc =>
          (List.mem_append.1 hc).elim (htrail c) (hmore c)
        rw [hall, splitImportant_append_mark hmark hblank] at hcs
        exact absurd hcs (by simp)
      · rw [htrim]
    rw [namesFont_of_unmarked hmarked, namesFont_of_unmarked (by rw [hcs]), Text.trim, listsFont_trimEnd,
      listsFont_trimStart]

/-- **A font list that names a font when it is decoded** does so as it stands, if no quote is in the names of
the fonts. -/
theorem namesFont_of_decoded (hfonts : ∀ font ∈ fonts, ∀ c ∈ font.toList, isQuote c = false)
    (h : namesFont (decoded cs) fonts = true) : namesFont cs fonts = true := by
  rcases splitImportant_cases cs with ⟨value, mark, trail, rfl, hmark, htrail⟩ | hcs
  · -- The exclamation point goes on no reference, so the mark stays behind the decoded list.
    obtain ⟨-, hhead, hmem⟩ := mark_spec hmark
    have hfree : '&' ∉ mark ++ trail := fun hmem' => (List.mem_append.1 hmem').elim
      (fun hc => (hmem _ hc).2.2 rfl) (not_mem_of_isBlank htrail)
    have hdecoded : decoded (value ++ (mark ++ trail)) = decoded value ++ (mark ++ trail) := by
      rw [decoded_append_of_head?, decoded_of_not_mem hfree]
      intro c hc
      rw [List.head?_append, hhead] at hc
      exact Option.some.inj hc ▸ (by decide)
    rw [hdecoded, namesFont_append_mark hmark htrail] at h
    rw [namesFont_append_mark hmark htrail]
    exact listsFont_of_decoded hfonts h
  · have hunmarked : (splitImportant (decoded cs)).2 = false := by
      rcases splitImportant_cases (decoded cs) with ⟨value, mark, trail, heq, hmark, htrail⟩ | hdecoded
      · -- Such a mark has not come from references.
        obtain ⟨front, back, rfl, -, hback⟩ := exists_of_decoded_eq_append heq
        obtain rfl : back = mark ++ trail := by
          rw [← hback]
          refine (decoded_eq_self_of_isQuote fun c hc => ?_).symm
          rw [hback, List.mem_append] at hc
          exact hc.elim (fun hc => ((mark_spec hmark).2.2 c hc).2.1)
            fun hc => isQuote_eq_false_of_isBlank (htrail c hc)
        rw [splitImportant_append_mark hmark htrail] at hcs
        exact absurd hcs (by simp)
      · rw [hdecoded]
    rw [namesFont_of_unmarked hunmarked] at h
    rw [namesFont_of_unmarked (by rw [hcs])]
    exact listsFont_of_decoded hfonts h

end Css

end MailTemplate
