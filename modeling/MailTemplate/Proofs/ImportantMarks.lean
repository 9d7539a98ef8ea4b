import MailTemplate.Proofs.FontLists
import MailTemplate.Proofs.NestedWrappers
import MailTemplate.Proofs.StyleSpans
import MailTemplate.Proofs.TableWrapping

/-!
# Marks of importance

A value can end with the mark `!important`.  Three places take it away: splitting a value, bringing a value
into its normal form, and taking the colour of a table from its style.  The first two read the mark alike: in
any letter case, once, and with blanks before and behind it.  The third one takes away every mark that
stands at the very end, and only one in lower case.  So the colour that is written for a table is the value
without its mark exactly if the mark is in lower case and no other one stands directly before it.

## Main definitions

* `Css.IsPlainlyMarked` — the mark of a value, if it has one, is in lower case and the only one.

## Main results

* `Css.normalize_eq` — the normal form is made from the value without its mark.
* `Css.trim_value_of_mem_declarations` — no blanks stand around the value of a declaration.
* `VmlBackground.exists_dropMarks` — all marks at the very end of a text, and nothing else, are dropped.
* `VmlBackground.trim_dropMarks_eq_iff` — when that leaves the value without its mark.
* `VmlBackground.mem_editsOf_iff` — the colour that is written for a table.
-/

namespace MailTemplate

namespace Text

theorem isBlank_toLower (c : Char) : isBlank c.toLower = isBlank c := by
  rcases toLower_cases c with h | ⟨hletter, hlower⟩
  · rw [h]
  · -- Neither of the two letters is a blank.
    have hblank {d : Char} (hd : d.isAlpha = true) : isBlank d = false := by
      refine Bool.eq_false_iff.2 fun hblank => ?_
      have hrange : (65 ≤ d.toNat ∧ d.toNat ≤ 90) ∨ (97 ≤ d.toNat ∧ d.toNat ≤ 122) := by
        rcases Bool.or_eq_true_iff.1 hd with hcapital | hsmall
        · exact .inl (of_decide_eq_true hcapital)
        · obtain ⟨hfrom, hto⟩ := Bool.and_eq_true_iff.1 hsmall
          exact .inr ⟨of_decide_eq_true hfrom, of_decide_eq_true hto⟩
      simp only [isBlank, Bool.or_eq_true, Bool.and_eq_true, decide_eq_true_eq, beq_iff_eq] at hblank
      omega
    rw [hblank hletter, hblank (Bool.or_eq_true_iff.2 (.inr hlower))]

theorem trimEnd_lower (cs : List Char) : trimEnd (lower cs) = lower (trimEnd cs) := by
  have hblank : isBlank ∘ Char.toLower = isBlank := funext isBlank_toLower
  rw [trimEnd, trimEnd, dropEndWhile, dropEndWhile, lower, lower, ← List.map_reverse,
    List.dropWhile_map, hblank, List.map_reverse]

/-- Blanks at the end of a text do not matter once all blanks are taken out of it. -/
theorem filter_trimEnd (cs : List Char) :
    (trimEnd cs).filter (fun c => !isBlank c) = cs.filter fun c => !isBlank c := by
  obtain ⟨trail, htrail, hblank⟩ := exists_dropEndWhile isBlank cs
  have hnone : trail.filter (fun c => !isBlank c) = [] := by
    simpa using hblank
  conv => rhs; rw [htrail, List.filter_append, hnone, List.append_nil]
  rfl

theorem length_trimEnd_le (cs : List Char) : (trimEnd cs).length ≤ cs.length := by
  rw [trimEnd, dropEndWhile, List.length_reverse, ← cs.length_reverse]
  exact List.length_dropWhile_le _ _

theorem length_trim_le (cs : List Char) : (trim cs).length ≤ cs.length :=
  (length_trimEnd_le _).trans (List.length_dropWhile_le _ _)

theorem trimEnd_of_trim {cs : List Char} (h : trim cs = cs) : trimEnd cs = cs := by
  refine dropEndWhile_of_getLast? fun c hc => ?_
  rw [← h] at hc
  exact isBlank_of_mem_getLast?_trim c hc

/-- The front of a text without blanks around it has none before it. -/
theorem trim_of_append {front back : List Char} (h : trim (front ++ back) = front ++ back) :
    trim front = trimEnd front := by
  have hhead : ∀ c ∈ front.head?, isBlank c = false := by
    intro c hc
    have hwhole : c ∈ (trim (front ++ back)).head? := by
      rw [h, List.head?_append, Option.mem_def.1 hc]
      rfl
    exact isBlank_of_mem_head?_trim c hwhole
  rw [trim, trimStart, (dropWhile_of_head? hhead).1]

end Text

namespace Css

/-! ## The normal form -/

/-- **The normal form of a value is made from the value without its mark:** it is in lower case and has no
blanks. -/
theorem normalize_eq (value : List Char) :
    normalize value = (Text.lower (splitImportant value).1).filter fun c => !Text.isBlank c := by
  have hfilter (cs : List Char) : (Text.lower (Text.trimEnd cs)).filter (fun c => !Text.isBlank c) =
      (Text.lower cs).filter fun c => !Text.isBlank c := by
    rw [← Text.trimEnd_lower, Text.filter_trimEnd]
  rcases splitImportant_cases value with ⟨kept, mark, trail, rfl, hmark, htrail⟩ | hsplit
  · have hend : Text.trimEnd (Text.lower (kept ++ (mark ++ trail))) = Text.lower kept ++ importantMark := by
      have hlast : ∀ c ∈ (kept ++ mark).getLast?, Text.isBlank c = false := by
        obtain ⟨-, hhead, hmem⟩ := mark_spec hmark
        have hne : mark ≠ [] := fun hnil => absurd (hnil ▸ hhead) (by simp)
        rw [List.getLast?_append_of_ne_nil _ hne]
        exact fun c hc => (hmem c (List.mem_of_mem_getLast? hc)).1
      rw [Text.trimEnd_lower, ← List.append_assoc, Text.trimEnd, Text.dropEndWhile_append htrail,
        Text.dropEndWhile_of_getLast? hlast, Text.lower, List.map_append]
      exact congrArg _ hmark
    have hdrop : dropEnding? importantMark (Text.lower kept ++ importantMark) = some (Text.lower kept) := by
      rw [dropEnding?, if_pos (List.isSuffixOf_iff_suffix.2 (List.suffix_append _ _)), List.length_append,
        Nat.add_sub_cancel, List.take_left]
    unfold normalize
    dsimp only
    rw [hend, hdrop, splitImportant_append_mark hmark htrail, hfilter]
    rfl
  · -- A mark in lower case would be one of the value.
    have hdrop : dropEnding? importantMark (Text.trimEnd (Text.lower value)) = none := by
      refine if_neg fun hsuffix => ?_
      obtain ⟨front, hfront⟩ := List.isSuffixOf_iff_suffix.1 hsuffix
      rw [Text.trimEnd_lower] at hfront
      obtain ⟨kept, mark, hkept, -, hmark⟩ := List.map_eq_append_iff.1 hfront.symm
      obtain ⟨trail, htrail, hblank⟩ := Text.exists_dropEndWhile Text.isBlank value
      have hvalue : value = kept ++ (mark ++ trail) := by
        rw [← List.append_assoc, ← hkept]
        exact htrail
      rw [hvalue, splitImportant_append_mark hmark hblank] at hsplit
      exact absurd hsplit (by simp)
    unfold normalize
    dsimp only
    rw [hdrop, hsplit, hfilter]
    rfl

/-! ## Values of declarations -/

theorem trim_value_of_mem_declarationsFrom {offset : Nat} {pieces : List (List Char)} {d : Declaration}
    (h : d ∈ declarationsFrom offset pieces) : Text.trim d.value.toList = d.value.toList := by
  induction pieces generalizing offset with
  | nil => exact absurd h (by simp [declarationsFrom])
  | cons piece more ih =>
    rw [declarationsFrom] at h
    rcases List.mem_append.1 h with h | h
    · have hpiece := Option.mem_toList.1 h
      unfold Declaration.ofPiece? at hpiece
      dsimp only at hpiece
      split at hpiece
      · exact absurd hpiece (by simp)
      · split at hpiece
        · exact absurd hpiece (by simp)
        · obtain rfl := Option.some.inj hpiece
          rw [String.toList_ofList, Text.trim_trim]
    · exact ih h

/-- **No blanks stand around the value of a declaration.** -/
theorem trim_value_of_mem_declarations {style : String} {d : Declaration} (h : d ∈ declarations style) :
    Text.trim d.value.toList = d.value.toList := trim_value_of_mem_declarationsFrom h

/-- **A value without blanks around it** ends with its mark, or it is left as it is. -/
theorem splitImportant_cases_of_trim {value : List Char} (hvalue : Text.trim value = value) :
    (∃ kept mark, value = kept ++ mark ∧ Text.lower mark = importantMark ∧
      splitImportant value = (Text.trimEnd kept, true)) ∨
    (splitImportant value = (value, false) ∧ ¬ importantMark <:+ value) := by
  have hend := Text.trimEnd_of_trim hvalue
  rcases splitImportant_cases value with ⟨kept, mark, trail, rfl, hmark, htrail⟩ | hsplit
  · -- Nothing stands behind the mark, since the value ends with no blank.
    have hcut : (Text.trimEnd (kept ++ (mark ++ trail))).length ≤ (kept ++ mark).length := by
      rw [← List.append_assoc, Text.trimEnd, Text.dropEndWhile_append htrail]
      exact Text.length_trimEnd_le _
    have hnil : trail = [] := by
      rw [hend] at hcut
      simp only [List.length_append] at hcut
      exact List.eq_nil_of_length_eq_zero (by omega)
    exact .inl ⟨kept, mark, by rw [hnil, List.append_nil], hmark, splitImportant_append_mark hmark htrail kept⟩
  · refine .inr ⟨by rw [hsplit, hend], ?_⟩
    rintro ⟨front, rfl⟩
    have hlower : Text.lower importantMark = importantMark := by decide
    have hmarked := splitImportant_append_mark hlower (List.forall_mem_nil _) front
    rw [List.append_nil, hsplit] at hmarked
    exact absurd hmarked (by simp)

/-- The mark at the end of a value, if it has one, is in lower case, and no other such mark stands directly
before it. -/
def IsPlainlyMarked (value : List Char) : Prop :=
  (splitImportant value).2 = true → ∃ kept, value = kept ++ importantMark ∧ ¬ importantMark <:+ kept

end Css

namespace VmlBackground

open Css

/-! ## Dropping marks -/

theorem dropMarks_append_mark (cs : List Char) : dropMarks (cs ++ importantMark) = dropMarks cs := by
  have hne : cs ++ importantMark ≠ [] := fun h => absurd (List.append_eq_nil_iff.1 h).2 (by decide)
  rw [dropMarks, dif_pos ⟨List.isSuffixOf_iff_suffix.2 (List.suffix_append _ _), hne⟩, List.length_append,
    Nat.add_sub_cancel, List.take_left]

theorem dropMarks_of_not_suffix {cs : List Char} (h : ¬ importantMark <:+ cs) : dropMarks cs = cs := by
  rw [dropMarks, dif_neg fun hmark => h (List.isSuffixOf_iff_suffix.1 hmark.1)]

/-- **All marks at the very end of a text are dropped,** and nothing else. -/
theorem exists_dropMarks (cs : List Char) : ∃ n, cs = dropMarks cs ++ (List.replicate n importantMark).flatten ∧
    ¬ importantMark <:+ dropMarks cs := by
  induction hlength : cs.length using Nat.strong_induction_on generalizing cs with
  | _ length ih =>
    by_cases hmark : importantMark <:+ cs
    · obtain ⟨front, rfl⟩ := hmark
      have hpos : 0 < importantMark.length := by decide
      obtain ⟨n, hfront, hend⟩ := ih front.length (by rw [← hlength, List.length_append]; omega) front rfl
      rw [dropMarks_append_mark]
      refine ⟨n + 1, ?_, hend⟩
      rw [List.replicate_succ', List.flatten_append, ← List.append_assoc, ← hfront]
      simp
    · rw [dropMarks_of_not_suffix hmark]
      exact ⟨0, by simp, hmark⟩

theorem dropMarks_isPrefix (cs : List Char) : dropMarks cs <+: cs := by
  obtain ⟨n, hcs, -⟩ := exists_dropMarks cs
  exact ⟨_, hcs.symm⟩

/-- A text that ends with the mark does not end with a blank. -/
theorem trimEnd_append_mark (cs : List Char) : Text.trimEnd (cs ++ importantMark) = cs ++ importantMark := by
  refine Text.dropEndWhile_of_getLast? fun c hc => ?_
  rw [List.getLast?_append_of_ne_nil _ (by decide)] at hc
  obtain rfl : 't' = c := Option.some.inj hc
  decide

/-- **When dropping marks leaves the value without its mark.** -/
theorem trim_dropMarks_eq_iff {value : List Char} (hvalue : Text.trim value = value) :
    Text.trim (dropMarks value) = (splitImportant value).1 ↔ IsPlainlyMarked value := by
  rcases splitImportant_cases_of_trim hvalue with ⟨kept, mark, rfl, hmark, hsplit⟩ | ⟨hsplit, hstays⟩
  · have hlength : mark.length = importantMark.length := (mark_spec hmark).1
    have hpos : 0 < importantMark.length := by decide
    rw [hsplit]
    constructor
    · intro h _
      have hshorter : (Text.trim (dropMarks (kept ++ mark))).length ≤ kept.length :=
        h ▸ Text.length_trimEnd_le kept
      -- In another letter case the mark stays.
      obtain rfl : mark = importantMark := by
        by_contra hother
        have hstays : ¬ importantMark <:+ kept ++ mark := fun ⟨_, hfront⟩ =>
          hother (List.append_inj_right' hfront hlength.symm).symm
        rw [dropMarks_of_not_suffix hstays, hvalue, List.length_append] at hshorter
        omega
      refine ⟨kept, rfl, ?_⟩
      -- A second mark is dropped as well.
      rintro ⟨front, rfl⟩
      rw [dropMarks_append_mark, dropMarks_append_mark, trimEnd_append_mark] at h
      have hdropped : (Text.trim (dropMarks front)).length ≤ front.length :=
        (Text.length_trim_le _).trans (dropMarks_isPrefix front).length_le
      rw [h, List.length_append] at hdropped
      omega
    · intro h
      obtain ⟨front, hfront, honly⟩ := h (by rw [hsplit])
      obtain ⟨rfl, rfl⟩ := List.append_inj' hfront hlength
      rw [dropMarks_append_mark, dropMarks_of_not_suffix honly]
      exact Text.trim_of_append hvalue
  · -- Without a mark the value stays as it is.
    rw [dropMarks_of_not_suffix hstays, hvalue, hsplit]
    exact iff_of_true rfl fun h => absurd h (by simp [hsplit])

/-! ## The colour of a table -/

theorem colour?_eq_some_iff {table : StartTag} {d : Declaration} {colour : String}
    (hd : table.declared? "background-color" = some d) : colour? table = some colour ↔
      colour ≠ "" ∧ colour = String.ofList (Text.trim (dropMarks d.value.toList)) := by
  rw [colour?, hd]
  dsimp only
  split
  · next hnil =>
    rw [hnil]
    exact iff_of_false (by simp) fun ⟨hne, heq⟩ => hne heq
  · next hne =>
    rw [Option.some.injEq, eq_comm]
    refine (and_iff_right_of_imp fun heq => ?_).symm
    rw [heq]
    exact fun hempty => hne (by simpa using congrArg String.toList hempty)

theorem opening_injective {width colour colour' : String} (h : opening width colour = opening width colour') :
    colour = colour' := by
  have h := congrArg String.toList h
  simp only [toList_opening, MarkupPiece.text_cons, MarkupPiece.written, List.cons_append,
    List.append_assoc, List.cons.injEq, List.append_cancel_left_eq, true_and] at h
  exact String.toList_inj.1 (List.append_cancel_right h)

/-- An opening block begins with a tag, a closing one with a line end. -/
theorem opening_ne_closing (width colour : String) : opening width colour ≠ closing := by
  intro h
  have hfront : (opening width colour).toList.head? = some '<' := by
    rw [toList_opening]
    rfl
  rw [h] at hfront
  exact absurd hfront (by decide +kernel)

/-- **The colour that is written for a table** in its opening block. -/
theorem mem_editsOf_iff {default_ source colour : String} {index : Nat} {table : StartTag} {close : Span}
    (htable : (Document.read source).tokens[index]? = some (.startTag table)) (hname : table.name = "table")
    (hclose : (Document.read source).matchingEnd? index = some close)
    (hopen : isWrapped (Document.read source) index = false) :
    Edit.insert table.span.start (opening (width default_ table) colour) ∈ (rule default_).editsOf source ↔
      colour? table = some colour := by
  rw [editsOf_eq, List.mem_flatMap]
  constructor
  · rintro ⟨w, hw, hblock⟩
    obtain ⟨⟨hwtable, hwname⟩, hwcolour, -⟩ := mem_wrappings_iff.1 hw
    simp only [Wrapping.blocks, Wrapping.opening, Wrapping.closing, Edit.insert, List.mem_cons,
      List.not_mem_nil, or_false, Edit.mk.injEq, Span.mk.injEq] at hblock
    rcases hblock with ⟨⟨hstart, -⟩, hblock⟩ | ⟨-, hblock⟩
    · -- No other table begins there.
      have hindex : w.index = index := by
        rcases Nat.lt_trichotomy w.index index with hlt | heq | hgt
        · exact absurd (Document.start_lt_start hlt hwtable htable) (by omega)
        · exact heq
        · exact absurd (Document.start_lt_start hgt htable hwtable) (by omega)
      rw [hindex, htable] at hwtable
      obtain rfl := Token.startTag.inj (Option.some.inj hwtable)
      rw [opening_injective hblock]
      exact hwcolour
    · exact absurd hblock (opening_ne_closing _ _)
  · intro hcolour
    refine ⟨⟨index, table, colour, close⟩, mem_wrappings_iff.2 ⟨⟨htable, hname⟩, hcolour, hclose, hopen⟩, ?_⟩
    exact List.mem_cons_self

/-- **Three readings of the mark of importance.**  The normal form of every value is made from the value
without its mark.  The colour that is written for a table is the value without its mark exactly if the mark is
in lower case and the only one. -/
theorem marks_read_alike_iff (value : List Char) (default_ source : String) :
    normalize value = ((Text.lower (splitImportant value).1).filter fun c => !Text.isBlank c) ∧
    ∀ (index : Nat) (table : StartTag) (d : Declaration) (close : Span),
      (Document.read source).tokens[index]? = some (.startTag table) → table.name = "table" →
      (Document.read source).matchingEnd? index = some close →
      isWrapped (Document.read source) index = false → table.declared? "background-color" = some d →
      ((∀ colour, Edit.insert table.span.start (opening (width default_ table) colour) ∈
            (rule default_).editsOf source ↔
          colour ≠ "" ∧ colour = String.ofList (splitImportant d.value.toList).1) ↔
        IsPlainlyMarked d.value.toList) := by
  refine ⟨normalize_eq value, fun index table d close htable hname hclose hopen hd => ?_⟩
  have hvalue : Text.trim d.value.toList = d.value.toList := by
    have hmem : d ∈ table.declarations := List.mem_reverse.1 (List.mem_of_find?_eq_some hd)
    unfold StartTag.declarations at hmem
    split at hmem
    · exact trim_value_of_mem_declarations hmem
    · exact absurd hmem List.not_mem_nil
  simp only [mem_editsOf_iff htable hname hclose hopen, colour?_eq_some_iff hd]
  rw [← trim_dropMarks_eq_iff hvalue]
  constructor
  · intro h
    have hleft := h (String.ofList (Text.trim (dropMarks d.value.toList)))
    have hright := h (String.ofList (splitImportant d.value.toList).1)
    rw [← String.ofList_inj]
    by_cases hempty : String.ofList (splitImportant d.value.toList).1 = ""
    · rw [hempty] at hleft ⊢
      by_contra hne
      exact absurd (hleft.1 ⟨hne, rfl⟩).2 hne
    · exact (hright.2 ⟨hempty, rfl⟩).2.symm
  · intro h colour
    rw [h]

/-- A table with a marked colour, whose mark goes with the blank before it. -/
theorem marks_read_alike_of_table :
    let source := "<table style=\"background-color: Red !important\"></table>"
    let style := "background-color: Red !important"
    let table : StartTag := ⟨"table", [⟨"style", some style, ⟨7, 47⟩, some ⟨14, 46⟩⟩], ⟨0, 48⟩, 47, false⟩
    ((Document.read source).tokens[0]? = some (.startTag table) ∧ table.name = "table" ∧
      (Document.read source).matchingEnd? 0 = some ⟨48, 56⟩ ∧ isWrapped (Document.read source) 0 = false ∧
        table.declared? "background-color" = some ⟨"background-color", "Red !important", ⟨18, 32⟩⟩ ∧
          IsPlainlyMarked "Red !important".toList) ∧
      Edit.insert 0 (opening "600px" "Red") ∈ (rule "600px").editsOf source := by
  intro source style table
  have hpage : (Document.read source).tokens[0]? = some (.startTag table) ∧
      (Document.read source).matchingEnd? 0 = some ⟨48, 56⟩ ∧ isWrapped (Document.read source) 0 = false ∧
        table.declared? "background-color" = some ⟨"background-color", "Red !important", ⟨18, 32⟩⟩ ∧
          width "600px" table = "600px" ∧ (splitImportant "Red !important".toList).1 = "Red".toList := by
    decide +kernel
  obtain ⟨htable, hclose, hopen, hd, hwidth, hsplit⟩ := hpage
  have hmarked : IsPlainlyMarked "Red !important".toList := fun _ => ⟨"Red ".toList, by decide, by decide⟩
  obtain ⟨-, hcolours⟩ := marks_read_alike_iff "Red !important".toList "600px" source
  have hcolour := (hcolours 0 table _ _ htable rfl hclose hopen hd).2 hmarked "Red"
  rw [hwidth] at hcolour
  refine ⟨⟨htable, rfl, hclose, hopen, hd, hmarked⟩, hcolour.2 ⟨by decide, ?_⟩⟩
  show "Red" = String.ofList (splitImportant "Red !important".toList).1
  rw [hsplit]
  rfl

/-- **A mark in capitals stays in the colour,** although it is split off everywhere else. -/
theorem capital_mark_stays :
    (rule "600px").editsOf "<table style=\"background-color:red!IMPORTANT\"></table>" =
      [Edit.insert 0 (opening "600px" "red!IMPORTANT"), Edit.insert 54 closing] ∧
    splitImportant "red!IMPORTANT".toList = ("red".toList, true) := by
  decide +kernel

end VmlBackground

end MailTemplate
