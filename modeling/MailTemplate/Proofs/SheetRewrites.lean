import Mathlib.Data.List.Forall2
import Mathlib.Data.List.Infix
import MailTemplate.Css.FontRule
import MailTemplate.Proofs.TrimmedText

/-!
# Other font lists in a style sheet

A style sheet is cut into font lists and single characters from its front.  When font lists are replaced,
it is cut in the same places again: a new list takes as much as the old one if it holds nothing that ends
it, and the word before it is not the end of another such word, since no front of `font-family` is one of
its ends.

## Main definitions

* `Css.IsFontFamily` — a font list as it is written.
* `Css.AreSheetParts` — parts that a style sheet is cut into.
* `Css.awaits` — whether a text goes on with an end of the word, a colon and blanks before it.

## Main results

* `Css.areSheetParts_sheetParts`, `Css.AreSheetParts.sheetParts_eq` — a style sheet is cut into such parts,
  and only into these.
* `Css.AreSheetParts.of_alike` — other font lists in the places of some.
-/

namespace MailTemplate

namespace Css

variable {cs word written list behind w : List Char} {n : Nat} {ps ps' : List SheetPart}

/-! ## Font lists as they are written -/

/-- A font list with the word `font-family` and a colon before it, and blanks around the colon. -/
def IsFontFamily (written list : List Char) : Prop :=
  ∃ word gap lead, written = word ++ (gap ++ ':' :: (lead ++ list)) ∧ Text.lower word = fontFamilyWord ∧
    (∀ c ∈ gap, Text.isBlank c = true) ∧ (∀ c ∈ lead, Text.isBlank c = true) ∧
      (∀ c ∈ list.head?, Text.isBlank c = false) ∧ ∀ c ∈ list, endsFontList c = false

/-- What stands behind a font list: nothing, or a character that ends it. -/
def EndsList (behind : List Char) : Prop := ∀ c ∈ behind.head?, endsFontList c = true

theorem beginsWithBy_sameFold_iff {as bs : List Char} :
    Text.beginsWithBy Text.sameFold as bs = true ↔ Text.lower as <+: Text.lower bs := by
  induction as generalizing bs with
  | nil => simp [Text.beginsWithBy, Text.lower]
  | cons a as ih =>
    cases bs with
    | nil => simp [Text.beginsWithBy, Text.lower]
    | cons b bs =>
      have hcons : ∀ (c : Char) cs, Text.lower (c :: cs) = c.toLower :: Text.lower cs := fun _ _ => rfl
      rw [Text.beginsWithBy, Bool.and_eq_true, ih, hcons, hcons, List.cons_prefix_cons, Text.sameFold, beq_iff_eq]

/-- The letter that the word begins with, in either case. -/
theorem eq_of_toLower_eq {c : Char} (h : c.toLower = 'f') : c = 'f' ∨ c = 'F' := by
  unfold Char.toLower at h
  split at h
  · have hval : c.val + ('a'.val - 'A'.val) = 'f'.val := congrArg Char.val h
    have hsub : c.val = 'f'.val - ('a'.val - 'A'.val) := by
      rw [← hval]
      simp
    exact .inr (Char.ext (hsub.trans (by decide)))
  · exact .inl h

/-- Blanks do not end a list. -/
theorem EndsList.not_isBlank (h : EndsList behind) : ∀ c ∈ behind.head?, Text.isBlank c = false := by
  intro c hc
  have hends := h c hc
  rw [endsFontList, Bool.or_eq_true, beq_iff_eq, beq_iff_eq] at hends
  rcases hends with rfl | rfl <;> decide

/-- **A font list is found** as it is written. -/
theorem fontListAt?_append (h : IsFontFamily written list) (hbehind : EndsList behind) :
    fontListAt? (written ++ behind) = some (written.length, list) := by
  obtain ⟨word, gap, lead, rfl, hword, hgap, hlead, hhead, hlist⟩ := h
  have hlength : word.length = fontFamilyWord.length := by
    rw [← hword, Text.lower, List.length_map]
  have hbegins : Text.beginsWithBy Text.sameFold fontFamilyWord
      (word ++ (gap ++ ':' :: (lead ++ (list ++ behind)))) = true := by
    rw [beginsWithBy_sameFold_iff, Text.lower, Text.lower, List.map_append]
    rw [show word.map Char.toLower = fontFamilyWord from hword]
    exact List.prefix_append _ _
  -- Behind the blanks after the colon stands the list, or what ends it.
  have hafter : ∀ c ∈ (list ++ behind).head?, Text.isBlank c = false := by
    cases list with
    | nil => exact hbehind.not_isBlank
    | cons c list => exact hhead
  have htake : (list ++ behind).takeWhile (fun c => !endsFontList c) = list := by
    rw [List.takeWhile_append_of_pos (fun c hc => by simp [hlist c hc])]
    rw [(Text.dropWhile_of_head? (fun c hc => by simp [hbehind c hc])).2, List.append_nil]
  have hcolon : ∀ c ∈ (':' :: (lead ++ (list ++ behind))).head?, Text.isBlank c = false := by
    intro c hc
    obtain rfl := Option.some.inj hc
    decide
  simp only [List.append_assoc, List.cons_append]
  rw [fontListAt?, if_pos hbegins, ← hlength, List.drop_left]
  dsimp only
  rw [List.dropWhile_append_of_pos hgap, (Text.dropWhile_of_head? hcolon).1, List.takeWhile_append_of_pos hgap,
    (Text.dropWhile_of_head? hcolon).2]
  simp only [List.append_nil]
  rw [List.takeWhile_append_of_pos hlead, (Text.dropWhile_of_head? hafter).2,
    List.dropWhile_append_of_pos hlead, (Text.dropWhile_of_head? hafter).1, htake]
  simp only [List.append_nil, List.length_append, List.length_cons, Option.some.injEq, Prod.mk.injEq,
    and_true]
  omega

/-- What begins with the word `font-family` is the word and a rest. -/
theorem lower_take_of_begins (h : Text.beginsWithBy Text.sameFold fontFamilyWord cs = true) :
    (cs.take fontFamilyWord.length).length = fontFamilyWord.length ∧
      Text.lower (cs.take fontFamilyWord.length) = fontFamilyWord := by
  rw [beginsWithBy_sameFold_iff, show Text.lower fontFamilyWord = fontFamilyWord from by decide] at h
  have hle := h.length_le
  rw [Text.lower, List.length_map] at hle
  refine ⟨List.length_take_of_le hle, ?_⟩
  rw [Text.lower, List.map_take]
  exact (List.prefix_iff_eq_take.1 h).symm

theorem endsList_dropWhile (cs : List Char) : EndsList (cs.dropWhile (!endsFontList ·)) := by
  intro c hc
  have hhead := List.head?_dropWhile_not (!endsFontList ·) cs
  rw [Option.mem_def.1 hc] at hhead
  simpa using hhead

/-- The word, a colon with blanks around it, and what stands there until the list ends. -/
theorem isFontFamily_of_takeWhile (hword : Text.lower word = fontFamilyWord) (rest value : List Char) :
    IsFontFamily (word ++ (rest.takeWhile Text.isBlank ++ ':' :: (value.takeWhile Text.isBlank ++
        (value.dropWhile Text.isBlank).takeWhile (!endsFontList ·))))
      ((value.dropWhile Text.isBlank).takeWhile (!endsFontList ·)) := by
  refine ⟨_, _, _, rfl, hword, fun _ hc => List.mem_takeWhile_imp hc,
    fun _ hc => List.mem_takeWhile_imp hc, fun c hc => ?_, fun c hc => ?_⟩
  · have hhead := List.head?_dropWhile_not Text.isBlank value
    rw [Option.mem_def, List.head?_takeWhile, Option.filter_eq_some_iff] at hc
    rw [hc.1] at hhead
    exact hhead
  · have hnot := List.all_eq_true.1 List.all_takeWhile c hc
    simpa using hnot

/-- **What is found is a font list,** and what stands behind it ends it. -/
theorem exists_of_fontListAt? (h : fontListAt? cs = some (n, list)) :
    ∃ written behind, cs = written ++ behind ∧ written.length = n ∧ IsFontFamily written list ∧
      EndsList behind := by
  unfold fontListAt? at h
  split at h
  · next hbegins =>
    dsimp only at h
    split at h
    · next value hvalue =>
      obtain ⟨rfl, rfl⟩ := Prod.mk.inj (Option.some.inj h)
      have hword : cs = cs.take fontFamilyWord.length ++ cs.drop fontFamilyWord.length :=
        (List.take_append_drop _ _).symm
      generalize cs.drop fontFamilyWord.length = rest at hvalue hword
      have hrest : rest = rest.takeWhile Text.isBlank ++ ':' :: value := by
        rw [← hvalue, List.takeWhile_append_dropWhile]
      obtain ⟨hlength, htaken⟩ := lower_take_of_begins hbegins
      refine ⟨cs.take fontFamilyWord.length ++ (rest.takeWhile Text.isBlank ++
          ':' :: (value.takeWhile Text.isBlank ++ (value.dropWhile Text.isBlank).takeWhile (!endsFontList ·))),
        (value.dropWhile Text.isBlank).dropWhile (!endsFontList ·), ?_, ?_, ?_, ?_⟩
      · simp only [List.append_assoc, List.cons_append, List.takeWhile_append_dropWhile]
        rw [← hrest]
        exact hword
      · simp only [List.length_append, List.length_cons, hlength]
        omega
      · exact isFontFamily_of_takeWhile htaken rest value
      · exact endsList_dropWhile _
    · exact absurd h (by simp)
  · exact absurd h (by simp)

/-! ## Parts -/

/-- Parts that a style sheet is cut into: a font list is as it is written and ends where it should, and none
is found at another character. -/
inductive AreSheetParts : List SheetPart → Prop
  /-- There are none. -/
  | nil : AreSheetParts []
  /-- A character where no font list is found. -/
  | other {c : Char} {ps : List SheetPart} (hnone : fontListAt? (c :: ps.flatMap SheetPart.written) = none)
    (hps : AreSheetParts ps) : AreSheetParts (.other c :: ps)
  /-- A font list. -/
  | fontFamily {written list : List Char} {ps : List SheetPart} (hlist : IsFontFamily written list)
    (hends : EndsList (ps.flatMap SheetPart.written)) (hps : AreSheetParts ps) :
    AreSheetParts (.fontFamily written list :: ps)

theorem IsFontFamily.exists_cons (h : IsFontFamily written list) :
    ∃ c cs, written = c :: cs ∧ (c = 'f' ∨ c = 'F') := by
  obtain ⟨word, gap, lead, rfl, hword, -⟩ := h
  cases word with
  | nil => exact absurd hword (by decide)
  | cons c word => exact ⟨c, _, rfl, eq_of_toLower_eq (List.cons.inj hword).1⟩

theorem sheetParts_append (h : IsFontFamily written list) (hbehind : EndsList behind) :
    sheetParts (written ++ behind) = .fontFamily written list :: sheetParts behind := by
  have hfound := fontListAt?_append h hbehind
  obtain ⟨c, cs, rfl, -⟩ := h.exists_cons
  rw [List.cons_append] at hfound ⊢
  rw [sheetParts, hfound]
  simp

/-- **A style sheet is cut** into such parts. -/
theorem areSheetParts_sheetParts (cs : List Char) : AreSheetParts (sheetParts cs) := by
  fun_induction sheetParts cs with
  | case1 => exact .nil
  | case2 c rest n list hfound ih =>
    obtain ⟨written, behind, heq, hlength, hlist, hends⟩ := exists_of_fontListAt? hfound
    obtain ⟨d, more, rfl, -⟩ := hlist.exists_cons
    obtain ⟨rfl, hrest⟩ := List.cons.inj heq
    have hn : n - 1 = more.length := by
      rw [← hlength]
      rfl
    rw [hn, hrest, List.append_eq, List.drop_left] at ih ⊢
    rw [List.take_left]
    refine .fontFamily hlist ?_ ih
    rw [flatMap_written_sheetParts]
    exact hends
  | case3 c rest hnone ih =>
    refine .other ?_ ih
    rw [flatMap_written_sheetParts]
    exact hnone

/-- **Only such parts** a style sheet is cut into. -/
theorem AreSheetParts.sheetParts_eq (h : AreSheetParts ps) : sheetParts (ps.flatMap SheetPart.written) = ps := by
  induction h with
  | nil => rw [List.flatMap_nil, sheetParts]
  | @other c ps hnone _ ih =>
    rw [List.flatMap_cons, SheetPart.written, List.singleton_append, sheetParts, hnone]
    exact congrArg _ ih
  | fontFamily hlist hends _ ih =>
    rw [List.flatMap_cons, SheetPart.written, sheetParts_append hlist hends, ih]

/-! ## Other lists -/

/-- Whether a text begins with an end of the word `font-family`, in any case, and goes on with a colon and
blanks before it. -/
def awaits (w cs : List Char) : Bool :=
  Text.beginsWithBy Text.sameFold w cs && ((cs.drop w.length).dropWhile Text.isBlank).head? == some ':'

theorem awaits_cons (x c : Char) (w cs : List Char) :
    awaits (x :: w) (c :: cs) = (Text.sameFold x c && awaits w cs) := by
  rw [awaits, awaits, Text.beginsWithBy, Bool.and_assoc]
  rfl

theorem isSome_fontListAt? (cs : List Char) : (fontListAt? cs).isSome = awaits fontFamilyWord cs := by
  unfold fontListAt? awaits
  cases Text.beginsWithBy Text.sameFold fontFamilyWord cs with
  | false => rfl
  | true =>
    rw [if_pos rfl, Bool.true_and]
    dsimp only
    split
    · next value hvalue =>
      rw [hvalue]
      rfl
    · next hnot =>
      cases hdrop : (cs.drop fontFamilyWord.length).dropWhile Text.isBlank with
      | nil => rfl
      | cons c value =>
        have hc : c ≠ ':' := fun heq => hnot value (heq ▸ hdrop)
        simp [hc]

/-- **No end of the word is one of its fronts,** so the word before a font list is awaited by nothing. -/
theorem awaits_word (hword : Text.lower word = fontFamilyWord) (hw : w <:+ fontFamilyWord)
    (hne : w ≠ fontFamilyWord) (more : List Char) : awaits w (word ++ more) = false := by
  rw [awaits, Bool.and_eq_false_iff]
  by_cases hnil : w = []
  · subst hnil
    obtain ⟨c, cs, rfl, hc⟩ : ∃ c cs, word = c :: cs ∧ (c = 'f' ∨ c = 'F') := by
      cases word with
      | nil => exact absurd hword (by decide)
      | cons c cs => exact ⟨c, cs, rfl, eq_of_toLower_eq (List.cons.inj hword).1⟩
    refine .inr ?_
    rcases hc with rfl | rfl <;> rfl
  · refine .inl (Bool.eq_false_iff.2 fun hbegins => ?_)
    rw [beginsWithBy_sameFold_iff, Text.lower, Text.lower, List.map_append] at hbegins
    rw [show word.map Char.toLower = fontFamilyWord from hword] at hbegins
    have hlower : ∀ w ∈ fontFamilyWord.tails, w.map Char.toLower = w := by decide
    rw [hlower w ((List.mem_tails _ _).2 hw)] at hbegins
    have hprefix := List.prefix_of_prefix_length_le hbegins (List.prefix_append _ _) hw.length_le
    have hnone : ∀ w ∈ fontFamilyWord.tails, w <+: fontFamilyWord → w = [] ∨ w = fontFamilyWord := by decide
    rcases hnone w ((List.mem_tails _ _).2 hw) hprefix with h | h
    · exact hnil h
    · exact hne h

/-- Parts of one kind: the same character, or two font lists. -/
inductive SheetPart.Alike : SheetPart → SheetPart → Prop
  | other (c : Char) : Alike (.other c) (.other c)
  | fontFamily {written list written' list' : List Char} (h : IsFontFamily written list)
    (h' : IsFontFamily written' list') : Alike (.fontFamily written list) (.fontFamily written' list')

/-- An end of the word goes on in alike parts in the same way. -/
theorem awaits_congr (h : List.Forall₂ SheetPart.Alike ps ps') (hw : w <:+ fontFamilyWord)
    (hne : w ≠ fontFamilyWord) :
    awaits w (ps'.flatMap SheetPart.written) = awaits w (ps.flatMap SheetPart.written) := by
  -- The end becomes shorter with each character, until a font list stops it.
  induction h generalizing w with
  | nil => rfl
  | @cons p p' ps ps' hp _ ih =>
    rw [List.flatMap_cons, List.flatMap_cons]
    cases hp with
    | fontFamily h h' =>
      obtain ⟨word, gap, lead, rfl, hword, -⟩ := h
      obtain ⟨word', gap', lead', rfl, hword', -⟩ := h'
      simp only [SheetPart.written, List.append_assoc]
      rw [awaits_word hword hw hne, awaits_word hword' hw hne]
    | other c =>
      rw [SheetPart.written, List.singleton_append, List.singleton_append]
      cases w with
      | nil =>
        have hrest := ih List.nil_suffix (by decide)
        simp only [awaits, Text.beginsWithBy, Bool.true_and, List.length_nil, List.drop_zero] at hrest ⊢
        cases hblank : Text.isBlank c with
        | true =>
          rw [List.dropWhile_cons_of_pos hblank, List.dropWhile_cons_of_pos hblank]
          exact hrest
        | false =>
          rw [List.dropWhile_cons_of_neg (by simp [hblank]), List.dropWhile_cons_of_neg (by simp [hblank])]
          rfl
      | cons x w =>
        have hshorter : w <:+ fontFamilyWord := (List.suffix_cons x w).trans hw
        have hrest := ih hshorter fun heq => by
          have hle := hw.length_le
          rw [heq, List.length_cons] at hle
          omega
        rw [awaits_cons, awaits_cons, hrest]

/-- **Other font lists in the places of some:** the parts of a sheet stay its parts, if each list is as it is
written and ends where it should. -/
theorem AreSheetParts.of_alike (h : AreSheetParts ps) (halike : List.Forall₂ SheetPart.Alike ps ps') :
    AreSheetParts ps' := by
  induction halike with
  | nil => exact .nil
  | @cons p p' ps ps' hp hps ih =>
    cases hp with
    | other c =>
      cases h with
      | other hnone hrest =>
        refine .other ?_ (ih hrest)
        -- If a list were found at the character now, one would have been found before.
        have hfound : (fontListAt? (c :: ps'.flatMap SheetPart.written)).isSome =
            (fontListAt? (c :: ps.flatMap SheetPart.written)).isSome := by
          have hword : fontFamilyWord = 'f' :: fontFamilyWord.tail := by decide
          rw [isSome_fontListAt?, isSome_fontListAt?, hword, awaits_cons, awaits_cons,
            awaits_congr hps (List.tail_suffix _) (by decide)]
        rw [hnone] at hfound
        simpa using hfound
    | fontFamily hold hnew =>
      cases h with
      | fontFamily _ hends hrest =>
        refine .fontFamily hnew ?_ (ih hrest)
        cases hps with
        | nil => exact fun c hc => absurd hc (by simp)
        | cons hnext _ =>
          cases hnext with
          | other c => exact hends
          | fontFamily hnext hnext' =>
            obtain ⟨c, cs, rfl, hc⟩ := hnext.exists_cons
            have hcontra := hends c rfl
            rcases hc with rfl | rfl <;> exact absurd hcontra (by decide)

end Css

end MailTemplate
