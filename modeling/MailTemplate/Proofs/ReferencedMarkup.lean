import MailTemplate.Proofs.DocumentQueries
import MailTemplate.Proofs.EmojiReferences

/-!
# Markup with references

The rule for emoji works on the whole text of a source, wherever in it an emoji stands.  It changes no
structure: an emoji and the `&` that its reference begins with are told apart by nothing that reads
markup, and no reference holds a character by which a piece of markup begins or ends.  So the pieces of
a source stay the pieces of the result, each with references in it.

## Main definitions

* `EmojiEntities.spell` — a text with references.
* `EmojiEntities.IsBlind` — a test that does not tell an emoji from the `&` of a reference.
* `EmojiEntities.avoids` — whether a text can only be found outside of references.
* `MarkupPiece.spelled` — the pieces that a piece becomes.

## Main results

* `EmojiEntities.indexOfBy?_spell` — where a text is found among references.
* `WrittenTag.Fits.spelled`, `MarkupPiece.Fit.spelled` — what is read as it is meant still is.
* `MarkupPiece.raws_spelled` — raw texts receive the references, too.
-/

namespace MailTemplate

open MarkupPiece

namespace EmojiEntities

/-! ## Texts with references -/

/-- A text with references. -/
def spell (cs : List Char) : List Char := cs.flatMap written

theorem spell_cons (c : Char) (cs : List Char) : spell (c :: cs) = written c ++ spell cs := rfl

@[simp] theorem spell_append (cs ds : List Char) : spell (cs ++ ds) = spell cs ++ spell ds :=
  List.flatMap_append

/-- A character is left alone, or it is one of the emoji. -/
theorem written_cases (c : Char) : written c = [c] ∧ (∀ entry ∈ table, entry.1 ≠ c) ∨
    ∃ entry ∈ table, entry.1 = c ∧ written c = entry.2.toList := by
  unfold written
  cases href : reference? c with
  | none =>
    refine .inl ⟨rfl, fun entry hentry heq => ?_⟩
    exact absurd (List.find?_eq_none.1 (Option.map_eq_none_iff.1 href) entry hentry) (by simp [heq])
  | some reference =>
    obtain ⟨entry, hfound, rfl⟩ := Option.map_eq_some_iff.1 href
    exact .inr ⟨entry, List.mem_of_find?_eq_some hfound, by simpa using List.find?_some hfound, rfl⟩

theorem exists_reference {entry : Char × String} (h : entry ∈ table) :
    ∃ tail, entry.2.toList = '&' :: tail := by
  have hall : ∀ entry ∈ table, entry.2.toList.head? = some '&' := by decide
  exact ⟨_, (List.head?_eq_some_iff.1 (hall entry h)).choose_spec⟩

theorem written_ne_nil (c : Char) : written c ≠ [] := by
  rcases written_cases c with ⟨hkept, -⟩ | ⟨entry, hentry, -, href⟩
  · rw [hkept]
    exact List.cons_ne_nil _ _
  · obtain ⟨tail, htail⟩ := exists_reference hentry
    rw [href, htail]
    exact List.cons_ne_nil _ _

theorem spell_eq_nil_iff {cs : List Char} : spell cs = [] ↔ cs = [] := by
  cases cs with
  | nil => exact iff_of_true rfl rfl
  | cons c cs =>
    refine iff_of_false (fun h => ?_) (List.cons_ne_nil _ _)
    exact written_ne_nil c (List.append_eq_nil_iff.1 h).1

/-- What passes a test that no emoji passes is left alone. -/
theorem written_of_pos {p : Char → Bool} (hp : ∀ entry ∈ table, p entry.1 = false) {c : Char}
    (h : p c = true) : written c = [c] := by
  rcases written_cases c with ⟨hkept, -⟩ | ⟨entry, hentry, rfl, -⟩
  · exact hkept
  · exact absurd (hp entry hentry) (by simp [h])

theorem spell_of_forall {cs : List Char} (h : ∀ c ∈ cs, written c = [c]) : spell cs = cs := by
  induction cs with
  | nil => rfl
  | cons c cs ih =>
    obtain ⟨hc, hcs⟩ := List.forall_mem_cons.1 h
    rw [spell_cons, hc, ih hcs]
    rfl

/-- No emoji is left. -/
theorem emoji_not_mem_spell {entry : Char × String} (h : entry ∈ table) (cs : List Char) :
    entry.1 ∉ spell cs := by
  intro hmem
  obtain ⟨c, -, hc⟩ := List.mem_flatMap.1 hmem
  exact not_mem_written c entry h hc

/-- A text is left alone exactly if no emoji stands in it. -/
theorem spell_eq_self_iff {cs : List Char} :
    spell cs = cs ↔ ∀ entry ∈ table, entry.1 ∉ cs := by
  constructor
  · intro h entry hentry
    rw [← h]
    exact emoji_not_mem_spell hentry cs
  · intro h
    refine spell_of_forall fun c hc => ?_
    rcases written_cases c with ⟨hkept, -⟩ | ⟨entry, hentry, rfl, -⟩
    · exact hkept
    · exact absurd hc (h entry hentry)

/-- A character that is in no reference does not come in. -/
theorem not_mem_spell {d : Char} (hd : ∀ entry ∈ table, d ∉ entry.2.toList) {cs : List Char}
    (h : d ∉ cs) : d ∉ spell cs := by
  intro hmem
  obtain ⟨c, hc, hwritten⟩ := List.mem_flatMap.1 hmem
  rcases written_cases c with ⟨hkept, -⟩ | ⟨entry, hentry, -, href⟩
  · rw [hkept, List.mem_singleton] at hwritten
    exact h (hwritten ▸ hc)
  · exact hd entry hentry (href ▸ hwritten)

/-- Tests that hold of references hold of the whole text. -/
theorem forall_spell {p : Char → Bool} (hp : ∀ entry ∈ table, entry.2.toList.all p = true)
    {cs : List Char} (h : ∀ c ∈ cs, p c = true) : ∀ c ∈ spell cs, p c = true := by
  intro d hd
  obtain ⟨c, hc, hwritten⟩ := List.mem_flatMap.1 hd
  rcases written_cases c with ⟨hkept, -⟩ | ⟨entry, hentry, -, href⟩
  · rw [hkept, List.mem_singleton] at hwritten
    exact hwritten ▸ h c hc
  · exact List.all_eq_true.1 (hp entry hentry) d (href ▸ hwritten)

/-! ## The first character -/

/-- The character that a character begins with when it is written. -/
def initial (c : Char) : Char := (written c).headD c

/-- A test that does not tell an emoji from the `&` of its reference. -/
def IsBlind (p : Char → Bool) : Prop := ∀ entry ∈ table, p entry.1 = p '&'

instance (p : Char → Bool) : Decidable (IsBlind p) :=
  inferInstanceAs (Decidable (∀ entry ∈ table, _ = _))

variable {p : Char → Bool} {cs : List Char}

theorem IsBlind.apply_initial (h : IsBlind p) (c : Char) : p (initial c) = p c := by
  unfold initial
  rcases written_cases c with ⟨hkept, -⟩ | ⟨entry, hentry, rfl, href⟩
  · rw [hkept]
    rfl
  · obtain ⟨tail, htail⟩ := exists_reference hentry
    rw [href, htail]
    exact (h entry hentry).symm

theorem head?_spell (cs : List Char) : (spell cs).head? = cs.head?.map initial := by
  cases cs with
  | nil => rfl
  | cons c cs =>
    obtain ⟨d, ds, hwritten⟩ := List.exists_cons_of_ne_nil (written_ne_nil c)
    simp [spell_cons, initial, hwritten]

theorem initial_eq_iff {a : Char} (h : IsBlind (· == a)) (c : Char) : initial c = a ↔ c = a := by
  rw [← beq_iff_eq (a := initial c), ← beq_iff_eq (a := c), h.apply_initial c]

theorem head?_spell_eq_some_iff {a : Char} (h : IsBlind (· == a)) :
    (spell cs).head? = some a ↔ cs.head? = some a := by
  rw [head?_spell]
  cases cs with
  | nil => exact Iff.rfl
  | cons c cs => exact Option.some_inj.trans ((initial_eq_iff h c).trans Option.some_inj.symm)

/-- A text that is not empty begins with an emoji or the `&` of its reference, or with what it began
with. -/
theorem exists_spell_cons (c : Char) (cs : List Char) : ∃ ds, spell (c :: cs) = initial c :: ds :=
  List.head?_eq_some_iff.1 (head?_spell (c :: cs))

/-- A blind test sees no difference at the front of a text. -/
theorem IsBlind.any_head? (h : IsBlind p) (cs : List Char) :
    (spell cs).head?.any p = cs.head?.any p := by
  rw [head?_spell]
  cases cs with
  | nil => rfl
  | cons c cs => exact h.apply_initial c

theorem IsBlind.forall_head? (h : IsBlind p) (hcs : ∀ c ∈ cs.head?, p c = false) :
    ∀ c ∈ (spell cs).head?, p c = false := by
  intro d hd
  rw [head?_spell] at hd
  obtain ⟨c, hc, rfl⟩ := Option.map_eq_some_iff.1 hd
  exact (h.apply_initial c).trans (hcs c hc)

theorem IsBlind.dropWhile_spell (h : IsBlind p) (hp : p '&' = false) (cs : List Char) :
    (spell cs).dropWhile p = spell (cs.dropWhile p) := by
  induction cs with
  | nil => rfl
  | cons c cs ih =>
    rw [spell_cons, List.dropWhile_cons]
    cases hc : p c with
    | true =>
      rw [written_of_pos (fun entry hentry => (h entry hentry).trans hp) hc, if_pos rfl, ← ih]
      exact List.dropWhile_cons_of_pos hc
    | false =>
      obtain ⟨d, ds, hwritten⟩ := List.exists_cons_of_ne_nil (written_ne_nil c)
      have hd : p d = false := by
        have hinitial := h.apply_initial c
        rwa [initial, hwritten, hc] at hinitial
      rw [if_neg (by simp), spell_cons, hwritten]
      exact List.dropWhile_cons_of_neg (by simp [hd])

/-- Whether something begins behind a `<` does not change. -/
theorem begins_spell (cs : List Char) : begins (spell cs) = begins cs := by
  cases cs with
  | nil => rfl
  | cons c cs =>
    have hname : IsBlind isNameChar := by decide
    rcases written_cases c with ⟨hkept, -⟩ | ⟨entry, hentry, rfl, href⟩
    · rw [spell_cons, hkept, List.singleton_append, begins, begins, hname.any_head?]
    · obtain ⟨tail, htail⟩ := exists_reference hentry
      have hnone : ∀ entry ∈ table,
          (entry.1 == '!' || entry.1 == '?' || entry.1.isAlpha || entry.1 == '/') = false := by
        decide
      have hemoji := hnone entry hentry
      simp only [Bool.or_eq_false_iff] at hemoji
      rw [spell_cons, href, htail]
      simp [begins, hemoji]

/-! ## Searching -/

section Search

variable {same : Char → Char → Bool} {sought : List Char}

/-- Whether no character of a text is an emoji or the `&` of a reference. -/
def isApart (same : Char → Char → Bool) (sought : List Char) : Bool :=
  sought.all fun b => decide (IsBlind (same b)) && !same b '&'

/-- Whether, moreover, no reference holds the first one. -/
def avoids (same : Char → Char → Bool) (sought : List Char) : Bool :=
  isApart same sought && sought.head?.any fun a => table.all fun entry => entry.2.toList.all (!same a ·)

theorem isApart_cons {b : Char} : isApart same (b :: sought) = true ↔
    (IsBlind (same b) ∧ same b '&' = false) ∧ isApart same sought = true := by
  simp [isApart]

theorem beginsWithBy_spell (h : isApart same sought = true) (cs : List Char) :
    Text.beginsWithBy same sought (spell cs) = Text.beginsWithBy same sought cs := by
  induction sought generalizing cs with
  | nil => rfl
  | cons b sought ih =>
    obtain ⟨⟨hblind, hamp⟩, hsought⟩ := isApart_cons.1 h
    cases cs with
    | nil => rfl
    | cons c cs =>
      rcases written_cases c with ⟨hkept, -⟩ | ⟨entry, hentry, rfl, href⟩
      · rw [spell_cons, hkept, List.singleton_append, Text.beginsWithBy, Text.beginsWithBy, ih hsought]
      · obtain ⟨tail, htail⟩ := exists_reference hentry
        rw [spell_cons, href, htail, List.cons_append, Text.beginsWithBy, Text.beginsWithBy, hamp,
          hblind entry hentry, hamp, Bool.false_and, Bool.false_and]

/-- **A text is found behind the references** that stand before it. -/
theorem indexOfBy?_spell (h : avoids same sought = true) (cs : List Char) :
    Text.indexOfBy? same sought (spell cs) =
      (Text.indexOfBy? same sought cs).map fun i => (spell (cs.take i)).length := by
  cases sought with
  | nil => exact absurd h (by simp [avoids])
  | cons a as =>
  obtain ⟨hsought, hnone⟩ := Bool.and_eq_true_iff.1 h
  have hreference : ∀ entry ∈ table, ∀ d ∈ entry.2.toList, same a d = false := by
    intro entry hentry d hd
    have hall := List.all_eq_true.1 hnone entry hentry
    simpa using List.all_eq_true.1 hall d hd
  obtain ⟨hblind, hamp⟩ := (isApart_cons.1 hsought).1
  induction cs with
  | nil => rfl
  | cons c cs ih =>
    rcases written_cases c with ⟨hkept, -⟩ | ⟨entry, hentry, rfl, href⟩
    · have hbegins := beginsWithBy_spell hsought (c :: cs)
      rw [spell_cons, hkept, List.singleton_append] at hbegins ⊢
      rw [Text.indexOfBy?, Text.indexOfBy?, hbegins, ih]
      split
      · rfl
      · simp [Function.comp_def, spell_cons, hkept, Nat.add_comm]
    · have hfirst : same a entry.1 = false := (hblind entry hentry).trans hamp
      rw [spell_cons, href, Text.indexOfBy?_append_of_forall (hreference entry hentry), ih,
        Text.indexOfBy?, if_neg (by simp [Text.beginsWithBy, hfirst])]
      simp [Function.comp_def, spell_cons, href, Nat.add_comm]

theorem indexOfBy?_spell_eq_none (h : avoids same sought = true)
    (hcs : Text.indexOfBy? same sought cs = none) :
    Text.indexOfBy? same sought (spell cs) = none := by
  rw [indexOfBy?_spell h, hcs]
  rfl

/-- A text still ends where it did. -/
theorem endsAt_spell {rest : List Char} (h : avoids (· == ·) sought = true)
    (hkept : spell sought = sought) (hends : Cursor.EndsAt sought cs rest) :
    Cursor.EndsAt sought (spell cs) (spell rest) := by
  rcases hends with ⟨inner, rfl, hfound⟩ | ⟨hnone, rfl⟩
  · refine .inl ⟨spell inner, by rw [spell_append, hkept], fun more => ?_⟩
    have hhere := hfound []
    rw [List.append_nil] at hhere
    have hspelled := indexOfBy?_spell h (inner ++ sought)
    rw [show Text.indexOfBy? (· == ·) sought (inner ++ sought) = some inner.length from hhere,
      Option.map_some, List.take_left] at hspelled
    rw [← List.append_nil (spell (inner ++ sought))] at hspelled
    exact Text.indexOfBy?_append_of_le hspelled (by simp [hkept]) more
  · exact .inr ⟨indexOfBy?_spell_eq_none h hnone, rfl⟩

end Search

end EmojiEntities

open EmojiEntities

/-! ## Tags -/

/-- A value with references. -/
def WrittenValue.spelled (v : WrittenValue) : WrittenValue := ⟨v.sign, v.quote, spell v.text⟩

/-- An attribute with references. -/
def WrittenAttribute.spelled (a : WrittenAttribute) : WrittenAttribute :=
  ⟨spell a.name, a.value.map WrittenValue.spelled⟩

/-- A part of a tag with references. -/
def TagPart.spelled : TagPart → TagPart
  | stray c => stray c
  | named a => named a.spelled

/-- A tag with references. -/
def WrittenTag.spelled (t : WrittenTag) : WrittenTag :=
  ⟨t.name, t.parts.map TagPart.spelled, t.selfClosing⟩

theorem WrittenValue.Fits.written_spelled {v : WrittenValue} {rest : List Char} (h : v.Fits rest) :
    v.spelled.written = spell v.written := by
  obtain ⟨before, behind, hsign, hbefore, hbehind⟩ := h.sign
  have hblank {cs : List Char} (hcs : ∀ c ∈ cs, Text.isTagBlank c = true) : spell cs = cs :=
    spell_of_forall fun c hc => written_of_pos (by decide) (hcs c hc)
  have hmark : spell v.sign = v.sign := by
    rw [hsign, spell_append, spell_cons, hblank hbefore, hblank hbehind]
    rfl
  have hquote : spell v.quote.toList = v.quote.toList := by
    cases hv : v.quote with
    | none => rfl
    | some q =>
      rcases (h.quoted q hv).1 with rfl | rfl <;> decide
  simp only [WrittenValue.written, WrittenValue.spelled, spell_append, hmark, hquote]

theorem WrittenAttribute.Fits.written_spelled {a : WrittenAttribute} {rest : List Char}
    (h : a.Fits rest) : a.spelled.written = spell a.written := by
  simp only [WrittenAttribute.written, WrittenAttribute.spelled, spell_append]
  cases hvalue : a.value with
  | none => rfl
  | some v => exact congrArg _ (h.value v hvalue).written_spelled

theorem WrittenValue.Fits.spelled {v : WrittenValue} {rest : List Char} (h : v.Fits rest) :
    v.spelled.Fits (spell rest) := by
  refine ⟨h.sign, fun q hq => ⟨(h.quoted q hq).1, ?_⟩, fun hbare => ?_⟩
  · have hreferences : ∀ q, q = '"' ∨ q = '\'' → ∀ entry ∈ table, q ∉ entry.2.toList := by
      rintro q (rfl | rfl) <;> decide
    exact not_mem_spell (hreferences q (h.quoted q hq).1) (h.quoted q hq).2
  · obtain ⟨htext, hrest, c, hc, hblank, hdouble, hsingle⟩ := h.bare hbare
    refine ⟨forall_spell (by decide) htext, IsBlind.forall_head? (by decide) hrest, initial c, ?_, ?_⟩
    · show (spell v.text ++ spell rest).head? = _
      rw [← spell_append, head?_spell, hc]
      rfl
    · refine ⟨(IsBlind.apply_initial (by decide) c).trans hblank, ?_, ?_⟩
      · exact (initial_eq_iff (by decide) c).not.2 hdouble
      · exact (initial_eq_iff (by decide) c).not.2 hsingle

theorem WrittenAttribute.Fits.spelled {a : WrittenAttribute} {rest : List Char} (h : a.Fits rest) :
    a.spelled.Fits (spell rest) := by
  refine ⟨fun hnil => h.name_ne_nil (spell_eq_nil_iff.1 hnil), forall_spell (by decide) h.name,
    fun v hv => ?_, fun hnone => ?_⟩
  · obtain ⟨v, hvalue, rfl⟩ := Option.map_eq_some_iff.1 hv
    exact (h.value v hvalue).spelled
  · obtain ⟨hnext, hsign⟩ := h.bare (Option.map_eq_none_iff.1 hnone)
    refine ⟨IsBlind.forall_head? (by decide) hnext, ?_⟩
    rw [IsBlind.dropWhile_spell (by decide) (by decide)]
    -- Whether an equality sign stands in front is a blind test.
    exact (head?_spell_eq_some_iff (by decide)).not.2 hsign

theorem TagPart.Fit.written_spelled {parts : List TagPart} {rest : List Char} (h : Fit parts rest) :
    (parts.map TagPart.spelled).flatMap TagPart.written =
      spell (parts.flatMap TagPart.written) := by
  induction parts with
  | nil => rfl
  | cons part parts ih =>
    cases part with
    | stray c =>
      obtain ⟨hstray, -, hparts⟩ := h
      have hkept : EmojiEntities.written c = [c] := written_of_pos (by decide) hstray
      rw [List.map_cons, List.flatMap_cons, ih hparts, List.flatMap_cons, spell_append]
      simp [TagPart.spelled, TagPart.written, spell, hkept]
    | named a =>
      rw [List.map_cons, List.flatMap_cons, ih h.2, List.flatMap_cons, spell_append]
      exact congrArg (· ++ _) h.1.written_spelled

theorem TagPart.Fit.spelled {parts : List TagPart} {rest : List Char} (h : Fit parts rest) :
    Fit (parts.map TagPart.spelled) (spell rest) := by
  induction parts with
  | nil => trivial
  | cons part parts ih =>
    cases part with
    | stray c =>
      obtain ⟨hstray, hslash, hparts⟩ := h
      refine ⟨hstray, fun hc heq => ?_, ih hparts⟩
      rw [hparts.written_spelled, ← spell_append] at heq
      exact hslash hc ((head?_spell_eq_some_iff (by decide)).1 heq)
    | named a =>
      refine ⟨?_, ih h.2⟩
      have hfits := h.1.spelled
      rwa [spell_append, ← h.2.written_spelled] at hfits

namespace WrittenTag

variable {t : WrittenTag}

theorem spell_closing (selfClosing : Bool) : spell (closing selfClosing) = closing selfClosing := by
  cases selfClosing <;> decide

theorem Fits.written_spelled (h : t.Fits) : t.spelled.written = spell t.written := by
  have hname : spell t.name = t.name :=
    spell_of_forall fun c hc => written_of_pos (by decide) (h.name c hc)
  have hbegin : EmojiEntities.written '<' = ['<'] := by decide
  simp only [WrittenTag.written, List.cons_append, spell_cons, spell_append, hname, spell_closing,
    ← h.parts.written_spelled, hbegin, List.nil_append]
  rfl

/-- **A tag with references is read** as it is meant. -/
theorem Fits.spelled (h : t.Fits) : t.spelled.Fits := by
  have hparts := h.parts.spelled
  rw [spell_closing] at hparts
  refine ⟨h.letter, h.name, ?_, hparts⟩
  have hend := IsBlind.forall_head? (by decide) h.nameEnd
  rwa [spell_append, spell_closing, ← h.parts.written_spelled] at hend

end WrittenTag

/-! ## Pieces -/

namespace MarkupPiece

/-- The pieces that a piece becomes. -/
def spelled : MarkupPiece → List MarkupPiece
  | plain c => (EmojiEntities.written c).map plain
  | startTag t raw => [startTag t.spelled (spell raw)]
  | endTag name body => [endTag name (spell body)]
  | comment body => [comment (spell body)]
  | declaration body => [declaration (spell body)]

variable {p : MarkupPiece} {ps : List MarkupPiece}

theorem FitsBefore.text_spelled (h : p.FitsBefore ps) : text p.spelled = spell p.written := by
  have hkept : EmojiEntities.written '<' = ['<'] ∧ EmojiEntities.written '/' = ['/'] ∧
      EmojiEntities.written '!' = ['!'] ∧ EmojiEntities.written '-' = ['-'] := by
    decide
  cases p with
  | plain c => simp [spelled, text, spell, written, List.flatMap_map]
  | startTag t raw => simp [spelled, text, written, h.1.written_spelled]
  | endTag name body =>
    have hname : spell name = name :=
      spell_of_forall fun c hc => written_of_pos (by decide) (h.2.1 c hc)
    simp [spelled, text, written, spell_cons, hkept, hname]
  | comment body => simp [spelled, text, written, spell_cons, hkept]
  | declaration body => simp [spelled, text, written, spell_cons, hkept]

theorem Fit.text_spelled (h : Fit ps) : text (ps.flatMap spelled) = spell (text ps) := by
  induction ps with
  | nil => rfl
  | cons p ps ih =>
    rw [List.flatMap_cons, text_append, h.1.text_spelled, ih h.2, text_cons, spell_append]

/-- The front of the end tag of an element with raw text cannot be found in references. -/
theorem avoids_endTag {element : String} (h : element ∈ Token.rawElements) :
    avoids Text.sameFold ('<' :: '/' :: element.toList) = true := by
  revert element
  decide +kernel

/-- Raw text still ends where it did. -/
theorem RawFits.spelled {element : String} {raw : List Char} (helement : element ∈ Token.rawElements)
    (h : RawFits element raw ps) : RawFits element (spell raw) (ps.flatMap spelled) := by
  refine ⟨indexOfBy?_spell_eq_none (avoids_endTag helement) h.1, ?_⟩
  rcases h.2 with rfl | ⟨name, body, qs, rfl, hname⟩
  · exact .inl rfl
  · exact .inr ⟨name, spell body, qs.flatMap spelled, rfl, hname⟩

theorem stands_plains {cs : List Char} (h : '<' ∉ cs) : Stands (cs.map plain) := by
  induction cs with
  | nil => exact .nil
  | cons c cs ih =>
    obtain ⟨hc, hcs⟩ := not_or.1 fun hmem => h (List.mem_cons.2 hmem)
    exact (Stands.plain fun heq => hc heq.symm).append (ih hcs)

theorem FitsBefore.spelled (h : p.FitsBefore ps) (hfit : Fit ps) (hps : Fit (ps.flatMap spelled)) :
    Fit (p.spelled ++ ps.flatMap spelled) := by
  have htext := hfit.text_spelled
  have hend : avoids (· == ·) ['>'] = true ∧ avoids (· == ·) ['-', '-', '>'] = true := by decide
  have hkept : spell ['>'] = ['>'] ∧ spell ['-', '-', '>'] = ['-', '-', '>'] := by decide
  cases p with
  | plain c =>
    rcases written_cases c with ⟨hwritten, -⟩ | ⟨entry, hentry, rfl, href⟩
    · rw [MarkupPiece.spelled, hwritten]
      refine ⟨fun hc => ?_, hps⟩
      show begins (text (ps.flatMap MarkupPiece.spelled)) = false
      rw [htext, begins_spell]
      exact h hc
    · have hnone : ∀ entry ∈ table, '<' ∉ entry.2.toList := by decide
      rw [MarkupPiece.spelled, href]
      exact stands_plains (hnone entry hentry) _ hps
  | startTag t raw =>
    refine ⟨⟨h.1.spelled, ?_⟩, hps⟩
    have hraw := h.2
    by_cases hisRaw : t.IsRaw
    · rw [if_pos hisRaw] at hraw
      rw [if_pos (show t.spelled.IsRaw from hisRaw)]
      exact hraw.spelled hisRaw.2
    · rw [if_neg hisRaw] at hraw
      rw [if_neg (show ¬ t.spelled.IsRaw from hisRaw), hraw]
      rfl
  | endTag name body =>
    refine ⟨⟨h.1, h.2.1, IsBlind.forall_head? (by decide) h.2.2.1, ?_⟩, hps⟩
    show Cursor.EndsAt _ _ (text (ps.flatMap MarkupPiece.spelled))
    rw [htext]
    exact endsAt_spell hend.1 hkept.1 h.2.2.2
  | comment body =>
    refine ⟨?_, hps⟩
    show Cursor.EndsAt _ _ (text (ps.flatMap MarkupPiece.spelled))
    rw [htext]
    exact endsAt_spell hend.2 hkept.2 h
  | declaration body =>
    refine ⟨⟨?_, ?_, ?_⟩, hps⟩
    · rw [head?_spell]
      rcases h.1 with hhead | hhead
      · exact .inl (by rw [hhead]; decide)
      · exact .inr (by rw [hhead]; decide)
    · rw [← Text.beginsWithBy_beq_iff, beginsWithBy_spell (by decide), Text.beginsWithBy_beq_iff]
      exact h.2.1
    · show Cursor.EndsAt _ _ (text (ps.flatMap MarkupPiece.spelled))
      rw [htext]
      exact endsAt_spell hend.1 hkept.1 h.2.2

/-- **Pieces with references are read** as they are meant. -/
theorem Fit.spelled (h : Fit ps) : Fit (ps.flatMap spelled) := by
  induction ps with
  | nil => exact h
  | cons p ps ih => exact h.1.spelled h.2 (ih h.2)

/-- **Raw texts receive references** and stay the raw texts of their elements. -/
theorem raws_spelled (element : String) (ps : List MarkupPiece) :
    raws element (ps.flatMap spelled) = (raws element ps).map spell := by
  induction ps with
  | nil => rfl
  | cons p ps ih =>
    rw [List.flatMap_cons, raws_append, raws_cons, List.map_append, ih]
    congr 1
    cases p with
    | plain c =>
      have hnone (cs : List Char) : raws element (cs.map plain) = [] := by
        induction cs with
        | nil => rfl
        | cons c cs ih => exact ih
      exact hnone _
    | startTag t raw =>
      have hraw : t.spelled.IsRaw ↔ t.IsRaw := Iff.rfl
      have hkey : t.spelled.key = t.key := rfl
      simp only [MarkupPiece.spelled, raws_cons, raw?, hraw, hkey, raws_nil, List.append_nil]
      split <;> rfl
    | endTag | comment | declaration => rfl

end MarkupPiece

end MailTemplate
