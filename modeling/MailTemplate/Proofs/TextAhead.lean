import MailTemplate.Proofs.TokenSpans

/-!
# Reading a text in front of a rest

A reader looks at what is ahead of a cursor, and mostly stops long before the end.  Here is said what it
finds when the text ahead is made up of a part and a rest: the characters of a class that stand in
front, the first occurrence of a text, a name in any letter case.

## Main definitions

* `Cursor.EndsAt` — a text runs through the first occurrence of another one.

## Main results

* `Text.indexOfBy?_append_of_le` — the first occurrence stays the first one whatever stands behind it.
* `Text.indexOfBy?_append_begins` — a text is not found earlier than it begins.
* `Text.indexOf?_of_not_infix` — where a text is found that does not occur before.
* `Cursor.run_append`, `Cursor.skip_append` — the characters of a class in front of a rest.
* `Cursor.pastOrFinish_of_endsAt`, `Cursor.exists_endsAt` — the place behind an occurrence.
-/

namespace MailTemplate

/-! ## Searching in front of a rest -/

namespace Text

section

variable {same : Char → Char → Bool} {sought cs more : List Char} {i : Nat}

theorem length_le_of_beginsWithBy (h : beginsWithBy same sought cs = true) :
    sought.length ≤ cs.length := by
  induction sought generalizing cs with
  | nil => exact Nat.zero_le _
  | cons a as ih =>
    cases cs with
    | nil => exact absurd h (by simp [beginsWithBy])
    | cons b bs =>
      simp only [beginsWithBy, Bool.and_eq_true] at h
      exact Nat.succ_le_succ (ih h.2)

/-- Whether a text begins with another one is decided by as many characters as that one has. -/
theorem beginsWithBy_append_of_le (same : Char → Char → Bool) (h : sought.length ≤ cs.length)
    (more : List Char) : beginsWithBy same sought (cs ++ more) = beginsWithBy same sought cs := by
  induction sought generalizing cs with
  | nil => simp [beginsWithBy]
  | cons a as ih =>
    cases cs with
    | nil => exact absurd h (by simp)
    | cons b bs => simp [beginsWithBy, ih (Nat.le_of_succ_le_succ h)]

theorem indexOfBy?_of_begins (h : beginsWithBy same sought cs = true) :
    indexOfBy? same sought cs = some 0 := by
  cases cs with
  | nil => rw [indexOfBy?, if_pos h]
  | cons c cs => rw [indexOfBy?, if_pos h]

theorem begins_drop_of_indexOfBy? (h : indexOfBy? same sought cs = some i) :
    beginsWithBy same sought (cs.drop i) = true := by
  induction cs generalizing i with
  | nil =>
    simp only [indexOfBy?] at h
    split at h
    · next hbegins =>
      obtain rfl := Option.some.inj h
      exact hbegins
    · exact absurd h (by simp)
  | cons c cs ih =>
    simp only [indexOfBy?] at h
    split at h
    · next hbegins =>
      obtain rfl := Option.some.inj h
      exact hbegins
    · obtain ⟨j, hj, rfl⟩ := Option.map_eq_some_iff.1 h
      exact ih hj

/-- **The first occurrence of a text stays the first one** whatever stands behind it. -/
theorem indexOfBy?_append_of_le (h : indexOfBy? same sought (cs ++ more) = some i)
    (hlength : i + sought.length ≤ cs.length) (more' : List Char) :
    indexOfBy? same sought (cs ++ more') = some i := by
  induction cs generalizing i with
  | nil =>
    obtain ⟨hi, hsought⟩ : i = 0 ∧ sought = [] := by simpa using hlength
    rw [hi, hsought]
    exact indexOfBy?_of_begins rfl
  | cons c cs ih =>
    have hbegins (behind : List Char) (hle : sought.length ≤ (c :: cs).length) :=
      beginsWithBy_append_of_le same hle behind
    have hle : sought.length ≤ (c :: cs).length := Nat.le_trans (Nat.le_add_left _ i) hlength
    rw [List.cons_append, indexOfBy?] at h ⊢
    rw [← List.cons_append, hbegins _ hle] at h ⊢
    split at h
    · next hfront => rw [if_pos hfront]; exact h
    · next hfront =>
      obtain ⟨j, hj, rfl⟩ := Option.map_eq_some_iff.1 h
      rw [if_neg hfront, ih hj (by simp at hlength; omega)]
      rfl

theorem indexOfBy?_take (hsought : sought ≠ []) (h : indexOfBy? same sought cs = some i) :
    indexOfBy? same sought (cs.take i) = none := by
  have hnil : beginsWithBy same sought [] = false := by
    cases sought with
    | nil => exact absurd rfl hsought
    | cons a as => rfl
  induction cs generalizing i with
  | nil => simp [indexOfBy?, hnil]
  | cons c cs ih =>
    rw [indexOfBy?] at h
    split at h
    · obtain rfl := Option.some.inj h
      simp [indexOfBy?, hnil]
    · next hfront =>
      obtain ⟨j, hj, rfl⟩ := Option.map_eq_some_iff.1 h
      rw [List.take_succ_cons, indexOfBy?, if_neg, ih hj]
      · rfl
      · intro hbegins
        refine hfront ?_
        have := beginsWithBy_append_of_le same (length_le_of_beginsWithBy hbegins)
          (cs.drop j)
        rwa [List.cons_append, List.take_append_drop, hbegins] at this

/-- Where a text cannot begin, it is not found. -/
theorem indexOfBy?_append_of_forall {a : Char} {as front : List Char}
    (h : ∀ c ∈ front, same a c = false) (cs : List Char) :
    indexOfBy? same (a :: as) (front ++ cs) =
      (indexOfBy? same (a :: as) cs).map (· + front.length) := by
  induction front with
  | nil => simp
  | cons c front ih =>
    obtain ⟨hc, hfront⟩ := List.forall_mem_cons.1 h
    rw [List.cons_append, indexOfBy?, ih hfront]
    simp [beginsWithBy, hc, Function.comp_def, Nat.add_assoc]

theorem exists_same_of_beginsWithBy {as bs rest : List Char} {r : Char}
    (h : beginsWithBy same as (bs ++ r :: rest) = true) (hlength : bs.length < as.length) :
    ∃ a ∈ as, same a r = true := by
  induction as generalizing bs with
  | nil => exact absurd hlength (Nat.not_lt_zero _)
  | cons a as ih =>
    cases bs with
    | nil =>
      simp only [List.nil_append, beginsWithBy, Bool.and_eq_true] at h
      exact ⟨a, List.mem_cons_self, h.1⟩
    | cons b bs =>
      simp only [List.cons_append, beginsWithBy, Bool.and_eq_true] at h
      obtain ⟨a', ha', hsame⟩ := ih h.2 (Nat.lt_of_succ_lt_succ hlength)
      exact ⟨a', List.mem_cons_of_mem a ha', hsame⟩

/-- A text that does not occur in a first part, and cannot begin there and go on behind it, is found at
the end of the part. -/
theorem indexOfBy?_append_begins {a r : Char} {as rest : List Char}
    (hno : indexOfBy? same (a :: as) cs = none) (has : ∀ b ∈ as, same b r = false)
    (hrest : beginsWithBy same (a :: as) (r :: rest) = true) :
    indexOfBy? same (a :: as) (cs ++ r :: rest) = some cs.length := by
  induction cs with
  | nil => exact indexOfBy?_of_begins hrest
  | cons c cs ih =>
    rw [indexOfBy?] at hno
    split at hno
    · exact absurd hno (by simp)
    · next hfront =>
      rw [List.cons_append, indexOfBy?, if_neg, ih (Option.map_eq_none_iff.1 hno)]
      · rfl
      · intro hbegins
        rcases Nat.lt_or_ge cs.length as.length with hlt | hge
        · simp only [beginsWithBy, Bool.and_eq_true] at hbegins
          obtain ⟨b, hb, hsame⟩ := exists_same_of_beginsWithBy hbegins.2 hlt
          exact absurd hsame (by simp [has b hb])
        · rw [← List.cons_append, beginsWithBy_append_of_le _ (by simpa using hge)] at hbegins
          exact hfront hbegins

end

/-- Where a text does not occur that a character cannot be part of, it does not occur around that
character either. -/
theorem not_infix_append_cons {sought front back : List Char} {c : Char} (hc : c ∉ sought)
    (hfront : ¬ sought <:+: front) (hback : ¬ sought <:+: back) :
    ¬ sought <:+: front ++ c :: back := by
  rintro ⟨before, after, h⟩
  rw [List.append_assoc] at h
  rcases List.append_eq_append_iff.1 h with ⟨gap, rfl, hgap⟩ | ⟨gap, rfl, hgap⟩
  · -- The occurrence begins before the character, so it ends there.
    rcases List.append_eq_append_iff.1 hgap with ⟨rest, rfl, -⟩ | ⟨rest, rfl, hrest⟩
    · exact hfront ⟨before, rest, by rw [List.append_assoc]⟩
    · cases rest with
      | nil => exact hfront ⟨before, [], by simp⟩
      | cons d rest =>
        obtain ⟨rfl, -⟩ := List.cons.inj hrest
        exact hc (by simp)
  · cases gap with
    | nil =>
      cases sought with
      | nil => exact hfront (List.nil_infix)
      | cons d sought =>
        obtain ⟨rfl, -⟩ := List.cons.inj hgap
        exact hc List.mem_cons_self
    | cons d gap =>
      have hlater : back = gap ++ (sought ++ after) := (List.cons.inj hgap).2
      exact hback ⟨gap, after, by rw [hlater, List.append_assoc]⟩

theorem not_infix_append_of_head? {sought front back : List Char}
    (h : ∀ c ∈ back.head?, c ∉ sought) (hfront : ¬ sought <:+: front)
    (hback : ¬ sought <:+: back) : ¬ sought <:+: front ++ back := by
  cases back with
  | nil => rwa [List.append_nil]
  | cons c back =>
    exact not_infix_append_cons (h c rfl) hfront fun hlater =>
      hback (hlater.trans (List.suffix_cons c back).isInfix)

theorem not_infix_append_of_getLast? {sought front back : List Char}
    (h : ∀ c ∈ front.getLast?, c ∉ sought) (hfront : ¬ sought <:+: front)
    (hback : ¬ sought <:+: back) : ¬ sought <:+: front ++ back := by
  rcases List.eq_nil_or_concat front with rfl | ⟨front, c, rfl⟩
  · exact hback
  · rw [List.concat_eq_append] at h hfront ⊢
    rw [List.append_assoc]
    refine not_infix_append_cons (h c (by simp)) (fun hbefore => hfront ?_) hback
    exact hbefore.trans (List.prefix_append front [c]).isInfix

/-- The end of a comment does not reach into a text without dashes. -/
theorem not_infix_of_no_dash {inner : List Char} (h : '-' ∉ inner) :
    ¬ ['-', '-', '>'] <:+: inner ++ ['-', '-'] := by
  rintro ⟨before, after, heq⟩
  rw [List.append_assoc] at heq
  rcases List.append_eq_append_iff.1 heq with ⟨gap, rfl, hgap⟩ | ⟨gap, rfl, hgap⟩
  · cases gap with
    | nil => exact absurd hgap (by simp)
    | cons c gap =>
      obtain ⟨rfl, -⟩ := List.cons.inj hgap
      exact h (by simp)
  · have hlength := congrArg List.length hgap
    simp only [List.length_append, List.length_cons, List.length_nil] at hlength
    omega

/-- A text is found first where it stands if it does not occur before that, nor reaches into it. -/
theorem indexOf?_of_not_infix {sought inner : List Char}
    (h : ¬ sought <:+: inner ++ sought.dropLast) (rest : List Char) :
    indexOf? sought (inner ++ sought ++ rest) = some inner.length := by
  unfold indexOf?
  induction inner with
  | nil =>
    refine indexOfBy?_of_begins (beginsWithBy_beq_iff.2 ?_)
    exact List.prefix_append sought rest
  | cons c inner ih =>
    have hbegins : ¬ sought <+: c :: (inner ++ sought ++ rest) := by
      intro hfirst
      have hwhole : c :: inner ++ sought.dropLast <+: c :: (inner ++ sought ++ rest) := by
        rw [List.cons_append, List.append_assoc]
        exact (List.prefix_cons_inj c).2 ((List.prefix_append_right_inj inner).2
          ((List.dropLast_prefix sought).trans (List.prefix_append sought rest)))
      refine h (List.prefix_of_prefix_length_le hfirst hwhole ?_).isInfix
      simp only [List.length_append, List.length_cons, List.length_dropLast]
      omega
    have hrest : ¬ sought <:+: inner ++ sought.dropLast := fun hinside =>
      h (hinside.trans (List.suffix_cons c _).isInfix)
    have hfound := ih hrest
    rw [List.cons_append, List.cons_append, indexOfBy?, hfound,
      if_neg (mt beginsWithBy_beq_iff.1 hbegins)]
    rfl

end Text

namespace Cursor

variable {o : Nat} {as rest : List Char} {p : Char → Bool}

theorem advance_append (o : Nat) (as rest : List Char) :
    (⟨o, as ++ rest⟩ : Cursor).advance as.length = ⟨o + Text.byteLength as, rest⟩ := by
  simp [advance]

theorem run_append (has : ∀ c ∈ as, p c = true) (hrest : ∀ c ∈ rest.head?, p c = false) :
    (⟨o, as ++ rest⟩ : Cursor).run p = as := by
  rw [run, List.takeWhile_append_of_pos has]
  cases rest with
  | nil => simp
  | cons c rest => simp [hrest c rfl]

theorem skip_append (has : ∀ c ∈ as, p c = true) (hrest : ∀ c ∈ rest.head?, p c = false) :
    (⟨o, as ++ rest⟩ : Cursor).skip p = ⟨o + Text.byteLength as, rest⟩ := by
  rw [skip, run_append has hrest, advance_append]

theorem head?_skip (c : Cursor) (p : Char → Bool) : ∀ d ∈ (c.skip p).ahead.head?, p d = false := by
  intro d hd
  have hhead := List.head?_dropWhile_not p c.ahead
  rw [← ahead_skip, Option.mem_def.1 hd] at hhead
  simpa using hhead

theorem of_mem_run {c : Cursor} : ∀ d ∈ c.run p, p d = true :=
  List.all_eq_true.1 List.all_takeWhile

theorem ahead_eq_run_append (c : Cursor) (p : Char → Bool) :
    c.ahead = c.run p ++ (c.skip p).ahead := (c.passes_skip p).ahead

/-- A text runs through the first occurrence of another one, or, if that does not occur, to the end of
the source. -/
def EndsAt (sought text rest : List Char) : Prop :=
  (∃ inner, text = inner ++ sought ∧
    ∀ more, Text.indexOf? sought (text ++ more) = some inner.length) ∨
  (Text.indexOf? sought text = none ∧ rest = [])

theorem pastOrFinish_of_endsAt {sought : List Char} (o : Nat) (h : EndsAt sought as rest) :
    (⟨o, as ++ rest⟩ : Cursor).pastOrFinish sought = ⟨o + Text.byteLength as, rest⟩ := by
  rcases h with ⟨inner, rfl, hindex⟩ | ⟨hindex, rfl⟩
  · rw [pastOrFinish, past?, hindex rest]
    have hadvance := advance_append o (inner ++ sought) rest
    rwa [List.length_append] at hadvance
  · rw [List.append_nil, pastOrFinish, past?, hindex]
    have hadvance := advance_append o as []
    rwa [List.append_nil] at hadvance

/-- What holds the other text ends there, whatever follows. -/
theorem EndsAt.of_contains {sought : List Char} (h : EndsAt sought as rest) (hinside : sought <:+: as)
    (rest' : List Char) : EndsAt sought as rest' := by
  refine .inl (h.resolve_right fun hopen => ?_)
  have hfound := Text.contains_iff.2 hinside
  rw [Text.contains, hopen.1] at hfound
  exact absurd hfound (by simp)

theorem exists_endsAt (c : Cursor) (sought : List Char) :
    ∃ text, c.ahead = text ++ (c.pastOrFinish sought).ahead ∧
      EndsAt sought text (c.pastOrFinish sought).ahead := by
  unfold pastOrFinish past?
  cases hindex : Text.indexOf? sought c.ahead with
  | none => exact ⟨c.ahead, by simp [finish], .inr ⟨hindex, by simp [finish]⟩⟩
  | some i =>
    -- The source is cut behind the first occurrence.
    obtain ⟨rest, hrest⟩ := Text.prefix_drop_of_indexOf? hindex
    have hlength := Text.length_le_of_beginsWithBy (Text.begins_drop_of_indexOfBy? hindex)
    have hi : i ≤ c.ahead.length := Text.indexOfBy?_le hindex
    rw [List.length_drop] at hlength
    have htake : c.ahead.take (i + sought.length) = c.ahead.take i ++ sought := by
      rw [List.take_add, ← hrest, List.take_left]
    refine ⟨c.ahead.take i ++ sought, ?_, .inl ⟨c.ahead.take i, rfl, fun more => ?_⟩⟩
    · rw [← htake]
      exact (List.take_append_drop _ _).symm
    · rw [List.length_take_of_le hi, ← htake]
      have hfound : Text.indexOf? sought
          (c.ahead.take (i + sought.length) ++ c.ahead.drop (i + sought.length)) = some i := by
        rwa [List.take_append_drop]
      exact Text.indexOfBy?_append_of_le hfound (by rw [List.length_take]; omega) more

end Cursor

/-! ## Letter case -/

namespace Text

/-- A character in lower case is the character itself, or both are letters. -/
theorem toLower_cases (c : Char) :
    c.toLower = c ∨ c.isAlpha = true ∧ c.toLower.isLower = true := by
  unfold Char.toLower
  split
  · next h =>
    have hhigh : c.val.toNat ≤ 'Z'.val.toNat := h.2
    have hlow : 'A'.val.toNat ≤ c.val.toNat := h.1
    have hsum : (c.val + ('a'.val - 'A'.val)).toNat = c.val.toNat + 32 := by
      rw [UInt32.toNat_add]
      exact Nat.mod_eq_of_lt (Nat.lt_of_le_of_lt (Nat.add_le_add_right hhigh 32) (by decide))
    have hupper : c.isUpper = true := decide_eq_true h
    refine .inr ⟨Bool.or_eq_true_iff.2 (.inl hupper), ?_⟩
    refine Bool.and_eq_true_iff.2 ⟨decide_eq_true ?_, decide_eq_true ?_⟩
    · show 'a'.val.toNat ≤ (c.val + ('a'.val - 'A'.val)).toNat
      rw [hsum]
      exact Nat.add_le_add_right hlow 32
    · show (c.val + ('a'.val - 'A'.val)).toNat ≤ 'z'.val.toNat
      rw [hsum]
      exact Nat.add_le_add_right hhigh 32
  · exact .inl rfl

/-- A character that is no letter is equal to no other one, whatever the case. -/
theorem eq_of_sameFold {a c : Char} (ha : a.toLower = a) (hletter : a.isLower = false)
    (h : sameFold a c = true) : c = a := by
  simp only [sameFold, beq_iff_eq, ha] at h
  rcases toLower_cases c with hc | ⟨-, hc⟩
  · rw [h, hc]
  · rw [← h, hletter] at hc
    exact absurd hc (by simp)

/-- What begins with a `<` is not found in or behind a text without one if it is not found behind it. -/
theorem indexOfFold?_append_of_not_mem {sought front cs : List Char} (h : '<' ∉ front)
    (hcs : indexOfFold? ('<' :: sought) cs = none) :
    indexOfFold? ('<' :: sought) (front ++ cs) = none := by
  have hfront : ∀ c ∈ front, sameFold '<' c = false := by
    refine fun c hc => Bool.eq_false_iff.2 fun hsame => h ?_
    rwa [← eq_of_sameFold (by decide) (by decide) hsame]
  rw [indexOfFold?, indexOfBy?_append_of_forall hfront]
  exact Option.map_eq_none_iff.2 hcs

theorem indexOfFold?_eq_none_of_not_mem (sought : List Char) {cs : List Char} (h : '<' ∉ cs) :
    indexOfFold? ('<' :: sought) cs = none := by
  rw [← List.append_nil cs]
  exact indexOfFold?_append_of_not_mem h rfl

theorem isNameChar_of_sameFold {a c : Char} (ha : a.isLower = true) (hlower : a.toLower = a)
    (h : sameFold a c = true) : isNameChar c = true ∧ c.toLower = a := by
  simp only [sameFold, beq_iff_eq, hlower] at h
  refine ⟨?_, h.symm⟩
  rcases toLower_cases c with hc | ⟨hc, -⟩
  · rw [← hc, ← h]
    have halpha : a.isAlpha = true := Bool.or_eq_true_iff.2 (.inr ha)
    simp [isNameChar, Char.isAlphanum, halpha]
  · simp [isNameChar, Char.isAlphanum, hc]

/-- What looks like the front of an end tag begins with `</`, and then with what looks like the name. -/
theorem exists_of_begins_endTag {sought cs : List Char}
    (h : beginsWithBy sameFold ('<' :: '/' :: sought) cs = true) :
    ∃ more, cs = '<' :: '/' :: more ∧ beginsWithBy sameFold sought more = true := by
  rcases cs with _ | ⟨x, _ | ⟨y, more⟩⟩
  · simp [beginsWithBy] at h
  · simp [beginsWithBy] at h
  · simp only [beginsWithBy, Bool.and_eq_true] at h
    obtain rfl := eq_of_sameFold (by decide) (by decide) h.1
    obtain rfl := eq_of_sameFold (by decide) (by decide) h.2.1
    exact ⟨more, rfl, h.2.2⟩

section

variable {as name more : List Char}

theorem beginsWithBy_of_prefix_lower (has : ∀ a ∈ as, a.isLower = true ∧ a.toLower = a)
    (h : as <+: lower name) : beginsWithBy sameFold as (name ++ more) = true := by
  induction as generalizing name with
  | nil => rfl
  | cons a as ih =>
    cases name with
    | nil => exact absurd h (by simp [lower])
    | cons c name =>
      obtain ⟨hac, hprefix⟩ := List.cons_prefix_cons.1 h
      have ha := (has a List.mem_cons_self).2
      simp only [List.cons_append, beginsWithBy, Bool.and_eq_true, sameFold, beq_iff_eq]
      exact ⟨ha.trans hac, ih (fun b hb => has b (List.mem_cons_of_mem a hb)) hprefix⟩

/-- A name in lower case that a text begins with, whatever its case is, lies in the name that the text
begins with. -/
theorem prefix_lower_of_beginsWithBy (has : ∀ a ∈ as, a.isLower = true ∧ a.toLower = a)
    (hmore : ∀ c ∈ more.head?, isNameChar c = false)
    (h : beginsWithBy sameFold as (name ++ more) = true) : as <+: lower name := by
  induction as generalizing name with
  | nil => exact List.nil_prefix
  | cons a as ih =>
    obtain ⟨hlower, ha⟩ := has a List.mem_cons_self
    cases name with
    | nil =>
      cases more with
      | nil => exact absurd h (by simp [beginsWithBy])
      | cons c more =>
        simp only [List.nil_append, beginsWithBy, Bool.and_eq_true] at h
        have hc := (isNameChar_of_sameFold hlower ha h.1).1
        exact absurd hc (by simp [hmore c rfl])
    | cons c name =>
      simp only [List.cons_append, beginsWithBy, Bool.and_eq_true] at h
      refine List.cons_prefix_cons.2 ⟨(isNameChar_of_sameFold hlower ha h.1).2.symm, ?_⟩
      exact ih (fun b hb => has b (List.mem_cons_of_mem a hb)) h.2

end

end Text

namespace Token

theorem rawElements_isLower :
    ∀ element ∈ rawElements, element.toList ≠ [] ∧
      ∀ a ∈ element.toList, a.isLower = true ∧ a.toLower = a := by
  have hall : (rawElements.all fun element => !element.toList.isEmpty &&
      element.toList.all fun a => a.isLower && a.toLower == a) = true := by decide
  intro element helement
  have hone := List.all_eq_true.1 hall element helement
  rw [Bool.and_eq_true, Bool.not_eq_true', List.isEmpty_eq_false_iff] at hone
  refine ⟨hone.1, fun a ha => ?_⟩
  simpa using List.all_eq_true.1 hone.2 a ha

end Token
end MailTemplate
