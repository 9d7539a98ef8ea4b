import MailTemplate.Proofs.DecodedStyles

/-!
# The name of an entry

The name that an entry of a font list writes is read without references to quotes, without blanks around it
and without the quotes around it.  An entry with quotes in the places of the references has the name that it
had before, unless a quote stands inside of the name.

## Main definitions

* `Css.unreferenced` — an entry without references to quotes.
* `Css.plainName` — the name that such an entry writes.
* `Css.IsFrame` — what can stand on either side of a name.

## Main results

* `Css.exists_frames`, `Css.plainName_eq` — an entry is its name between frames, and the other way round.
* `Css.fontName_of_decoded` — the name of an entry that was decoded.
-/

namespace MailTemplate

/-! ## Replacing -/

namespace Text

variable {sought by_ a b cs : List Char} {c : Char}

theorem replaceAll_cons (h : ¬ sought <+: c :: cs) :
    replaceAll sought by_ (c :: cs) = c :: replaceAll sought by_ cs := by
  rw [replaceAll, if_neg fun hfound => h (beginsWithBy_beq_iff.1 hfound.2)]

theorem replaceAll_found (hne : sought ≠ []) (cs : List Char) :
    replaceAll sought by_ (sought ++ cs) = by_ ++ replaceAll sought by_ cs := by
  obtain ⟨first, more, rfl⟩ := List.exists_cons_of_ne_nil hne
  rw [List.cons_append, replaceAll, if_pos ⟨hne, beginsWithBy_beq_iff.2 (List.prefix_append _ cs)⟩]
  simp

/-- A front without the first character of what is sought stays. -/
theorem replaceAll_append_of_not_mem (h : ∀ c ∈ sought.head?, c ∉ a) (hne : sought ≠ []) (b : List Char) :
    replaceAll sought by_ (a ++ b) = a ++ replaceAll sought by_ b := by
  obtain ⟨first, more, rfl⟩ := List.exists_cons_of_ne_nil hne
  replace h : first ∉ a := h first rfl
  induction a with
  | nil => rfl
  | cons c a ih =>
    rw [List.mem_cons, not_or] at h
    rw [List.cons_append, replaceAll_cons, ih h.2, List.cons_append]
    exact fun hprefix => h.1 (List.cons_prefix_cons.1 hprefix).1

/-- Replacing goes on anew at a character with which what is sought does not go on. -/
theorem replaceAll_append_of_head? (h : ∀ c ∈ b.head?, c ∉ sought.tail) (hne : sought ≠ []) :
    replaceAll sought by_ (a ++ b) = replaceAll sought by_ a ++ replaceAll sought by_ b := by
  induction a using replaceAll.induct sought with
  | case1 => rw [replaceAll, List.nil_append, List.nil_append]
  | case2 c a hfound ih =>
    obtain ⟨more, hmore⟩ := beginsWithBy_beq_iff.1 hfound.2
    have hrest : a.drop (sought.length - 1) = more := by
      obtain ⟨first, tail, rfl⟩ := List.exists_cons_of_ne_nil hne
      obtain ⟨-, rfl⟩ := List.cons.inj hmore
      rw [List.length_cons, Nat.add_sub_cancel, List.append_eq, List.drop_left]
    rw [hrest] at ih
    rw [← hmore, List.append_assoc, replaceAll_found hne, replaceAll_found hne, ih, List.append_assoc]
  | case3 c a hnot ih =>
    have hnone : ¬ sought <+: c :: a := fun hbegins => hnot ⟨hne, beginsWithBy_beq_iff.2 hbegins⟩
    rw [replaceAll_cons hnone, List.cons_append, List.cons_append, replaceAll_cons, ih]
    rintro ⟨more, hmore⟩
    -- What is sought would begin in the front and end behind it.
    rw [← List.cons_append] at hmore
    rcases List.append_eq_append_iff.1 hmore with ⟨x, hx, -⟩ | ⟨x, hx, hb⟩
    · exact hnone ⟨x, hx.symm⟩
    · cases x with
      | nil => exact hnone ⟨[], by rw [hx, List.append_nil, List.append_nil]⟩
      | cons d x =>
        refine h d (by rw [hb]; rfl) ?_
        rw [hx, List.cons_append, List.tail_cons]
        exact List.mem_append_right _ List.mem_cons_self

end Text

namespace Css

variable {a cs entry name : List Char} {c : Char}

/-! ## The name of an entry -/

/-- A quote of either kind. -/
def isQuote (c : Char) : Bool := c == '"' || c == '\''

/-- An entry without references to quotes. -/
def unreferenced (entry : List Char) : List Char :=
  Text.replaceAll "&#39;".toList [] (Text.replaceAll "&quot;".toList [] entry)

/-- The name that an entry without references writes. -/
def plainName (entry : List Char) : List Char :=
  Text.trim (Text.dropEndWhile isQuote ((Text.trim entry).dropWhile isQuote))

theorem fontName_eq (entry : List Char) : fontName entry = plainName (unreferenced entry) := rfl

/-- Blanks, quotes, and blanks again: what can stand on either side of a name. -/
def IsFrame (text : List Char) : Prop :=
  ∃ b q b', text = b ++ (q ++ b') ∧ (∀ c ∈ b, Text.isBlank c = true) ∧ (∀ c ∈ q, isQuote c = true) ∧
    ∀ c ∈ b', Text.isBlank c = true

/-- **An entry is its name** with such frames around it. -/
theorem exists_frames (entry : List Char) :
    ∃ l r, entry = l ++ (plainName entry ++ r) ∧ IsFrame l ∧ IsFrame r := by
  obtain ⟨b₁, b₄, hentry, hb₁, hb₄⟩ := Text.exists_trim entry
  rw [plainName]
  generalize Text.trim entry = inner at hentry ⊢
  obtain ⟨q₂, hend, hq₂⟩ := Text.exists_dropEndWhile isQuote (inner.dropWhile isQuote)
  generalize Text.dropEndWhile isQuote (inner.dropWhile isQuote) = unquoted at hend ⊢
  obtain ⟨b₂, b₃, hname, hb₂, hb₃⟩ := Text.exists_trim unquoted
  have hq₁ : ∀ c ∈ inner.takeWhile isQuote, isQuote c = true := fun _ hc =>
    List.mem_takeWhile_imp hc
  refine ⟨b₁ ++ (inner.takeWhile isQuote ++ b₂), b₃ ++ (q₂ ++ b₄), ?_, ⟨b₁, _, b₂, rfl, hb₁, hq₁, hb₂⟩,
    ⟨b₃, q₂, b₄, rfl, hb₃, hq₂, hb₄⟩⟩
  calc entry = b₁ ++ (inner ++ b₄) := hentry
    _ = b₁ ++ ((inner.takeWhile isQuote ++ (unquoted ++ q₂)) ++ b₄) := by
      rw [← hend, List.takeWhile_append_dropWhile]
    _ = b₁ ++ ((inner.takeWhile isQuote ++ ((b₂ ++ (Text.trim unquoted ++ b₃)) ++ q₂)) ++ b₄) := by
      rw [← hname]
    _ = _ := by simp only [List.append_assoc]

theorem isQuote_eq_false_of_isBlank (h : Text.isBlank c = true) : isQuote c = false := by
  have hplain := isPlain_of_isBlank h
  simp only [isPlain, Bool.not_eq_true', Bool.or_eq_false_iff] at hplain
  rw [isQuote, hplain.1.1.1.1, hplain.1.1.1.2]
  rfl

theorem isBlank_eq_false_of_isQuote (h : isQuote c = true) : Text.isBlank c = false := by
  by_contra hblank
  have hblank : Text.isBlank c = true := by simpa using hblank
  rw [isQuote_eq_false_of_isBlank hblank] at h
  exact absurd h (by decide)

/-- Nothing is left of a frame when blanks, quotes, and blanks again are dropped. -/
theorem IsFrame.dropWhile_eq_nil {l : List Char} (h : IsFrame l) :
    ((l.dropWhile Text.isBlank).dropWhile isQuote).dropWhile Text.isBlank = [] := by
  obtain ⟨b, q, b', rfl, hb, hq, hb'⟩ := h
  rw [List.dropWhile_append_of_pos hb]
  cases q with
  | nil =>
    rw [List.nil_append, List.dropWhile_eq_nil_iff.2 hb']
    rfl
  | cons c q =>
    have hfirst : ∀ d ∈ (c :: q ++ b').head?, Text.isBlank d = false := fun d hd =>
      isBlank_eq_false_of_isQuote (hq d (Option.some.inj hd ▸ List.mem_cons_self))
    have hnext : ∀ d ∈ b'.head?, isQuote d = false := fun d hd =>
      isQuote_eq_false_of_isBlank (hb' d (List.mem_of_mem_head? hd))
    rw [(Text.dropWhile_of_head? hfirst).1, List.dropWhile_append_of_pos hq, (Text.dropWhile_of_head? hnext).1,
      List.dropWhile_eq_nil_iff.2 hb']

theorem IsFrame.reverse {r : List Char} (h : IsFrame r) : IsFrame r.reverse := by
  obtain ⟨b, q, b', rfl, hb, hq, hb'⟩ := h
  refine ⟨b'.reverse, q.reverse, b.reverse, by simp, fun c hc => hb' c (List.mem_reverse.1 hc),
    fun c hc => hq c (List.mem_reverse.1 hc), fun c hc => hb c (List.mem_reverse.1 hc)⟩

/-- What a class drops around a name whose ends are outside the class. -/
theorem dropWhile_frames {p : Char → Bool} {l r : List Char} (hne : name ≠ [])
    (hhead : ∀ c ∈ name.head?, p c = false) (hlast : ∀ c ∈ name.getLast?, p c = false) :
    Text.dropEndWhile p ((l ++ (name ++ r)).dropWhile p) = l.dropWhile p ++ (name ++ Text.dropEndWhile p r) := by
  rw [Text.dropWhile_append_of_head?, ← List.append_assoc, Text.dropEndWhile_append_of_getLast?, List.append_assoc]
  · rw [List.getLast?_append_of_ne_nil _ hne]
    exact hlast
  · rw [List.head?_append_of_ne_nil _ hne]
    exact hhead

/-- An entry of two frames has an empty name. -/
theorem plainName_append {l r : List Char} (hl : IsFrame l) (hr : IsFrame r) : plainName (l ++ r) = [] := by
  obtain ⟨b₁, q₁, b₂, rfl, hb₁, hq₁, hb₂⟩ := hl
  obtain ⟨b₃, q₂, b₄, rfl, hb₃, hq₂, hb₄⟩ := hr
  have hblank : ∀ c ∈ b₂ ++ b₃, Text.isBlank c = true := fun c hc =>
    (List.mem_append.1 hc).elim (hb₂ c) (hb₃ c)
  have htext : b₁ ++ (q₁ ++ b₂) ++ (b₃ ++ (q₂ ++ b₄)) = b₁ ++ ((q₁ ++ ((b₂ ++ b₃) ++ q₂)) ++ b₄) := by
    simp only [List.append_assoc]
  rw [htext, plainName, Text.trim_append hb₁ hb₄]
  generalize b₂ ++ b₃ = gap at hblank
  have hquotes : ∀ {q : List Char}, (∀ c ∈ q, isQuote c = true) → (Text.trim q).dropWhile isQuote = [] :=
    fun h => List.dropWhile_eq_nil_iff.2 fun c hc => h c (Text.mem_of_mem_trim hc)
  have hnone : ∀ c ∈ ([] : List Char), Text.isBlank c = true := fun _ hc => absurd hc List.not_mem_nil
  -- Without quotes on one side the blanks there go as well, and the quotes of the other side after them.
  cases q₁ with
  | nil =>
    have htrim := @Text.trim_append q₂ gap [] hblank hnone
    rw [List.append_nil] at htrim
    rw [List.nil_append, htrim, hquotes hq₂]
    rfl
  | cons c q₁ =>
    rcases List.eq_nil_or_concat' q₂ with rfl | ⟨q₂, d, rfl⟩
    · have htrim := @Text.trim_append (c :: q₁) [] gap hnone hblank
      rw [List.nil_append] at htrim
      rw [List.append_nil, htrim, hquotes hq₁]
      rfl
    · -- With quotes on both sides they go first, and the blanks between them then.
      have hfirst := isBlank_eq_false_of_isQuote (hq₁ c List.mem_cons_self)
      have hlast := isBlank_eq_false_of_isQuote (hq₂ d (List.mem_append_right _ List.mem_cons_self))
      have htrim : Text.trim (c :: q₁ ++ (gap ++ (q₂ ++ [d]))) = c :: q₁ ++ (gap ++ (q₂ ++ [d])) :=
        Text.trim_of_ends rfl (by rw [← List.append_assoc, ← List.append_assoc, List.getLast?_concat]) hfirst hlast
      rw [htrim, List.dropWhile_append_of_pos hq₁]
      have hhead : ∀ c ∈ gap.head?, isQuote c = false := fun c hc =>
        isQuote_eq_false_of_isBlank (hblank c (List.mem_of_mem_head? hc))
      apply Text.trim_of_forall
      cases gap with
      | nil =>
        rw [List.nil_append, List.dropWhile_eq_nil_iff.2 hq₂]
        exact fun c hc => absurd hc List.not_mem_nil
      | cons e gap =>
        rw [(Text.dropWhile_of_head? (by exact hhead)).1, Text.dropEndWhile_append hq₂]
        intro c hc
        obtain ⟨trail, heq, -⟩ := Text.exists_dropEndWhile isQuote (e :: gap)
        exact hblank c (heq ▸ List.mem_append_left _ hc)

/-- **The name between frames.** -/
theorem plainName_eq {l r : List Char} (hl : IsFrame l) (hr : IsFrame r) (htrim : Text.trim name = name)
    (hquote : ∀ c ∈ name, isQuote c = false) : plainName (l ++ (name ++ r)) = name := by
  by_cases hne : name = []
  · subst hne
    exact plainName_append hl hr
  · -- Blanks, quotes, and blanks again go on both sides, and nothing of the name does.
    have hblanks : ∀ l r, Text.trim (l ++ (name ++ r)) =
        l.dropWhile Text.isBlank ++ (name ++ Text.dropEndWhile Text.isBlank r) := fun l r =>
      dropWhile_frames hne (htrim ▸ Text.isBlank_of_mem_head?_trim) (htrim ▸ Text.isBlank_of_mem_getLast?_trim)
    have hquotes : ∀ l r, Text.dropEndWhile isQuote ((l ++ (name ++ r)).dropWhile isQuote) =
        l.dropWhile isQuote ++ (name ++ Text.dropEndWhile isQuote r) := fun l r =>
      dropWhile_frames hne (fun c hc => hquote c (List.mem_of_mem_head? hc))
        fun c hc => hquote c (List.mem_of_mem_getLast? hc)
    have hright : Text.dropEndWhile Text.isBlank (Text.dropEndWhile isQuote (Text.dropEndWhile Text.isBlank r)) =
        [] := by
      simp only [Text.dropEndWhile, List.reverse_reverse, hr.reverse.dropWhile_eq_nil, List.reverse_nil]
    rw [plainName, hblanks, hquotes, hblanks, hl.dropWhile_eq_nil, hright, List.nil_append, List.append_nil]

/-! ## Entries that are decoded -/

/-- The references that are taken out of an entry, one after the other. -/
theorem unreferenced_append_of_not_mem (h : '&' ∉ a) (b : List Char) :
    unreferenced (a ++ b) = a ++ unreferenced b := by
  have hfirst : ∀ p ∈ references, p.2 ≠ [] ∧ ∀ c ∈ p.2.head?, c ∉ a := fun p hp => by
    have hhead := (head?_references p hp).1
    refine ⟨fun hnil => ?_, fun c hc => ?_⟩
    · rw [hnil] at hhead
      exact absurd hhead (by simp)
    · rw [hhead] at hc
      exact Option.some.inj hc ▸ h
  obtain ⟨hneDouble, hdouble⟩ := hfirst ('"', "&quot;".toList) (by decide)
  obtain ⟨hneSingle, hsingle⟩ := hfirst ('\'', "&#39;".toList) (by decide)
  rw [unreferenced, Text.replaceAll_append_of_not_mem hdouble hneDouble,
    Text.replaceAll_append_of_not_mem hsingle hneSingle]
  rfl

/-- The first pass leaves the references of the second one. -/
theorem replaceAll_double_single (cs : List Char) : Text.replaceAll "&quot;".toList [] ("&#39;".toList ++ cs) =
    "&#39;".toList ++ Text.replaceAll "&quot;".toList [] cs := by
  have hsplit : "&#39;".toList ++ cs = '&' :: ("#39;".toList ++ cs) := rfl
  have hinner : ∀ c ∈ "&quot;".toList.head?, c ∉ "#39;".toList := fun c hc => Option.some.inj hc ▸ (by decide)
  rw [hsplit, Text.replaceAll_cons, Text.replaceAll_append_of_not_mem hinner (by decide)]
  · rfl
  · rintro ⟨more, hmore⟩
    exact absurd (List.cons.inj (List.cons.inj hmore).2).1 (by decide)

theorem unreferenced_reference {p : Char × List Char} (h : p ∈ references) (cs : List Char) :
    unreferenced (p.2 ++ cs) = unreferenced cs := by
  rw [references, List.mem_cons, List.mem_singleton] at h
  rcases h with rfl | rfl
  · rw [unreferenced, Text.replaceAll_found (by decide), List.nil_append]
    rfl
  · rw [unreferenced, replaceAll_double_single, Text.replaceAll_found (by decide), List.nil_append]
    rfl

theorem decoded_eq_self_of_isBlank (h : ∀ c ∈ decoded cs, Text.isBlank c = true) : decoded cs = cs :=
  decoded_eq_self (fun hmem => absurd (h _ hmem) (by decide)) fun hmem => absurd (h _ hmem) (by decide)

theorem decoded_eq_self_of_isQuote (h : ∀ c ∈ decoded cs, isQuote c = false) : decoded cs = cs :=
  decoded_eq_self (fun hmem => absurd (h _ hmem) (by decide)) fun hmem => absurd (h _ hmem) (by decide)

theorem exists_unreferenced_quotes {q : List Char} (h : ∀ c ∈ decoded q, isQuote c = true) :
    ∃ q', (∀ c ∈ q', isQuote c = true) ∧ ∀ rest, unreferenced (q ++ rest) = q' ++ unreferenced rest := by
  induction q using decoded_induction with
  | hnil => exact ⟨[], fun c hc => absurd hc List.not_mem_nil, fun _ => rfl⟩
  | hreference p hp q ih =>
    rw [decoded_reference hp] at h
    obtain ⟨q', hq', hrest⟩ := ih (List.forall_mem_cons.1 h).2
    refine ⟨q', hq', fun rest => ?_⟩
    rw [List.append_assoc, unreferenced_reference hp, hrest]
  | hcons c q hnone ih =>
    rw [decoded_cons hnone] at h
    obtain ⟨hc, hq⟩ := List.forall_mem_cons.1 h
    obtain ⟨q', hq', hrest⟩ := ih hq
    refine ⟨c :: q', List.forall_mem_cons.2 ⟨hc, hq'⟩, fun rest => ?_⟩
    have hampersand : '&' ∉ [c] := fun hmem => absurd (List.mem_singleton.1 hmem ▸ hc) (by decide)
    rw [List.cons_append, ← List.singleton_append, unreferenced_append_of_not_mem hampersand, hrest]
    rfl

/-- **A frame that was decoded** is a frame without its references. -/
theorem exists_unreferenced_frame {l : List Char} (h : IsFrame (decoded l)) :
    ∃ l', IsFrame l' ∧ ∀ rest, unreferenced (l ++ rest) = l' ++ unreferenced rest := by
  obtain ⟨b, q, b', heq, hb, hq, hb'⟩ := h
  obtain ⟨front, back, rfl, hfront, hback⟩ := exists_of_decoded_eq_append heq
  obtain ⟨middle, last, rfl, hmiddle, hlast⟩ := exists_of_decoded_eq_append hback
  obtain rfl : front = b := hfront ▸ (decoded_eq_self_of_isBlank (hfront ▸ hb)).symm
  obtain rfl : last = b' := hlast ▸ (decoded_eq_self_of_isBlank (hlast ▸ hb')).symm
  obtain ⟨q', hq', hrest⟩ := exists_unreferenced_quotes (hmiddle ▸ hq)
  refine ⟨front ++ (q' ++ last), ⟨front, q', last, rfl, hb, hq', hb'⟩, fun rest => ?_⟩
  simp only [List.append_assoc]
  rw [unreferenced_append_of_not_mem (not_mem_of_isBlank hb), hrest,
    unreferenced_append_of_not_mem (not_mem_of_isBlank hb')]

theorem IsFrame.forall_isBlank_or_isQuote {l : List Char} (h : IsFrame l) :
    ∀ c ∈ l, Text.isBlank c = true ∨ isQuote c = true := by
  obtain ⟨b, q, b', rfl, hb, hq, hb'⟩ := h
  intro c hc
  rcases List.mem_append.1 hc with hc | hc
  · exact .inl (hb c hc)
  rcases List.mem_append.1 hc with hc | hc
  · exact .inr (hq c hc)
  · exact .inl (hb' c hc)

/-- No reference begins or goes on with a character of a frame. -/
theorem not_mem_references (h : Text.isBlank c = true ∨ isQuote c = true) :
    '&' ≠ c ∧ ∀ p ∈ references, c ∉ p.2.tail := by
  refine ⟨fun heq => absurd (heq ▸ h) (by decide), fun p hp hmem => ?_⟩
  have hinner : ∀ p ∈ references, p.2.tail.all (fun c => !(Text.isBlank c || isQuote c)) = true := by decide
  have hnone := List.all_eq_true.1 (hinner p hp) c hmem
  rw [Bool.not_eq_true', Bool.or_eq_false_iff] at hnone
  exact h.elim (Bool.eq_false_iff.1 hnone.1) (Bool.eq_false_iff.1 hnone.2)

/-- What begins with no character that a reference goes on with does so after the first pass as well. -/
theorem head?_of_isFrame_decoded {r : List Char} (h : IsFrame (decoded r)) :
    (∀ c ∈ r.head?, ∀ p ∈ references, c ∉ p.2.tail) ∧
      ∀ c ∈ (Text.replaceAll "&quot;".toList [] r).head?, ∀ p ∈ references, c ∉ p.2.tail := by
  -- Of a frame only its characters are needed, and the parts of a text have them too.
  replace h := h.forall_isBlank_or_isQuote
  have hampersand : ∀ p ∈ references, '&' ∉ p.2.tail := fun p hp => (head?_references p hp).2
  induction r using decoded_induction with
  | hnil => simp [Text.replaceAll]
  | hreference p hp r ih =>
    rw [decoded_reference hp] at h
    obtain ⟨-, hpass⟩ := ih (List.forall_mem_cons.1 h).2
    refine ⟨fun c hc => ?_, fun c hc => ?_⟩
    · rw [List.head?_append, (head?_references p hp).1] at hc
      exact Option.some.inj hc ▸ hampersand
    · rw [references, List.mem_cons, List.mem_singleton] at hp
      rcases hp with rfl | rfl
      · rw [Text.replaceAll_found (by decide)] at hc
        exact hpass c hc
      · rw [replaceAll_double_single] at hc
        exact Option.some.inj hc ▸ hampersand
  | hcons c r hnone ih =>
    rw [decoded_cons hnone] at h
    have hfree := not_mem_references (List.forall_mem_cons.1 h).1
    have hhead : ∀ d ∈ (c :: Text.replaceAll "&quot;".toList [] r).head?, ∀ p ∈ references, d ∉ p.2.tail :=
      fun d hd => Option.some.inj hd ▸ hfree.2
    have hpass : Text.replaceAll "&quot;".toList [] (c :: r) = c :: Text.replaceAll "&quot;".toList [] r :=
      Text.replaceAll_cons fun hbegins => hfree.1 (List.cons_prefix_cons.1 hbegins).1
    exact ⟨hhead, hpass ▸ hhead⟩

/-- **A frame behind a text** does not complete a reference of it. -/
theorem unreferenced_append_frame {r : List Char} (h : IsFrame (decoded r)) (a : List Char) :
    unreferenced (a ++ r) = unreferenced a ++ unreferenced r := by
  obtain ⟨hhead, hpass⟩ := head?_of_isFrame_decoded h
  have hdouble : ∀ c ∈ r.head?, c ∉ "&quot;".toList.tail := fun c hc =>
    hhead c hc ('"', "&quot;".toList) (by decide)
  have hsingle : ∀ c ∈ (Text.replaceAll "&quot;".toList [] r).head?, c ∉ "&#39;".toList.tail := fun c hc =>
    hpass c hc ('\'', "&#39;".toList) (by decide)
  rw [unreferenced, Text.replaceAll_append_of_head? hdouble (by decide),
    Text.replaceAll_append_of_head? hsingle (by decide)]
  rfl

/-- A text without references stays as it is. -/
theorem unreferenced_of_decoded (h : decoded a = a) : unreferenced a = a := by
  have hpass : ∀ p ∈ references, Text.replaceAll p.2 [] a = a := by
    intro p hp
    induction a using decoded_induction with
    | hnil => rw [Text.replaceAll]
    | hreference q hq cs ih =>
      rw [decoded_reference hq] at h
      have hquote : ∀ p ∈ references, p.2.head? ≠ some p.1 := by decide
      refine absurd ?_ (hquote q hq)
      have hhead := congrArg List.head? h
      rw [List.head?_cons, List.head?_append, (head?_references q hq).1] at hhead
      rw [(head?_references q hq).1]
      exact hhead.symm
    | hcons c cs hnone ih =>
      rw [decoded_cons hnone] at h
      rw [Text.replaceAll_cons (hnone p hp), ih (List.cons.inj h).2]
  rw [unreferenced, hpass ('"', "&quot;".toList) (by decide), hpass ('\'', "&#39;".toList) (by decide)]

/-- **The name of an entry that was decoded** is the name of the entry, if there is no quote in it. -/
theorem fontName_of_decoded (h : ∀ c ∈ fontName (decoded entry), isQuote c = false) :
    fontName entry = fontName (decoded entry) := by
  have hdecoded : fontName (decoded entry) = plainName (decoded entry) := by
    rw [fontName_eq, unreferenced_of_decoded (decoded_decoded entry)]
  rw [hdecoded] at h ⊢
  obtain ⟨l, r, heq, hl, hr⟩ := exists_frames (decoded entry)
  have htrim : Text.trim (plainName (decoded entry)) = plainName (decoded entry) := Text.trim_trim _
  generalize plainName (decoded entry) = name at *
  -- The name has not come from references, and what stands around it is a frame without them.
  obtain ⟨front, back, rfl, hfront, hback⟩ := exists_of_decoded_eq_append heq
  obtain ⟨middle, last, rfl, hmiddle, hlast⟩ := exists_of_decoded_eq_append hback
  obtain rfl : middle = name := hmiddle ▸ (decoded_eq_self_of_isQuote (hmiddle ▸ h)).symm
  obtain ⟨l', hl', hleft⟩ := exists_unreferenced_frame (hfront ▸ hl)
  obtain ⟨r', hr', hright⟩ := exists_unreferenced_frame (hlast ▸ hr)
  have hlastText : unreferenced last = r' := by
    have hall := hright []
    rwa [List.append_nil, show unreferenced [] = [] from unreferenced_of_decoded rfl, List.append_nil] at hall
  rw [fontName_eq, hleft, unreferenced_append_frame (hlast ▸ hr), unreferenced_of_decoded hmiddle, hlastText]
  exact plainName_eq hl' hr' htrim h

end Css

end MailTemplate
