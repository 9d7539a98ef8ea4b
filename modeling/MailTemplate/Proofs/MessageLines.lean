import MailTemplate.Mime.HeaderText
import MailTemplate.Proofs.QuotedPrintable

/-!
# The lines of a message

A message is a sequence of lines with carriage return and line feed between them.  Other line breaks
must not occur in it, which is to say that no line holds a part of a line break.

## Main definitions

* `Text.crlfLines` — the lines of a message.
* `Text.BreaksOnlyAtCrlf` — a text has no other line breaks.

## Main results

* `Text.joinWith_crlfLines` — a message is its lines with line ends between them.
* `Text.crlfLines_append_crlf` — a line end separates the lines before it from those behind it.
* `QuotedPrintable.encode_breaksOnlyAtCrlf`, `QuotedPrintable.encode_isAscii` — quoted-printable text
  can stand in a message.
* `HeaderText.crlfLines_encode`, `HeaderText.encode_wellFormed` — so can a header value, which is folded.
-/

namespace MailTemplate

namespace Text

/-! ## Lines -/

/-- The lines of a message: what stands before, between and behind its line ends. -/
def crlfLines : List Char → List (List Char)
  | [] => [[]]
  | '\r' :: '\n' :: rest => [] :: crlfLines rest
  | c :: rest => (crlfLines rest).modifyHead (c :: ·)

@[simp] theorem crlfLines_nil : crlfLines [] = [[]] := rfl

theorem crlfLines_ne_nil (cs : List Char) : crlfLines cs ≠ [] := by
  fun_induction crlfLines cs with
  | case1 => simp
  | case2 => simp
  | case3 c rest _ ih =>
    obtain ⟨first, more, h⟩ := List.exists_cons_of_ne_nil ih
    simp [h]

/-- No line end is lost if it is one of the two characters of it that comes next. -/
theorem crlfLines_cons {c : Char} {cs : List Char} (h : c ≠ '\r' ∨ cs.head? ≠ some '\n') :
    crlfLines (c :: cs) = (crlfLines cs).modifyHead (c :: ·) := by
  rw [crlfLines]
  rintro rest rfl rfl
  simp at h

theorem crlfLines_append_crlf (as bs : List Char) :
    crlfLines (as ++ (crlf ++ bs)) = crlfLines as ++ crlfLines bs := by
  fun_induction crlfLines as with
  | case1 => simp [crlf, crlfLines]
  | case2 rest ih => simp [crlfLines, ih]
  | case3 c rest hno ih =>
    -- A carriage return at the end of `as` stays one: the line end behind it begins with another.
    have hhead : c ≠ '\r' ∨ (rest ++ (crlf ++ bs)).head? ≠ some '\n' := by
      refine Decidable.not_and_iff_or_not.1 ?_
      rintro ⟨rfl, hh⟩
      cases rest with
      | nil => simp [crlf] at hh
      | cons d rest =>
        simp only [List.cons_append, List.head?_cons, Option.some.injEq] at hh
        exact hno rest rfl (hh ▸ rfl)
    obtain ⟨first, more, h⟩ := List.exists_cons_of_ne_nil (crlfLines_ne_nil rest)
    rw [List.cons_append, crlfLines_cons hhead, ih, h, List.cons_append, List.modifyHead_cons,
      List.modifyHead_cons, List.cons_append]

theorem crlfLines_append_of_not_mem {as : List Char} (h : '\r' ∉ as) (bs : List Char) :
    crlfLines (as ++ bs) = (crlfLines bs).modifyHead (as ++ ·) := by
  induction as with
  | nil =>
    obtain ⟨first, more, hb⟩ := List.exists_cons_of_ne_nil (crlfLines_ne_nil bs)
    simp [hb]
  | cons a as ih =>
    have ha : a ≠ '\r' := fun he => h (he ▸ List.mem_cons_self)
    rw [List.cons_append, crlfLines_cons (.inl ha), ih fun hm => h (List.mem_cons_of_mem _ hm),
      List.modifyHead_modifyHead]
    rfl

theorem crlfLines_of_not_mem {as : List Char} (h : '\r' ∉ as) : crlfLines as = [as] := by
  have h := crlfLines_append_of_not_mem h []
  simpa using h

/-- The text of lines that each have their line end has these lines, and an empty one behind. -/
theorem crlfLines_flatMap (ls : List (List Char)) :
    crlfLines (ls.flatMap (· ++ crlf)) = ls.flatMap crlfLines ++ [[]] := by
  induction ls with
  | nil => rfl
  | cons l ls ih =>
    rw [List.flatMap_cons, List.append_assoc, crlfLines_append_crlf, ih, List.flatMap_cons,
      List.append_assoc]

/-- A message is its lines with line ends between them. -/
theorem joinWith_crlfLines (cs : List Char) : joinWith crlf (crlfLines cs) = cs := by
  fun_induction crlfLines cs with
  | case1 => rfl
  | case2 rest ih =>
    obtain ⟨first, more, h⟩ := List.exists_cons_of_ne_nil (crlfLines_ne_nil rest)
    rw [h] at ih ⊢
    rw [joinWith, ih]
    · rfl
    · simp
  | case3 c rest hno ih =>
    obtain ⟨first, more, h⟩ := List.exists_cons_of_ne_nil (crlfLines_ne_nil rest)
    rw [h] at ih ⊢
    cases more with
    | nil => simpa [joinWith] using ih
    | cons second more => simpa [joinWith] using ih

theorem isInfix_joinWith (sep : List Char) {l : List Char} {ls : List (List Char)} (h : l ∈ ls) :
    l <:+: joinWith sep ls := by
  induction ls with
  | nil => simp at h
  | cons first more ih =>
    cases more with
    | nil =>
      obtain rfl := List.mem_singleton.1 h
      exact List.infix_rfl
    | cons second more =>
      rw [joinWith]
      · rcases List.mem_cons.1 h with rfl | h
        · exact (List.prefix_append _ _).isInfix.trans (List.prefix_append _ _).isInfix
        · exact (ih h).trans (List.suffix_append _ _).isInfix
      · simp

/-- A line is a part of the text. -/
theorem isInfix_of_mem_crlfLines {l cs : List Char} (h : l ∈ crlfLines cs) : l <:+: cs := by
  have hl := isInfix_joinWith crlf h
  rwa [joinWith_crlfLines] at hl

/-! ## No other line breaks -/

/-- The only line breaks of a text are its line ends. -/
def BreaksOnlyAtCrlf (cs : List Char) : Prop :=
  ∀ l ∈ crlfLines cs, '\r' ∉ l ∧ '\n' ∉ l

theorem BreaksOnlyAtCrlf.nil : BreaksOnlyAtCrlf [] := by
  simp [BreaksOnlyAtCrlf]

theorem BreaksOnlyAtCrlf.append {as bs : List Char} (hr : '\r' ∉ as) (hn : '\n' ∉ as)
    (h : BreaksOnlyAtCrlf bs) : BreaksOnlyAtCrlf (as ++ bs) := by
  obtain ⟨first, more, hb⟩ := List.exists_cons_of_ne_nil (crlfLines_ne_nil bs)
  unfold BreaksOnlyAtCrlf at h ⊢
  rw [crlfLines_append_of_not_mem hr, hb, List.modifyHead_cons]
  rw [hb] at h
  intro l hl
  rcases List.mem_cons.1 hl with rfl | hl
  · have hfirst := h first List.mem_cons_self
    simp [hr, hn, hfirst]
  · exact h l (List.mem_cons_of_mem _ hl)

theorem BreaksOnlyAtCrlf.of_not_mem {as : List Char} (hr : '\r' ∉ as) (hn : '\n' ∉ as) :
    BreaksOnlyAtCrlf as := by
  have h := BreaksOnlyAtCrlf.append hr hn .nil
  rwa [List.append_nil] at h

theorem BreaksOnlyAtCrlf.append_crlf {as bs : List Char} (ha : BreaksOnlyAtCrlf as)
    (hb : BreaksOnlyAtCrlf bs) : BreaksOnlyAtCrlf (as ++ (crlf ++ bs)) := by
  intro l hl
  rw [crlfLines_append_crlf, List.mem_append] at hl
  exact hl.elim (ha l) (hb l)

theorem BreaksOnlyAtCrlf.joinWith {ts : List (List Char)} (h : ∀ t ∈ ts, BreaksOnlyAtCrlf t) :
    BreaksOnlyAtCrlf (joinWith crlf ts) := by
  induction ts with
  | nil => exact .nil
  | cons t ts ih =>
    have ht := h t List.mem_cons_self
    cases ts with
    | nil => exact ht
    | cons u ts =>
      rw [Text.joinWith, List.append_assoc]
      · exact ht.append_crlf (ih fun t hm => h t (List.mem_cons_of_mem _ hm))
      · simp

theorem BreaksOnlyAtCrlf.flatMap {ls : List (List Char)} (h : ∀ l ∈ ls, BreaksOnlyAtCrlf l) :
    BreaksOnlyAtCrlf (ls.flatMap (· ++ crlf)) := by
  induction ls with
  | nil => exact .nil
  | cons l ls ih =>
    rw [List.flatMap_cons, List.append_assoc]
    exact (h l List.mem_cons_self).append_crlf (ih fun l hm => h l (List.mem_cons_of_mem _ hm))

/-! ## ASCII -/

/-- All characters are ASCII. -/
def IsAscii (cs : List Char) : Prop := ∀ c ∈ cs, c.toNat < 0x80

theorem IsAscii.append {as bs : List Char} (ha : IsAscii as) (hb : IsAscii bs) :
    IsAscii (as ++ bs) := by
  intro c hc
  exact (List.mem_append.1 hc).elim (ha c) (hb c)

theorem IsAscii.singleton {c : Char} (h : c.toNat < 0x80) : IsAscii [c] := by
  intro d hd
  rwa [List.mem_singleton.1 hd]

theorem IsAscii.crlf : IsAscii crlf :=
  (IsAscii.singleton (by decide)).append (IsAscii.singleton (by decide))

theorem IsAscii.joinWith {sep : List Char} {ts : List (List Char)} (hsep : IsAscii sep)
    (h : ∀ t ∈ ts, IsAscii t) : IsAscii (joinWith sep ts) := by
  induction ts with
  | nil => simp [IsAscii, Text.joinWith]
  | cons t ts ih =>
    have ht := h t List.mem_cons_self
    cases ts with
    | nil => exact ht
    | cons u ts =>
      rw [Text.joinWith]
      · exact (ht.append hsep).append (ih fun t hm => h t (List.mem_cons_of_mem _ hm))
      · simp

theorem IsAscii.flatMap {ls : List (List Char)} (h : ∀ l ∈ ls, IsAscii l) :
    IsAscii (ls.flatMap (· ++ MailTemplate.crlf)) := by
  intro c hc
  obtain ⟨l, hl, hc⟩ := List.mem_flatMap.1 hc
  exact (h l hl).append .crlf c hc

/-- A text of ASCII characters on one line. -/
structure IsPlain (cs : List Char) : Prop where
  /-- It is ASCII. -/
  isAscii : IsAscii cs
  /-- It holds no carriage return. -/
  noReturn : '\r' ∉ cs
  /-- It holds no line feed. -/
  noFeed : '\n' ∉ cs

theorem IsPlain.nil : IsPlain [] := ⟨by simp [IsAscii], by simp, by simp⟩

theorem IsPlain.append {as bs : List Char} (ha : IsPlain as) (hb : IsPlain bs) :
    IsPlain (as ++ bs) :=
  ⟨ha.isAscii.append hb.isAscii, by simp [ha.noReturn, hb.noReturn],
    by simp [ha.noFeed, hb.noFeed]⟩

theorem isPlain_of_forall {cs : List Char} (h : ∀ c ∈ cs, 0x20 ≤ c.toNat ∧ c.toNat < 0x80) :
    IsPlain cs := by
  refine ⟨fun c hc => (h c hc).2, fun hr => ?_, fun hn => ?_⟩
  · exact absurd (h _ hr).1 (by decide)
  · exact absurd (h _ hn).1 (by decide)

theorem isPlain_of_all {cs : List Char}
    (h : cs.all (fun c => decide (0x20 ≤ c.toNat) && decide (c.toNat < 0x80)) = true) :
    IsPlain cs := by
  refine isPlain_of_forall fun c hc => ?_
  have hc := List.all_eq_true.1 h c hc
  simpa only [Bool.and_eq_true, decide_eq_true_eq] using hc

theorem isAlphanum_bounds {c : Char} (h : c.isAlphanum = true) :
    0x30 ≤ c.toNat ∧ c.toNat ≤ 0x7A := by
  have hrange : ('A'.val ≤ c.val ∧ c.val ≤ 'Z'.val) ∨ ('a'.val ≤ c.val ∧ c.val ≤ 'z'.val) ∨
      ('0'.val ≤ c.val ∧ c.val ≤ '9'.val) := by
    rcases Bool.or_eq_true_iff.1 h with h | h
    · rcases Bool.or_eq_true_iff.1 h with h | h
      · exact .inl (of_decide_eq_true h)
      · obtain ⟨hlow, hhigh⟩ := Bool.and_eq_true_iff.1 h
        exact .inr (.inl ⟨of_decide_eq_true hlow, of_decide_eq_true hhigh⟩)
    · obtain ⟨hlow, hhigh⟩ := Bool.and_eq_true_iff.1 h
      exact .inr (.inr ⟨of_decide_eq_true hlow, of_decide_eq_true hhigh⟩)
  simp only [UInt32.le_iff_toNat_le] at hrange
  rcases hrange with ⟨hlow, hhigh⟩ | ⟨hlow, hhigh⟩ | ⟨hlow, hhigh⟩ <;>
    exact ⟨Nat.le_trans (by decide) hlow, Nat.le_trans hhigh (by decide)⟩

theorem IsPlain.flatMap {α : Type} {f : α → List Char} {as : List α} (h : ∀ a ∈ as, IsPlain (f a)) :
    IsPlain (as.flatMap f) := by
  induction as with
  | nil => exact .nil
  | cons a as ih =>
    rw [List.flatMap_cons]
    exact (h a List.mem_cons_self).append (ih fun a hm => h a (List.mem_cons_of_mem _ hm))

theorem IsPlain.breaks {cs : List Char} (h : IsPlain cs) : BreaksOnlyAtCrlf cs :=
  .of_not_mem h.noReturn h.noFeed

theorem IsPlain.crlfLines {cs : List Char} (h : IsPlain cs) : crlfLines cs = [cs] :=
  crlfLines_of_not_mem h.noReturn

end Text

/-! ## Quoted-printable text in a message -/

theorem escapedByte_isPlain (b : UInt8) : Text.IsPlain (escapedByte b) := by
  have hb : b.toNat < 256 := b.toNat_lt
  have hdigit {n : Nat} (h : n < 16) : 0x20 ≤ (hexDigit n).toNat ∧ (hexDigit n).toNat < 0x80 := by
    revert n
    decide
  refine Text.isPlain_of_forall fun c hc => ?_
  simp only [escapedByte, List.mem_cons, List.not_mem_nil, or_false] at hc
  rcases hc with rfl | rfl | rfl
  · decide
  · exact hdigit (by omega)
  · exact hdigit (by omega)

namespace QuotedPrintable

theorem token_isPlain (b : UInt8) (isLast : Bool) : Text.IsPlain (token b isLast) := by
  unfold token
  split
  · next h =>
    obtain ⟨hlow, hhigh, -⟩ := isLiteral_bounds h
    rcases hlow with htab | hlow
    · rw [htab]
      exact ⟨.singleton (by decide), by decide, by decide⟩
    · refine Text.isPlain_of_forall fun c hc => ?_
      rw [List.mem_singleton.1 hc, toNat_ofNat (by omega)]
      omega
  · exact escapedByte_isPlain b

theorem encodeLine_isAscii (width : Nat) (line : Bytes) : Text.IsAscii (encodeLine width line) := by
  induction line generalizing width with
  | nil => simp [Text.IsAscii, encodeLine]
  | cons b line ih =>
    have ht := (token_isPlain b line.isEmpty).isAscii
    have hequals : Text.IsAscii ['='] := .singleton (by decide)
    simp only [encodeLine]
    split
    · exact ((hequals.append .crlf).append ht).append (ih _)
    · exact ht.append (ih _)

theorem encodeLine_breaksOnlyAtCrlf (width : Nat) (line : Bytes) :
    Text.BreaksOnlyAtCrlf (encodeLine width line) := by
  induction line generalizing width with
  | nil => exact .nil
  | cons b line ih =>
    have ht := token_isPlain b line.isEmpty
    have hrest (w : Nat) := Text.BreaksOnlyAtCrlf.append ht.noReturn ht.noFeed (ih w)
    simp only [encodeLine]
    split
    · -- A soft break ends a line that has only its `=` left.
      have hequals : Text.BreaksOnlyAtCrlf ['='] := .of_not_mem (by decide) (by decide)
      rw [List.append_assoc]
      exact hequals.append_crlf (hrest _)
    · exact hrest _

/-- Quoted-printable text is ASCII. -/
theorem encode_isAscii (bs : Bytes) : Text.IsAscii (encode bs) := by
  refine .joinWith .crlf fun t ht => ?_
  obtain ⟨line, -, rfl⟩ := List.mem_map.1 ht
  exact encodeLine_isAscii 0 line

/-- Quoted-printable text has no line breaks but line ends. -/
theorem encode_breaksOnlyAtCrlf (bs : Bytes) : Text.BreaksOnlyAtCrlf (encode bs) := by
  refine .joinWith fun t ht => ?_
  obtain ⟨line, -, rfl⟩ := List.mem_map.1 ht
  exact encodeLine_breaksOnlyAtCrlf 0 line

end QuotedPrintable

/-! ## Header values in a message -/

namespace HeaderText

theorem encodeChar_isPlain (c : Char) : Text.IsPlain (encodeChar c) := by
  unfold encodeChar
  split
  · exact Text.isPlain_of_all (by decide)
  · split
    · next h =>
      refine Text.isPlain_of_forall fun d hd => ?_
      rw [List.mem_singleton.1 hd]
      simp only [isLiteral, Bool.or_eq_true, beq_iff_eq] at h
      rcases h with ((((h | rfl) | rfl) | rfl) | rfl) | rfl
      · have hbounds := Text.isAlphanum_bounds h
        omega
      all_goals decide
    · exact .flatMap fun b _ => escapedByte_isPlain b

theorem payloads_isPlain {begun cs : List Char} (h : Text.IsPlain begun) :
    ∀ payload ∈ payloads begun cs, Text.IsPlain payload := by
  -- The word that is being filled is plain too.
  induction cs generalizing begun with
  | nil =>
    simp only [payloads]
    split
    · simp
    · simpa using h
  | cons c cs ih =>
    have hc := encodeChar_isPlain c
    simp only [payloads]
    split
    · intro payload hp
      rcases List.mem_cons.1 hp with rfl | hp
      · exact h
      · exact ih hc payload hp
    · exact ih (h.append hc)

theorem word_isPlain {cs payload : List Char} (h : payload ∈ payloads [] cs) :
    Text.IsPlain (wordFront ++ payload ++ wordEnd) := by
  have hfront : Text.IsPlain wordFront := Text.isPlain_of_all (by decide)
  have hend : Text.IsPlain wordEnd := Text.isPlain_of_all (by decide)
  exact (hfront.append (payloads_isPlain .nil payload h)).append hend

/-- The lines of words that are each written on a line of their own. -/
theorem crlfLines_joinWith {w : List Char} {ws : List (List Char)}
    (h : ∀ t ∈ w :: ws, Text.IsPlain t) :
    Text.crlfLines (Text.joinWith (crlf ++ [' ']) (w :: ws)) = w :: ws.map (' ' :: ·) := by
  induction ws generalizing w with
  | nil => exact (h w List.mem_cons_self).crlfLines
  | cons v ws ih =>
    have hw := h w List.mem_cons_self
    rw [Text.joinWith, List.append_assoc, List.append_assoc, Text.crlfLines_append_crlf,
      hw.crlfLines, List.singleton_append, List.singleton_append,
      Text.crlfLines_cons (.inl (by decide)),
      ih fun t ht => h t (List.mem_cons_of_mem _ ht)]
    · rfl
    · simp

/-- A header value as it is written: its lines behind the first one are folded. -/
theorem crlfLines_encode (value : List Char) :
    ∃ first folded, Text.crlfLines (encode value) = first :: folded.map (' ' :: ·) ∧
      ∀ l ∈ first :: folded, Text.IsPlain l := by
  unfold encode
  split
  · next h =>
    have hplain : Text.IsPlain value := by
      refine Text.isPlain_of_forall fun c hc => ?_
      have hc := List.all_eq_true.1 h c hc
      simp only [isPlain, Bool.and_eq_true, decide_eq_true_eq] at hc
      omega
    refine ⟨value, [], ?_, ?_⟩
    · rw [hplain.crlfLines, List.map_nil]
    · simpa using hplain
  · have hwords : ∀ t ∈ (payloads [] value).map (wordFront ++ · ++ wordEnd), Text.IsPlain t := by
      intro t ht
      obtain ⟨payload, hp, rfl⟩ := List.mem_map.1 ht
      exact word_isPlain hp
    cases hw : (payloads [] value).map (wordFront ++ · ++ wordEnd) with
    | nil => exact ⟨[], [], rfl, by simp [Text.IsPlain.nil]⟩
    | cons w ws =>
      rw [hw] at hwords
      exact ⟨w, ws, crlfLines_joinWith hwords, hwords⟩

/-- A header value can stand in a message. -/
theorem encode_wellFormed (value : List Char) :
    Text.IsAscii (encode value) ∧ Text.BreaksOnlyAtCrlf (encode value) := by
  obtain ⟨first, folded, hlines, hplain⟩ := crlfLines_encode value
  have hblank : Text.IsPlain [' '] := Text.isPlain_of_all (by decide)
  have hline : ∀ l ∈ Text.crlfLines (encode value), Text.IsPlain l := by
    intro l hl
    rw [hlines, List.mem_cons, List.mem_map] at hl
    rcases hl with rfl | ⟨f, hf, rfl⟩
    · exact hplain l List.mem_cons_self
    · exact hblank.append (hplain f (List.mem_cons_of_mem _ hf))
  refine ⟨?_, fun l hl => ⟨(hline l hl).noReturn, (hline l hl).noFeed⟩⟩
  -- The value is its lines with line ends between them.
  rw [← Text.joinWith_crlfLines (encode value)]
  exact .joinWith .crlf fun l hl => (hline l hl).isAscii

end HeaderText

end MailTemplate
