import MailTemplate.Proofs.MessageLines
import MailTemplate.Proofs.RelatedLists

/-!
# The shape of quoted-printable text

Quoted-printable text must get through channels that cut long lines, strip blanks at the end of a line
or know printable ASCII only.  The width of a line counts what has been written since the last line end,
one column is kept for the `=` of a soft break, and the last byte of a line is never written as a blank.
Every `=` begins the two digits of a byte or is a soft break; a soft break stands before a byte, so that
the line goes on behind it.

## Main definitions

* `QuotedPrintable.FitsBehind` — what every channel leaves alone, as a part of a line.
* `QuotedPrintable.StandsFor` — what a part of a text is read as, whatever follows it.
* `QuotedPrintable.BreaksLine` — a place where a line of the input is broken softly.

## Main results

* `QuotedPrintable.exists_crlfLines_encodeLine` — the lines that a line of the input is written on.
* `QuotedPrintable.equals_encodeLine` — the places of a `=` in them.
* `QuotedPrintable.encode_shape` — both, for the whole text.
-/

namespace MailTemplate

namespace Text

/-! ## Characters of joined texts -/

/-- The lines of texts with line ends between them are the lines of the texts. -/
theorem crlfLines_joinWith {ts : List (List Char)} (h : ts ≠ []) :
    crlfLines (joinWith crlf ts) = ts.flatMap crlfLines := by
  obtain ⟨t, ts, rfl⟩ := List.exists_cons_of_ne_nil h
  clear h
  induction ts generalizing t with
  | nil => simp [joinWith]
  | cons next ts ih =>
    have hjoin : joinWith crlf (t :: next :: ts) = t ++ (crlf ++ joinWith crlf (next :: ts)) := by
      rw [joinWith_cons, List.flatMap_cons, List.append_assoc, joinWith_cons]
    rw [hjoin, crlfLines_append_crlf, ih, ← List.flatMap_cons]

variable {c : Char} {before after : List Char}

/-- A character stands at the front of a piece of text or behind it, if it stands nowhere else in it. -/
theorem front_or_behind {x : Char} {us rest : List Char} (hc : c ∉ us)
    (h : (x :: us) ++ rest = before ++ c :: after) :
    (x = c ∧ before = [] ∧ after = us ++ rest) ∨
      ∃ more, before = (x :: us) ++ more ∧ rest = more ++ c :: after := by
  rcases exists_split_of_append_eq h with ⟨back, hpiece, rfl⟩ | hbehind
  · cases before with
    | nil =>
      obtain ⟨rfl, rfl⟩ := List.cons.inj hpiece
      exact .inl ⟨rfl, rfl, rfl⟩
    | cons b before =>
      obtain ⟨rfl, rfl⟩ := List.cons.inj hpiece
      exact absurd (List.mem_append_right before List.mem_cons_self) hc
  · exact .inr hbehind

/-- A character that is no part of the separator stands in one of the texts that are joined. -/
theorem exists_of_joinWith_eq {separator : List Char} {ts : List (List Char)} (hc : c ∉ separator)
    (h : joinWith separator ts = before ++ c :: after) :
    ∃ earlier front back later, ts = earlier ++ (front ++ c :: back) :: later ∧
      before = earlier.flatMap (· ++ separator) ++ front ∧
      after = back ++ later.flatMap (separator ++ ·) := by
  induction ts generalizing before with
  | nil => simp [joinWith] at h
  | cons t ts ih =>
    rw [joinWith_cons] at h
    rcases exists_split_of_append_eq h with ⟨back, rfl, rfl⟩ | ⟨more, rfl, hrest⟩
    · exact ⟨[], before, back, ts, rfl, rfl, rfl⟩
    · cases ts with
      | nil => simp at hrest
      | cons next ts =>
        rw [List.flatMap_cons, List.append_assoc, ← joinWith_cons] at hrest
        rcases exists_split_of_append_eq hrest with ⟨back, hseparator, -⟩ | ⟨inner, rfl, hnext⟩
        · exact absurd (hseparator ▸ List.mem_append_right more List.mem_cons_self) hc
        · obtain ⟨earlier, front, back, later, hts, rfl, rfl⟩ := ih hnext
          refine ⟨t :: earlier, front, back, later, by rw [hts, List.cons_append], ?_, rfl⟩
          rw [List.flatMap_cons, List.append_assoc, List.append_assoc]

end Text

namespace QuotedPrintable

/-! ## One byte -/

/-- The digits of an escaped byte. -/
def digits : List Char := "0123456789ABCDEF".toList

/-- What may stand in a line: a printable ASCII character, a blank or a tab. -/
def IsLineChar (c : Char) : Prop := c = '\t' ∨ 0x20 ≤ c.toNat ∧ c.toNat ≤ 0x7E

theorem hexDigit_mem_digits {n : Nat} (h : n < 16) : hexDigit n ∈ digits := by
  revert n
  decide

theorem isLineChar_of_mem_digits {c : Char} (h : c ∈ digits) : IsLineChar c := by
  have hall : digits.all (fun c => 0x20 ≤ c.toNat ∧ c.toNat ≤ 0x7E) = true := by decide
  exact .inr (of_decide_eq_true (List.all_eq_true.1 hall c h))

/-- A byte is written as one character other than `=`, or as `=` and two digits. -/
theorem token_cases (b : UInt8) (isLast : Bool) :
    (∃ c, token b isLast = [c] ∧ c ≠ '=' ∧ IsLineChar c ∧ (isLast = true → c ≠ ' ' ∧ c ≠ '\t')) ∨
      ∃ high ∈ digits, ∃ low ∈ digits, token b isLast = ['=', high, low] := by
  unfold token
  split
  · next h =>
    obtain ⟨hlow, hhigh, hne⟩ := isLiteral_bounds h
    have hnat : (Char.ofNat b.toNat).toNat = b.toNat := toNat_ofNat (by omega)
    have hneq {c : Char} (hc : b.toNat ≠ c.toNat) : Char.ofNat b.toNat ≠ c := by
      rintro rfl
      exact hc hnat.symm
    refine .inl ⟨Char.ofNat b.toNat, rfl, hneq hne, ?_, ?_⟩
    · rcases hlow with htab | hlow
      · exact .inl (by rw [htab])
      · exact .inr (by rw [hnat]; omega)
    · rintro rfl
      -- At the end of a line neither a blank nor a tab stands for itself.
      refine ⟨hneq fun hblank => ?_, hneq fun htab => ?_⟩
      · obtain rfl : b = 0x20 := UInt8.toNat_inj.1 hblank
        exact absurd h (by decide)
      · obtain rfl : b = 0x09 := UInt8.toNat_inj.1 htab
        exact absurd h (by decide)
  · have hb : b.toNat < 256 := b.toNat_lt
    exact .inr ⟨_, hexDigit_mem_digits (by omega), _, hexDigit_mem_digits (by omega), rfl⟩

/-! ## The lines of a line -/

/-- What every channel leaves alone behind so many characters of a line: it is printable, not too long
and does not end in a blank. -/
structure FitsBehind (width : Nat) (l : List Char) : Prop where
  /-- It consists of characters that may stand in a line. -/
  chars : ∀ c ∈ l, IsLineChar c
  /-- The whole line has at most seventy-six characters. -/
  length : width + l.length ≤ 76
  /-- It does not end in a blank or a tab. -/
  visibleEnd : ∀ c ∈ l.getLast?, c ≠ ' ' ∧ c ≠ '\t'

theorem FitsBehind.nil {width : Nat} (h : width ≤ 76) : FitsBehind width [] :=
  ⟨by simp, h, by simp⟩

theorem fitsBehind_equals {width : Nat} (h : width ≤ 75) : FitsBehind width ['='] := by
  refine ⟨fun c hc => ?_, Nat.succ_le_succ h, fun c hc => ?_⟩
  · rw [List.mem_singleton.1 hc]
    exact .inr (by decide)
  · obtain rfl : '=' = c := Option.some.inj hc
    decide

/-- A byte can be written before what fits behind it; the last byte of a line before nothing. -/
theorem FitsBehind.token_append {width : Nat} {l : List Char} (b : UInt8) {isLast : Bool}
    (h : FitsBehind (width + (token b isLast).length) l) (hlast : isLast = false → l ≠ []) :
    FitsBehind width (token b isLast ++ l) := by
  have hlength : width + (token b isLast ++ l).length ≤ 76 := by
    rw [List.length_append, ← Nat.add_assoc]
    exact h.length
  have hchars : ∀ c ∈ token b isLast, IsLineChar c := by
    rcases token_cases b isLast with ⟨c, htoken, -, hc, -⟩ | ⟨high, hhigh, low, hlow, htoken⟩
    · rw [htoken]
      exact List.forall_mem_singleton.2 hc
    · rw [htoken]
      refine List.forall_mem_cons.2 ⟨.inr (by decide), List.forall_mem_cons.2 ⟨?_, ?_⟩⟩
      · exact isLineChar_of_mem_digits hhigh
      · exact List.forall_mem_singleton.2 (isLineChar_of_mem_digits hlow)
  refine ⟨fun c hc => (List.mem_append.1 hc).elim (hchars c) (h.chars c), hlength, ?_⟩
  cases l with
  | cons x xs =>
    rw [List.getLast?_append, List.getLast?_cons, Option.some_or, ← List.getLast?_cons]
    exact h.visibleEnd
  | nil =>
    obtain rfl : isLast = true := by
      cases isLast with
      | true => rfl
      | false => exact absurd rfl (hlast rfl)
    rw [List.append_nil]
    have hdigits : ' ' ∉ digits ∧ '\t' ∉ digits := by decide
    rcases token_cases b true with ⟨c, htoken, -, -, hvisible⟩ | ⟨high, -, low, hlow, htoken⟩
    · rw [htoken]
      intro d hd
      obtain rfl : c = d := Option.some.inj hd
      exact hvisible rfl
    · rw [htoken]
      intro d hd
      obtain rfl : low = d := Option.some.inj hd
      exact ⟨fun hblank => hdigits.1 (hblank ▸ hlow), fun htab => hdigits.2 (htab ▸ hlow)⟩

theorem length_token_le (b : UInt8) (isLast : Bool) : (token b isLast).length ≤ 3 := by
  rw [length_token]
  split <;> decide

/-- **The lines that a line of the input is written on,** the first of them behind what stands there
already.  It is not left empty by a line that is not empty. -/
theorem exists_crlfLines_encodeLine {width : Nat} (hwidth : width ≤ 75) (line : Bytes) :
    ∃ first more, Text.crlfLines (encodeLine width line) = first :: more ∧ FitsBehind width first ∧
      (line ≠ [] → first ≠ []) ∧ ∀ l ∈ more, FitsBehind 0 l := by
  induction line generalizing width with
  | nil => exact ⟨[], [], rfl, .nil (by omega), fun h => absurd rfl h, by simp⟩
  | cons b line ih =>
    have hshort := length_token_le b line.isEmpty
    -- The byte is written before the first line of what follows it, wherever it is written.
    have hbyte (before : Nat) (hfits : before + (token b line.isEmpty).length ≤ 75) :
        ∃ first more, Text.crlfLines (token b line.isEmpty ++
            encodeLine (before + (token b line.isEmpty).length) line) =
          (token b line.isEmpty ++ first) :: more ∧
            FitsBehind before (token b line.isEmpty ++ first) ∧ ∀ l ∈ more, FitsBehind 0 l := by
      obtain ⟨first, more, hlines, hfirst, hne, hmore⟩ := ih hfits
      refine ⟨first, more, ?_, hfirst.token_append b fun hlast => hne ?_, hmore⟩
      · rw [Text.crlfLines_append_of_not_mem (token_isPlain b line.isEmpty).noReturn, hlines,
          List.modifyHead_cons]
      · rintro rfl
        exact Bool.noConfusion hlast
    have htoken (l : List Char) : token b line.isEmpty ++ l ≠ [] := by
      intro hnil
      have hlength := congrArg List.length (List.append_eq_nil_iff.1 hnil).1
      rw [length_token] at hlength
      split at hlength <;> exact absurd hlength (by decide)
    rw [encodeLine]
    by_cases hwide : maxWidth < width + (token b line.isEmpty).length
    · obtain ⟨first, more, hlines, hfirst, hmore⟩ := hbyte 0 (by omega)
      rw [Nat.zero_add] at hlines
      refine ⟨['='], (token b line.isEmpty ++ first) :: more, ?_, fitsBehind_equals hwidth, by simp, ?_⟩
      · have hbreak := Text.crlfLines_append_crlf ['=']
          (token b line.isEmpty ++ encodeLine (token b line.isEmpty).length line)
        rw [hlines, Text.crlfLines_of_not_mem (show '\r' ∉ ['='] by decide)] at hbreak
        simpa [hwide] using hbreak
      · exact List.forall_mem_cons.2 ⟨hfirst, hmore⟩
    · obtain ⟨first, more, hlines, hfirst, hmore⟩ := hbyte width (Nat.le_of_not_lt hwide)
      refine ⟨_, more, ?_, hfirst, fun _ => htoken first, hmore⟩
      simpa [hwide] using hlines

/-- Every line of a text is one that channels leave alone. -/
theorem fitsBehind_of_mem_crlfLines {bs : Bytes} {l : List Char}
    (h : l ∈ Text.crlfLines (encode bs)) : FitsBehind 0 l := by
  have hne : (lines bs).map (encodeLine 0) ≠ [] := by
    unfold lines
    simp [List.splitOn_ne_nil]
  rw [encode, Text.crlfLines_joinWith hne] at h
  obtain ⟨t, ht, hl⟩ := List.mem_flatMap.1 h
  obtain ⟨line, -, rfl⟩ := List.mem_map.1 ht
  obtain ⟨first, more, hlines, hfirst, -, hmore⟩ := exists_crlfLines_encodeLine (Nat.zero_le 75) line
  rw [hlines] at hl
  rcases List.mem_cons.1 hl with rfl | hl
  · exact hfirst
  · exact hmore l hl

/-! ## What a part of a text stands for -/

/-- A part of a text is read as some bytes, whatever follows it. -/
def StandsFor (part : List Char) (bs : Bytes) : Prop :=
  ∀ rest, decode? (part ++ rest) = (decode? rest).map (bs ++ ·)

namespace StandsFor

variable {part more : List Char} {as bs : Bytes}

theorem nil : StandsFor [] [] := by
  intro rest
  simp

theorem append (h : StandsFor part as) (hmore : StandsFor more bs) :
    StandsFor (part ++ more) (as ++ bs) := by
  intro rest
  rw [List.append_assoc, h, hmore, Option.map_map]
  exact congrArg (Option.map · _) (funext fun cs => (List.append_assoc as bs cs).symm)

theorem decode? (h : StandsFor part as) : decode? part = some as := by
  have hwhole := h []
  rw [List.append_nil] at hwhole
  simpa [QuotedPrintable.decode?] using hwhole

theorem token (b : UInt8) (isLast : Bool) : StandsFor (token b isLast) [b] :=
  decode?_token_append b isLast

theorem encodeLine (width : Nat) (line : Bytes) : StandsFor (encodeLine width line) line :=
  decode?_encodeLine_append width line

theorem crlf : StandsFor crlf [0x0D, 0x0A] := decode?_crlf_append

theorem softBreak : StandsFor ('=' :: MailTemplate.crlf) [] := by
  intro rest
  have hread : QuotedPrintable.decode? ('=' :: MailTemplate.crlf ++ rest) =
      QuotedPrintable.decode? rest := decode?_softBreak rest
  rw [hread]
  simp

theorem flatMap {α : Type} {f : α → List Char} {g : α → Bytes} (h : ∀ a, StandsFor (f a) (g a))
    (xs : List α) : StandsFor (xs.flatMap f) (xs.flatMap g) := by
  induction xs with
  | nil => exact nil
  | cons x xs ih =>
    rw [List.flatMap_cons, List.flatMap_cons]
    exact (h x).append ih

end StandsFor

/-! ## The places of a `=` -/

/-- What stands behind a `=` that is followed by two digits. -/
def IsEscape (behind : List Char) : Prop :=
  ∃ high ∈ digits, ∃ low ∈ digits, ∃ rest, behind = high :: low :: rest

/-- **The places of a `=`** in what a line of the input is written as: it begins an escaped byte, or it
is a soft break, and the rest of the line is written behind it like a line of its own. -/
theorem equals_encodeLine {width : Nat} {line : Bytes} {before after : List Char}
    (h : encodeLine width line = before ++ '=' :: after) :
    IsEscape after ∨ ∃ front more, line = front ++ more ∧ more ≠ [] ∧ StandsFor before front ∧
      after = crlf ++ encodeLine 0 more := by
  induction line generalizing width before with
  | nil => simp [encodeLine] at h
  | cons b line ih =>
    -- A `=` behind the byte is one of what follows the byte.
    have hbyte {rest : Nat} {before : List Char}
        (h : token b line.isEmpty ++ encodeLine rest line = before ++ '=' :: after) :
        IsEscape after ∨ ∃ front more, b :: line = front ++ more ∧ more ≠ [] ∧
          StandsFor before front ∧ after = crlf ++ encodeLine 0 more := by
      have hsplit : IsEscape after ∨ ∃ inner, before = token b line.isEmpty ++ inner ∧
          encodeLine rest line = inner ++ '=' :: after := by
        rcases token_cases b line.isEmpty with ⟨c, htoken, hc, -⟩ | ⟨high, hhigh, low, hlow, htoken⟩
        · rw [htoken] at h ⊢
          rcases Text.front_or_behind List.not_mem_nil h with ⟨rfl, -⟩ | hbehind
          · exact absurd rfl hc
          · exact .inr hbehind
        · have hdigits : '=' ∉ digits := by decide
          have hnot : '=' ∉ [high, low] := by
            intro hmem
            rcases List.mem_pair.1 hmem with rfl | rfl
            · exact hdigits hhigh
            · exact hdigits hlow
          rw [htoken] at h ⊢
          rcases Text.front_or_behind hnot h with ⟨-, -, rfl⟩ | hbehind
          · exact .inl ⟨high, hhigh, low, hlow, _, rfl⟩
          · exact .inr hbehind
      rcases hsplit with hescape | ⟨inner, rfl, hinner⟩
      · exact .inl hescape
      · rcases ih hinner with hescape | ⟨front, more, rfl, hmore, hfront, hafter⟩
        · exact .inl hescape
        · exact .inr ⟨b :: front, more, rfl, hmore, (StandsFor.token b _).append hfront, hafter⟩
    have hline : encodeLine 0 (b :: line) =
        token b line.isEmpty ++ encodeLine (token b line.isEmpty).length line := by
      have hshort := length_token_le b line.isEmpty
      rw [encodeLine, Nat.zero_add]
      exact if_neg (show ¬ 75 < _ by omega)
    simp only [encodeLine] at h
    split at h
    · rw [List.append_assoc, ← hline] at h
      rcases Text.front_or_behind (show '=' ∉ crlf by decide) h with ⟨-, rfl, rfl⟩ | ⟨inner, rfl, hinner⟩
      · exact .inr ⟨[], b :: line, rfl, List.cons_ne_nil b line, .nil, rfl⟩
      · rcases hbyte (hline ▸ hinner) with hescape | ⟨front, more, hsplit, hmore, hfront, hafter⟩
        · exact .inl hescape
        · exact .inr ⟨front, more, hsplit, hmore, StandsFor.softBreak.append hfront, hafter⟩
    · exact hbyte h

/-- The place between two texts is inside of a line of the input: the first text stands for the lines
before it and the front of the line, the second one for the rest of the line, which is not empty, and
for the lines behind it. -/
def BreaksLine (bs : Bytes) (before rest : List Char) : Prop :=
  ∃ earlier front more later, lines bs = earlier ++ (front ++ more) :: later ∧ more ≠ [] ∧
    decode? before = some (earlier.flatMap (· ++ [0x0D, 0x0A]) ++ front) ∧
    decode? rest = some (more ++ later.flatMap ([0x0D, 0x0A] ++ ·))

/-- The places of a `=` in the whole text. -/
theorem equals_encode {bs : Bytes} {before after : List Char}
    (h : encode bs = before ++ '=' :: after) :
    IsEscape after ∨ ∃ rest, after = crlf ++ rest ∧ BreaksLine bs before rest := by
  obtain ⟨earlierTexts, front, back, laterTexts, htexts, rfl, rfl⟩ :=
    Text.exists_of_joinWith_eq (show '=' ∉ crlf by decide) h
  obtain ⟨earlier, rest, hlines, rfl, hrest⟩ := List.map_eq_append_iff.1 htexts
  obtain ⟨line, later, rfl, hline, rfl⟩ := List.map_eq_cons_iff.1 hrest
  rcases equals_encodeLine hline with hescape | ⟨front', more, rfl, hmore, hfront, rfl⟩
  · obtain ⟨high, hhigh, low, hlow, rest, rfl⟩ := hescape
    exact .inl ⟨high, hhigh, low, hlow, _, rfl⟩
  · have hearlier : StandsFor ((earlier.map (encodeLine 0)).flatMap (· ++ crlf))
        (earlier.flatMap (· ++ [0x0D, 0x0A])) := by
      rw [List.flatMap_map]
      exact .flatMap (fun line => (StandsFor.encodeLine 0 line).append .crlf) earlier
    have hlater : StandsFor ((later.map (encodeLine 0)).flatMap (crlf ++ ·))
        (later.flatMap ([0x0D, 0x0A] ++ ·)) := by
      rw [List.flatMap_map]
      exact .flatMap (fun line => StandsFor.crlf.append (.encodeLine 0 line)) later
    refine .inr ⟨_, List.append_assoc .., earlier, front', more, later, hlines, hmore, ?_, ?_⟩
    · exact (hearlier.append hfront).decode?
    · exact ((StandsFor.encodeLine 0 more).append hlater).decode?

/-- **The shape of quoted-printable text.**  Between its line ends stand printable ASCII characters,
blanks and tabs only, at most seventy-six of them, the last one no blank and no tab.  Every `=` is
followed by two digits, or by a line end inside of a line of the input. -/
theorem encode_shape (bs : Bytes) :
    (∀ l ∈ Text.crlfLines (encode bs),
      (∀ c ∈ l, c = '\t' ∨ 0x20 ≤ c.toNat ∧ c.toNat ≤ 0x7E) ∧ l.length ≤ 76 ∧
        ∀ c ∈ l.getLast?, c ≠ ' ' ∧ c ≠ '\t') ∧
    ∀ before after, encode bs = before ++ '=' :: after →
      (∃ high ∈ "0123456789ABCDEF".toList, ∃ low ∈ "0123456789ABCDEF".toList, ∃ rest,
        after = high :: low :: rest) ∨
      ∃ rest, after = crlf ++ rest ∧ BreaksLine bs before rest := by
  refine ⟨fun l hl => ?_, fun before after h => equals_encode h⟩
  have hfits := fitsBehind_of_mem_crlfLines hl
  exact ⟨hfits.chars, by simpa using hfits.length, hfits.visibleEnd⟩

end QuotedPrintable

end MailTemplate
