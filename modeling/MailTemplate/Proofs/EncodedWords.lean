import Mathlib.Data.List.SplitBy
import MailTemplate.Proofs.DecodedText
import MailTemplate.Proofs.MessageLines

/-!
# Reading header values

A header value is read as a mail client reads it.  It consists of runs of blanks and line ends and of
runs of other characters.  A run of the second kind may be an encoded word, which tells its character set
and its encoding and is read as the text that it holds; anything else stands for itself.  What separates
two encoded words from each other is no part of the text.

A value that needs encoding is written as encoded words only, so nothing of it can end a header or begin
another one.  Words are filled character by character, and a character that does not fit into a word
begins the next one; the longest takes twelve columns, so no word is left empty.

## Main definitions

* `HeaderText.readPayload?` — the bytes in an encoded word.
* `HeaderText.readWord?` — the text of an encoded word.
* `HeaderText.read` — the text of a header value.

## Main results

* `HeaderText.exists_pieces` — the characters are dealt out to words.
* `HeaderText.readWord?_word` — a word is read as its characters.
* `HeaderText.read_joinWith` — so are words with line ends between them.
* `HeaderText.encode_read_back` — header values are safe, and they are read as what was written.
-/

namespace MailTemplate

namespace HeaderText

/-! ## The reader -/

/-- The bytes in an encoded word: `_` is a blank, `=` and two digits are the byte of that number, and any
other printable character that is no `?` stands for itself. -/
def readPayload? : List Char → Option Bytes
  | [] => some []
  | '=' :: high :: low :: rest => do
    let h ← QuotedPrintable.digitValue? high
    let l ← QuotedPrintable.digitValue? low
    let bs ← readPayload? rest
    return UInt8.ofNat (16 * h + l) :: bs
  | c :: rest =>
    if c = '_' then (readPayload? rest).map (0x20 :: ·)
    else if c = '=' ∨ c = '?' ∨ c.toNat ≤ 0x20 ∨ 0x7F ≤ c.toNat then none
    else (readPayload? rest).map (UInt8.ofNat c.toNat :: ·)

/-- The text of an encoded word, which has at most seventy-five characters, UTF-8 as its character set
and `Q` as its encoding, in any letter case. -/
def readWord? (word : List Char) : Option (List Char) :=
  match word.splitOn '?' with
  | [['='], charset, encoding, payload, ['=']] =>
    if word.length ≤ 75 ∧ Text.lower charset = "utf-8".toList ∧ Text.lower encoding = ['q'] ∧
        payload ≠ [] then
      (readPayload? payload).bind Bytes.decode?
    else none
  | _ => none

/-- Whether a character separates words. -/
def isGap (c : Char) : Bool := c == ' ' || c == '\t' || c == '\r' || c == '\n'

/-- The runs of a text, which separate words or are words. -/
def runs (cs : List Char) : List (List Char) := cs.splitBy fun a b => isGap a == isGap b

/-- Runs without those between two encoded words. -/
def dropGaps : List (List Char) → List (List Char)
  | word :: gap :: next :: rest =>
    if (readWord? word).isSome ∧ (readWord? next).isSome then word :: dropGaps (next :: rest)
    else word :: dropGaps (gap :: next :: rest)
  | word :: rest => word :: dropGaps rest
  | [] => []

/-- The text of a header value. -/
def read (cs : List Char) : List Char :=
  (dropGaps (runs cs)).flatMap fun run => (readWord? run).getD run

/-! ## One character -/

theorem readPayload?_escape {high : Char} (low : Char) (rest : List Char) :
    readPayload? ('=' :: high :: low :: rest) = (do
      let h ← QuotedPrintable.digitValue? high
      let l ← QuotedPrintable.digitValue? low
      let bs ← readPayload? rest
      return UInt8.ofNat (16 * h + l) :: bs) := by
  rw [readPayload?]

theorem readPayload?_escapedByte_append (b : UInt8) (rest : List Char) :
    readPayload? (escapedByte b ++ rest) = (readPayload? rest).map (b :: ·) := by
  have hb : b.toNat < 256 := b.toNat_lt
  have hbyte : UInt8.ofNat (16 * (b.toNat / 16) + b.toNat % 16) = b := by
    rw [Nat.div_add_mod]
    exact UInt8.ofNat_toNat
  simp only [escapedByte, List.cons_append, List.nil_append]
  rw [readPayload?_escape, QuotedPrintable.digitValue?_hexDigit (by omega),
    QuotedPrintable.digitValue?_hexDigit (by omega)]
  cases readPayload? rest with
  | none => rfl
  | some bs => exact congrArg (fun byte => some (byte :: bs)) hbyte

theorem readPayload?_escapedBytes_append (bs : Bytes) (rest : List Char) :
    readPayload? (bs.flatMap escapedByte ++ rest) = (readPayload? rest).map (bs ++ ·) := by
  induction bs with
  | nil => simp
  | cons b bs ih =>
    rw [List.flatMap_cons, List.append_assoc, readPayload?_escapedByte_append, ih, Option.map_map]
    rfl

/-- The characters that stand for themselves are visible ASCII, and none of those with a meaning. -/
theorem isLiteral_bounds {c : Char} (h : isLiteral c = true) :
    0x20 < c.toNat ∧ c.toNat < 0x7F ∧ c ≠ '_' ∧ c ≠ '=' ∧ c ≠ '?' := by
  have hne {d : Char} (hd : isLiteral d = false) : c ≠ d := by
    rintro rfl
    exact absurd h (by simp [hd])
  have hbounds : 0x20 < c.toNat ∧ c.toNat < 0x7F := by
    simp only [isLiteral, Bool.or_eq_true, beq_iff_eq] at h
    rcases h with ((((h | rfl) | rfl) | rfl) | rfl) | rfl
    · have halnum := Text.isAlphanum_bounds h
      omega
    all_goals decide
  exact ⟨hbounds.1, hbounds.2, hne (by decide), hne (by decide), hne (by decide)⟩

theorem utf8EncodeChar_of_lt {c : Char} (h : c.toNat < 0x80) :
    String.utf8EncodeChar c = [UInt8.ofNat c.toNat] :=
  if_pos (show c.val.toNat ≤ 127 from Nat.le_of_lt_succ h)

/-- **A character is read as its bytes,** whatever follows it. -/
theorem readPayload?_encodeChar_append (c : Char) (rest : List Char) :
    readPayload? (encodeChar c ++ rest) =
      (readPayload? rest).map (String.utf8EncodeChar c ++ ·) := by
  unfold encodeChar
  split
  · next hblank =>
    obtain rfl := hblank
    have hbytes : String.utf8EncodeChar ' ' = [0x20] := by decide
    rw [hbytes, List.singleton_append, readPayload?, if_pos rfl]
    · rfl
    · exact fun high low rest' heq _ => absurd heq (by decide)
  · split
    · next hliteral =>
      obtain ⟨hlow, hhigh, hblank, hequals, hmark⟩ := isLiteral_bounds hliteral
      rw [List.singleton_append, readPayload?, if_neg hblank, if_neg (by simp [hequals, hmark]; omega),
        utf8EncodeChar_of_lt (by omega)]
      · rfl
      · exact fun high low rest' heq _ => hequals heq
    · exact readPayload?_escapedBytes_append _ _

theorem length_encodeChar_le (c : Char) : (encodeChar c).length ≤ 12 := by
  unfold encodeChar
  split
  · decide
  · split
    · simp
    · have hbytes : (String.utf8EncodeChar c).length ≤ 4 := by
        rw [String.length_utf8EncodeChar]
        exact Char.utf8Size_le_four c
      have hescaped (bs : Bytes) : (bs.flatMap escapedByte).length = 3 * bs.length := by
        induction bs with
        | nil => rfl
        | cons b bs ih =>
          rw [List.flatMap_cons, List.length_append, ih, List.length_cons]
          simp only [escapedByte, List.length_cons, List.length_nil]
          omega
      rw [hescaped]
      omega

theorem encodeChar_ne_nil (c : Char) : encodeChar c ≠ [] := by
  intro h
  -- Nothing is read as no byte, but a character has one.
  have hread := readPayload?_encodeChar_append c []
  rw [h] at hread
  simp [readPayload?, String.utf8EncodeChar_ne_nil] at hread

/-- A word holds visible ASCII characters only, and no `?`. -/
theorem visible_of_mem_encodeChar {c d : Char} (h : d ∈ encodeChar c) :
    0x20 < d.toNat ∧ d.toNat < 0x7F ∧ d ≠ '?' := by
  have hdigit {n : Nat} (hn : n < 16) :
      0x20 < (hexDigit n).toNat ∧ (hexDigit n).toNat < 0x7F ∧ hexDigit n ≠ '?' := by
    revert n
    decide
  unfold encodeChar at h
  split at h
  · rw [List.mem_singleton.1 h]
    decide
  · split at h
    · next hliteral =>
      obtain ⟨hlow, hhigh, -, -, hmark⟩ := isLiteral_bounds hliteral
      rw [List.mem_singleton.1 h]
      exact ⟨hlow, hhigh, hmark⟩
    · obtain ⟨b, -, hb⟩ := List.mem_flatMap.1 h
      have hbyte : b.toNat < 256 := b.toNat_lt
      simp only [escapedByte, List.mem_cons, List.not_mem_nil, or_false] at hb
      rcases hb with rfl | rfl | rfl
      · decide
      · exact hdigit (by omega)
      · exact hdigit (by omega)

/-! ## Words -/

/-- The written form of some characters inside a word. -/
def payload (cs : List Char) : List Char := cs.flatMap encodeChar

/-- An encoded word for some characters. -/
def word (cs : List Char) : List Char := wordFront ++ payload cs ++ wordEnd

theorem readPayload?_payload (cs : List Char) : readPayload? (payload cs) = some (Bytes.ofText cs) := by
  induction cs with
  | nil => rfl
  | cons c cs ih =>
    rw [payload, List.flatMap_cons, readPayload?_encodeChar_append]
    show (readPayload? (payload cs)).map _ = _
    rw [ih]
    rfl

theorem payload_eq_nil_iff {cs : List Char} : payload cs = [] ↔ cs = [] := by
  cases cs with
  | nil => simp [payload]
  | cons c cs => simp [payload, encodeChar_ne_nil]

/-- **The characters are dealt out to words.**  A word holds some of them, and it is not too long if the
one that has begun is not. -/
theorem exists_pieces (begun cs : List Char) (hbegun : (payload begun).length ≤ maxPayload) :
    ∃ pieces : List (List Char), payloads (payload begun) cs = pieces.map payload ∧
      pieces.flatten = begun ++ cs ∧
      ∀ piece ∈ pieces, piece ≠ [] ∧ (payload piece).length ≤ maxPayload := by
  -- A character is written into the word that has begun, or into a new one that begins with it.
  induction cs generalizing begun with
  | nil =>
    rw [payloads]
    by_cases hnil : begun = []
    · subst hnil
      exact ⟨[], rfl, rfl, by simp⟩
    · rw [if_neg (by rwa [payload_eq_nil_iff])]
      exact ⟨[begun], rfl, by simp, List.forall_mem_singleton.2 ⟨hnil, hbegun⟩⟩
  | cons c cs ih =>
    have hshort := length_encodeChar_le c
    have hone : payload [c] = encodeChar c := List.append_nil _
    rw [payloads]
    split
    · next hfull =>
      have hnew : (payload [c]).length ≤ maxPayload := by
        rw [hone]
        exact Nat.le_trans hshort (by decide)
      obtain ⟨pieces, hpayloads, hflatten, hpieces⟩ := ih [c] hnew
      refine ⟨begun :: pieces, ?_, ?_, List.forall_mem_cons.2 ⟨⟨?_, hbegun⟩, hpieces⟩⟩
      · rw [← hone, hpayloads, List.map_cons]
      · rw [List.flatten_cons, hflatten, List.singleton_append]
      · -- An empty word has room for any character.
        rintro rfl
        have hroom : (encodeChar c).length ≤ maxPayload := Nat.le_trans hshort (by decide)
        rw [payload, List.flatMap_nil, List.length_nil, Nat.zero_add] at hfull
        exact absurd hroom (Nat.not_le_of_lt hfull)
    · next hroom =>
      have happend : payload begun ++ encodeChar c = payload (begun ++ [c]) := by
        rw [payload, payload, List.flatMap_append, ← hone]
        rfl
      have hlonger : (payload (begun ++ [c])).length ≤ maxPayload := by
        rw [← happend, List.length_append]
        exact Nat.le_of_not_lt hroom
      obtain ⟨pieces, hpayloads, hflatten, hpieces⟩ := ih (begun ++ [c]) hlonger
      exact ⟨pieces, by rw [happend, hpayloads], by simpa using hflatten, hpieces⟩

variable {piece : List Char}

theorem length_word (h : (payload piece).length ≤ maxPayload) : (word piece).length ≤ 75 := by
  have hmax : wordFront.length + maxPayload + wordEnd.length = 75 := by decide
  rw [word, List.length_append, List.length_append]
  omega

/-- **A word is read as its characters.** -/
theorem readWord?_word (hne : piece ≠ []) (h : (payload piece).length ≤ maxPayload) :
    readWord? (word piece) = some piece := by
  have hmark : '?' ∉ payload piece := by
    intro hmem
    obtain ⟨c, -, hc⟩ := List.mem_flatMap.1 hmem
    exact (visible_of_mem_encodeChar hc).2.2 rfl
  have hfront : wordFront = ['='] ++ '?' :: ("utf-8".toList ++ '?' :: (['Q'] ++ ['?'])) := by decide
  have hend : wordEnd = '?' :: ['='] := by decide
  have hshape : word piece =
      ['='] ++ '?' :: ("utf-8".toList ++ '?' :: (['Q'] ++ '?' :: (payload piece ++ '?' :: ['=']))) := by
    rw [word, hfront, hend]
    simp only [List.append_assoc, List.cons_append, List.nil_append]
  have hsplit : (word piece).splitOn '?' =
      [['='], "utf-8".toList, ['Q'], payload piece, ['=']] := by
    rw [hshape, List.splitOn_append_cons_self_of_not_mem (by decide),
      List.splitOn_append_cons_self_of_not_mem (by decide),
      List.splitOn_append_cons_self_of_not_mem (by decide),
      List.splitOn_append_cons_self_of_not_mem hmark, List.splitOn_eq_singleton (by decide)]
  rw [readWord?, hsplit]
  show (if _ then _ else _) = some piece
  rw [if_pos ⟨length_word h, by decide, by decide, by rwa [Ne, payload_eq_nil_iff]⟩,
    readPayload?_payload]
  exact Bytes.decode?_ofText piece

/-! ## Words one after the other -/

/-- What separates the words that are written. -/
def fold : List Char := crlf ++ [' ']

theorem isGap_fold : ∀ c ∈ fold, isGap c = true := List.all_eq_true.1 (by decide)

theorem isGap_of_mem_word {c : Char} (h : c ∈ word piece) : isGap c = false := by
  have hparts : ∀ c ∈ wordFront ++ wordEnd, isGap c = false := by
    intro c hc
    exact Bool.eq_false_iff.2 (List.any_eq_false.1 (by decide) c hc)
  rcases List.mem_append.1 h with h | h
  · rcases List.mem_append.1 h with h | h
    · exact hparts c (List.mem_append_left _ h)
    · obtain ⟨d, -, hd⟩ := List.mem_flatMap.1 h
      have hvisible := (visible_of_mem_encodeChar hd).1
      have hne {e : Char} (he : e.toNat ≤ 0x20) : c ≠ e := by
        rintro rfl
        exact absurd hvisible (Nat.not_lt_of_le he)
      simp [isGap, hne (show ' '.toNat ≤ 0x20 by decide), hne (show '\t'.toNat ≤ 0x20 by decide),
        hne (show '\r'.toNat ≤ 0x20 by decide), hne (show '\n'.toNat ≤ 0x20 by decide)]
  · exact hparts c (List.mem_append_right _ h)

theorem word_ne_nil (piece : List Char) : word piece ≠ [] := by
  intro h
  have hfront : wordFront ≠ [] := by decide
  exact hfront (List.append_eq_nil_iff.1 (List.append_eq_nil_iff.1 h).1).1

/-- Words and what separates them, one after the other. -/
def laidOut (first : List Char) (pieces : List (List Char)) : List (List Char) :=
  word first :: pieces.flatMap fun piece => [fold, word piece]

theorem joinWith_eq_flatten (first : List Char) (pieces : List (List Char)) :
    Text.joinWith fold ((first :: pieces).map word) = (laidOut first pieces).flatten := by
  rw [List.map_cons, Text.joinWith_cons, laidOut, List.flatten_cons]
  congr 1
  induction pieces with
  | nil => rfl
  | cons next pieces ih =>
    rw [List.map_cons, List.flatMap_cons, ih, List.flatMap_cons, List.flatten_append]
    simp

/-- **The runs of words with line ends between them** are the words and what separates them. -/
theorem runs_joinWith (first : List Char) (pieces : List (List Char)) :
    runs (Text.joinWith fold ((first :: pieces).map word)) = laidOut first pieces := by
  have hsame {run : List Char} {b : Bool} (h : ∀ c ∈ run, isGap c = b) :
      run.IsChain fun x y => (isGap x == isGap y) = true := by
    refine List.Pairwise.isChain (List.pairwise_of_forall_mem_list fun x hx y hy => ?_)
    rw [h x hx, h y hy, beq_self_eq_true]
  have hwordFold (piece : List Char) : ∃ (hw : word piece ≠ []) (hf : fold ≠ []),
      (isGap ((word piece).getLast hw) == isGap (fold.head hf)) = false := by
    refine ⟨word_ne_nil piece, by decide, ?_⟩
    rw [isGap_of_mem_word (List.getLast_mem _)]
    decide
  have hfoldWord (piece : List Char) : ∃ (hf : fold ≠ []) (hw : word piece ≠ []),
      (isGap (fold.getLast hf) == isGap ((word piece).head hw)) = false := by
    refine ⟨by decide, word_ne_nil piece, ?_⟩
    rw [isGap_of_mem_word (List.head_mem _)]
    decide
  have hkinds (run : List Char) (h : run ∈ laidOut first pieces) :
      run = fold ∨ ∃ piece, run = word piece := by
    rcases List.mem_cons.1 h with rfl | h
    · exact .inr ⟨first, rfl⟩
    · obtain ⟨piece, -, hrun⟩ := List.mem_flatMap.1 h
      simp only [List.mem_cons, List.not_mem_nil, or_false] at hrun
      rcases hrun with rfl | rfl
      · exact .inl rfl
      · exact .inr ⟨piece, rfl⟩
  rw [runs, joinWith_eq_flatten]
  refine List.splitBy_flatten (fun hnil => ?_) (fun run hrun => ?_) ?_
  · rcases hkinds [] hnil with h | ⟨piece, h⟩
    · exact absurd h (by decide)
    · exact word_ne_nil piece h.symm
  · rcases hkinds run hrun with rfl | ⟨piece, rfl⟩
    · exact hsame isGap_fold
    · exact hsame fun c => isGap_of_mem_word
  · clear hkinds
    induction pieces generalizing first with
    | nil => exact List.isChain_singleton _
    | cons next pieces ih =>
      show List.IsChain _ (word first :: fold :: laidOut next pieces)
      refine List.isChain_cons_cons.2 ⟨hwordFold first, ?_⟩
      exact List.isChain_cons_cons.2 ⟨hfoldWord next, ih next⟩

/-- **Words with line ends between them are read** as their characters. -/
theorem read_joinWith {pieces : List (List Char)} (hne : pieces ≠ [])
    (hpieces : ∀ piece ∈ pieces, readWord? (word piece) = some piece) :
    read (Text.joinWith fold (pieces.map word)) = pieces.flatten := by
  obtain ⟨first, pieces, rfl⟩ := List.exists_cons_of_ne_nil hne
  have hdrop : dropGaps (laidOut first pieces) = (first :: pieces).map word := by
    clear hne
    induction pieces generalizing first with
    | nil => rfl
    | cons next pieces ih =>
      obtain ⟨hfirst, hrest⟩ := List.forall_mem_cons.1 hpieces
      have hnext := (List.forall_mem_cons.1 hrest).1
      show dropGaps (word first :: fold :: word next :: _) = _
      rw [dropGaps, if_pos (by simp [hfirst, hnext])]
      exact congrArg (word first :: ·) (ih next hrest)
  rw [read, runs_joinWith, hdrop, List.flatMap_map]
  have hread : ∀ piece ∈ first :: pieces, (readWord? (word piece)).getD (word piece) = piece := by
    intro piece hpiece
    rw [hpieces piece hpiece, Option.getD_some]
  rw [List.flatMap_def, List.map_congr_left hread, List.map_id']

/-! ## Header values -/

theorem encode_of_all {value : List Char} (h : value.all isPlain = true) : encode value = value :=
  if_pos h

/-- A value that is not plain is written as words that hold its characters. -/
theorem exists_encode_eq {value : List Char} (h : ¬ value.all isPlain = true) :
    ∃ pieces : List (List Char), encode value = Text.joinWith fold (pieces.map word) ∧
      pieces ≠ [] ∧ pieces.flatten = value ∧
      ∀ piece ∈ pieces, piece ≠ [] ∧ (payload piece).length ≤ maxPayload := by
  obtain ⟨pieces, hpayloads, hflatten, hpieces⟩ := exists_pieces [] value (Nat.zero_le _)
  refine ⟨pieces, ?_, ?_, hflatten, hpieces⟩
  · rw [encode, if_neg h]
    show Text.joinWith fold ((payloads (payload []) value).map _) = _
    rw [hpayloads, List.map_map]
    rfl
  · rintro rfl
    obtain rfl : value = [] := by simpa using hflatten.symm
    exact h rfl

/-- **Header values are safe, and they are read as what was written.**  A value is ASCII.  It holds a line
break only between encoded words, with a blank behind it.  If it needs encoding, it consists of encoded
words of at most seventy-five characters that share out its characters, and it is read as it was. -/
theorem encode_read_back (value : List Char) :
    Text.IsAscii (encode value) ∧
    (∃ words, encode value = Text.joinWith ['\r', '\n', ' '] words ∧
      (∀ w ∈ words, '\r' ∉ w ∧ '\n' ∉ w) ∧
      (words = [value] ∨ ∀ w ∈ words, (readWord? w).isSome)) ∧
    ((∃ c ∈ value, 0x80 ≤ c.toNat ∨ c.toNat < 0x20 ∨ c.toNat = 0x7F) →
      read (encode value) = value ∧
      ∃ words pieces, encode value = Text.joinWith ['\r', '\n', ' '] words ∧ pieces.flatten = value ∧
        List.Forall₂ (fun word piece => word.length ≤ 75 ∧ readWord? word = some piece) words pieces) := by
  refine ⟨(encode_wellFormed value).1, ?_, ?_⟩
  · by_cases h : value.all isPlain = true
    · have hplain : ∀ c ∈ value, isPlain c = true := List.all_eq_true.1 h
      refine ⟨[value], encode_of_all h, List.forall_mem_singleton.2 ⟨?_, ?_⟩, .inl rfl⟩
      · exact fun hr => absurd (hplain _ hr) (by decide)
      · exact fun hn => absurd (hplain _ hn) (by decide)
    · obtain ⟨pieces, hencode, -, -, hpieces⟩ := exists_encode_eq h
      refine ⟨pieces.map word, hencode, List.forall_mem_map.2 fun piece _ => ⟨?_, ?_⟩,
        .inr (List.forall_mem_map.2 fun piece hpiece => ?_)⟩
      · exact fun hr => absurd (isGap_of_mem_word hr) (by decide)
      · exact fun hn => absurd (isGap_of_mem_word hn) (by decide)
      · obtain ⟨hne, hlength⟩ := hpieces piece hpiece
        rw [readWord?_word hne hlength]
        rfl
  · rintro ⟨c, hc, hspecial⟩
    have h : ¬ value.all isPlain = true := by
      intro hall
      have hplain := List.all_eq_true.1 hall c hc
      simp only [isPlain, Bool.and_eq_true, decide_eq_true_eq] at hplain
      omega
    obtain ⟨pieces, hencode, hne, hflatten, hpieces⟩ := exists_encode_eq h
    have hread : ∀ piece ∈ pieces, readWord? (word piece) = some piece := fun piece hpiece =>
      readWord?_word (hpieces piece hpiece).1 (hpieces piece hpiece).2
    refine ⟨?_, pieces.map word, pieces, hencode, hflatten, ?_⟩
    · rw [hencode, read_joinWith hne hread, hflatten]
    · rw [List.forall₂_map_left_iff, List.forall₂_same]
      exact fun piece hpiece => ⟨length_word (hpieces piece hpiece).2, hread piece hpiece⟩

end HeaderText

end MailTemplate
