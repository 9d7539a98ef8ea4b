import MailTemplate.Mime.QuotedPrintable

/-!
# Reading quoted-printable text

The written form of some bytes is read back: a `=` at the end of a line joins it with the next one,
a `=` with two digits is one byte, and any other ASCII character is the byte of its number.  What is
read is the bytes with every line break written as carriage return and line feed, but for one byte:
a carriage return at the very end is taken for a part of a line break although no line feed follows.

## Main definitions

* `QuotedPrintable.decode?` — the bytes that a text is the quoted-printable form of.
* `QuotedPrintable.withCrlf` — bytes with all line breaks written alike.

## Main results

* `QuotedPrintable.decode?_encode` — what is read back.
* `QuotedPrintable.encode_loses_final_return_only` — nothing is lost unless the last byte is a carriage
  return.
-/

namespace MailTemplate

namespace QuotedPrintable

/-! ## The reader -/

/-- The value of a digit. -/
def digitValue? (c : Char) : Option Nat :=
  if '0' ≤ c ∧ c ≤ '9' then some (c.toNat - '0'.toNat)
  else if 'A' ≤ c ∧ c ≤ 'F' then some (c.toNat - 'A'.toNat + 10)
  else none

/-- The bytes that a text is the quoted-printable form of: `=` and a line end stand for nothing, `=`
and two digits for the byte of that number, and any other ASCII character for itself. -/
def decode? : List Char → Option Bytes
  | [] => some []
  | '=' :: '\r' :: '\n' :: rest => decode? rest
  | '=' :: high :: low :: rest => do
    let h ← digitValue? high
    let l ← digitValue? low
    let bs ← decode? rest
    return UInt8.ofNat (16 * h + l) :: bs
  | c :: rest =>
    if c = '=' ∨ 0x80 ≤ c.toNat then none else (decode? rest).map (UInt8.ofNat c.toNat :: ·)

theorem decode?_softBreak (rest : List Char) :
    decode? ('=' :: '\r' :: '\n' :: rest) = decode? rest := by
  rw [decode?]

theorem decode?_escape {high : Char} (h : high ≠ '\r') (low : Char) (rest : List Char) :
    decode? ('=' :: high :: low :: rest) = (do
      let h ← digitValue? high
      let l ← digitValue? low
      let bs ← decode? rest
      return UInt8.ofNat (16 * h + l) :: bs) := by
  rw [decode?]
  rintro rfl
  exact absurd rfl h

theorem decode?_plain {c : Char} (hne : c ≠ '=') (hlt : c.toNat < 0x80) (rest : List Char) :
    decode? (c :: rest) = (decode? rest).map (UInt8.ofNat c.toNat :: ·) := by
  rw [decode?]
  · rw [if_neg (by simp [hne, hlt])]
  · exact fun _ heq _ => hne heq
  · exact fun _ _ _ heq _ => hne heq

/-- Bytes with every line break, a line feed with or without a carriage return before it, written as
carriage return and line feed. -/
def withCrlf : Bytes → Bytes
  | [] => []
  | 0x0D :: 0x0A :: rest => 0x0D :: 0x0A :: withCrlf rest
  | b :: rest => if b = 0x0A then 0x0D :: 0x0A :: withCrlf rest else b :: withCrlf rest

/-! ## One byte -/

theorem digitValue?_hexDigit {n : Nat} (h : n < 16) : digitValue? (hexDigit n) = some n := by
  revert n
  decide

theorem hexDigit_ne_return {n : Nat} (h : n < 16) : hexDigit n ≠ '\r' := by
  revert n
  decide

theorem decode?_escapedByte_append (b : UInt8) (rest : List Char) :
    decode? (escapedByte b ++ rest) = (decode? rest).map (b :: ·) := by
  have hb : b.toNat < 256 := b.toNat_lt
  have hhigh : b.toNat / 16 < 16 := by omega
  have hlow : b.toNat % 16 < 16 := by omega
  have hbyte : UInt8.ofNat (16 * (b.toNat / 16) + b.toNat % 16) = b := by
    rw [Nat.div_add_mod]
    exact UInt8.ofNat_toNat
  simp only [escapedByte, List.cons_append, List.nil_append]
  -- A digit is no carriage return, so this is not a soft break.
  rw [decode?_escape (hexDigit_ne_return hhigh), digitValue?_hexDigit hhigh,
    digitValue?_hexDigit hlow]
  cases decode? rest with
  | none => rfl
  | some bs => exact congrArg (fun byte => some (byte :: bs)) hbyte

theorem decode?_crlf_append (rest : List Char) :
    decode? (crlf ++ rest) = (decode? rest).map ([0x0D, 0x0A] ++ ·) := by
  simp only [crlf, List.cons_append, List.nil_append]
  rw [decode?_plain (by decide) (by decide), decode?_plain (by decide) (by decide),
    Option.map_map]
  rfl

/-- The number of a character of a small number. -/
theorem toNat_ofNat {n : Nat} (h : n < 0x80) : (Char.ofNat n).toNat = n := by
  revert n
  decide

/-- The bytes that may stand for themselves are tabs, blanks and printable ASCII, and no `=`. -/
theorem isLiteral_bounds {b : UInt8} {isLast : Bool} (h : isLiteral b isLast = true) :
    (b.toNat = 0x09 ∨ 0x20 ≤ b.toNat) ∧ b.toNat < 0x7F ∧ b.toNat ≠ 0x3D := by
  simp only [isLiteral, Bool.or_eq_true, Bool.and_eq_true, decide_eq_true_eq, beq_iff_eq,
    UInt8.le_iff_toNat_le] at h
  rcases h with (⟨h₁, h₂⟩ | ⟨h₁, h₂⟩) | ⟨rfl | rfl, -⟩
  · have h₃ : (0x21 : UInt8).toNat = 0x21 := rfl
    have h₄ : (0x3C : UInt8).toNat = 0x3C := rfl
    omega
  · have h₃ : (0x7E : UInt8).toNat = 0x7E := rfl
    have h₄ : (0x3E : UInt8).toNat = 0x3E := rfl
    omega
  · decide
  · decide

theorem decode?_token_append (b : UInt8) (isLast : Bool) (rest : List Char) :
    decode? (token b isLast ++ rest) = (decode? rest).map (b :: ·) := by
  unfold token
  split
  · next h =>
    obtain ⟨-, hlt, hne⟩ := isLiteral_bounds h
    have hnat : (Char.ofNat b.toNat).toNat = b.toNat := toNat_ofNat (by omega)
    have heq : Char.ofNat b.toNat ≠ '=' := by
      intro he
      rw [he] at hnat
      exact hne hnat.symm
    rw [List.cons_append, List.nil_append, decode?_plain heq (by omega), hnat,
      UInt8.ofNat_toNat]
  · exact decode?_escapedByte_append b rest

/-! ## Lines -/

/-- Soft breaks leave no trace, so a line is read back whatever stands before it. -/
theorem decode?_encodeLine_append (width : Nat) (line : Bytes) (rest : List Char) :
    decode? (encodeLine width line ++ rest) = (decode? rest).map (line ++ ·) := by
  -- The width decides where the soft breaks stand, so the induction is over lines for all widths.
  induction line generalizing width with
  | nil => simp [encodeLine]
  | cons b line ih =>
    simp only [encodeLine]
    split
    · rw [crlf, List.append_assoc, List.append_assoc, List.cons_append, List.cons_append,
        List.cons_append, List.nil_append, decode?_softBreak, decode?_token_append, ih]
      simp [Option.map_map, Function.comp_def]
    · rw [List.append_assoc, decode?_token_append, ih]
      simp [Option.map_map, Function.comp_def]

theorem decode?_joinWith_encodeLine (ls : List Bytes) :
    decode? (Text.joinWith crlf (ls.map (encodeLine 0))) =
      some ([0x0D, 0x0A].intercalate ls) := by
  induction ls with
  | nil => rfl
  | cons line ls ih =>
    cases ls with
    | nil =>
      have h := decode?_encodeLine_append 0 line []
      simpa [Text.joinWith, decode?] using h
    | cons next more =>
      rw [List.map_cons, List.map_cons, Text.joinWith, ← List.map_cons, List.append_assoc,
        decode?_encodeLine_append, decode?_crlf_append, ih, List.intercalate_cons_cons]
      · simp
      · simp

/-! ## Line breaks -/

@[simp] theorem dropReturn_nil : dropReturn [] = [] := rfl

theorem dropReturn_append_cons (as bs : Bytes) (b : UInt8) :
    dropReturn (as ++ b :: bs) = as ++ dropReturn (b :: bs) := by
  simp only [dropReturn, List.getLast?_append, List.getLast?_cons, Option.some_or]
  split
  · rw [List.dropLast_append_of_ne_nil (by simp)]
  · rfl

theorem dropReturn_append_lineFeed (as bs : Bytes) :
    dropReturn (as ++ 0x0A :: bs) = as ++ 0x0A :: dropReturn bs := by
  cases bs with
  | nil => simp [dropReturn]
  | cons b bs =>
    have h := dropReturn_append_cons (as ++ [0x0A]) bs b
    simpa using h

theorem withCrlf_of_not_mem {line : Bytes} (h : 0x0A ∉ line) : withCrlf line = line := by
  fun_induction withCrlf line with
  | case1 => rfl
  | case2 rest ih => simp at h
  | case3 => simp at h
  | case4 b rest _ hb ih => rw [ih fun hm => h (List.mem_cons_of_mem _ hm)]

/-- A line feed takes the carriage return before it into its line break. -/
theorem withCrlf_append_lineFeed {line : Bytes} (h : 0x0A ∉ line) (rest : Bytes) :
    withCrlf (line ++ 0x0A :: rest) = dropReturn line ++ 0x0D :: 0x0A :: withCrlf rest := by
  induction line with
  | nil => simp [withCrlf]
  | cons b line ih =>
    have hb : b ≠ 0x0A := fun he => h (he ▸ List.mem_cons_self)
    have hline : 0x0A ∉ line := fun hm => h (List.mem_cons_of_mem _ hm)
    -- Only the byte just before the line feed can belong to the break.
    cases line with
    | nil =>
      by_cases hr : b = 0x0D
      · subst hr
        simp [withCrlf, dropReturn]
      · simp [withCrlf, dropReturn, hr, hb]
    | cons c line =>
      have hc : c ≠ 0x0A := fun he => hline (he ▸ List.mem_cons_self)
      have hstep : withCrlf (b :: c :: (line ++ 0x0A :: rest)) =
          b :: withCrlf (c :: (line ++ 0x0A :: rest)) := by
        rw [withCrlf]
        · rw [if_neg hb]
        · rintro rest' - heq
          exact hc (List.cons.inj heq).1
      have hdrop : dropReturn (b :: c :: line) = b :: dropReturn (c :: line) :=
        dropReturn_append_cons [b] line c
      rw [List.cons_append, List.cons_append, hstep, ← List.cons_append, ih hline, hdrop,
        List.cons_append]

/-- Joining the lines again, each without its carriage return, writes all line breaks alike. -/
theorem intercalate_dropReturn {ls : List Bytes} (hne : ls ≠ []) (h : ∀ l ∈ ls, 0x0A ∉ l) :
    [0x0D, 0x0A].intercalate (ls.map dropReturn) =
      withCrlf (dropReturn ([0x0A].intercalate ls)) := by
  induction ls with
  | nil => exact absurd rfl hne
  | cons line ls ih =>
    have hline : 0x0A ∉ line := h line List.mem_cons_self
    cases ls with
    | nil =>
      -- No line feed follows the last line, but it loses its carriage return like the others.
      have hdrop : 0x0A ∉ dropReturn line := by
        unfold dropReturn
        split
        · exact fun hm => hline (List.dropLast_subset line hm)
        · exact hline
      simp [withCrlf_of_not_mem hdrop]
    | cons next more =>
      have hrest := ih (by simp) fun l hl => h l (List.mem_cons_of_mem _ hl)
      rw [List.map_cons, List.map_cons, List.intercalate_cons_cons, ← List.map_cons, hrest,
        List.intercalate_cons_cons, List.append_assoc, List.append_assoc, List.singleton_append,
        dropReturn_append_lineFeed, withCrlf_append_lineFeed hline, List.cons_append,
        List.cons_append, List.nil_append]

/-! ## The whole text -/

/-- **What is read back** from the written form of some bytes: they themselves with all line breaks
written alike, without a carriage return at the very end. -/
theorem decode?_encode (bs : Bytes) :
    decode? (encode bs) = some (withCrlf (dropReturn bs)) := by
  unfold encode
  rw [decode?_joinWith_encodeLine]
  unfold lines
  rw [intercalate_dropReturn (List.splitOn_ne_nil _ _) fun _ => Text.not_mem_of_mem_splitOn,
    List.intercalate_splitOn]

theorem withCrlf_append_return (bs : Bytes) : withCrlf (bs ++ [0x0D]) = withCrlf bs ++ [0x0D] := by
  fun_induction withCrlf bs with
  | case1 => rfl
  | case2 rest ih => simp [withCrlf, ih]
  | case3 rest _ ih => simp [withCrlf, ih]
  | case4 b rest hno hb ih =>
    rw [List.cons_append, List.cons_append, ← ih, withCrlf, if_neg hb]
    -- The new carriage return does not stand before a line feed.
    rintro rest' rfl heq
    cases rest with
    | nil => simp at heq
    | cons c rest =>
      obtain ⟨rfl, -⟩ := List.cons.inj heq
      exact hno rest rfl rfl

/-- **Quoted-printable text loses nothing** but a carriage return at the very end: what is read back
is what was written without it, up to the way in which line breaks are written, and this is all that was
written exactly if the last byte is no carriage return. -/
theorem encode_loses_final_return_only (bs : Bytes) :
    decode? (encode bs) = some (withCrlf (dropReturn bs)) ∧
      (decode? (encode bs) = some (withCrlf bs) ↔ bs.getLast? ≠ some 0x0D) := by
  refine ⟨decode?_encode bs, ?_⟩
  rw [decode?_encode]
  constructor
  · intro h hlast
    -- The carriage return that is dropped would have to be read back.
    obtain ⟨front, rfl⟩ := List.getLast?_eq_some_iff.1 hlast
    have hdrop : dropReturn (front ++ [0x0D]) = front := by simp [dropReturn]
    rw [hdrop, withCrlf_append_return] at h
    simp at h
  · intro hlast
    rw [dropReturn, if_neg hlast]

/-- A carriage return at the very end is lost, one before another byte is not. -/
theorem final_return_lost :
    decode? (encode [0x61, 0x0D]) ≠ some (withCrlf [0x61, 0x0D]) ∧
      decode? (encode [0x0D, 0x61]) = some (withCrlf [0x0D, 0x61]) := by
  decide

end QuotedPrintable

end MailTemplate
