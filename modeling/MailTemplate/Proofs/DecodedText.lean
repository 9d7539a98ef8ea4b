import MailTemplate.Text.Utf8

/-!
# Reading UTF-8

The bytes of a text are read as the text.  The first byte of a character tells how many bytes follow,
and the second one is kept out of the ranges that would give a surrogate, a number that is too large, or
one that has a shorter form; each further byte carries six bits.

## Main definitions

* `Bytes.CanBegin` — a first and a second byte that can begin a character together.

## Main results

* `Bytes.front_utf8EncodeChar` — a character is read from its bytes.
* `Bytes.decode?_ofText` — a text is read from its bytes.
-/

namespace MailTemplate

namespace Bytes

/-! ## Bytes of a character -/

theorem tailBits_ofNat (n : Nat) : tailBits (UInt8.ofNat (n % 64 + 128)) = n % 64 := by
  rw [tailBits, UInt8.toNat_ofNat_of_lt' (show n % 64 + 128 < 256 by omega)]
  omega

theorem isTail_ofNat (n : Nat) : ¬ isTail (UInt8.ofNat (n % 64 + 128)) = false := by
  have h := UInt8.toNat_ofNat_of_lt' (show n % 64 + 128 < 256 by omega)
  simp only [isTail, Bool.not_eq_false, Bool.and_eq_true, decide_eq_true_eq, UInt8.le_iff_toNat_le, h,
    UInt8.reduceToNat]
  omega

/-- A first byte and a second one that can begin a character together. -/
def CanBegin (first second : UInt8) : Prop :=
  ¬ (first < 0xC2 ∨ 0xF4 < first ∨ second < (secondBounds first).1 ∨ (secondBounds first).2 < second)

/-- Only four first bytes ask for more of the second one than that it continues a character. -/
theorem canBegin_ofNat (first n : Nat) (hfirst : 0xC2 ≤ first ∧ first ≤ 0xF4)
    (hlow : (first = 0xE0 → 32 ≤ n % 64) ∧ (first = 0xF0 → 16 ≤ n % 64))
    (hhigh : (first = 0xED → n % 64 < 32) ∧ (first = 0xF4 → n % 64 < 16)) :
    CanBegin (UInt8.ofNat first) (UInt8.ofNat (n % 64 + 128)) := by
  have h₁ := UInt8.toNat_ofNat_of_lt' (show first < 256 by omega)
  have h₂ := UInt8.toNat_ofNat_of_lt' (show n % 64 + 128 < 256 by omega)
  unfold CanBegin secondBounds
  simp only [← UInt8.toNat_inj, UInt8.lt_iff_toNat_lt, h₁, h₂, UInt8.reduceToNat]
  -- In each range of first bytes the bounds of the second one are numbers.
  repeat' split
  all_goals
    simp only [UInt8.reduceToNat]
    omega

/-! ## Characters -/

variable {v : Nat}

theorem front_one (h : v < 128) (rest : Bytes) :
    front (UInt8.ofNat v) rest = .char (Char.ofNat v) 1 := by
  have hfirst : v < 256 := by omega
  have hbyte : UInt8.ofNat v < 0x80 := (UInt8.ofNat_lt_iff hfirst).2 h
  rw [front, if_pos hbyte, UInt8.toNat_ofNat_of_lt' hfirst]

theorem front_two (hlow : 128 ≤ v) (hhigh : v < 2048) (rest : Bytes) :
    front (UInt8.ofNat (v / 64 % 32 + 192)) (UInt8.ofNat (v % 64 + 128) :: rest) =
      .char (Char.ofNat v) 2 := by
  have hfirst : v / 64 % 32 + 192 < 256 := by omega
  have hbegin := canBegin_ofNat (v / 64 % 32 + 192) v (by omega) (by omega) (by omega)
  have hlong : ¬ UInt8.ofNat (v / 64 % 32 + 192) < 0x80 := by
    simp only [UInt8.ofNat_lt_iff hfirst, UInt8.reduceToNat]
    omega
  have hsize : UInt8.ofNat (v / 64 % 32 + 192) < 0xE0 := by
    simp only [UInt8.ofNat_lt_iff hfirst, UInt8.reduceToNat]
    omega
  have hvalue : (v / 64 % 32 + 192) % 32 * 64 + v % 64 = v := by omega
  rw [front, if_neg hlong]
  dsimp only
  rw [if_neg hbegin, if_pos hsize, UInt8.toNat_ofNat_of_lt' hfirst, tailBits_ofNat, hvalue]

theorem front_three (hlow : 2048 ≤ v) (hhigh : v < 65536) (hvalid : v < 0xD800 ∨ 0xDFFF < v)
    (rest : Bytes) :
    front (UInt8.ofNat (v / 4096 % 16 + 224))
        (UInt8.ofNat (v / 64 % 64 + 128) :: UInt8.ofNat (v % 64 + 128) :: rest) =
      .char (Char.ofNat v) 3 := by
  have hfirst : v / 4096 % 16 + 224 < 256 := by omega
  have hbegin := canBegin_ofNat (v / 4096 % 16 + 224) (v / 64) (by omega) (by omega) (by omega)
  have hlong : ¬ UInt8.ofNat (v / 4096 % 16 + 224) < 0xE0 := by
    simp only [UInt8.ofNat_lt_iff hfirst, UInt8.reduceToNat]
    omega
  have hsize : UInt8.ofNat (v / 4096 % 16 + 224) < 0xF0 := by
    simp only [UInt8.ofNat_lt_iff hfirst, UInt8.reduceToNat]
    omega
  have hvalue : (v / 4096 % 16 + 224) % 16 * 4096 + v / 64 % 64 * 64 + v % 64 = v := by omega
  rw [front, if_neg fun hbyte => hlong (UInt8.lt_trans hbyte (by decide))]
  dsimp only
  rw [if_neg hbegin, if_neg hlong, if_neg (isTail_ofNat _), if_pos hsize,
    UInt8.toNat_ofNat_of_lt' hfirst, tailBits_ofNat, tailBits_ofNat, hvalue]

theorem front_four (hlow : 65536 ≤ v) (hhigh : v < 0x110000) (rest : Bytes) :
    front (UInt8.ofNat (v / 262144 % 8 + 240)) (UInt8.ofNat (v / 4096 % 64 + 128) ::
        UInt8.ofNat (v / 64 % 64 + 128) :: UInt8.ofNat (v % 64 + 128) :: rest) =
      .char (Char.ofNat v) 4 := by
  have hfirst : v / 262144 % 8 + 240 < 256 := by omega
  have hbegin := canBegin_ofNat (v / 262144 % 8 + 240) (v / 4096) (by omega) (by omega)
    (by omega)
  have hlong : ¬ UInt8.ofNat (v / 262144 % 8 + 240) < 0xF0 := by
    simp only [UInt8.ofNat_lt_iff hfirst, UInt8.reduceToNat]
    omega
  have hthree := fun hlt => hlong (UInt8.lt_trans hlt (show (0xE0 : UInt8) < 0xF0 by decide))
  have hvalue : (v / 262144 % 8 + 240) % 8 * 262144 + v / 4096 % 64 * 4096 + v / 64 % 64 * 64 +
      v % 64 = v := by
    omega
  rw [front, if_neg fun hbyte => hthree (UInt8.lt_trans hbyte (by decide))]
  dsimp only
  rw [if_neg hbegin, if_neg hthree, if_neg (isTail_ofNat _), if_neg hlong,
    if_neg (isTail_ofNat _), UInt8.toNat_ofNat_of_lt' hfirst, tailBits_ofNat, tailBits_ofNat,
    tailBits_ofNat, hvalue]

/-- **A character is read from its bytes,** whatever follows them. -/
theorem front_utf8EncodeChar (c : Char) (rest : Bytes) :
    ∃ b tail, String.utf8EncodeChar c = b :: tail ∧
      front b (tail ++ rest) = .char c (tail.length + 1) := by
  have hvalid := c.valid
  have hchar : Char.ofNat c.val.toNat = c := Char.ofNat_toNat c
  simp only [UInt32.isValidChar, Nat.isValidChar] at hvalid
  unfold String.utf8EncodeChar
  generalize c.val.toNat = v at *
  dsimp only
  by_cases h₁ : v ≤ 127
  · rw [if_pos h₁]
    exact ⟨_, _, rfl, hchar ▸ front_one (by omega) _⟩
  by_cases h₂ : v ≤ 2047
  · rw [if_neg h₁, if_pos h₂]
    exact ⟨_, _, rfl, hchar ▸ front_two (by omega) (by omega) _⟩
  by_cases h₃ : v ≤ 65535
  · rw [if_neg h₁, if_neg h₂, if_pos h₃]
    exact ⟨_, _, rfl, hchar ▸ front_three (by omega) (by omega) (by omega) _⟩
  · rw [if_neg h₁, if_neg h₂, if_neg h₃]
    exact ⟨_, _, rfl, hchar ▸ front_four (by omega) (by omega) _⟩

/-! ## Texts -/

/-- **A text is read from its bytes.** -/
theorem decode?_ofText (cs : List Char) : decode? (ofText cs) = some cs := by
  induction cs with
  | nil => rw [ofText_nil, decode?]
  | cons c cs ih =>
    obtain ⟨b, tail, hbytes, hfront⟩ := front_utf8EncodeChar c (ofText cs)
    have hcons : ofText (c :: cs) = b :: (tail ++ ofText cs) := by
      rw [ofText, List.flatMap_cons, hbytes]
      rfl
    rw [hcons, decode?, hfront]
    dsimp only
    rw [Nat.add_sub_cancel, List.drop_left, ih]
    rfl

end Bytes

end MailTemplate
