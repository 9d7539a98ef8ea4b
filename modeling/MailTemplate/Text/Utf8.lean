import MailTemplate.Text.Basic

/-!
# Texts as bytes

The bytes of a text are its UTF-8 form.  Bytes from outside need not be UTF-8: `decode?` refuses
those, and `decodeLossy` writes a replacement character for each longest piece that could have begun
a character but does not.

## Main definitions

* `Bytes` — a list of bytes.
* `Bytes.ofText`, `Bytes.ofString` — the UTF-8 form.
* `Bytes.decode?`, `Bytes.decodeLossy` — reading bytes as text.
-/

namespace MailTemplate

/-- A sequence of bytes. -/
abbrev Bytes := List UInt8

namespace Bytes

/-- The UTF-8 form of a text. -/
def ofText (cs : List Char) : Bytes := cs.flatMap String.utf8EncodeChar

/-- The UTF-8 form of a string. -/
def ofString (s : String) : Bytes := ofText s.toList

@[simp] theorem ofText_nil : ofText [] = [] := rfl

/-! ## Reading one character -/

/-- What stands at the front of some bytes. -/
inductive Front where
  /-- A character, and how many bytes it takes. -/
  | char (c : Char) (size : Nat)
  /-- No character; so many bytes are the longest piece that a character could have begun with, or
  one byte if there is no such piece. -/
  | broken (size : Nat)
  deriving DecidableEq

/-- Whether a byte continues a character. -/
def isTail (b : UInt8) : Bool := 0x80 ≤ b && b ≤ 0xBF

/-- The bounds of the second byte after a first byte. -/
def secondBounds (first : UInt8) : UInt8 × UInt8 :=
  if first = 0xE0 then (0xA0, 0xBF)
  else if first = 0xED then (0x80, 0x9F)
  else if first = 0xF0 then (0x90, 0xBF)
  else if first = 0xF4 then (0x80, 0x8F)
  else (0x80, 0xBF)

/-- The value of a continuation byte. -/
def tailBits (b : UInt8) : Nat := b.toNat % 64

/-- The character at the front of `first :: rest`. -/
def front (first : UInt8) (rest : Bytes) : Front :=
  if first < 0x80 then .char (Char.ofNat first.toNat) 1
  else
    let (low, high) := secondBounds first
    match rest with
    | [] => .broken 1
    | b :: rest =>
      if first < 0xC2 ∨ 0xF4 < first ∨ b < low ∨ high < b then .broken 1
      else if first < 0xE0 then
        .char (Char.ofNat (first.toNat % 32 * 64 + tailBits b)) 2
      else
        match rest with
        | [] => .broken 2
        | c :: rest =>
          if isTail c = false then .broken 2
          else if first < 0xF0 then
            .char (Char.ofNat (first.toNat % 16 * 4096 + tailBits b * 64 + tailBits c)) 3
          else
            match rest with
            | [] => .broken 3
            | d :: _ =>
              if isTail d = false then .broken 3
              else
                .char (Char.ofNat
                  (first.toNat % 8 * 262144 + tailBits b * 4096 + tailBits c * 64 + tailBits d)) 4

/-! ## Reading a text -/

/-- The text that the bytes are the UTF-8 form of. -/
def decode? (bs : Bytes) : Option (List Char) :=
  match bs with
  | [] => some []
  | b :: rest =>
    match front b rest with
    | .char c size => (decode? (rest.drop (size - 1))).map (c :: ·)
    | .broken _ => none
termination_by bs.length
decreasing_by simp only [List.length_drop, List.length_cons]; omega

/-- The bytes read as a text, a replacement character standing for every broken piece. -/
def decodeLossy (bs : Bytes) : List Char :=
  match bs with
  | [] => []
  | b :: rest =>
    match front b rest with
    | .char c size => c :: decodeLossy (rest.drop (size - 1))
    | .broken size => '\ufffd' :: decodeLossy (rest.drop (size - 1))
termination_by bs.length
decreasing_by all_goals simp only [List.length_drop, List.length_cons]; omega

/-- The string that the bytes are the UTF-8 form of. -/
def toString? (bs : Bytes) : Option String := (decode? bs).map String.ofList

end Bytes

end MailTemplate
