import MailTemplate.Markup.Token

/-!
# Reading tokens

At a `<` one of four things can begin: a comment, an end tag, a declaration or a start tag.  Where
none of them does, the `<` is plain text and reading goes on behind it.  A start tag needs its
closing `>`; everything else that is not closed runs to the end of the source.  Behind the start tag
of a raw element comes its raw text, up to the first text that looks like the front of its end tag.

## Main definitions

* `Attribute.read?`, `TagBody.read?`, `StartTag.read?` — reading one start tag.
* `Token.read?` — the tokens that begin at a place.
* `Token.tokenize` — the tokens of a source.

## Main results

* `Token.length_read?_lt` — a token takes at least one character.
-/

namespace MailTemplate

/-! ## Start tags -/

/-- The characters of the names of elements. -/
def isNameChar (c : Char) : Bool :=
  c.isAlphanum || c == '-' || c == ':' || c == '_' || c == '.'

/-- The characters of the names of attributes. -/
def isAttributeChar (c : Char) : Bool :=
  !Text.isTagBlank c && c != '=' && c != '>' && c != '/'

/-- The characters of values without quotes. -/
def isBareValueChar (c : Char) : Bool := !Text.isTagBlank c && c != '>'

namespace Attribute

/-- The attribute with a value that stands at `value`, and the place behind it.  A value in quotes
runs to the next such quote, which must be there. -/
def readValue? (start : Cursor) (name : String) (value : Cursor) : Option (Attribute × Cursor) :=
  match value.ahead with
  | [] => none
  | q :: _ =>
    if q = '"' ∨ q = '\'' then
      let inner := value.advance 1
      match Text.indexOf? [q] inner.ahead with
      | none => none
      | some n =>
        let close := inner.advance n
        let next := close.advance 1
        some (⟨name, some (String.ofList (inner.ahead.take n)), start.spanTo next,
          some (inner.spanTo close)⟩, next)
    else
      let next := value.skip isBareValueChar
      some (⟨name, some (String.ofList (value.run isBareValueChar)), start.spanTo next,
        some (value.spanTo next)⟩, next)

/-- The attribute that stands at a place, and the place behind it. -/
def read? (start : Cursor) : Option (Attribute × Cursor) :=
  let name := String.ofList (Text.lower (start.run isAttributeChar))
  let behind := start.skip isAttributeChar
  let mark := behind.skip Text.isTagBlank
  match mark.ahead with
  | '=' :: _ => readValue? start name ((mark.advance 1).skip Text.isTagBlank)
  | _ => some (⟨name, none, start.spanTo behind, none⟩, behind)

theorem length_readValue?_le {start value next : Cursor} {name : String} {a : Attribute}
    (h : readValue? start name value = some (a, next)) :
    next.ahead.length ≤ value.ahead.length := by
  unfold readValue? at h
  split at h
  · simp at h
  · split at h
    · dsimp only at h
      split at h
      · simp at h
      · simp only [Option.some.injEq, Prod.mk.injEq] at h
        obtain ⟨-, rfl⟩ := h
        simp only [Cursor.ahead_advance, List.length_drop]
        omega
    · simp only [Option.some.injEq, Prod.mk.injEq] at h
      obtain ⟨-, rfl⟩ := h
      exact Cursor.length_skip_le _ _

theorem length_read?_le {start next : Cursor} {a : Attribute}
    (h : read? start = some (a, next)) :
    next.ahead.length ≤ (start.skip isAttributeChar).ahead.length := by
  unfold read? at h
  dsimp only at h
  split at h
  · have h₁ := length_readValue?_le h
    have h₂ := Cursor.length_skip_le
      (((start.skip isAttributeChar).skip Text.isTagBlank).advance 1) Text.isTagBlank
    have h₃ := Cursor.length_advance_le ((start.skip isAttributeChar).skip Text.isTagBlank) 1
    have h₄ := Cursor.length_skip_le (start.skip isAttributeChar) Text.isTagBlank
    omega
  · simp only [Option.some.injEq, Prod.mk.injEq] at h
    obtain ⟨-, rfl⟩ := h
    exact Nat.le_refl _

theorem length_read?_lt {start next : Cursor} {a : Attribute} {c : Char} {cs : List Char}
    (hs : start.ahead = c :: cs) (hc : isAttributeChar c = true)
    (h : read? start = some (a, next)) : next.ahead.length < start.ahead.length := by
  apply Nat.lt_of_le_of_lt (length_read?_le h)
  apply Cursor.length_advance_lt
  · simp [Cursor.run, hs, hc]
  · simp [hs]

end Attribute

/-- What follows the name of a start tag. -/
structure TagBody where
  /-- The attributes in order. -/
  attributes : List Attribute
  /-- The offset behind the last attribute. -/
  attributesEnd : Nat
  /-- Whether the tag ends with a slash. -/
  selfClosing : Bool
  /-- The place behind the tag. -/
  next : Cursor

namespace TagBody

/-- Reads the rest of a start tag.  Stray slashes and equality signs are passed over; `lastEnd` is
the offset behind what was read last. -/
def read? (lastEnd : Nat) (c : Cursor) : Option TagBody :=
  let here := c.skip Text.isTagBlank
  match _hs : here.ahead with
  | [] => none
  | ch :: rest =>
    if ch = '>' then some ⟨[], lastEnd, false, here.advance 1⟩
    else if ch = '/' then
      if rest.head? = some '>' then some ⟨[], lastEnd, true, here.advance 2⟩
      else read? lastEnd (here.advance 1)
    else if ch = '=' then read? lastEnd (here.advance 1)
    else
      match _ha : Attribute.read? here with
      | none => none
      | some (a, next) =>
        match read? next.offset next with
        | none => none
        | some body => some { body with attributes := a :: body.attributes }
termination_by c.ahead.length
decreasing_by
  all_goals have hle := Cursor.length_skip_le c Text.isTagBlank
  · have := @Cursor.length_advance_lt here 1 (by omega) (by simp [_hs])
    exact Nat.lt_of_lt_of_le this hle
  · have := @Cursor.length_advance_lt here 1 (by omega) (by simp [_hs])
    exact Nat.lt_of_lt_of_le this hle
  · next hgt hslash heq =>
    have hblank : Text.isTagBlank ch = false := by
      have := List.head?_dropWhile_not Text.isTagBlank c.ahead
      rw [← Cursor.ahead_skip, _hs] at this
      simpa using this
    have hch : isAttributeChar ch = true := by
      simp [isAttributeChar, hblank, hgt, hslash, heq]
    exact Nat.lt_of_lt_of_le (Attribute.length_read?_lt _hs hch _ha) hle

end TagBody

namespace StartTag

/-- The start tag whose `<` stands at a place, and the place behind it. -/
def read? (start : Cursor) : Option (StartTag × Cursor) :=
  let name := (start.advance 1).run isNameChar
  let behind := (start.advance 1).skip isNameChar
  (TagBody.read? behind.offset behind).map fun body =>
    (⟨String.ofList (Text.lower name), body.attributes, start.spanTo body.next, body.attributesEnd,
      body.selfClosing⟩, body.next)

end StartTag

/-! ## Tokens -/

namespace Token

/-- The elements whose text is not markup. -/
def rawElements : List String := ["style", "script", "title"]

/-- Where the raw text of an element ends that begins at a place: at what looks like the front of
its end tag. -/
def rawTextEnd (element : String) (c : Cursor) : Cursor :=
  match Text.indexOfFold? ('<' :: '/' :: element.toList) c.ahead with
  | some n => c.advance n
  | none => c.finish

/-- A start tag with the raw text behind it, if its element has raw text. -/
def ofStartTag (tag : StartTag) (next : Cursor) : List Token × Cursor :=
  if tag.selfClosing = false ∧ tag.name ∈ rawElements then
    let close := rawTextEnd tag.name next
    ([startTag tag, rawText tag.name (next.spanTo close)], close)
  else ([startTag tag], next)

/-- The end tag whose `</` stands at a place. -/
def readEndTag? (start : Cursor) : Option (Token × Cursor) :=
  let name := (start.advance 2).run isNameChar
  if name = [] then none
  else
    let next := ((start.advance 2).skip isNameChar).pastOrFinish ['>']
    some (endTag (String.ofList (Text.lower name)) (start.spanTo next), next)

/-- The tokens that begin with the `<` at a place, and the place behind them. -/
def read? (start : Cursor) : Option (List Token × Cursor) :=
  match start.ahead with
  | '<' :: '!' :: '-' :: '-' :: _ =>
    let next := (start.advance 4).pastOrFinish ['-', '-', '>']
    some ([comment (start.spanTo next)], next)
  | '<' :: '/' :: _ => (readEndTag? start).map fun (token, next) => ([token], next)
  | '<' :: '!' :: _ | '<' :: '?' :: _ =>
    let next := (start.advance 1).pastOrFinish ['>']
    some ([declaration (start.spanTo next)], next)
  | '<' :: c :: _ =>
    if c.isAlpha then (StartTag.read? start).map fun (tag, next) => ofStartTag tag next
    else none
  | _ => none

end Token

/-! ## Every token takes something -/

theorem TagBody.length_read?_le {lastEnd : Nat} {c : Cursor} {body : TagBody}
    (h : TagBody.read? lastEnd c = some body) : body.next.ahead.length ≤ c.ahead.length := by
  fun_induction TagBody.read? lastEnd c generalizing body with
  | case1 => simp at h
  | case2 | case3 =>
    cases h
    exact Nat.le_trans (Cursor.length_advance_le _ _) (Cursor.length_skip_le _ _)
  | case4 | case5 =>
    rename_i ih
    exact Nat.le_trans (ih h)
      (Nat.le_trans (Cursor.length_advance_le _ _) (Cursor.length_skip_le _ _))
  | case6 | case7 => simp at h
  | case8 =>
    rename_i ha _ hb ih
    have hle := ih hb
    cases h
    exact Nat.le_trans hle (Nat.le_trans (Attribute.length_read?_le ha)
      (Nat.le_trans (Cursor.length_skip_le _ _) (Cursor.length_skip_le _ _)))

theorem StartTag.length_read?_lt {start next : Cursor} {tag : StartTag} {c : Char}
    {cs : List Char} (hs : start.ahead = c :: cs) (h : StartTag.read? start = some (tag, next)) :
    next.ahead.length < start.ahead.length := by
  obtain ⟨body, hb, heq⟩ := Option.map_eq_some_iff.1 h
  simp only [Prod.mk.injEq] at heq
  obtain ⟨-, rfl⟩ := heq
  have h₁ := TagBody.length_read?_le hb
  have h₂ := Cursor.length_skip_le (start.advance 1) isNameChar
  have h₃ := Cursor.length_advance_lt (c := start) (n := 1) (by omega) (by simp [hs])
  omega

namespace Token

theorem length_rawTextEnd_le (element : String) (c : Cursor) :
    (rawTextEnd element c).ahead.length ≤ c.ahead.length := by
  unfold rawTextEnd
  split <;> exact Cursor.length_advance_le _ _

theorem length_ofStartTag_le (tag : StartTag) (c : Cursor) :
    (ofStartTag tag c).2.ahead.length ≤ c.ahead.length := by
  unfold ofStartTag
  split
  · exact length_rawTextEnd_le _ _
  · exact Nat.le_refl _

/-- What begins at a place takes at least one character. -/
theorem length_read?_lt {start next : Cursor} {ts : List Token}
    (h : read? start = some (ts, next)) : next.ahead.length < start.ahead.length := by
  unfold read? at h
  split at h
  · next hs =>
    simp only [Option.some.injEq, Prod.mk.injEq] at h
    obtain ⟨-, rfl⟩ := h
    exact Nat.lt_of_le_of_lt (Cursor.length_pastOrFinish_le _ _)
      (Cursor.length_advance_lt (by omega) (by simp [hs]))
  · next hs =>
    obtain ⟨⟨t, n⟩, hr, heq⟩ := Option.map_eq_some_iff.1 h
    simp only [Prod.mk.injEq] at heq
    obtain ⟨-, rfl⟩ := heq
    simp only [readEndTag?] at hr
    split at hr
    · simp at hr
    · simp only [Option.some.injEq, Prod.mk.injEq] at hr
      obtain ⟨-, rfl⟩ := hr
      exact Nat.lt_of_le_of_lt
        (Nat.le_trans (Cursor.length_pastOrFinish_le _ _) (Cursor.length_skip_le _ _))
        (Cursor.length_advance_lt (by omega) (by simp [hs]))
  · next hs =>
    simp only [Option.some.injEq, Prod.mk.injEq] at h
    obtain ⟨-, rfl⟩ := h
    exact Nat.lt_of_le_of_lt (Cursor.length_pastOrFinish_le _ _)
      (Cursor.length_advance_lt (by omega) (by simp [hs]))
  · next hs =>
    simp only [Option.some.injEq, Prod.mk.injEq] at h
    obtain ⟨-, rfl⟩ := h
    exact Nat.lt_of_le_of_lt (Cursor.length_pastOrFinish_le _ _)
      (Cursor.length_advance_lt (by omega) (by simp [hs]))
  · next hs =>
    split at h
    · obtain ⟨⟨tag, n⟩, hr, heq⟩ := Option.map_eq_some_iff.1 h
      have hle := length_ofStartTag_le tag n
      dsimp only at heq
      rw [heq] at hle
      exact Nat.lt_of_le_of_lt hle (StartTag.length_read?_lt hs hr)
    · simp at h
  · simp at h

/-! ## A whole source -/

/-- The tokens from a place on. -/
def tokensFrom (c : Cursor) : List Token :=
  if _h : c.ahead = [] then []
  else
    match _hr : read? c with
    | some (ts, next) => ts ++ tokensFrom next
    | none => tokensFrom (c.advance 1)
termination_by c.ahead.length
decreasing_by
  · exact length_read?_lt _hr
  · exact Cursor.length_advance_lt (by omega) _h

/-- The tokens of a source in order. -/
def tokenize (source : String) : List Token := tokensFrom (.front source.toList)

end Token

end MailTemplate
