import MailTemplate.Proofs.BoundaryChoice
import MailTemplate.Proofs.MessageLines
import MailTemplate.Proofs.MessageReader

/-!
# The structure of template messages

A template is read back as what it was made of: its document inside its levels, and nothing else.
The proof goes over the levels from the outside.  What carries it is that no line inside a level can
be taken for a delimiter line of that level: a header line does not begin with a hyphen, a line of the
document would make the boundary occur in the document, and a delimiter line of another level would
make one of the two boundaries a part of the other one.

## Main definitions

* `Boundary.isBoundaryChar` — the characters of boundaries.
* `Entity.nest` — a document in levels, as it is read.
* `HoldsDocument` — a message holds a document in levels.

## Main results

* `Part.isDelimiter_eq_false` — no line inside a level is a delimiter line of the level.
* `Part.read?_innerLines`, `Part.read?_wrap` — what is read from a document in levels.
* `Part.filter_isDelimiter` — the delimiter lines of each level.
-/

namespace MailTemplate

/-- The characters of boundaries: letters, digits and some marks, but no blanks and no quotes. -/
def Boundary.isBoundaryChar (c : Char) : Bool :=
  c.isAlphanum || "'()+_,-./:=?".toList.contains c

/-- A document in levels, as it is read. -/
def Entity.nest : List (String × String) → List Char → Entity
  | [], body => .single "text/html".toList "quoted-printable".toList body
  | (type, boundary) :: levels, body =>
    .multipart type.toList boundary.toList [nest levels body]

/-- A message holds a document in levels of some content types and boundaries, the outermost
first. -/
structure HoldsDocument (levels : List (String × String)) (body message : List Char) : Prop where
  /-- The message is ASCII. -/
  isAscii : Text.IsAscii message
  /-- It has no line breaks but its line ends. -/
  breaks : Text.BreaksOnlyAtCrlf message
  /-- It is read as the document in its levels. -/
  reading : Entity.read? (Text.crlfLines message) = some (Entity.nest levels body)
  /-- Each boundary has a delimiter line and a last delimiter line, and no other line begins like
  one. -/
  delimiters : ∀ level ∈ levels,
    (Text.crlfLines message).filter (Multipart.isDelimiter level.2.toList) =
      [Part.delimiter level.2, Part.closeDelimiter level.2]

/-! ## Levels -/

/-- Levels that a document can be wrapped in. -/
structure Wrappable (body : List Char) (levels : List (String × String)) : Prop where
  /-- Their content types are those of templates. -/
  types : ∀ level ∈ levels, level.1 ∈ Template.nestedTypes
  /-- Their boundaries are made of boundary characters. -/
  chars : ∀ level ∈ levels, ∀ c ∈ level.2.toList, Boundary.isBoundaryChar c = true
  /-- No boundary occurs in the document. -/
  notInBody : ∀ level ∈ levels, ¬ level.2.toList <:+: body
  /-- No boundary is a part of another one. -/
  apart : levels.Pairwise fun a b =>
    ¬ a.2.toList <:+: b.2.toList ∧ ¬ b.2.toList <:+: a.2.toList

theorem Wrappable.tail {body : List Char} {level : String × String}
    {levels : List (String × String)} (h : Wrappable body (level :: levels)) :
    Wrappable body levels :=
  ⟨fun l hl => h.types l (List.mem_cons_of_mem _ hl),
    fun l hl => h.chars l (List.mem_cons_of_mem _ hl),
    fun l hl => h.notInBody l (List.mem_cons_of_mem _ hl), (List.pairwise_cons.1 h.apart).2⟩

theorem Boundary.isPlain {boundary : List Char}
    (h : ∀ c ∈ boundary, isBoundaryChar c = true) : Text.IsPlain boundary := by
  have hmarks : "'()+_,-./:=?".toList.all
      (fun c => decide (0x20 ≤ c.toNat) && decide (c.toNat < 0x80)) = true := by decide
  refine Text.isPlain_of_forall fun c hc => ?_
  have hc := h c hc
  simp only [isBoundaryChar, Bool.or_eq_true, List.contains_iff_mem] at hc
  rcases hc with hc | hc
  · have hbounds := Text.isAlphanum_bounds hc
    omega
  · have hbounds := List.all_eq_true.1 hmarks c hc
    simpa only [Bool.and_eq_true, decide_eq_true_eq] using hbounds

/-! ## The header of a level -/

namespace Header

/-- The value of the content type of a level. -/
def levelValue (type boundary : List Char) : List Char :=
  type ++ ';' :: (" boundary".toList ++ '=' :: '"' :: (boundary ++ ['"']))

theorem levelHeader_eq (type boundary : String) :
    Part.levelHeader type boundary =
      "Content-Type".toList ++ ':' :: ' ' :: levelValue type.toList boundary.toList := by
  simp [Part.levelHeader, levelValue]

theorem head?_levelHeader (type boundary : String) :
    (Part.levelHeader type boundary).head? = some 'C' := by
  rw [levelHeader_eq]
  rfl

/-- What is used of the content types of templates. -/
theorem type_facts : ∀ type ∈ Template.nestedTypes,
    Text.IsPlain type.toList ∧ "multipart/".toList <+: type.toList ∧
      Text.lower (Text.trim type.toList) = type.toList ∧ ';' ∉ type.toList := by
  have hplain : ∀ type ∈ Template.nestedTypes, type.toList.all
      (fun c => decide (0x20 ≤ c.toNat) && decide (c.toNat < 0x80)) = true := by
    decide
  have hrest : ∀ type ∈ Template.nestedTypes, "multipart/".toList <+: type.toList ∧
      Text.lower (Text.trim type.toList) = type.toList ∧ ';' ∉ type.toList := by
    decide
  exact fun type htype => ⟨Text.isPlain_of_all (hplain type htype), hrest type htype⟩

variable {type boundary : String}

theorem value?_levelHeader (htype : type ∈ Template.nestedTypes) :
    value? "content-type".toList (Part.levelHeader type boundary) =
      some (levelValue type.toList boundary.toList) := by
  obtain ⟨-, hprefix, -⟩ := type_facts type htype
  -- The value begins with the name of a type and ends with a quote.
  have hfirst : (levelValue type.toList boundary.toList).head? = some 'm' := by
    obtain ⟨rest, hrest⟩ := hprefix
    rw [levelValue, ← hrest]
    rfl
  have hlast : (levelValue type.toList boundary.toList).getLast? = some '"' := by
    simp [levelValue, List.getLast?_cons]
  have htrim := Text.trim_of_ends hfirst hlast (by decide) (by decide)
  rw [levelHeader_eq, value?_append_cons (by decide), if_pos (by decide),
    Text.trim_cons_of_isBlank (by decide), htrim]

theorem mediaType_levelValue (htype : type ∈ Template.nestedTypes) :
    mediaType (levelValue type.toList boundary.toList) = type.toList := by
  obtain ⟨-, -, hlower, hsemicolon⟩ := type_facts type htype
  rw [mediaType, levelValue, takeWhile_append_cons hsemicolon, hlower]

theorem parameter?_levelValue (htype : type ∈ Template.nestedTypes)
    (hboundary : ∀ c ∈ boundary.toList, Boundary.isBoundaryChar c = true) :
    parameter? "boundary".toList (levelValue type.toList boundary.toList) =
      some boundary.toList := by
  obtain ⟨-, -, -, hsemicolon⟩ := type_facts type htype
  have hno {c : Char} (hc : Boundary.isBoundaryChar c = false) : c ∉ boundary.toList := fun hm => by
    rw [hboundary c hm] at hc
    exact Bool.noConfusion hc
  have hcut : ';' ∉ " boundary".toList ++ '=' :: '"' :: (boundary.toList ++ ['"']) := by
    have h : ';' ∉ boundary.toList := hno (by decide)
    simp [h]
  have hsplit : (levelValue type.toList boundary.toList).splitOn ';' =
      [type.toList, " boundary".toList ++ '=' :: '"' :: (boundary.toList ++ ['"'])] := by
    rw [levelValue, List.splitOn_append_cons_self_of_not_mem hsemicolon,
      List.splitOn_eq_singleton hcut]
  have hlast : ('"' :: (boundary.toList ++ ['"'])).getLast? = some '"' := by
    simp [List.getLast?_cons]
  have htrim := Text.trim_of_ends rfl hlast (by decide) (by decide)
  rw [parameter?, hsplit, List.drop_one, List.tail_cons, List.findSome?_singleton,
    takeWhile_append_cons (by decide), dropWhile_append_cons (by decide), if_pos (by decide),
    List.drop_one, List.tail_cons, htrim, unquote, takeWhile_append_cons (hno (by decide))]

end Header

namespace Part

/-! ## Lines of a part -/

/-- The lines of the text of a part. -/
def textLines (part : Part) : List (List Char) := part.lines.flatMap Text.crlfLines

theorem levelHeader_isPlain {type boundary : String} (htype : Text.IsPlain type.toList)
    (hboundary : Text.IsPlain boundary.toList) : Text.IsPlain (levelHeader type boundary) := by
  have h₁ : Text.IsPlain "Content-Type: ".toList := Text.isPlain_of_all (by decide)
  have h₂ : Text.IsPlain "; boundary=\"".toList := Text.isPlain_of_all (by decide)
  have h₃ : Text.IsPlain "\"".toList := Text.isPlain_of_all (by decide)
  simp only [levelHeader, String.toList_append]
  exact (((h₁.append htype).append h₂).append hboundary).append h₃

/-- The header of a document. -/
def documentHeader : List (List Char) :=
  ["Content-Type: text/html; charset=\"utf-8\"".toList,
    "Content-Transfer-Encoding: quoted-printable".toList]

theorem textLines_document (body : List Char) :
    (document body).textLines = documentHeader ++ [] :: Text.crlfLines body := by
  have hheader : documentHeader.flatMap Text.crlfLines = documentHeader := by
    decide
  have hlines : (document body).lines = documentHeader ++ [[], body] := rfl
  rw [textLines, hlines, List.flatMap_append, hheader, List.flatMap_cons, List.flatMap_singleton,
    Text.crlfLines_nil, List.singleton_append]

/-- The lines between the delimiter lines of a level. -/
def innerLines (inner : Part) : List (List Char) :=
  inner.textLines ++ if inner.isLevel then [[]] else []

theorem textLines_level {type boundary : String} (htype : Text.IsPlain type.toList)
    (hboundary : Text.IsPlain boundary.toList) (inner : Part) :
    (level type boundary inner).textLines =
      levelHeader type boundary :: [] :: delimiter boundary ::
        (inner.innerLines ++ [closeDelimiter boundary]) := by
  have hdashes : Text.IsPlain ['-', '-'] := Text.isPlain_of_all (by decide)
  have hdelimiter : Text.IsPlain (delimiter boundary) := hdashes.append hboundary
  have hclose : Text.IsPlain (closeDelimiter boundary) := hdelimiter.append hdashes
  have hempty : (if inner.isLevel then [[]] else []).flatMap Text.crlfLines =
      if inner.isLevel then [[]] else [] := by
    split <;> rfl
  simp only [textLines, lines, innerLines, List.flatMap_append, List.flatMap_cons, List.flatMap_nil,
    (levelHeader_isPlain htype hboundary).crlfLines, hdelimiter.crlfLines, hclose.crlfLines, hempty,
    Text.crlfLines_nil, List.append_nil, List.append_assoc, List.cons_append, List.nil_append]

/-! ## Delimiter lines -/

section Delimiters

variable {boundary other : String}

theorem isDelimiter_iff {line : List Char} :
    Multipart.isDelimiter boundary.toList line = true ↔ delimiter boundary <+: line :=
  List.isPrefixOf_iff_prefix

theorem isDelimiter_delimiter : Multipart.isDelimiter boundary.toList (delimiter boundary) = true :=
  isDelimiter_iff.2 List.prefix_rfl

theorem isClose_closeDelimiter :
    Multipart.isClose boundary.toList (closeDelimiter boundary) = true :=
  List.isPrefixOf_iff_prefix.2 List.prefix_rfl

theorem isClose_delimiter : Multipart.isClose boundary.toList (delimiter boundary) = false := by
  rw [← Bool.not_eq_true, Multipart.isClose, List.isPrefixOf_iff_prefix]
  intro h
  have hle := h.length_le
  simp only [delimiter, List.length_append, List.length_cons, List.length_nil] at hle
  omega

/-- A line that does not begin with a hyphen is no delimiter line. -/
theorem isDelimiter_of_head? {line : List Char} (h : line.head? ≠ some '-') :
    Multipart.isDelimiter boundary.toList line = false := by
  rw [← Bool.not_eq_true, isDelimiter_iff]
  rintro ⟨rest, rfl⟩
  exact h rfl

theorem isDelimiter_of_not_isInfix {line body : List Char} (h : ¬ boundary.toList <:+: body)
    (hline : line <:+: body) : Multipart.isDelimiter boundary.toList line = false := by
  rw [← Bool.not_eq_true, isDelimiter_iff]
  intro hprefix
  have hsuffix : boundary.toList <:+: delimiter boundary := ⟨['-', '-'], [], by simp [delimiter]⟩
  exact h ((hsuffix.trans hprefix.isInfix).trans hline)

theorem isDelimiter_delimiter_of_apart (h : ¬ boundary.toList <:+: other.toList) :
    Multipart.isDelimiter boundary.toList (delimiter other) = false := by
  rw [← Bool.not_eq_true, isDelimiter_iff]
  intro hprefix
  simp only [delimiter, List.cons_prefix_cons, true_and] at hprefix
  exact h hprefix.isInfix

/-- The hyphens at the end of the last delimiter line could belong to a longer boundary, but then the
shorter one would be a part of it. -/
theorem isDelimiter_closeDelimiter_of_apart
    (h : ¬ boundary.toList <:+: other.toList ∧ ¬ other.toList <:+: boundary.toList) :
    Multipart.isDelimiter boundary.toList (closeDelimiter other) = false := by
  rw [← Bool.not_eq_true, isDelimiter_iff]
  intro hprefix
  simp only [closeDelimiter, delimiter, List.cons_append, List.cons_prefix_cons, true_and]
    at hprefix
  -- Both boundaries are at the front of the same line, so one is at the front of the other.
  rcases List.prefix_or_prefix_of_prefix hprefix (List.prefix_append _ _) with hp | hp
  · exact h.1 hp.isInfix
  · exact h.2 hp.isInfix

/-- The empty line behind an inner level is no delimiter line. -/
theorem isDelimiter_emptyLine (part : Part) :
    ∀ l ∈ if part.isLevel then [[]] else [], Multipart.isDelimiter boundary.toList l = false := by
  intro l hl
  split at hl
  · rw [List.mem_singleton.1 hl]
    exact isDelimiter_of_head? (by simp)
  · exact absurd hl List.not_mem_nil

end Delimiters

/-- **No line inside a level is a delimiter line of the level**, if its boundary neither occurs in
the document nor is, nor has, a part of the boundary of an inner level. -/
theorem isDelimiter_eq_false {boundary : String} {body : List Char}
    {levels : List (String × String)} (hlevels : Wrappable body levels)
    (hbody : ¬ boundary.toList <:+: body)
    (hapart : ∀ level ∈ levels,
      ¬ boundary.toList <:+: level.2.toList ∧ ¬ level.2.toList <:+: boundary.toList) :
    ∀ l ∈ (wrap levels (document body)).innerLines,
      Multipart.isDelimiter boundary.toList l = false := by
  -- From the outside inwards: the lines of each level are its header, its two delimiter lines and
  -- the lines inside, and an empty line if another level is around it.
  induction levels with
  | nil =>
    intro l hl
    rw [wrap, innerLines, List.mem_append] at hl
    rcases hl with hl | hl
    · rw [textLines_document, List.mem_append, List.mem_cons] at hl
      rcases hl with hl | rfl | hl
      · exact isDelimiter_of_head? (by revert l; decide)
      · exact isDelimiter_of_head? (by simp)
      · exact isDelimiter_of_not_isInfix hbody (Text.isInfix_of_mem_crlfLines hl)
    · exact isDelimiter_emptyLine _ l hl
  | cons level levels ih =>
    obtain ⟨type, other⟩ := level
    have hother := hapart _ List.mem_cons_self
    have htype := (Header.type_facts type (hlevels.types _ List.mem_cons_self)).1
    have hboundary := Boundary.isPlain (hlevels.chars _ List.mem_cons_self)
    intro l hl
    rw [wrap, innerLines, List.mem_append] at hl
    rcases hl with hl | hl
    · rw [textLines_level htype hboundary] at hl
      simp only [List.mem_cons, List.mem_append, List.not_mem_nil, or_false] at hl
      rcases hl with rfl | rfl | rfl | hl | rfl
      · exact isDelimiter_of_head? (by rw [Header.head?_levelHeader]; decide)
      · exact isDelimiter_of_head? (by simp)
      · exact isDelimiter_delimiter_of_apart hother.1
      · exact ih hlevels.tail (fun l hm => hapart l (List.mem_cons_of_mem _ hm)) l hl
      · exact isDelimiter_closeDelimiter_of_apart hother
    · exact isDelimiter_emptyLine _ l hl

/-! ## Reading a part -/

/-- Header lines that may stand before those of a level: they leave the content type to it. -/
structure IsPreface (preface : List (List Char)) : Prop where
  /-- None is empty. -/
  nonempty : ∀ l ∈ preface, l ≠ []
  /-- The field of the content type is that of the level. -/
  contentType : ∀ line, Header.BeginsField line →
    Header.field? "content-type".toList (Header.unfold (preface ++ [line])) =
      Header.value? "content-type".toList line

theorem IsPreface.nil : IsPreface [] := by
  refine ⟨by simp, fun line _ => ?_⟩
  simp [Header.unfold, Header.field?]

/-- The header lines of some lines that begin with them, and what follows the empty line. -/
theorem header_body_append {header : List (List Char)} (h : ∀ l ∈ header, l ≠ [])
    (body : List (List Char)) :
    Entity.headerOf (header ++ [] :: body) = Header.unfold header ∧
      Entity.bodyOf (header ++ [] :: body) = body := by
  have hheader : ∀ l ∈ header, decide (l ≠ []) = true := fun l hl => decide_eq_true (h l hl)
  rw [Entity.headerOf, Entity.bodyOf, List.takeWhile_append_of_pos hheader,
    List.dropWhile_append_of_pos hheader]
  simp

theorem documentHeader_nonempty : ∀ l ∈ documentHeader, l ≠ [] := by
  decide

theorem documentHeader_fields :
    Header.field? "content-type".toList (Header.unfold documentHeader) =
        some "text/html; charset=\"utf-8\"".toList ∧
      Header.field? "content-transfer-encoding".toList (Header.unfold documentHeader) =
        some "quoted-printable".toList ∧
      Header.mediaType "text/html; charset=\"utf-8\"".toList = "text/html".toList := by
  decide

/-- A document is read as one body. -/
theorem read?_document (body : List Char) :
    Entity.read? (document body).textLines =
      some (.single "text/html".toList "quoted-printable".toList body) := by
  obtain ⟨hheader, hbody⟩ := header_body_append documentHeader_nonempty (Text.crlfLines body)
  obtain ⟨htype, hencoding, hmedia⟩ := documentHeader_fields
  have hcontent : Entity.contentType (document body).textLines =
      "text/html; charset=\"utf-8\"".toList := by
    rw [textLines_document, Entity.contentType, hheader, htype, Option.getD_some]
  rw [Entity.read?_single]
  · rw [hcontent, hmedia, textLines_document, hheader, hbody, hencoding, Option.getD_some,
      Text.joinWith_crlfLines]
  · rw [hcontent, hmedia]
    decide

/-- What is read from the lines of a level is what is read from the lines inside, one level up. -/
theorem read?_level {type boundary : String} {preface : List (List Char)} {inner : Part}
    (tail : List (List Char)) (hpreface : IsPreface preface) (htype : type ∈ Template.nestedTypes)
    (hchars : ∀ c ∈ boundary.toList, Boundary.isBoundaryChar c = true)
    (hinner : ∀ l ∈ inner.innerLines, Multipart.isDelimiter boundary.toList l = false) :
    Entity.read? (preface ++ ((level type boundary inner).textLines ++ tail)) =
      (Entity.read? inner.innerLines).map fun e =>
        .multipart type.toList boundary.toList [e] := by
  obtain ⟨hplain, hmultipart, -⟩ := Header.type_facts type htype
  have hhead : Header.BeginsField (levelHeader type boundary) := by
    have h := Header.head?_levelHeader type boundary
    refine ⟨fun he => ?_, ?_⟩
    · rw [he] at h
      simp at h
    · rw [Header.levelHeader_eq]
      rfl
  have hnonempty : ∀ l ∈ preface ++ [levelHeader type boundary], l ≠ [] := by
    intro l hl
    rcases List.mem_append.1 hl with hl | hl
    · exact hpreface.nonempty l hl
    · exact List.mem_singleton.1 hl ▸ hhead.1
  have hlines : preface ++ ((level type boundary inner).textLines ++ tail) =
      (preface ++ [levelHeader type boundary]) ++ [] :: delimiter boundary ::
        (inner.innerLines ++ closeDelimiter boundary :: tail) := by
    rw [textLines_level hplain (Boundary.isPlain hchars)]
    simp
  obtain ⟨hheader, hbody⟩ := header_body_append hnonempty
    (delimiter boundary :: (inner.innerLines ++ closeDelimiter boundary :: tail))
  have hcontent : Entity.contentType (preface ++ ((level type boundary inner).textLines ++ tail)) =
      Header.levelValue type.toList boundary.toList := by
    rw [hlines, Entity.contentType, hheader, hpreface.contentType _ hhead,
      Header.value?_levelHeader htype, Option.getD_some]
  have hmedia : Header.mediaType (Header.levelValue type.toList boundary.toList) = type.toList :=
    Header.mediaType_levelValue htype
  have hparameter := Header.parameter?_levelValue htype hchars
  have hpart : Multipart.parts? boundary.toList
      (delimiter boundary :: (inner.innerLines ++ closeDelimiter boundary :: tail)) =
        some [inner.innerLines] :=
    Multipart.parts?_eq_singleton isDelimiter_delimiter isClose_delimiter hinner
      isClose_closeDelimiter
  -- All three are facts about the lines that are read.
  rw [← hcontent] at hmedia hparameter
  rw [← hbody, ← hlines] at hpart
  rw [Entity.read?_multipart (hmedia ▸ hmultipart) hparameter hpart, hmedia]

/-- **A document in levels is read as such,** from the lines between two delimiter lines. -/
theorem read?_innerLines {body : List Char} {levels : List (String × String)}
    (hlevels : Wrappable body levels) :
    Entity.read? (wrap levels (document body)).innerLines = some (Entity.nest levels body) := by
  induction levels with
  | nil =>
    rw [wrap, innerLines, isLevel, if_neg (by decide), List.append_nil, read?_document,
      Entity.nest]
  | cons level levels ih =>
    obtain ⟨type, boundary⟩ := level
    obtain ⟨hapart, -⟩ := List.pairwise_cons.1 hlevels.apart
    have hread := read?_level [[]] .nil (hlevels.types _ List.mem_cons_self)
      (hlevels.chars _ List.mem_cons_self)
      (isDelimiter_eq_false hlevels.tail (hlevels.notInBody _ List.mem_cons_self) hapart)
    rw [ih hlevels.tail, List.nil_append] at hread
    rw [wrap, innerLines, isLevel, if_pos rfl, hread, Entity.nest]
    rfl

/-- The same of a whole message, with header lines before it and lines behind it. -/
theorem read?_wrap {body : List Char} {level : String × String} {levels : List (String × String)}
    {preface tail : List (List Char)} (hlevels : Wrappable body (level :: levels))
    (hpreface : IsPreface preface) :
    Entity.read? (preface ++ ((wrap (level :: levels) (document body)).textLines ++ tail)) =
      some (Entity.nest (level :: levels) body) := by
  obtain ⟨type, boundary⟩ := level
  obtain ⟨hapart, -⟩ := List.pairwise_cons.1 hlevels.apart
  rw [wrap, read?_level tail hpreface (hlevels.types _ List.mem_cons_self)
    (hlevels.chars _ List.mem_cons_self)
    (isDelimiter_eq_false hlevels.tail (hlevels.notInBody _ List.mem_cons_self) hapart),
    read?_innerLines hlevels.tail, Entity.nest]
  rfl

/-! ## The delimiter lines of a level -/

theorem filter_eq_nil {boundary : String} {lines : List (List Char)}
    (h : ∀ l ∈ lines, Multipart.isDelimiter boundary.toList l = false) :
    lines.filter (Multipart.isDelimiter boundary.toList) = [] := by
  rw [List.filter_eq_nil_iff]
  intro l hl
  rw [h l hl]
  exact Bool.false_ne_true

/-- **Each level has its two delimiter lines** and no other line that begins like one. -/
theorem filter_isDelimiter {body : List Char} {levels : List (String × String)}
    (hlevels : Wrappable body levels) {level : String × String} (hmem : level ∈ levels) :
    (wrap levels (document body)).textLines.filter (Multipart.isDelimiter level.2.toList) =
      [delimiter level.2, closeDelimiter level.2] := by
  induction levels with
  | nil => exact absurd hmem List.not_mem_nil
  | cons outer levels ih =>
    obtain ⟨type, boundary⟩ := outer
    obtain ⟨hapart, -⟩ := List.pairwise_cons.1 hlevels.apart
    have htype := (Header.type_facts type (hlevels.types _ List.mem_cons_self)).1
    have hboundary := Boundary.isPlain (hlevels.chars _ List.mem_cons_self)
    have hheader : Multipart.isDelimiter level.2.toList (levelHeader type boundary) = false :=
      isDelimiter_of_head? (by rw [Header.head?_levelHeader]; decide)
    have hempty : Multipart.isDelimiter level.2.toList [] = false := isDelimiter_of_head? (by simp)
    rw [wrap, textLines_level htype hboundary,
      List.filter_cons_of_neg (by simp [hheader]), List.filter_cons_of_neg (by simp [hempty])]
    rcases List.mem_cons.1 hmem with rfl | hmem
    · -- The level itself: none of the lines inside is counted.
      have hinner := filter_eq_nil
        (isDelimiter_eq_false hlevels.tail (hlevels.notInBody _ List.mem_cons_self) hapart)
      have hclose : Multipart.isDelimiter boundary.toList (closeDelimiter boundary) = true :=
        Multipart.isDelimiter_of_isClose isClose_closeDelimiter
      rw [List.filter_cons_of_pos isDelimiter_delimiter, List.filter_append, hinner,
        List.nil_append, List.filter_cons_of_pos hclose, List.filter_nil]
    · -- An inner level: the delimiter lines around it are those of another boundary.
      have hother := (hapart level hmem).symm
      have hopen := isDelimiter_delimiter_of_apart hother.1
      have hclose := isDelimiter_closeDelimiter_of_apart hother
      rw [List.filter_cons_of_neg (by simp [hopen]), List.filter_append, innerLines,
        List.filter_append, ih hlevels.tail hmem, filter_eq_nil (isDelimiter_emptyLine _),
        List.filter_cons_of_neg (by simp [hclose]), List.filter_nil]
      rfl

end Part

end MailTemplate
