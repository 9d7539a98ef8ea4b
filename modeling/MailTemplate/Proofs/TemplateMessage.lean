import MailTemplate.Proofs.MessageStructure

/-!
# Template messages hold their document

The header of a template is its version, its subject and its mark as unsent, in front of the header
line of the outermost level.  None of these lines is a delimiter line, folded or not, and none is the
field of a content type, so a template is read as its part is.  The boundaries of a part come from a
choice that keeps them out of the document and apart from each other.

## Main definitions

* `Template.headerLines` — the header lines of a template before those of its part.

## Main results

* `Part.lines_wellFormed` — the lines of a part are ASCII and break at line ends only.
* `Template.isPreface_headerLines` — the header of a template leaves the content type to its part.
* `Template.holdsDocument` — a template of a document in levels holds it.
* `Template.single_nested_holdDocument` — so do the templates of one and of three levels, whatever the
  document, the subject and the source of boundaries are.
-/

namespace MailTemplate

/-- The lines of a document in levels are ASCII and break at line ends only, if the document
does. -/
theorem Part.lines_wellFormed {body : List Char} {levels : List (String × String)}
    (hlevels : Wrappable body levels) (hascii : Text.IsAscii body)
    (hbreaks : Text.BreaksOnlyAtCrlf body) :
    ∀ l ∈ (wrap levels (document body)).lines, Text.IsAscii l ∧ Text.BreaksOnlyAtCrlf l := by
  have hplain {l : List Char} (h : Text.IsPlain l) : Text.IsAscii l ∧ Text.BreaksOnlyAtCrlf l :=
    ⟨h.isAscii, h.breaks⟩
  induction levels with
  | nil =>
    intro l hl
    simp only [wrap, lines, List.mem_cons, List.not_mem_nil, or_false] at hl
    rcases hl with rfl | rfl | rfl | rfl
    · exact hplain (Text.isPlain_of_all (by decide))
    · exact hplain (Text.isPlain_of_all (by decide))
    · exact hplain .nil
    · exact ⟨hascii, hbreaks⟩
  | cons level levels ih =>
    obtain ⟨type, boundary⟩ := level
    have htype := (Header.type_facts type (hlevels.types _ List.mem_cons_self)).1
    have hboundary := Boundary.isPlain (hlevels.chars _ List.mem_cons_self)
    have hdashes : Text.IsPlain ['-', '-'] := Text.isPlain_of_all (by decide)
    intro l hl
    simp only [wrap, lines, List.mem_append, List.mem_cons, List.not_mem_nil, or_false] at hl
    rcases hl with (((rfl | rfl | rfl) | hl) | hl) | rfl
    · exact hplain (levelHeader_isPlain htype hboundary)
    · exact hplain .nil
    · exact hplain (hdashes.append hboundary)
    · exact ih hlevels.tail l hl
    · split at hl
      · exact hplain (List.mem_singleton.1 hl ▸ .nil)
      · exact absurd hl List.not_mem_nil
    · exact hplain ((hdashes.append hboundary).append hdashes)

namespace Template

/-! ## The header -/

/-- The header lines of a template before those of its part, the subject not yet broken. -/
def headerLines (subject : String) : List (List Char) :=
  ["MIME-Version: 1.0".toList, "Subject: ".toList ++ HeaderText.encode subject.toList,
    "X-Unsent: 1".toList]

theorem crlfLines_text (t : Template) :
    Text.crlfLines t.text =
      (headerLines t.subject).flatMap Text.crlfLines ++ (t.part.textLines ++ [[]]) := by
  rw [text, Text.crlfLines_flatMap, lines, List.flatMap_append, List.append_assoc]
  rfl

theorem crlfLines_headerLines (subject : String) :
    ∃ first folded, (headerLines subject).flatMap Text.crlfLines =
        "MIME-Version: 1.0".toList :: ("Subject: ".toList ++ first) ::
          (folded.map (' ' :: ·) ++ ["X-Unsent: 1".toList]) ∧
      ∀ l ∈ first :: folded, Text.IsPlain l := by
  obtain ⟨first, folded, hlines, hplain⟩ := HeaderText.crlfLines_encode subject.toList
  have hversion : Text.crlfLines "MIME-Version: 1.0".toList = ["MIME-Version: 1.0".toList] :=
    Text.crlfLines_of_not_mem (by decide)
  have hunsent : Text.crlfLines "X-Unsent: 1".toList = ["X-Unsent: 1".toList] :=
    Text.crlfLines_of_not_mem (by decide)
  refine ⟨first, folded, ?_, hplain⟩
  rw [headerLines, List.flatMap_cons, List.flatMap_cons, List.flatMap_cons, List.flatMap_nil,
    Text.crlfLines_append_of_not_mem (by decide), hlines, hversion, hunsent]
  rfl

/-- **The header of a template leaves the content type to its part.** -/
theorem isPreface_headerLines (subject : String) :
    Part.IsPreface ((headerLines subject).flatMap Text.crlfLines) := by
  obtain ⟨first, folded, hlines, -⟩ := crlfLines_headerLines subject
  rw [hlines]
  refine ⟨fun l hl => ?_, fun line hline => ?_⟩
  · simp only [List.mem_cons, List.mem_append, List.mem_map, List.not_mem_nil, or_false] at hl
    rcases hl with rfl | rfl | ⟨f, -, rfl⟩ | rfl <;> simp
  · have hsubject : Header.value? "content-type".toList
        ("Subject: ".toList ++ first ++ (folded.map (' ' :: ·)).flatten) = none := by
      have hname : "Subject: ".toList = "Subject".toList ++ [':', ' '] := rfl
      rw [hname, List.append_assoc, List.append_assoc, List.cons_append,
        Header.value?_append_cons (by decide), if_neg (by decide)]
    -- The folded lines of the subject go back to its field, the other lines are fields of their own.
    have hunfold : Header.unfold ("MIME-Version: 1.0".toList :: ("Subject: ".toList ++ first) ::
          (folded.map (' ' :: ·) ++ ["X-Unsent: 1".toList]) ++ [line]) =
        ["MIME-Version: 1.0".toList,
          "Subject: ".toList ++ first ++ (folded.map (' ' :: ·)).flatten,
          "X-Unsent: 1".toList, line] := by
      rw [List.cons_append, List.cons_append, List.append_assoc, Header.unfold_cons,
        Header.unfold_cons_folded, List.singleton_append, Header.unfold_cons, Header.unfold_cons]
      · rfl
      · simp
      · simpa using hline
      · simp [Header.BeginsField, Header.isContinuation]
      · simp [Header.BeginsField, Header.isContinuation]
    rw [hunfold, Header.field?, List.findSome?_cons_of_isNone, List.findSome?_cons_of_isNone,
      List.findSome?_cons_of_isNone, List.findSome?_singleton]
    · decide
    · rw [hsubject]
      rfl
    · decide

theorem isDelimiter_headerLines (subject : String) (boundary : String) :
    ∀ l ∈ (headerLines subject).flatMap Text.crlfLines,
      Multipart.isDelimiter boundary.toList l = false := by
  obtain ⟨first, folded, hlines, -⟩ := crlfLines_headerLines subject
  intro l hl
  apply Part.isDelimiter_of_head?
  rw [hlines] at hl
  simp only [List.mem_cons, List.mem_append, List.mem_map, List.not_mem_nil, or_false] at hl
  rcases hl with rfl | rfl | ⟨f, -, rfl⟩ | rfl <;> simp

theorem headerLines_wellFormed (subject : String) :
    ∀ l ∈ headerLines subject, Text.IsAscii l ∧ Text.BreaksOnlyAtCrlf l := by
  obtain ⟨hascii, hbreaks⟩ := HeaderText.encode_wellFormed subject.toList
  have hversion : Text.IsPlain "MIME-Version: 1.0".toList := Text.isPlain_of_all (by decide)
  have hname : Text.IsPlain "Subject: ".toList := Text.isPlain_of_all (by decide)
  have hunsent : Text.IsPlain "X-Unsent: 1".toList := Text.isPlain_of_all (by decide)
  intro l hl
  simp only [headerLines, List.mem_cons, List.not_mem_nil, or_false] at hl
  rcases hl with rfl | rfl | rfl
  · exact ⟨hversion.isAscii, hversion.breaks⟩
  · exact ⟨hname.isAscii.append hascii, .append hname.noReturn hname.noFeed hbreaks⟩
  · exact ⟨hunsent.isAscii, hunsent.breaks⟩

/-! ## Templates -/

/-- **A template of a document in levels holds it.** -/
theorem holdsDocument {subject : String} {body : List Char} {level : String × String}
    {levels : List (String × String)} (hlevels : Wrappable body (level :: levels))
    (hascii : Text.IsAscii body) (hbreaks : Text.BreaksOnlyAtCrlf body) :
    HoldsDocument (level :: levels) body
      (Template.text ⟨subject, Part.wrap (level :: levels) (.document body)⟩) := by
  have hlines : ∀ l ∈ Template.lines ⟨subject, Part.wrap (level :: levels) (.document body)⟩,
      Text.IsAscii l ∧ Text.BreaksOnlyAtCrlf l := by
    intro l hl
    rcases List.mem_append.1 hl with hl | hl
    · exact headerLines_wellFormed subject l hl
    · exact Part.lines_wellFormed hlevels hascii hbreaks l hl
  refine ⟨.flatMap fun l hl => (hlines l hl).1, .flatMap fun l hl => (hlines l hl).2, ?_, ?_⟩
  · rw [crlfLines_text]
    exact Part.read?_wrap hlevels (isPreface_headerLines subject)
  · intro l hl
    have hheader := Part.filter_eq_nil (isDelimiter_headerLines subject l.2)
    rw [crlfLines_text, List.filter_append, List.filter_append, hheader,
      Part.filter_isDelimiter hlevels hl]
    rfl

/-- Templates with levels of some of the content types hold their document, whatever source of
boundary characters their boundaries were drawn from. -/
theorem build_holdsDocument (types : List String) {html subject : String} {source : BoundarySource}
    {asked asked' : List Nat} {t : Template} (hne : types ≠ [])
    (htypes : ∀ type ∈ types, type ∈ nestedTypes)
    (hsource : ∀ drawn level, ∀ c ∈ (source drawn level).toList, Boundary.isBoundaryChar c = true)
    (h : build types html subject source asked = (.ok t, asked')) :
    ∃ boundaries, boundaries.length = types.length ∧
      HoldsDocument (types.zip boundaries) (QuotedPrintable.encode (Bytes.ofString html)) t.text := by
  simp only [build, Prod.mk.injEq, Except.map] at h
  obtain ⟨hchoice, -⟩ := h
  split at hchoice
  · exact absurd hchoice (by simp)
  · next boundaries hok =>
    obtain rfl := Except.ok.inj hchoice
    obtain ⟨husable, hlength⟩ := Boundary.usableTogether_of_choose (Prod.ext hok rfl)
    refine ⟨boundaries, hlength, ?_⟩
    have hmem {level : String × String} (hl : level ∈ types.zip boundaries) :
        level.1 ∈ types ∧ level.2 ∈ boundaries := List.of_mem_zip hl
    -- The choice keeps the boundaries out of the encoded document, which stands in the message.
    have hlevels : Wrappable (QuotedPrintable.encode (Bytes.ofString html))
        (types.zip boundaries) := by
      refine ⟨fun l hl => htypes _ (hmem hl).1, fun l hl => ?_,
        fun l hl => husable.notInEncoded _ (hmem hl).2, ?_⟩
      · obtain ⟨drawn, level, hdrawn⟩ := husable.drawn _ (hmem hl).2
        rw [← hdrawn]
        exact hsource drawn level
      · have hsnd : (types.zip boundaries).map Prod.snd = boundaries :=
          List.map_snd_zip (by omega)
        have hapart := husable.apart
        rwa [← hsnd, List.pairwise_map] at hapart
    have hzip : types.zip boundaries ≠ [] := by
      intro hnil
      have hlen := congrArg List.length hnil
      rw [List.length_zip, hlength, Nat.min_self] at hlen
      exact hne (List.length_eq_zero_iff.1 hlen)
    obtain ⟨level, levels, hcons⟩ := List.exists_cons_of_ne_nil hzip
    rw [hcons] at hlevels ⊢
    exact holdsDocument hlevels (QuotedPrintable.encode_isAscii _)
      (QuotedPrintable.encode_breaksOnlyAtCrlf _)

/-- **The templates of a document hold it:** one in a related level, the other one in a mixed, a
related and an alternative level, and nothing else.  It stands there in its quoted-printable form. -/
theorem single_nested_holdDocument (html subject : String) (source : BoundarySource)
    (asked : List Nat)
    (hsource : ∀ drawn level, ∀ c ∈ (source drawn level).toList, Boundary.isBoundaryChar c = true) :
    (∀ t asked', single html subject source asked = (.ok t, asked') →
      ∃ b, HoldsDocument [("multipart/related", b)]
        (QuotedPrintable.encode (Bytes.ofString html)) t.text) ∧
    (∀ t asked', nested html subject source asked = (.ok t, asked') →
      ∃ b₀ b₁ b₂, HoldsDocument
        [("multipart/mixed", b₀), ("multipart/related", b₁), ("multipart/alternative", b₂)]
        (QuotedPrintable.encode (Bytes.ofString html)) t.text) := by
  refine ⟨fun t asked' h => ?_, fun t asked' h => ?_⟩
  · obtain ⟨boundaries, hlength, hholds⟩ :=
      build_holdsDocument singleTypes (by decide) (by decide) hsource h
    obtain ⟨b, rfl⟩ := List.length_eq_one_iff.1 hlength
    exact ⟨b, hholds⟩
  · obtain ⟨boundaries, hlength, hholds⟩ :=
      build_holdsDocument nestedTypes (by decide) (fun _ h => h) hsource h
    match boundaries, hlength, hholds with
    | [b₀, b₁, b₂], _, hholds => exact ⟨b₀, b₁, b₂, hholds⟩

/-- A paragraph in three levels, with boundaries that end like a last delimiter line. -/
theorem nested_paragraph_holdsDocument :
    ∃ t asked' b₀ b₁ b₂,
      nested "<p>é</p>" "Gruß" (fun drawn _ => ["outer--", "(middle)", "inner="].getD drawn "last")
        [] = (.ok t, asked') ∧
      HoldsDocument
        [("multipart/mixed", b₀), ("multipart/related", b₁), ("multipart/alternative", b₂)]
        (QuotedPrintable.encode (Bytes.ofString "<p>é</p>")) t.text := by
  have hsource (drawn level : Nat) :
      ∀ c ∈ (["outer--", "(middle)", "inner="].getD drawn "last").toList,
        Boundary.isBoundaryChar c = true := by
    rw [← List.all_eq_true]
    match drawn with
    | 0 | 1 | 2 => decide
    | _ + 3 =>
      show "last".toList.all Boundary.isBoundaryChar = true
      decide
  obtain ⟨b₀, b₁, b₂, hholds⟩ :=
    (single_nested_holdDocument "<p>é</p>" "Gruß" _ [] hsource).2
      ⟨"Gruß", Part.wrap (nestedTypes.zip ["outer--", "(middle)", "inner="])
        (.document (QuotedPrintable.encode (Bytes.ofString "<p>é</p>")))⟩ [0, 1, 2] rfl
  exact ⟨_, _, b₀, b₁, b₂, rfl, hholds⟩

end Template

end MailTemplate
