import MailTemplate.Proofs.TokenShapes

/-!
# Where raw text ends

Raw text is looked through for the front of its end tag: `</` and the name of the element, in any letter
case.  What begins there is an end tag, and its name is read like every name, as far as it goes.  So raw text
that does not run to the end of the source is followed by an end tag, whose name begins with the name of the
element.  It is the name of the element exactly if the name does not go on: `</styles>` ends the text of a
`style` as well.

## Main definitions

* `Token.nameEnds` — whether the name in what looks like an end tag goes no further.

## Main results

* `Token.read?_of_begins` — what looks like the front of an end tag is read as one.
* `Token.rawText_ends` — raw text ends where its end tag begins, or at an end tag with a longer name.
-/

namespace MailTemplate

namespace Token

/-- Whether no character of names stands behind the `</` and the name of an element that a text begins with. -/
def nameEnds (element : String) (text : List Char) : Bool :=
  (text.drop ('<' :: '/' :: element.toList).length).head?.all fun c => !isNameChar c

theorem nameEnds_iff {element : String} {text : List Char} :
    nameEnds element text = true ↔
      ∀ c ∈ (text.drop ('<' :: '/' :: element.toList).length).head?, isNameChar c = false := by
  rw [nameEnds, Option.all_eq_true]
  exact forall₂_congr fun c _ => by rw [Bool.not_eq_true']

/-- A name that begins with another one is that one if it goes no further. -/
theorem lower_eq_iff {name rest element : List Char} (hname : ∀ c ∈ name, isNameChar c = true)
    (hrest : ∀ c ∈ rest.head?, isNameChar c = false) (hfront : element <+: Text.lower name) :
    Text.lower name = element ↔
      ∀ c ∈ ((name ++ rest).drop element.length).head?, isNameChar c = false := by
  have hlength : (Text.lower name).length = name.length := List.length_map _
  constructor
  · intro heq
    rwa [← heq, hlength, List.drop_left]
  · intro hnext
    refine (hfront.eq_of_length_le (Nat.le_of_not_lt fun hlonger => ?_)).symm
    -- A longer name has a character where the shorter one ends.
    have hlt : element.length < name.length := hlength ▸ hlonger
    have hat : ((name ++ rest).drop element.length).head? = some name[element.length] := by
      rw [List.head?_drop, List.getElem?_append_left hlt, List.getElem?_eq_getElem hlt]
    have hchar := hname _ (List.getElem_mem hlt)
    exact absurd hchar (by simp [hnext _ hat])

theorem read?_slash (offset : Nat) (text : List Char) :
    read? ⟨offset, '<' :: '/' :: text⟩ =
      (readEndTag? ⟨offset, '<' :: '/' :: text⟩).map fun (token, next) => ([token], next) := rfl

/-- **What looks like the front of an end tag is read as one.**  Its name begins with the name that was
looked for, and is that name exactly if it goes no further. -/
theorem read?_of_begins {element : String} {c : Cursor} (helement : element ∈ rawElements)
    (h : Text.beginsWithBy Text.sameFold ('<' :: '/' :: element.toList) c.ahead = true) :
    ∃ name next, read? c = some ([endTag name (c.spanTo next)], next) ∧
      element.toList <+: name.toList ∧ (name = element ↔ nameEnds element c.ahead = true) := by
  obtain ⟨hne, hlower⟩ := rawElements_isLower element helement
  obtain ⟨text, hahead, hbegins⟩ := Text.exists_of_begins_endTag h
  obtain ⟨offset, ahead⟩ := c
  obtain rfl : ahead = '<' :: '/' :: text := hahead
  -- The name is what is read behind the two characters, and what was looked for lies in it.
  let inner : Cursor := (⟨offset, '<' :: '/' :: text⟩ : Cursor).advance 2
  have hsplit : text = inner.run isNameChar ++ (inner.skip isNameChar).ahead :=
    inner.ahead_eq_run_append isNameChar
  have hrest := inner.head?_skip isNameChar
  rw [hsplit] at hbegins
  have hfront := Text.prefix_lower_of_beginsWithBy hlower hrest hbegins
  have hname : inner.run isNameChar ≠ [] := by
    intro hnil
    rw [hnil] at hfront
    exact hne (List.prefix_nil.1 hfront)
  refine ⟨String.ofList (Text.lower (inner.run isNameChar)),
    (inner.skip isNameChar).pastOrFinish ['>'], ?_, ?_, ?_⟩
  · rw [read?_slash, readEndTag?]
    exact congrArg (Option.map _) (if_neg hname)
  · rwa [String.toList_ofList]
  · have hiff := lower_eq_iff Cursor.of_mem_run hrest hfront
    rw [← hsplit] at hiff
    rwa [← String.toList_inj, String.toList_ofList, nameEnds_iff]

/-- The first front of an end tag behind raw text is not in the raw text. -/
theorem RawEndsAt.not_in_body {element : String} {body rest : List Char} (h : RawEndsAt element body rest) :
    Text.indexOfFold? ('<' :: '/' :: element.toList) body = none := by
  rcases h with hindex | ⟨hnone, -⟩
  · have htake := Text.indexOfBy?_take (by simp) hindex
    rwa [List.take_left] at htake
  · exact hnone

/-- Raw text is the last token of the construct that it belongs to, and stands behind a start tag of its
element. -/
theorem Construct.exists_rawText {source : List Char} {start next : Cursor} {tokens pre post : List Token}
    {element : String} {span : Span} (hon : start.On source) (h : Construct start tokens next)
    (htokens : tokens = pre ++ rawText element span :: post) :
    ∃ (behind : Cursor) (body : List Char), behind.On source ∧ behind.Passes body next ∧
      RawEndsAt element body next.ahead ∧ element ∈ rawElements ∧ span = behind.spanTo next ∧ post = [] := by
  -- Only a raw element has raw text among its tokens, and there it is the second one.
  have hmem : rawText element span ∈ tokens := by simp [htokens]
  cases h with
  | comment | endTag | declaration | startTag => exact absurd hmem (by simp)
  | @rawElement _ _ body _ behind _ hahead _ hread hraw hpasses hends =>
    obtain ⟨-, -, text, htext, -⟩ := StartTag.placed_of_read? hon hahead hread
    rcases pre with _ | ⟨first, _ | ⟨second, pre⟩⟩
    · exact absurd (List.cons.inj htokens).1 (by simp)
    · obtain ⟨hlast, rfl⟩ := List.cons.inj (List.cons.inj htokens).2
      obtain ⟨rfl, rfl⟩ := rawText.inj hlast
      exact ⟨behind, body, hon.passes htext, hpasses, hends, hraw.2, rfl, rfl⟩
    · exact absurd htokens (by simp)

/-- **Raw text ends at its end tag, or at one with a longer name.**  It holds no front of an end tag of its
element, in any letter case.  If it does not run to the end of the source, the next token is the end tag that
begins directly behind it, and its name begins with the name of the element.  It is the name of the element
exactly if no character of names follows that. -/
theorem rawText_ends {source : String} {front more : List Token} {element : String} {span : Span}
    (h : tokenize source = front ++ rawText element span :: more) :
    ∃ before body rest, source.toList = before ++ (body ++ rest) ∧
      span = ⟨Text.byteLength before, Text.byteLength before + Text.byteLength body⟩ ∧
      Text.indexOfFold? ('<' :: '/' :: element.toList) body = none ∧
      (rest = [] ∧ more = [] ∨
        Text.indexOfFold? ('<' :: '/' :: element.toList) (body ++ rest) = some body.length ∧
        ∃ name endSpan later, more = endTag name endSpan :: later ∧ endSpan.start = span.stop ∧
          element.toList <+: name.toList ∧ (name = element ↔ nameEnds element rest = true)) := by
  obtain ⟨start, tokens, next, -, pre, post, hon, hread, htokens, -, hmore⟩ :=
    exists_read_of_split (Cursor.on_front source.toList) h
  obtain ⟨behind, body, hbehind, hpasses, hends, helement, hspan, rfl⟩ :=
    (construct_of_read? hread).exists_rawText hon htokens
  obtain ⟨before, hsource, hoffset⟩ := hbehind
  have hstop : span.stop = next.offset := by rw [hspan]; rfl
  refine ⟨before, body, next.ahead, by rw [hsource, hpasses.ahead], ?_, hends.not_in_body, ?_⟩
  · rw [hspan, Cursor.spanTo, hpasses.offset, hoffset]
  · rcases hends with hindex | ⟨-, hnil⟩
    · -- The end of the raw text is where the front of an end tag was found.
      have hbegins := Text.begins_drop_of_indexOfBy? hindex
      rw [List.drop_left] at hbegins
      obtain ⟨name, close, hend, hfront, hiff⟩ := read?_of_begins helement hbegins
      refine .inr ⟨hindex, name, next.spanTo close, tokensFrom close, ?_, hstop.symm, hfront, hiff⟩
      rw [hmore, MarkupPiece.tokensFrom_of_some hend]
      rfl
    · refine .inl ⟨hnil, ?_⟩
      rw [hmore, tokensFrom, dif_pos hnil]
      rfl

/-- The text of a title in front of its end tag, which is written in capitals. -/
theorem rawText_ends_of_title :
    tokenize "<title>a<b></TITLE >" =
        [startTag ⟨"title", [], ⟨0, 7⟩, 6, false⟩] ++ rawText "title" ⟨7, 11⟩ :: [endTag "title" ⟨11, 20⟩] ∧
      ∃ before body rest, "<title>a<b></TITLE >".toList = before ++ (body ++ rest) ∧
        (⟨7, 11⟩ : Span) = ⟨Text.byteLength before, Text.byteLength before + Text.byteLength body⟩ ∧
        Text.indexOfFold? ('<' :: '/' :: "title".toList) body = none ∧
        (rest = [] ∧ [endTag "title" ⟨11, 20⟩] = [] ∨
          Text.indexOfFold? ('<' :: '/' :: "title".toList) (body ++ rest) = some body.length ∧
          ∃ name endSpan later, [endTag "title" ⟨11, 20⟩] = endTag name endSpan :: later ∧
            endSpan.start = 11 ∧ "title".toList <+: name.toList ∧
              (name = "title" ↔ nameEnds "title" rest = true)) := by
  have h : tokenize "<title>a<b></TITLE >" =
      [startTag ⟨"title", [], ⟨0, 7⟩, 6, false⟩] ++ rawText "title" ⟨7, 11⟩ ::
        [endTag "title" ⟨11, 20⟩] := by
    decide +kernel
  exact ⟨h, rawText_ends h⟩

/-- **An end tag with a longer name ends raw text,** and what is left of the text is read as markup. -/
theorem longer_name_ends_style :
    tokenize "<style>a</styles>b</style>" =
      [startTag ⟨"style", [], ⟨0, 7⟩, 6, false⟩, rawText "style" ⟨7, 8⟩, endTag "styles" ⟨8, 17⟩,
        endTag "style" ⟨18, 26⟩] ∧
    nameEnds "style" "</styles>b</style>".toList = false := by
  decide +kernel

end Token

end MailTemplate
