import MailTemplate.Client.Profile
import MailTemplate.Proofs.DocumentQueries
import MailTemplate.Proofs.MarkupInsertions

/-!
# Completing a head twice

The rule for plain HTML recognises the tags and the title that it has inserted, if the title is one: not
blank, and without a `<` that could end it.  What it inserts stands behind the first `<head>` tag or in
the place of a blank title, and neither changes how the rest of a document is read if no start tag in it
breaks off.

## Main definitions

* `MetaTag.WrittenAs` — a tag as the rule writes it.
* `HeadMeta.Titled` — what becomes of the title around a head, with the edits for it.

## Main results

* `HeadMeta.edits_eq_nil_iff` — the rule has nothing to do exactly if there is no head, or if all tags and
  a title are there.
* `HeadMeta.exists_completed` — what the rule makes of a document in pieces.
* `html_adapt_twice` — a second pass changes nothing, and all tags and a title are found after the first.
-/

namespace MailTemplate

open MarkupPiece

/-! ## The tags -/

/-- A tag as it is inserted, which serves its purpose. -/
structure MetaTag.WrittenAs (tag : MetaTag) (t : WrittenTag) : Prop where
  /-- It is read as it is meant. -/
  fits : t.Fits
  /-- It is a `meta` tag. -/
  key : t.key = "meta"
  /-- It is written so. -/
  written : t.written = tag.markup.toList
  /-- It serves its purpose. -/
  isPresent : tag.isPresent (t.at_ 0) = true

namespace MetaTag

theorem writtenAs_quoted {tag : MetaTag} {attributes : List (String × String)}
    (hattributes : ∀ a ∈ attributes, a.1.toList ≠ [] ∧ a.1.toList.all isAttributeChar = true ∧
      '"' ∉ a.2.toList)
    (hwritten : (WrittenTag.quoted "meta" attributes).written = tag.markup.toList)
    (hpresent : tag.isPresent ((WrittenTag.quoted "meta" attributes).at_ 0) = true) :
    tag.WrittenAs (.quoted "meta" attributes) :=
  ⟨WrittenTag.fits_quoted (by decide) (by decide) hattributes,
    (by decide : String.ofList (Text.lower "meta".toList) = "meta"), hwritten, hpresent⟩

/-- **Every tag is written** so that it serves its purpose. -/
theorem exists_writtenAs {tag : MetaTag} (h : tag ∈ all) : ∃ t, tag.WrittenAs t := by
  simp only [all, List.mem_cons, List.not_mem_nil, or_false] at h
  rcases h with rfl | rfl | rfl | rfl | rfl
  · exact ⟨.quoted "meta" [("charset", "utf-8")],
      writtenAs_quoted (by decide) (by decide) (by decide +kernel)⟩
  · exact ⟨.quoted "meta" [("name", "viewport"),
        ("content", "width=device-width, initial-scale=1")],
      writtenAs_quoted (by decide) (by decide) (by decide +kernel)⟩
  · exact ⟨.quoted "meta" [("http-equiv", "X-UA-Compatible"), ("content", "IE=edge")],
      writtenAs_quoted (by decide) (by decide) (by decide +kernel)⟩
  · exact ⟨.quoted "meta" [("name", "format-detection"),
        ("content", "telephone=no,address=no,email=no,date=no,url=no")],
      writtenAs_quoted (by decide) (by decide) (by decide +kernel)⟩
  · exact ⟨.quoted "meta" [("name", "x-apple-disable-message-reformatting")],
      writtenAs_quoted (by decide) (by decide) (by decide +kernel)⟩

theorem isPlaceFree_hasValue (name value : String) :
    StartTag.IsPlaceFree (hasValue name value) := by
  have htest : hasValue name value = fun tag =>
      (tag.value? name).any fun v => Text.equalsFold v.toList value.toList := by
    funext tag
    unfold hasValue
    cases tag.value? name <;> rfl
  rw [htest]
  exact .value? name fun v => v.any fun v => Text.equalsFold v.toList value.toList

theorem isPlaceFree_declaresCharset : StartTag.IsPlaceFree declaresCharset := by
  have htest : declaresCharset = fun tag => (tag.attribute? "charset").isSome ||
      (tag.value? "content").any fun v => Text.contains (Text.lower v.toList) "charset".toList := by
    funext tag
    unfold declaresCharset
    cases tag.value? "content" <;> rfl
  rw [htest]
  exact (StartTag.IsPlaceFree.isSome_attribute? "charset").or (.value? "content" fun v =>
    v.any fun v => Text.contains (Text.lower v.toList) "charset".toList)

theorem isPlaceFree_isPresent {tag : MetaTag} (h : tag ∈ all) :
    StartTag.IsPlaceFree tag.isPresent := by
  simp only [all, List.mem_cons, List.not_mem_nil, or_false] at h
  rcases h with rfl | rfl | rfl | rfl | rfl
  · exact isPlaceFree_declaresCharset
  · exact isPlaceFree_hasValue _ _
  · exact isPlaceFree_hasValue _ _
  · exact isPlaceFree_hasValue _ _
  · exact isPlaceFree_hasValue _ _

variable {tag : MetaTag} {ps : List MarkupPiece}

/-- A tag is not missing in a document in pieces if a piece serves its purpose. -/
theorem isMissing_eq_false_iff (htag : tag ∈ all) (hfit : Fit ps) :
    tag.isMissing (Document.read (String.ofList (text ps))) = false ↔
      ∃ t ∈ tags "meta" ps, tag.isPresent (t.at_ 0) = true := by
  rw [← any_startTags_iff (isPlaceFree_isPresent htag) hfit, isMissing, Bool.not_eq_false']

/-- A tag on a line of its own. -/
theorem exists_line (htag : tag ∈ all) (element : String) :
    ∃ t, IsBlock element [plain '\n', startTag t []] ("\n" ++ tag.markup) ∧ tag.WrittenAs t := by
  obtain ⟨t, ht⟩ := exists_writtenAs htag
  have hraw : ¬ t.IsRaw := by
    rintro ⟨-, hmem⟩
    rw [ht.key] at hmem
    exact absurd hmem (by decide)
  refine ⟨t, ⟨(Stands.plain (by decide)).append (.startTag ht.fits hraw), ?_, ⟨_, rfl, .inl rfl⟩, ?_⟩, ht⟩
  · rw [← String.toList_inj, String.toList_ofList, String.toList_append, ← ht.written]
    simp [text, MarkupPiece.written]
  · simp [raws, raw?, hraw]

/-- Some of the tags are inserted, each on a line of its own. -/
theorem exists_inserts (o : Nat) {missing : List MetaTag} (hmissing : ∀ tag ∈ missing, tag ∈ all) :
    ∃ qs, Inserts o qs (missing.map fun tag => Edit.insert o ("\n" ++ tag.markup)) ∧
      (∀ tag ∈ missing, ∃ t ∈ tags "meta" qs, tag.isPresent (t.at_ 0) = true) ∧
        raws "title" qs = [] := by
  induction missing with
  | nil => exact ⟨[], .nil o, by simp, rfl⟩
  | cons tag missing ih =>
    obtain ⟨htag, hmissing⟩ := List.forall_mem_cons.1 hmissing
    obtain ⟨qs, hqs, hpresent, hraws⟩ := ih hmissing
    obtain ⟨t, hline, ht⟩ := exists_line htag "title"
    refine ⟨_, (hline.inserts o).append hqs, ?_, ?_⟩
    · rintro tag' (_ | ⟨_, hmem⟩)
      · exact ⟨t, by simp [tags, tagNamed?, ht.key], ht.isPresent⟩
      · obtain ⟨t', ht', hpasses⟩ := hpresent tag' hmem
        rw [tags_append]
        exact ⟨t', List.mem_append_right _ ht', hpasses⟩
    · rw [raws_append, hline.raws, hraws]
      rfl

end MetaTag

/-! ## The title -/

namespace HeadMeta

variable {title : String} {doc : Document}

/-- The title is left alone exactly if there is one that is not blank. -/
theorem titleEdits_eq_nil_iff {offset : Nat} :
    titleEdits title offset doc = [] ↔
      ∃ raw, ((doc.rawTexts "title").map doc.text).head? = some raw ∧ Text.isBlankText raw = false := by
  unfold titleEdits
  cases doc.rawTexts "title" with
  | nil => simp
  | cons span spans => simp

/-- **The rule has nothing to do** exactly if there is no head, or if all tags and a title are there. -/
theorem edits_eq_nil_iff :
    (rule title).edits doc = [] ↔ doc.firstStart? "head" = none ∨
      (∀ tag ∈ MetaTag.all, tag.isMissing doc = false) ∧
        ∃ raw, ((doc.rawTexts "title").map doc.text).head? = some raw ∧
          Text.isBlankText raw = false := by
  unfold rule
  dsimp only
  cases doc.firstStart? "head" with
  | none => simp
  | some head =>
    rw [List.append_eq_nil_iff, titleEdits_eq_nil_iff, List.map_eq_nil_iff, List.filter_eq_nil_iff]
    simp

section Pieces

variable {ps front back : List MarkupPiece} {t : WrittenTag} {raw : List Char} {offset : Nat}

theorem titleEdits_of_raws_eq_nil (hfit : Fit ps) (h : raws "title" ps = []) :
    titleEdits title offset (Document.read (String.ofList (text ps))) =
      [Edit.insert offset ("\n<title>" ++ title ++ "</title>")] := by
  have htexts := @map_text_rawTexts ps "title" hfit
  rw [h, List.map_eq_nil_iff] at htexts
  rw [titleEdits, htexts]

theorem titleEdits_of_blank (hfit : Fit (front ++ startTag t raw :: back)) (hraw : t.IsRaw)
    (hkey : t.key = "title") (hfront : raws "title" front = [])
    (hblank : Text.isBlankText raw = true) :
    titleEdits title offset (Document.read (String.ofList (text (front ++ startTag t raw :: back)))) =
      [Edit.replace ⟨Text.byteLength (text front) + Text.byteLength t.written,
        Text.byteLength (text front) + Text.byteLength (t.written ++ raw)⟩ title] := by
  have hhead := head?_rawTexts_of_split hfit hraw hkey hfront
  have htexts := congrArg List.head? (@map_text_rawTexts _ "title" hfit)
  have hfirst : raws "title" (startTag t raw :: back) = raw :: raws "title" back := by
    simp [raws, raw?, hraw, hkey]
  rw [List.head?_map, hhead, raws_append, hfront, hfirst] at htexts
  obtain ⟨spans, hspans⟩ := List.head?_eq_some_iff.1 hhead
  rw [titleEdits, hspans]
  dsimp only
  rw [Option.some.inj htexts, if_pos hblank]

/-- The title element that is inserted. -/
theorem exists_titleElement (hmarkup : '<' ∉ title.toList) (o : Nat) :
    ∃ qs, Inserts o qs [Edit.insert o ("\n<title>" ++ title ++ "</title>")] ∧
      raws "title" qs = [title.toList] := by
  have hkey : (WrittenTag.quoted "title" []).key = "title" := by decide
  have hraw : (WrittenTag.quoted "title" []).IsRaw := by decide
  have hfits : (WrittenTag.quoted "title" []).Fits :=
    WrittenTag.fits_quoted (by decide) (by decide) (by simp)
  have hstands := (@Stands.plain '\n' (by decide)).append
    (.rawElement hfits hraw (Text.indexOfFold?_eq_none_of_not_mem _ hmarkup))
  have hline : String.ofList (text ([plain '\n'] ++ [startTag (.quoted "title" []) title.toList,
      endTag (WrittenTag.quoted "title" []).key.toList ['>']])) =
        "\n<title>" ++ title ++ "</title>" := by
    have hopen : (WrittenTag.quoted "title" []).written = "<title>".toList := by decide
    rw [← String.toList_inj, String.toList_ofList, String.toList_append, String.toList_append]
    simp [text, MarkupPiece.written, hopen, hkey]
  have hinserts := Inserts.single o hstands
  rw [hline] at hinserts
  exact ⟨_, hinserts, by simp [raws_cons, raw?, hraw, hkey]⟩

end Pieces

/-! ## The pieces of a completed document -/

section Headed

variable {H : WrittenTag} {A B : List MarkupPiece}

/-- Where the head tag ends. -/
def headEnd (A : List MarkupPiece) (H : WrittenTag) : Nat :=
  Text.byteLength (text A) + Text.byteLength H.written

/-- The pieces around a head have a title: what has become of those before the head and of those behind
it, what is inserted between, and the edits for it. -/
structure Titled (title : String) (H : WrittenTag) (A B A' B' qs : List MarkupPiece)
    (before inside behind : List Edit) : Prop where
  /-- The pieces before the head. -/
  rewrites_before : Rewrites 0 A A' before
  /-- What is inserted. -/
  inserts : Inserts (headEnd A H) qs inside
  /-- The pieces behind the head. -/
  rewrites_behind : Rewrites (headEnd A H) B B' behind
  /-- All are read as they are meant. -/
  fit : Fit (A' ++ startTag H [] :: B')
  /-- The rule proposes these edits. -/
  edits : titleEdits title (headEnd A H)
    (Document.read (String.ofList (text (A ++ startTag H [] :: B)))) = before ++ (inside ++ behind)
  /-- The first ones stand before the end of the head tag. -/
  start_lt : ∀ e ∈ before, e.span.start < headEnd A H
  /-- The other tags stay. -/
  tags_eq : ∀ name, tags name (A' ++ B') = tags name (A ++ B)
  /-- There is a title. -/
  title_found : ∃ raw, (raws "title" (A' ++ (qs ++ B'))).head? = some raw ∧
    Text.isBlankText raw = false

theorem raws_around (hkey : H.key = "head") (A B : List MarkupPiece) :
    raws "title" (A ++ startTag H [] :: B) = raws "title" A ++ raws "title" B := by
  rw [raws_append]
  simp [raws_cons, raw?, hkey]

/-- A title is inserted if there is none. -/
theorem exists_titled_of_raws_eq_nil (hkey : H.key = "head") (hfit : Fit (A ++ startTag H [] :: B))
    (htitle : Text.isBlankText title.toList = false) (hmarkup : '<' ∉ title.toList)
    (hnone : raws "title" (A ++ startTag H [] :: B) = []) :
    ∃ qs inside, Titled title H A B A B qs [] inside [] := by
  obtain ⟨qs, hqs, htext⟩ := exists_titleElement hmarkup (headEnd A H)
  have hedits := @titleEdits_of_raws_eq_nil title _ (headEnd A H) hfit hnone
  rw [raws_around hkey, List.append_eq_nil_iff] at hnone
  refine ⟨qs, _, .refl 0 A, hqs, .refl _ B, hfit, hedits, by simp, fun _ => rfl, title.toList, ?_, htitle⟩
  rw [raws_append, raws_append, hnone.1, hnone.2, htext]
  rfl

/-- A title that is not blank is kept. -/
theorem titled_of_not_blank {raw : List Char} {more : List (List Char)} (hkey : H.key = "head")
    (hfit : Fit (A ++ startTag H [] :: B))
    (hall : raws "title" (A ++ startTag H [] :: B) = raw :: more)
    (hblank : Text.isBlankText raw = false) : Titled title H A B A B [] [] [] [] := by
  refine ⟨.refl 0 A, .nil _, .refl _ B, hfit, ?_, by simp, fun _ => rfl, raw, ?_, hblank⟩
  · refine titleEdits_eq_nil_iff.2 ⟨raw, ?_, hblank⟩
    rw [map_text_rawTexts hfit, hall]
    rfl
  · rw [List.nil_append, raws_append, ← raws_around hkey, hall]
    rfl

section Blank

variable {t : WrittenTag} {raw : List Char} {gap back front : List MarkupPiece}

/-- A blank title behind the head is filled in. -/
theorem exists_titled_behind (hkey : H.key = "head") (hraw : t.IsRaw) (htkey : t.key = "title")
    (hfit : Fit (A ++ startTag H [] :: (gap ++ startTag t raw :: back)))
    (hfront : raws "title" (A ++ startTag H [] :: gap) = []) (hblank : Text.isBlankText raw = true)
    (htitle : Text.isBlankText title.toList = false) (hmarkup : '<' ∉ title.toList) :
    ∃ behind, Titled title H A (gap ++ startTag t raw :: back) A
      (gap ++ startTag t title.toList :: back) [] [] [] behind := by
  have hsplit : ∀ raw, A ++ startTag H [] :: (gap ++ startTag t raw :: back) =
      (A ++ startTag H [] :: gap) ++ startTag t raw :: back := by simp
  rw [hsplit] at hfit
  have hfilled := hfit.fill hraw (Text.indexOfFold?_eq_none_of_not_mem _ hmarkup)
  have hedits := @titleEdits_of_blank title _ _ _ _ (headEnd A H) hfit hraw htkey hfront hblank
  refine ⟨_, .refl 0 A, .nil _, .fill (headEnd A H) gap t raw title.toList back, ?_, ?_, by simp, ?_,
    title.toList, ?_, htitle⟩
  · rwa [hsplit]
  · rw [hsplit, hedits, text_append, text_cons, Text.byteLength_append, Text.byteLength_append]
    simp [headEnd, MarkupPiece.written, Nat.add_assoc]
  · intro name
    simp only [tags_append, tags_cons, tagNamed?]
  · rw [raws_around hkey, List.append_eq_nil_iff] at hfront
    simp [raws_append, raws_cons, hfront, raw?, hraw, htkey]

/-- A blank title before the head is filled in. -/
theorem exists_titled_before (hraw : t.IsRaw) (htkey : t.key = "title")
    (hfit : Fit (front ++ startTag t raw :: (gap ++ startTag H [] :: B)))
    (hfront : raws "title" front = []) (hblank : Text.isBlankText raw = true)
    (htitle : Text.isBlankText title.toList = false) (hmarkup : '<' ∉ title.toList) :
    ∃ before, Titled title H (front ++ startTag t raw :: gap) B
      (front ++ startTag t title.toList :: gap) B [] before [] [] := by
  have hsplit : ∀ raw, (front ++ startTag t raw :: gap) ++ startTag H [] :: B =
      front ++ startTag t raw :: (gap ++ startTag H [] :: B) := by simp
  have hfilled := hfit.fill hraw (Text.indexOfFold?_eq_none_of_not_mem _ hmarkup)
  have hedits := @titleEdits_of_blank title _ _ _ _ (headEnd (front ++ startTag t raw :: gap) H) hfit
    hraw htkey hfront hblank
  refine ⟨_, .fill 0 front t raw title.toList gap, .nil _, .refl _ B, ?_, ?_, ?_, ?_, title.toList, ?_,
    htitle⟩
  · rwa [hsplit]
  · rw [hsplit, hedits]
    simp
  · intro e he
    obtain rfl := List.mem_singleton.1 he
    have hpos : 0 < Text.byteLength H.written := Text.byteLength_pos (by simp [WrittenTag.written])
    simp only [Edit.replace, headEnd, text_append, text_cons, MarkupPiece.written,
      Text.byteLength_append]
    omega
  · intro name
    simp only [tags_append, tags_cons, tagNamed?]
  · simp [raws_append, raws_cons, hfront, raw?, hraw, htkey]

end Blank

/-- What becomes of the title around a head: nothing, or it is filled in where it stands, or it is
inserted behind the head. -/
theorem exists_titled (hkey : H.key = "head") (hfit : Fit (A ++ startTag H [] :: B))
    (htitle : Text.isBlankText title.toList = false) (hmarkup : '<' ∉ title.toList) :
    ∃ A' B' qs before inside behind, Titled title H A B A' B' qs before inside behind := by
  cases hall : raws "title" (A ++ startTag H [] :: B) with
  | nil =>
    obtain ⟨qs, inside, h⟩ := exists_titled_of_raws_eq_nil hkey hfit htitle hmarkup hall
    exact ⟨A, B, qs, [], inside, [], h⟩
  | cons raw more =>
    cases hblank : Text.isBlankText raw with
    | false => exact ⟨A, B, [], [], [], [], titled_of_not_blank hkey hfit hall hblank⟩
    | true =>
      obtain ⟨front, t, back, hsplit, hraw, htkey, hfront, -⟩ := exists_split_of_raws hall
      -- The title stands before the head or behind it, since it is not the head itself.
      have hne : startTag t raw ≠ startTag H [] := by
        intro heq
        rw [(startTag.inj heq).1, hkey] at htkey
        exact absurd htkey (by decide)
      rcases List.append_eq_append_iff.1 hsplit with ⟨gap, rfl, hgap⟩ | ⟨gap, rfl, hgap⟩
      · cases gap with
        | nil => exact absurd (List.cons.inj hgap).1.symm hne
        | cons p gap =>
          obtain ⟨rfl, rfl⟩ := List.cons.inj hgap
          obtain ⟨behind, h⟩ :=
            exists_titled_behind hkey hraw htkey hfit hfront hblank htitle hmarkup
          exact ⟨_, _, _, _, _, behind, h⟩
      · cases gap with
        | nil => exact absurd (List.cons.inj hgap).1 hne
        | cons p gap =>
          obtain ⟨rfl, rfl⟩ := List.cons.inj hgap
          rw [hsplit] at hfit
          obtain ⟨before, h⟩ := exists_titled_before hraw htkey hfit hfront hblank htitle hmarkup
          exact ⟨_, _, _, before, _, _, h⟩

section Completed

variable {A' B' qs metas : List MarkupPiece} {before inside behind : List Edit}

/-- The rule puts the missing tags and the title in their places. -/
theorem Titled.applyTo (h : Titled title H A B A' B' qs before inside behind)
    (hdoc : doc = Document.read (String.ofList (text (A ++ startTag H [] :: B))))
    (hhead : doc.firstStart? "head" = some (H.at_ (Text.byteLength (text A))))
    (hmetas : Inserts (headEnd A H) metas ((MetaTag.all.filter (·.isMissing doc)).map fun tag =>
      Edit.insert (headEnd A H) ("\n" ++ tag.markup))) :
    (rule title).applyTo (String.ofList (text (A ++ startTag H [] :: B))) =
      String.ofList (text (A' ++ startTag H [] :: (metas ++ qs ++ B'))) := by
  let added := (MetaTag.all.filter (·.isMissing doc)).map fun tag =>
    Edit.insert (headEnd A H) ("\n" ++ tag.markup)
  have hrewrites : Rewrites 0 (A ++ startTag H [] :: B) (A' ++ startTag H [] :: (metas ++ qs ++ B'))
      (before ++ (added ++ inside ++ behind)) := by
    refine h.rewrites_before.append (.same _ ?_)
    rw [MarkupPiece.written, List.append_nil, Nat.zero_add]
    exact (hmetas.append h.inserts).rewrites h.rewrites_behind
  have hedits : (rule title).editsOf (String.ofList (text (A ++ startTag H [] :: B))) =
      added ++ before ++ (inside ++ behind) := by
    rw [List.append_assoc, ← h.edits, Rule.editsOf, ← hdoc, rule]
    dsimp only
    rw [hhead]
    simp [WrittenTag.at_, headEnd, added]
  -- The tags are listed first, but a title before the head is filled in before them.
  have hmoved := @Edit.onSpan_append_comm added before fun a ha b hb heq => by
    obtain ⟨tag, -, rfl⟩ := List.mem_map.1 ha
    have hstart := h.start_lt b hb
    rw [← heq] at hstart
    exact absurd hstart (Nat.lt_irrefl _)
  refine hrewrites.applyTo fun span => ?_
  rw [hedits, Edit.onSpan_append, hmoved, ← Edit.onSpan_append, List.append_assoc,
    ← List.append_assoc added]

/-- A tag that was there still is. -/
theorem Titled.mem_tags (h : Titled title H A B A' B' qs before inside behind)
    (hkey : H.key = "head") {t : WrittenTag} (ht : t ∈ tags "meta" (A ++ startTag H [] :: B)) :
    t ∈ tags "meta" (A' ++ startTag H [] :: (metas ++ qs ++ B')) := by
  have hkept : t ∈ tags "meta" (A' ++ B') := by
    rw [h.tags_eq]
    rw [tags_append, tags_cons] at ht
    simpa [tags_append, tagNamed?, hkey] using ht
  rw [tags_append, List.mem_append] at hkept
  rcases hkept with hkept | hkept
  · simp [tags_append, tags_cons, hkept]
  · simp [tags_append, tags_cons, hkept]

end Completed

/-- **The rule completes a document in pieces** that has a head. -/
theorem exists_completed {ps : List MarkupPiece} {head : StartTag} (hfit : Fit ps)
    (hhead : (Document.read (String.ofList (text ps))).firstStart? "head" = some head)
    (htitle : Text.isBlankText title.toList = false) (hmarkup : '<' ∉ title.toList) :
    ∃ ps', Fit ps' ∧ (rule title).applyTo (String.ofList (text ps)) = String.ofList (text ps') ∧
      (∀ tag ∈ MetaTag.all, ∃ t ∈ tags "meta" ps', tag.isPresent (t.at_ 0) = true) ∧
      ∃ raw, (raws "title" ps').head? = some raw ∧ Text.isBlankText raw = false := by
  obtain ⟨A, H, B, rfl, hkey, hraw, rfl⟩ := exists_split_of_firstStart? hfit hhead (by decide)
  obtain ⟨A', B', qs, before, inside, behind, h⟩ := exists_titled hkey hfit htitle hmarkup
  obtain ⟨found, hfound, hblank⟩ := h.title_found
  obtain ⟨metas, hmetas, hpresent, hmetaTitles⟩ := MetaTag.exists_inserts (headEnd A H)
    fun tag htag => (List.mem_filter.1 htag).1
  refine ⟨_, h.fit.insert_behind (.startTag hraw) (hmetas.append h.inserts).stands, h.applyTo rfl hhead hmetas, ?_,
    found, ?_, hblank⟩
  · intro tag htag
    cases hmissing : tag.isMissing (Document.read (String.ofList (text (A ++ startTag H [] :: B)))) with
    | true =>
      obtain ⟨t, ht, hpasses⟩ := hpresent tag (List.mem_filter.2 ⟨htag, hmissing⟩)
      exact ⟨t, by simp [tags_append, tags_cons, ht], hpasses⟩
    | false =>
      obtain ⟨t, ht, hpasses⟩ := (MetaTag.isMissing_eq_false_iff htag hfit).1 hmissing
      exact ⟨t, h.mem_tags hkey ht, hpasses⟩
  · have hplain : raw? "title" (startTag H []) = none := by simp [raw?, hkey]
    rw [← hfound]
    simp [raws_append, raws_cons, hplain, hmetaTitles]

end Headed

end HeadMeta

/-! ## Two passes -/

/-- **A second pass changes nothing**: once a document in which no start tag breaks off was adapted, no
rule proposes an edit, and if there was a head, all tags and a title are found. -/
theorem html_adapt_twice (settings : HtmlSettings) (source : String)
    (hcompletes : Token.completes source = true)
    (htitle : Text.isBlankText settings.title.toList = false) (hmarkup : '<' ∉ settings.title.toList) :
    let profile := Profile.html settings
    let first := (profile.adapt source).html
    (∀ rule ∈ profile.rules, rule.editsOf first = []) ∧
      profile.adapt first = ⟨first, [], ["head-meta"]⟩ ∧
      ((Document.read source).firstStart? "head" ≠ none →
        (∀ tag ∈ MetaTag.all, tag.isMissing (Document.read first) = false) ∧
          ∃ span, ((Document.read first).rawTexts "title").head? = some span ∧
            Text.isBlankText ((Document.read first).text span) = false) := by
  intro profile first
  suffices h : (HeadMeta.rule settings.title).editsOf first = [] ∧
      ((Document.read source).firstStart? "head" ≠ none →
        (∀ tag ∈ MetaTag.all, tag.isMissing (Document.read first) = false) ∧
          ∃ raw, (((Document.read first).rawTexts "title").map (Document.read first).text).head? =
            some raw ∧ Text.isBlankText raw = false) by
    refine ⟨List.forall_mem_singleton.2 h.1, applyRules_cons_of_edits_eq_nil [] h.1, fun hhead => ?_⟩
    obtain ⟨hmetas, raw, hraw, hblank⟩ := h.2 hhead
    rw [List.head?_map] at hraw
    obtain ⟨span, hspan, rfl⟩ := Option.map_eq_some_iff.1 hraw
    exact ⟨hmetas, span, hspan, hblank⟩
  by_cases hedits : (HeadMeta.rule settings.title).editsOf source = []
  · have hfirst : first = source :=
      congrArg Adapted.html (applyRules_cons_of_edits_eq_nil [] hedits)
    rw [hfirst]
    exact ⟨hedits, (HeadMeta.edits_eq_nil_iff.1 hedits).resolve_left⟩
  · have hfirst : first = (HeadMeta.rule settings.title).applyTo source :=
      congrArg Adapted.html (applyRules_cons_of_edits_ne_nil [] hedits)
    obtain ⟨head, hhead⟩ : ∃ head, (Document.read source).firstStart? "head" = some head := by
      refine Option.ne_none_iff_exists'.1 fun hnone => hedits ?_
      exact HeadMeta.edits_eq_nil_iff.2 (.inl hnone)
    obtain ⟨ps, hfit, rfl⟩ := exists_of_completes hcompletes
    obtain ⟨ps', hfit', happly, hmetas, raw, hraw, hblank⟩ :=
      HeadMeta.exists_completed hfit hhead htitle hmarkup
    have hdone : (∀ tag ∈ MetaTag.all, tag.isMissing (Document.read first) = false) ∧
        ∃ raw, (((Document.read first).rawTexts "title").map (Document.read first).text).head? =
          some raw ∧ Text.isBlankText raw = false := by
      rw [hfirst, happly, map_text_rawTexts hfit']
      exact ⟨fun tag htag => (MetaTag.isMissing_eq_false_iff htag hfit').2 (hmetas tag htag),
        raw, hraw, hblank⟩
    exact ⟨HeadMeta.edits_eq_nil_iff.2 (.inr hdone), fun _ => hdone⟩

/-- A page whose blank title stands before its head. -/
theorem html_adapt_twice_of_page :
    let source := "<title> </title><head><meta charset=x>"
    let profile := Profile.html { title := "News" }
    let first := (profile.adapt source).html
    (profile.adapt source).applied = ["head-meta"] ∧
      (∀ rule ∈ profile.rules, rule.editsOf first = []) ∧
      profile.adapt first = ⟨first, [], ["head-meta"]⟩ ∧
      (∀ tag ∈ MetaTag.all, tag.isMissing (Document.read first) = false) ∧
        ∃ span, ((Document.read first).rawTexts "title").head? = some span ∧
          Text.isBlankText ((Document.read first).text span) = false := by
  intro source profile first
  have hsource : (profile.adapt source).applied = ["head-meta"] ∧ Token.completes source = true ∧
      (Document.read source).firstStart? "head" ≠ none := by decide +kernel
  have htwice := html_adapt_twice { title := "News" } source hsource.2.1 (by decide) (by decide)
  exact ⟨hsource.1, htwice.1, htwice.2.1, htwice.2.2 hsource.2.2⟩

end MailTemplate
