import MailTemplate.Client.Package
import MailTemplate.Proofs.ReferencedMarkup
import MailTemplate.Proofs.TableWrapping
import MailTemplate.Settings.Validation

/-!
# The subject of a document for Outlook

The subject of a template is read from the adapted document.  Six of the seven rules for Outlook keep the
titles if what they write is read as it is meant.  The last one writes emoji as references wherever they
stand, and a header is no markup: a subject with a reference shows it as it is written.  So the subject
is that of the document before exactly if no emoji of the table stands in its title.

## Main definitions

* `titleOf?` — the text of the first title.
* `OutlookFits` — what the rules write in a document is read as it is meant.

## Main results

* `titleOf?_adapt_outlook` — the title of an adapted document is the old one with references.
* `subject_kept_iff` — the subject is kept exactly if no emoji stands in the title.
* `emoji_changes_subject` — the subject of a document with one.
-/

namespace MailTemplate

open MarkupPiece EmojiEntities

/-! ## Titles and subjects -/

/-- The text of the first title. -/
def titleOf? (html : String) : Option (List Char) :=
  (((Document.read html).rawTexts "title").map (Document.read html).text).head?

/-- The words of a title as a subject, if it has any. -/
def subjectOfTitle? (title : List Char) : Option String :=
  match Text.words title with
  | [] => none
  | words => some (String.ofList (Text.joinWith [' '] words))

theorem subjectOf_eq (html fallback : String) :
    subjectOf html fallback = ((titleOf? html).bind subjectOfTitle?).getD fallback := by
  unfold subjectOf titleOf?
  cases hraws : (Document.read html).rawTexts "title" with
  | nil => simp only [hraws, List.map_nil, List.head?_nil, Option.bind_none, Option.getD_none]
  | cons span spans =>
    simp only [hraws, List.map_cons, List.head?_cons, Option.bind_some, subjectOfTitle?]
    cases Text.words ((Document.read html).text span) <;> rfl

theorem titleOf?_of_fit {ps : List MarkupPiece} (hfit : Fit ps) :
    titleOf? (String.ofList (text ps)) = (raws "title" ps).head? := by
  rw [titleOf?, map_text_rawTexts hfit]

/-! ## Words with references -/

namespace EmojiEntities

/-- No blank is an emoji or stands in a reference. -/
theorem isBlank_reference {entry : Char × String} (h : entry ∈ table) :
    Text.isBlank entry.1 = false ∧ ∀ d ∈ entry.2.toList, Text.isBlank d = false := by
  have hall : ∀ entry ∈ table, Text.isBlank entry.1 = false ∧
      entry.2.toList.all (!Text.isBlank ·) = true := by
    decide
  obtain ⟨hemoji, hreference⟩ := hall entry h
  exact ⟨hemoji, fun d hd => by simpa using List.all_eq_true.1 hreference d hd⟩

theorem splitOnP_append_of_forall {p : Char → Bool} {front : List Char}
    (h : ∀ c ∈ front, p c = false) (cs : List Char) :
    (front ++ cs).splitOnP p = (cs.splitOnP p).modifyHead (front ++ ·) := by
  obtain ⟨part, parts, hparts⟩ := List.exists_cons_of_ne_nil (List.splitOnP_ne_nil p cs)
  induction front with
  | nil => simp [hparts]
  | cons c front ih =>
    obtain ⟨hc, hfront⟩ := List.forall_mem_cons.1 h
    rw [List.cons_append, List.splitOnP_cons_eq_if_modifyHead, hc, if_neg (by simp), ih hfront]
    simp [hparts]

theorem splitOnP_spell (cs : List Char) :
    (spell cs).splitOnP Text.isBlank = (cs.splitOnP Text.isBlank).map spell := by
  induction cs with
  | nil => rfl
  | cons c cs ih =>
    obtain ⟨part, parts, hparts⟩ :=
      List.exists_cons_of_ne_nil (List.splitOnP_ne_nil Text.isBlank cs)
    rw [spell_cons, List.splitOnP_cons_eq_if_modifyHead]
    rcases written_cases c with ⟨hkept, -⟩ | ⟨entry, hentry, rfl, href⟩
    · rw [hkept, List.singleton_append, List.splitOnP_cons_eq_if_modifyHead, ih]
      split
      · rfl
      · simp [hparts, spell_cons, hkept]
    · obtain ⟨hemoji, hreference⟩ := isBlank_reference hentry
      rw [href, splitOnP_append_of_forall hreference, ih, hemoji, if_neg (by simp)]
      simp [hparts, spell_cons, href]

/-- The words of a text with references are its words, each with references. -/
theorem words_spell (cs : List Char) : Text.words (spell cs) = (Text.words cs).map spell := by
  rw [Text.words, splitOnP_spell, List.filter_map, Text.words]
  refine congrArg _ (List.filter_congr fun word _ => ?_)
  simp [spell_eq_nil_iff]

theorem joinWith_spell (ws : List (List Char)) :
    Text.joinWith [' '] (ws.map spell) = spell (Text.joinWith [' '] ws) := by
  have hspace : spell [' '] = [' '] := by decide
  induction ws with
  | nil => rfl
  | cons w ws ih =>
    cases ws with
    | nil => rfl
    | cons next ws =>
      have hcons (w v : List Char) (vs : List (List Char)) : Text.joinWith [' '] (w :: v :: vs) =
          w ++ [' '] ++ Text.joinWith [' '] (v :: vs) := rfl
      rw [List.map_cons, List.map_cons, hcons, hcons, ← List.map_cons, ih, spell_append, spell_append,
        hspace]

/-- The subject of a title with references is its subject with references. -/
theorem subjectOfTitle?_spell (title : List Char) :
    subjectOfTitle? (spell title) =
      (subjectOfTitle? title).map fun subject => String.ofList (spell subject.toList) := by
  unfold subjectOfTitle?
  rw [words_spell]
  cases hwords : Text.words title with
  | nil => rfl
  | cons w ws =>
    simp only [List.map_cons, Option.map_some, String.toList_ofList, ← joinWith_spell]

end EmojiEntities

/-! ## Characters of a subject -/

namespace Text

variable {c : Char}

theorem exists_mem_splitOnP {p : Char → Bool} (hc : p c = false) {cs : List Char} (h : c ∈ cs) :
    ∃ part ∈ cs.splitOnP p, c ∈ part := by
  induction cs with
  | nil => exact absurd h List.not_mem_nil
  | cons d cs ih =>
    obtain ⟨first, parts, hparts⟩ := List.exists_cons_of_ne_nil (List.splitOnP_ne_nil p cs)
    rw [hparts] at ih
    rw [List.splitOnP_cons_eq_if_modifyHead, hparts]
    rcases List.mem_cons.1 h with rfl | h
    · exact ⟨c :: first, by simp [hc], List.mem_cons_self⟩
    · obtain ⟨part, hpart, hmem⟩ := ih h
      split
      · exact ⟨part, List.mem_cons_of_mem _ hpart, hmem⟩
      · rcases List.mem_cons.1 hpart with rfl | hpart
        · exact ⟨d :: part, List.mem_cons_self, List.mem_cons_of_mem d hmem⟩
        · exact ⟨part, List.mem_cons_of_mem _ hpart, hmem⟩

theorem mem_joinWith {separator word : List Char} {ws : List (List Char)} (h : word ∈ ws)
    (hc : c ∈ word) : c ∈ joinWith separator ws := by
  induction ws with
  | nil => exact absurd h List.not_mem_nil
  | cons w ws ih =>
    cases ws with
    | nil => exact List.mem_singleton.1 h ▸ hc
    | cons next ws =>
      rcases List.mem_cons.1 h with rfl | h
      · exact List.mem_append_left _ (List.mem_append_left _ hc)
      · exact List.mem_append_right _ (ih h)

end Text

/-- Every character of a title that is no blank stands in the subject. -/
theorem exists_mem_subjectOfTitle? {title : List Char} {c : Char} (hc : Text.isBlank c = false)
    (h : c ∈ title) : ∃ subject, subjectOfTitle? title = some subject ∧ c ∈ subject.toList := by
  obtain ⟨word, hword, hmem⟩ := Text.exists_mem_splitOnP hc h
  have hwords : word ∈ Text.words title :=
    List.mem_filter.2 ⟨hword, decide_eq_true (List.ne_nil_of_mem hmem)⟩
  unfold subjectOfTitle?
  split
  · next hnil => exact absurd (hnil ▸ hwords) List.not_mem_nil
  · refine ⟨_, rfl, ?_⟩
    rw [String.toList_ofList]
    exact Text.mem_joinWith hwords hmem

/-! ## What the rules do -/

/-- A document after the first rules for Outlook. -/
def outlookStage (settings : OutlookSettings) (count : Nat) (html : String) : String :=
  (applyRules ((Profile.outlookRules settings).take count) html).html

/-- What the rules for Outlook write in a document is read as it is meant. -/
structure OutlookFits (settings : OutlookSettings) (html : String) : Prop where
  /-- No start tag breaks off. -/
  completes : Token.completes html = true
  /-- Classes can stand in their cells. -/
  cells : CellClasses.FitsIn settings.cellClasses html
  /-- The column classes do not end the style sheet. -/
  columns : Text.indexOfFold? "</style".toList
    (OutlookStyles.columns settings.columnClasses).toList = none
  /-- Line heights can stand in their styles. -/
  spacers : ZeroFontSpacer.FitsIn (outlookStage settings 3 html)
  /-- Fonts can stand in their styles and style sheets. -/
  fonts : FontFallback.FitsIn settings.webFonts settings.fallbackFonts (outlookStage settings 4 html)
  /-- Widths and colours can stand in their comments. -/
  tables : VmlBackground.FitsIn settings.backgroundWidth (outlookStage settings 5 html)

variable {settings : OutlookSettings} {html : String}

/-- All rules but the last keep the titles. -/
theorem OutlookFits.keepTitles (h : OutlookFits settings html) :
    KeepTitles ((Profile.outlookRules settings).take 6) html := by
  have hspacers := h.spacers
  have hfonts := h.fonts
  have htables := h.tables
  simp only [outlookStage, Profile.outlookRules, List.take_succ_cons, List.take_zero,
    html_applyRules_cons, applyRules_nil] at hspacers hfonts htables
  exact ⟨CellClasses.keepsTitles h.cells, OfficeSettings.keepsTitles _,
    OutlookStyles.keepsTitles _ h.columns, ZeroFontSpacer.keepsTitles hspacers,
    FontFallback.keepsTitles hfonts, VmlBackground.keepsTitles htables, trivial⟩

/-- **The title of a document for Outlook** is that of the document with references for emoji. -/
theorem titleOf?_adapt_outlook (h : OutlookFits settings html) :
    titleOf? ((Profile.outlook settings).adapt html).html = (titleOf? html).map spell := by
  obtain ⟨ps, hfit, rfl⟩ := exists_of_completes h.completes
  obtain ⟨ps', hfit', hkept, hraws⟩ := h.keepTitles.exists_applyRules hfit rfl
  have hlast : Profile.outlookRules settings =
      (Profile.outlookRules settings).take 6 ++ [EmojiEntities.rule] := rfl
  have hhtml : ((Profile.outlook settings).adapt (String.ofList (text ps))).html =
      String.ofList (text (ps'.flatMap MarkupPiece.spelled)) := by
    rw [Profile.adapt, Profile.outlook, hlast, html_applyRules_append, hkept, html_applyRules_cons,
      applyRules_nil, EmojiEntities.applyTo_eq, String.toList_ofList, hfit'.text_spelled]
    rfl
  rw [hhtml, titleOf?_of_fit hfit'.spelled, titleOf?_of_fit hfit, raws_spelled, hraws, List.head?_map]

/-- **The subject of a document for Outlook** is that of the document exactly if no emoji of the table
stands in its title. -/
theorem subject_kept_iff (h : OutlookFits settings html) (base : String) :
    subjectOf ((Profile.outlook settings).adapt html).html base = subjectOf html base ↔
      ∀ title ∈ titleOf? html, ∀ entry ∈ EmojiEntities.table, entry.1 ∉ title := by
  rw [subjectOf_eq, subjectOf_eq, titleOf?_adapt_outlook h]
  cases titleOf? html with
  | none => simp
  | some title =>
    simp only [Option.map_some, Option.bind_some, Option.mem_some_iff, forall_eq']
    constructor
    · intro hsame entry hentry hmem
      obtain ⟨subject, hsubject, hinside⟩ :=
        exists_mem_subjectOfTitle? (isBlank_reference hentry).1 hmem
      rw [subjectOfTitle?_spell, hsubject, Option.map_some, Option.getD_some, Option.getD_some,
        ← String.toList_inj, String.toList_ofList] at hsame
      exact spell_eq_self_iff.1 hsame entry hentry hinside
    · intro hnone
      rw [spell_eq_self_iff.2 hnone]

/-- A page with a table to wrap, and with a reference in its title. -/
theorem subject_kept_iff_of_page :
    let settings : OutlookSettings := {}
    let html := "<title>R&amp;D</title><table style=background-color:red>👾</table>"
    OutlookFits settings html ∧
      (subjectOf ((Profile.outlook settings).adapt html).html "page" = subjectOf html "page" ↔
        ∀ title ∈ titleOf? html, ∀ entry ∈ EmojiEntities.table, entry.1 ∉ title) ∧
      subjectOf ((Profile.outlook settings).adapt html).html "page" = "R&amp;D" := by
  intro settings html
  have hfits : OutlookFits settings html := by
    refine ⟨?_, ?_, ?_, ?_, ?_, ?_⟩ <;> decide +kernel
  have hkept := subject_kept_iff hfits "page"
  have hpage : subjectOf html "page" = "R&amp;D" ∧
      ∀ title ∈ titleOf? html, ∀ entry ∈ EmojiEntities.table, entry.1 ∉ title := by
    decide +kernel
  exact ⟨hfits, hkept, (hkept.2 hpage.2).trans hpage.1⟩

/-- **An emoji in the title changes the subject,** also under the stock settings: the header shows the
reference. -/
theorem emoji_changes_subject :
    ∃ (settings : Settings) (html base : String), settings.validate = .ok () ∧
      subjectOf html base = "👾 Hi" ∧
      subjectOf ((Profile.outlook settings.outlook).adapt html).html base = "&#x1F47E; Hi" :=
  ⟨{}, "<title>👾 Hi</title>", "page", Settings.validate_of_toBool (by decide +kernel),
    by decide +kernel, by decide +kernel⟩

end MailTemplate
