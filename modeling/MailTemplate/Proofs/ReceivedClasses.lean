import MailTemplate.Proofs.InPlaceRules
import MailTemplate.Proofs.Readaptation
import MailTemplate.Proofs.RelatedLists

/-!
# Cells receive their classes

A cell that matches signatures receives their classes behind its own.  The rule asks of each class as a
whole whether the cell has it, and writes all that are missing one after the other.  So what a cell
receives are the words of the missing classes.  These are the words that it lacks, each once, and the
rule has nothing more to do, exactly if each missing class is one word and no two are the same: the rule
does not look whether two signatures give one class, and a class of two words is missing however often it
was given.

## Main definitions

* `CellClasses.wordsOf` — the words of a class.
* `CellClasses.joined` — the words of a cell with those that it lacks.
* `CellClasses.ReceivesExactly` — a cell has received the words that it lacks and no other.

## Main results

* `CellClasses.classes_of_received` — what a cell receives.
* `CellClasses.joined_eq_iff` — what is missing is what is lacking if no two are the same.
* `CellClasses.classes_exact_iff` — when the rule gives exactly the lacking words, once and for all.
-/

namespace MailTemplate

/-! ## Words -/

namespace Text

/-- The words of two texts with a blank between them. -/
theorem words_append_blank (a b : List Char) {c : Char} (hc : isBlank c = true) :
    words (a ++ c :: b) = words a ++ words b := by
  rw [words, List.splitOnP_append_cons a b hc, List.filter_append]
  rfl

theorem words_joinWith (ws : List (List Char)) : words (joinWith [' '] ws) = ws.flatMap words := by
  induction ws with
  | nil => rfl
  | cons w ws ih =>
    cases ws with
    | nil => exact (List.flatMap_singleton words w).symm
    | cons next ws =>
      have hsplit : joinWith [' '] (w :: next :: ws) = w ++ ' ' :: joinWith [' '] (next :: ws) := by
        rw [joinWith, List.append_assoc]
        · rfl
        · exact List.cons_ne_nil _ _
      rw [hsplit, words_append_blank _ _ (by decide), ih]
      rfl

/-- A part of a split text holds nothing at which the text was split. -/
theorem eq_false_of_mem_splitOnP {p : Char → Bool} {cs part : List Char} (hpart : part ∈ cs.splitOnP p) :
    ∀ c ∈ part, p c = false := by
  induction cs generalizing part with
  | nil =>
    obtain rfl := List.mem_singleton.1 hpart
    simp
  | cons d cs ih =>
    obtain ⟨first, parts, hparts⟩ := List.exists_cons_of_ne_nil (List.splitOnP_ne_nil p cs)
    rw [hparts] at ih
    rw [List.splitOnP_cons_eq_if_modifyHead, hparts] at hpart
    split at hpart
    · rcases List.mem_cons.1 hpart with rfl | hpart
      · simp
      · exact ih hpart
    · next hd =>
      rcases List.mem_cons.1 hpart with rfl | hpart
      · exact List.forall_mem_cons.2 ⟨eq_false_of_ne_true hd, ih List.mem_cons_self⟩
      · exact ih (List.mem_cons_of_mem _ hpart)

/-- A word has no other word. -/
theorem words_of_mem_words {cs w : List Char} (h : w ∈ words cs) : words w = [w] := by
  obtain ⟨hpart, hne⟩ := List.mem_filter.1 h
  have hone : w.splitOnP isBlank = [w] := List.splitOnP_eq_singleton (eq_false_of_mem_splitOnP hpart)
  rw [words, hone]
  exact List.filter_cons_of_pos hne

end Text

/-! ## Tags that have received classes -/

/-- The attributes that are no classes. -/
def Attribute.others (as : List Attribute) : List Attribute := as.filter fun a => a.name != "class"

theorem Attribute.find?_others {name : String} (hname : name ≠ "class") (as : List Attribute) :
    (others as).find? (fun a => a.name == name) = as.find? fun a => a.name == name := by
  rw [others, List.find?_filter]
  congr 1
  funext a
  by_cases h : a.name = name
  · simp [h, hname]
  · simp [h]

/-- Giving a class leaves all other attributes. -/
theorem Attribute.ClassGiven.others {value : String} {as bs : List Attribute}
    (h : ClassGiven value as bs) :
    List.Forall₂ (Attribute.AlikeBut fun _ => False) (others as) (others bs) := by
  have hfilter {as bs : List Attribute} (h : List.Forall₂ (Attribute.AlikeBut fun _ => False) as bs) :
      List.Forall₂ (Attribute.AlikeBut fun _ => False) (Attribute.others as) (Attribute.others bs) := by
    refine List.rel_filter ?_ h
    intro a b hab
    dsimp only
    rw [hab.1]
  have hdrop {c : Attribute} (hc : c.name = "class") (more : List Attribute) :
      Attribute.others (c :: more) = Attribute.others more :=
    List.filter_cons_of_neg (by simp [hc])
  cases h with
  | same h => exact hfilter h
  | extended hfront hback _ ha hb =>
    rw [Attribute.others, Attribute.others, List.filter_append, List.filter_append]
    exact List.rel_append (hfilter hfront) (by
      rw [← Attribute.others, ← Attribute.others, hdrop ha, hdrop hb]
      exact hfilter hback)
  | added h _ hb =>
    rw [Attribute.others, Attribute.others, List.filter_append, ← Attribute.others, ← Attribute.others,
      ← Attribute.others, hdrop hb]
    simpa [Attribute.others] using hfilter h

namespace StartTag.GivenClasses

variable {more : StartTag → List String} {tag tag' : StartTag}

theorem others (h : tag.GivenClasses more tag') : List.Forall₂ (Attribute.AlikeBut fun _ => False)
    (Attribute.others tag.attributes) (Attribute.others tag'.attributes) := by
  by_cases hname : tag.name = "td"
  · exact (h.cell hname).others
  · have hsame : Attribute.ClassGiven "" tag.attributes tag'.attributes := .same (h.other hname)
    exact hsame.others

theorem value?_eq (h : tag.GivenClasses more tag') {name : String} (hname : name ≠ "class") :
    tag'.value? name = tag.value? name := by
  unfold StartTag.value? StartTag.attribute?
  rw [← Attribute.find?_others hname tag'.attributes, ← Attribute.find?_others hname tag.attributes,
    Attribute.bind_value_find? h.others id]

theorem declarations_eq (h : tag.GivenClasses more tag') : tag'.declarations = tag.declarations := by
  rw [StartTag.declarations, StartTag.declarations, h.value?_eq (by decide)]

end StartTag.GivenClasses

/-! ## What cells receive -/

namespace CellClasses

/-- The words of a class. -/
def wordsOf (c : String) : List String := (Text.words c.toList).map String.ofList

theorem wordsOf_intercalate (cs : List String) :
    wordsOf (String.intercalate " " cs) = cs.flatMap wordsOf := by
  have hlist : (String.intercalate " " cs).toList = Text.joinWith [' '] (cs.map String.toList) := by
    rw [String.toList_intercalate, Text.joinWith_eq_intercalate]
    rfl
  rw [wordsOf, hlist, Text.words_joinWith, List.map_flatMap, List.flatMap_map]
  rfl

theorem wordsOf_of_mem {c w : String} (h : w ∈ wordsOf c) : wordsOf w = [w] := by
  obtain ⟨word, hword, rfl⟩ := List.mem_map.1 h
  rw [wordsOf, String.toList_ofList, Text.words_of_mem_words hword]
  rfl

theorem wordsOf_of_mem_classes {tag : StartTag} {c : String} (h : c ∈ tag.classes) :
    wordsOf c = [c] := by
  unfold StartTag.classes at h
  split at h
  · exact absurd h List.not_mem_nil
  · exact wordsOf_of_mem h

/-- The classes of a tag whose class is some classes with a blank between each two. -/
theorem classes_of_value? {tag : StartTag} {cs : List String}
    (h : tag.value? "class" = some (String.intercalate " " cs)) :
    tag.classes = cs.flatMap wordsOf := by
  rw [StartTag.classes, h]
  exact wordsOf_intercalate cs

theorem flatMap_wordsOf {cs : List String} (h : ∀ c ∈ cs, wordsOf c = [c]) :
    cs.flatMap wordsOf = cs := by
  rw [List.flatMap_congr h]
  exact List.flatMap_singleton' cs

variable {signatures : List CellSignature} {tag tag' cell : StartTag}

theorem edit?_isSome_iff : (edit? signatures cell).isSome ↔
    cell.declarations ≠ [] ∧ missing signatures cell ≠ [] := by
  unfold edit?
  split
  · next h => simp [h]
  · next h =>
    cases missing signatures cell with
    | nil => simp
    | cons c cs =>
      dsimp only
      split
      · simp [h]
      · simp [h]

/-- **A cell with declarations receives the words of all its missing classes,** and no other tag receives
a class. -/
theorem classes_of_received (h : Received signatures tag tag') : tag'.classes =
    if tag.name = "td" ∧ tag.declarations ≠ []
      then tag.classes ++ (missing signatures tag).flatMap wordsOf else tag.classes := by
  unfold Received at h
  by_cases hedit : tag.name = "td" ∧ (edit? signatures tag).isSome
  · rw [if_pos hedit] at h
    obtain ⟨hname, hsome⟩ := hedit
    rw [if_pos ⟨hname, (edit?_isSome_iff.1 hsome).1⟩, classes_of_value? h, List.flatMap_append,
      flatMap_wordsOf fun c hc => wordsOf_of_mem_classes hc]
  · rw [if_neg hedit] at h
    have hsame : tag'.classes = tag.classes := by
      rw [StartTag.classes, StartTag.classes, h]
    rw [hsame]
    split
    · next hcell =>
      -- A cell with declarations that is not edited misses nothing.
      have hnone : missing signatures tag = [] := by
        by_contra hne
        exact hedit ⟨hcell.1, edit?_isSome_iff.2 ⟨hcell.2, hne⟩⟩
      rw [hnone, List.flatMap_nil, List.append_nil]
    · rfl

/-! ## What cells lack -/

/-- The classes of a cell with those of some words that it lacks, each once, in order. -/
def joined (classes : List String) : List String → List String
  | [] => classes
  | c :: more => if c ∈ classes then joined classes more else joined (classes ++ [c]) more

/-- What is joined is joined once. -/
theorem exists_joined (classes words : List String) :
    ∃ lacking, joined classes words = classes ++ lacking ∧ lacking.Nodup ∧
      ∀ c ∈ lacking, c ∉ classes := by
  induction words generalizing classes with
  | nil => exact ⟨[], by simp [joined], .nil, by simp⟩
  | cons c words ih =>
    rw [joined]
    split
    · exact ih classes
    · next hc =>
      obtain ⟨lacking, heq, hnodup, hnew⟩ := ih (classes ++ [c])
      refine ⟨c :: lacking, by rw [heq, List.append_assoc]; rfl, ?_, ?_⟩
      · exact List.nodup_cons.2 ⟨fun hmem => hnew c hmem (by simp), hnodup⟩
      · refine List.forall_mem_cons.2 ⟨hc, fun d hd hmem => ?_⟩
        exact hnew d hd (List.mem_append_left _ hmem)

/-- **What is not there yet is joined as it stands** exactly if no word of it stands twice. -/
theorem joined_eq_iff (classes words : List String) :
    joined classes words = classes ++ words.filter (fun c => !classes.contains c) ↔
      (words.filter fun c => !classes.contains c).Nodup := by
  constructor
  · intro h
    obtain ⟨lacking, heq, hnodup, -⟩ := exists_joined classes words
    rw [List.append_cancel_left (h.symm.trans heq)]
    exact hnodup
  · intro h
    induction words generalizing classes with
    | nil => simp [joined]
    | cons c words ih =>
      rw [joined]
      split
      · next hc =>
        have hdrop : (c :: words).filter (fun d => !classes.contains d) =
            words.filter fun d => !classes.contains d := List.filter_cons_of_neg (by simp [hc])
        rw [hdrop] at h ⊢
        exact ih classes h
      · next hc =>
        have hkeep : (c :: words).filter (fun d => !classes.contains d) =
            c :: words.filter fun d => !classes.contains d := List.filter_cons_of_pos (by simp [hc])
        rw [hkeep] at h ⊢
        obtain ⟨hnew, hnodup⟩ := List.nodup_cons.1 h
        -- The word does not stand among the others that are missing.
        have hsame : words.filter (fun d => !(classes ++ [c]).contains d) =
            words.filter fun d => !classes.contains d := by
          refine List.filter_congr fun d hd => ?_
          by_cases hdc : d = c
          · subst hdc
            exact absurd (List.mem_filter.2 ⟨hd, by simp [hc]⟩) hnew
          · simp [hdc]
        rw [ih (classes ++ [c]) (by rwa [hsame]), hsame, List.append_assoc]
        rfl

/-- The classes of the signatures that a cell matches. -/
def matched (signatures : List CellSignature) (cell : StartTag) : List String :=
  (signatures.filter (·.matches_ cell.declarations)).map CellSignature.className

/-- A cell with declarations has its classes with the words of the signatures that it matches and lacks
them, each once; any other tag has its classes. -/
structure ReceivesExactly (signatures : List CellSignature) (tag tag' : StartTag) : Prop where
  /-- They have one name. -/
  name : tag'.name = tag.name
  /-- The classes. -/
  classes : tag'.classes = if tag.name = "td" ∧ tag.declarations ≠ []
    then joined tag.classes ((matched signatures tag).flatMap wordsOf) else tag.classes

/-- **The words of the missing classes are those that a cell lacks, and then it has every class,** exactly
if each missing class is one word and no two are the same. -/
theorem exact_iff (signatures : List CellSignature) (cell : StartTag) :
    (cell.classes ++ (missing signatures cell).flatMap wordsOf =
        joined cell.classes ((matched signatures cell).flatMap wordsOf) ∧
      ∀ c ∈ matched signatures cell,
        c ∈ cell.classes ++ (missing signatures cell).flatMap wordsOf) ↔
    (missing signatures cell).Nodup ∧ ∀ c ∈ missing signatures cell, wordsOf c = [c] := by
  have hmissing : missing signatures cell =
      (matched signatures cell).filter fun c => !cell.classes.contains c := rfl
  -- If each missing class is one word, so is each that is matched.
  have hwords (h : ∀ c ∈ missing signatures cell, wordsOf c = [c]) :
      ∀ c ∈ matched signatures cell, wordsOf c = [c] := by
    intro c hc
    by_cases hhas : c ∈ cell.classes
    · exact wordsOf_of_mem_classes hhas
    · exact h c (List.mem_filter.2 ⟨hc, by simp [hhas]⟩)
  constructor
  · rintro ⟨hexact, hall⟩
    have hone : ∀ c ∈ missing signatures cell, wordsOf c = [c] := by
      intro c hc
      obtain ⟨hmatched, hlacks⟩ := List.mem_filter.1 hc
      rcases List.mem_append.1 (hall c hmatched) with hhas | hgiven
      · exact absurd hhas (by simpa using hlacks)
      · obtain ⟨d, -, hword⟩ := List.mem_flatMap.1 hgiven
        exact wordsOf_of_mem hword
    rw [flatMap_wordsOf hone, flatMap_wordsOf (hwords hone), hmissing] at hexact
    exact ⟨hmissing ▸ (joined_eq_iff _ _).1 hexact.symm, hone⟩
  · rintro ⟨hnodup, hone⟩
    rw [flatMap_wordsOf hone, flatMap_wordsOf (hwords hone)]
    refine ⟨((joined_eq_iff _ _).2 (hmissing ▸ hnodup)).symm, fun c hc => ?_⟩
    by_cases hhas : c ∈ cell.classes
    · exact List.mem_append_left _ hhas
    · exact List.mem_append_right _ (List.mem_filter.2 ⟨hc, by simp [hhas]⟩)

/-- The rule has nothing to do if no cell with declarations misses a class. -/
theorem editsOf_eq_nil_iff (signatures : List CellSignature) (source : String) :
    (rule signatures).editsOf source = [] ↔
      ∀ cell ∈ (Document.read source).allStartTags, cell.name = "td" → cell.declarations ≠ [] →
        ∀ c ∈ matched signatures cell, c ∈ cell.classes := by
  rw [Rule.editsOf, cellClasses_edits_eq_nil_iff, Document.forall_mem_startTags_iff]
  simp only [matched, List.forall_mem_map, List.mem_filter, and_imp]

/-- **What cells receive.** Where what it writes can stand, the rule gives to each cell with declarations the
words of its missing classes, behind its own.  These are exactly the words that it lacks, each once, **and
the rule has nothing more to do, exactly if** at each such cell every missing class is one word and no two
are the same. -/
theorem classes_exact_iff (signatures : List CellSignature) (source : String)
    (hcompletes : Token.completes source = true) (hfits : FitsIn signatures source) :
    List.Forall₂ (fun tag tag' => tag'.name = tag.name ∧ tag'.classes =
        if tag.name = "td" ∧ tag.declarations ≠ []
          then tag.classes ++ (missing signatures tag).flatMap wordsOf else tag.classes)
      (Document.read source).allStartTags
      (Document.read ((rule signatures).applyTo source)).allStartTags ∧
    ((List.Forall₂ (ReceivesExactly signatures) (Document.read source).allStartTags
        (Document.read ((rule signatures).applyTo source)).allStartTags ∧
      (rule signatures).editsOf ((rule signatures).applyTo source) = []) ↔
      ∀ cell ∈ (Document.read source).allStartTags, cell.name = "td" → cell.declarations ≠ [] →
        (missing signatures cell).Nodup ∧ ∀ c ∈ missing signatures cell, wordsOf c = [c]) := by
  have hreceived : List.Forall₂ (fun tag tag' : StartTag =>
      tag.GivenClasses (missing signatures) tag' ∧ Received signatures tag tag')
      (Document.read source).allStartTags
      (Document.read ((rule signatures).applyTo source)).allStartTags :=
    Token.startTags_alike (MarkupPiece.tokenize_applyTo_alike hcompletes (adaptable hfits)
      (List.Perm.of_eq (edits_eq _)))
  refine ⟨hreceived.imp fun tag tag' h => ⟨h.1.name, classes_of_received h.2⟩, ?_⟩
  rw [editsOf_eq_nil_iff]
  apply forall₂_and_forall_iff hreceived
  rintro tag tag' ⟨hgiven, hclass⟩
  have hclasses := classes_of_received hclass
  have hmatched : matched signatures tag' = matched signatures tag := by
    rw [matched, matched, hgiven.declarations_eq]
  rw [hgiven.name, hgiven.declarations_eq, hmatched]
  by_cases hcell : tag.name = "td" ∧ tag.declarations ≠ []
  · rw [if_pos hcell] at hclasses
    have hexact : ReceivesExactly signatures tag tag' ↔
        tag.classes ++ (missing signatures tag).flatMap wordsOf =
          joined tag.classes ((matched signatures tag).flatMap wordsOf) := by
      rw [← hclasses]
      exact ⟨fun h => by rw [h.classes, if_pos hcell], fun h => ⟨hgiven.name, by rw [if_pos hcell, h]⟩⟩
    rw [hexact, hclasses, ← exact_iff]
    exact ⟨fun h _ _ => ⟨h.1, h.2 hcell.1 hcell.2⟩, fun h =>
      ⟨(h hcell.1 hcell.2).1, fun _ _ => (h hcell.1 hcell.2).2⟩⟩
  · rw [if_neg hcell] at hclasses
    have hexact : ReceivesExactly signatures tag tag' := ⟨hgiven.name, by rw [if_neg hcell, hclasses]⟩
    exact iff_of_true ⟨hexact, fun hname hstyled => absurd ⟨hname, hstyled⟩ hcell⟩
      fun hname hstyled => absurd ⟨hname, hstyled⟩ hcell

/-- A cell with one of the classes that it matches, a cell without declarations, and a paragraph. -/
theorem classes_exact_of_page :
    let source := "<td class='a' style=\"width:1px\"><td class=d><p class=c style=\"width:2px\">"
    let signatures : List CellSignature :=
      [⟨"b", [("width", "*")]⟩, ⟨"a", [("width", "1PX")]⟩, ⟨"c", [("width", "*")]⟩, ⟨"e", [("color", "*")]⟩]
    (Token.completes source = true ∧ FitsIn signatures source) ∧
      ((rule signatures).editsOf source).length = 1 ∧
      List.Forall₂ (ReceivesExactly signatures) (Document.read source).allStartTags
        (Document.read ((rule signatures).applyTo source)).allStartTags ∧
      (rule signatures).editsOf ((rule signatures).applyTo source) = [] := by
  intro source signatures
  have hpage : (Token.completes source = true ∧ FitsIn signatures source) ∧
      ((rule signatures).editsOf source).length = 1 ∧
      ∀ cell ∈ (Document.read source).allStartTags, cell.name = "td" → cell.declarations ≠ [] →
        (missing signatures cell).Nodup ∧ ∀ c ∈ missing signatures cell, wordsOf c = [c] := by
    decide +kernel
  obtain ⟨⟨hcompletes, hfits⟩, hlength, hone⟩ := hpage
  exact ⟨⟨hcompletes, hfits⟩, hlength, (classes_exact_iff signatures source hcompletes hfits).2.2 hone⟩

/-- Two signatures give one class: under valid settings a cell that matches both receives it twice. -/
theorem shared_class_given_twice :
    let settings : Settings := { outlook :=
      { cellClasses := [⟨"x", [("width", "*")]⟩, ⟨"x", [("height", "*")]⟩] } }
    let source := "<td style=\"width:1px;height:1px\">"
    let result := (rule settings.outlook.cellClasses).applyTo source
    settings.validate = .ok () ∧ result = "<td style=\"width:1px;height:1px\" class=\"x x\">" ∧
      (Document.read source).allStartTags.map (fun cell => joined cell.classes
        ((matched settings.outlook.cellClasses cell).flatMap wordsOf)) = [["x"]] ∧
      (Document.read result).allStartTags.map StartTag.classes = [["x", "x"]] := by
  intro settings source result
  have hpage : settings.validate.toBool = true ∧
      result = "<td style=\"width:1px;height:1px\" class=\"x x\">" ∧
      (Document.read source).allStartTags.map (fun cell => joined cell.classes
        ((matched settings.outlook.cellClasses cell).flatMap wordsOf)) = [["x"]] ∧
      (Document.read result).allStartTags.map StartTag.classes = [["x", "x"]] := by
    decide +kernel
  exact ⟨Settings.validate_of_toBool hpage.1, hpage.2⟩

end CellClasses

end MailTemplate
