import MailTemplate.Build.Plan
import MailTemplate.Proofs.PathDescents

/-!
# Names of documents

The document of a template goes below the output directory, either directly into it or into the directory
that the template is in, under the name of the template with another extension.  Whatever dots the name
holds, what the document is called then ends in `.html` with something in front, so it is a document again
when the output directory is searched.  There is one exception: a template whose name is a dot in front of
its extension would be called by two dots, which is no name.

## Main definitions

* `PathSettings.OutputPlace` — the directories and the name that a document goes to.

## Main results

* `PathSettings.exists_outputPlace` — every template has such a place.
* `Path.extension?_down` — a document is found by its extension.
-/

namespace MailTemplate

namespace Path

variable {p root : Path} {name : String} {names init : List String}

/-! ## The last name -/

theorem name?_of_components {front : List Component} (h : p.components = front ++ [.name name]) :
    p.name? = some name := by
  rw [name?, h, List.getLast?_concat]

theorem name?_ofNames (hinit : ∀ n ∈ init, IsOrdinary n) (hname : IsOrdinary name) :
    (ofNames (init ++ [name])).name? = some name := by
  apply name?_of_components
  rw [components_ofNames (forall_isOrdinary_concat hinit hname) (by simp), List.map_append]
  rfl

theorem name?_down (hroot : root.text ≠ "") (hinit : ∀ n ∈ init, IsOrdinary n) (hname : IsOrdinary name) :
    (root.down (init ++ [name])).name? = some name := by
  apply name?_of_components
  rw [components_down hroot (forall_isOrdinary_concat hinit hname), List.map_append,
    ← List.append_assoc]
  rfl

/-- **A name is divided** at its last dot, and something stands in front of it. -/
theorem splitName_cases {cs : List Char} (hne : cs ≠ []) :
    (splitName cs).1 ≠ [] ∧ ((splitName cs).2 = none ∧ (splitName cs).1 = cs ∨
      ∃ extension, (splitName cs).2 = some extension ∧ cs = (splitName cs).1 ++ '.' :: extension) := by
  unfold splitName
  dsimp only
  split
  · exact ⟨hne, .inl ⟨rfl, rfl⟩⟩
  next hfront =>
  refine ⟨fun hnil => hfront (List.reverse_eq_nil_iff.1 hnil), .inr ⟨_, rfl, ?_⟩⟩
  -- What is dropped up to the dot begins with it.
  obtain ⟨c, rest, hdrop⟩ : ∃ c rest, cs.reverse.dropWhile (· != '.') = c :: rest := by
    apply List.exists_cons_of_ne_nil
    intro hnil
    rw [hnil] at hfront
    exact hfront rfl
  have hdot : c = '.' := by
    have hhead := List.head?_dropWhile_not (· != '.') cs.reverse
    rw [hdrop] at hhead
    simpa using hhead
  subst hdot
  rw [hdrop, List.drop_one, List.tail_cons]
  have hall := List.takeWhile_append_dropWhile (p := (· != '.')) (l := cs.reverse)
  rw [hdrop] at hall
  have hback := congrArg List.reverse hall
  rw [List.reverse_reverse] at hback
  exact hback.symm.trans (by simp)

/-- A name that is made of a stem and an extension is divided into them. -/
theorem splitName_append {stem extension : List Char} (hstem : stem ≠ []) (hdot : '.' ∉ extension) :
    splitName (stem ++ '.' :: extension) = (stem, some extension) := by
  have htake : ∀ c ∈ extension.reverse, (c != '.') = true := by
    intro c hc
    rw [bne_iff_ne]
    rintro rfl
    exact hdot (List.mem_reverse.1 hc)
  have hback : (stem ++ '.' :: extension).reverse = extension.reverse ++ '.' :: stem.reverse := by simp
  unfold splitName
  rw [hback, List.takeWhile_append_of_pos htake, List.dropWhile_append_of_pos htake]
  simp [hstem]

/-- **A document is found by its extension.** -/
theorem extension?_down {stem : String} (hroot : root.text ≠ "") (hinit : ∀ n ∈ init, IsOrdinary n)
    (hstem : stem ≠ "") (hname : IsOrdinary (stem ++ ".html")) :
    (root.down (init ++ [stem ++ ".html"])).extension? = some "html" := by
  have hne : stem.toList ≠ [] := fun hnil => hstem (String.toList_inj.1 hnil)
  have hsplit : splitName (stem ++ ".html").toList = (stem.toList, some "html".toList) := by
    rw [String.toList_append]
    exact splitName_append hne (by decide)
  rw [extension?, name?_down hroot hinit hname, Option.bind_some, hsplit, Option.map_some, String.ofList_toList]

/-! ## Names with another extension -/

theorem IsOrdinary.toList_ne_nil (h : IsOrdinary name) : name.toList ≠ [] :=
  fun hnil => h.ne_empty (String.toList_inj.1 hnil)

theorem stem_ofNames (hinit : ∀ n ∈ init, IsOrdinary n) (hname : IsOrdinary name) :
    (ofNames (init ++ [name])).stem = String.ofList (splitName name.toList).1 := by
  rw [stem, stem?, name?_ofNames hinit hname]
  rfl

/-- The name that a template gives its document in the directory that it is in. -/
def documentName (name : String) : String :=
  if (splitName name.toList).1 = ['.'] ∧ (splitName name.toList).2.isSome then ".."
  else String.ofList (splitName name.toList).1 ++ ".html"

/-- **Another extension** changes the last name. -/
theorem withExtension_ofNames (hinit : ∀ n ∈ init, IsOrdinary n) (hname : IsOrdinary name) :
    (ofNames (init ++ [name])).withExtension "html" = ofNames (init ++ [documentName name]) := by
  have hkept : ((init.map String.toList ++ [name.toList]).reverse.dropWhile isTrivial).reverse =
      init.map String.toList ++ [name.toList] := by
    rw [List.reverse_append, List.reverse_singleton, List.singleton_append,
      List.dropWhile_cons_of_neg (by simp [hname.not_isTrivial])]
    simp
  rw [withExtension, name?_ofNames hinit hname]
  dsimp only
  rw [segments_ofNames_concat hinit hname.isStep, hkept, List.dropLast_concat, List.getLast?_concat,
    documentName, ofNames_eq, List.map_append, List.map_singleton]
  by_cases hdot : (splitName name.toList).1 = ['.'] ∧ (splitName name.toList).2.isSome = true
  · rw [if_pos ⟨hdot.1, hdot.2, rfl⟩, if_pos hdot]
    rfl
  · rw [if_neg (fun h => hdot ⟨h.1, h.2.1⟩), if_neg hdot, String.toList_append,
      String.toList_ofList (l := (splitName name.toList).1)]
    rfl

end Path

/-! ## Where documents go -/

/-- The directories and the name that a document goes to below the output directory.  The name ends as the
name of a document, or is none at all. -/
structure PathSettings.OutputPlace (settings : PathSettings) (names init : List String) (last : String) :
    Prop where
  /-- They make up its path. -/
  output : settings.outputOf (.ofNames names) = Path.join ⟨settings.output⟩ (.ofNames (init ++ [last]))
  /-- The directories are names. -/
  ordinary : ∀ n ∈ init, Path.IsOrdinary n
  /-- There are none, or they are those that the template is in. -/
  directories : init = [] ∨ init = names.dropLast
  /-- The name is made from that of the template. -/
  name : last = ".." ∨ ∃ stem before, stem ≠ "" ∧ last = stem ++ ".html" ∧ Path.IsOrdinary last ∧
    names.getLast? = some before ∧ stem = String.ofList (Path.splitName before.toList).1

theorem Path.IsOrdinary.stem_html {before : String} (h : Path.IsOrdinary before) :
    String.ofList (splitName before.toList).1 ≠ "" ∧
      Path.IsOrdinary (String.ofList (splitName before.toList).1 ++ ".html") := by
  obtain ⟨hne, -⟩ := splitName_cases h.toList_ne_nil
  refine ⟨fun hempty => hne ?_, ?_⟩
  · rw [← String.toList_ofList (l := (splitName before.toList).1), hempty]
    rfl
  · refine isOrdinary_of_getLast? (c := 'l') ?_ (by decide) ?_
    · rw [String.toList_append, List.getLast?_append]
      rfl
    · rw [String.toList_append, List.mem_append, String.toList_ofList, not_or]
      exact ⟨fun hmem => h.noSlash (mem_of_mem_splitName hmem), by decide⟩

/-- **Every template has a place for its document.** -/
theorem PathSettings.exists_outputPlace (settings : PathSettings) {names : List String}
    (hnames : ∀ n ∈ names, Path.IsOrdinary n) (hne : names ≠ []) :
    ∃ init last, settings.OutputPlace names init last := by
  obtain ⟨init, name, rfl⟩ : ∃ init name, names = init ++ [name] :=
    ⟨_, _, (List.dropLast_concat_getLast hne).symm⟩
  have hinit : ∀ n ∈ init, Path.IsOrdinary n := fun n hn => hnames n (List.mem_append_left _ hn)
  have hname : Path.IsOrdinary name := hnames name (by simp)
  obtain ⟨hstem, hdocument⟩ := hname.stem_html
  by_cases hstarts : (Path.ofNames (init ++ [name])).startsWith ⟨settings.sourceRoot⟩ = true
  · refine ⟨[], String.ofList (Path.splitName name.toList).1 ++ ".html", ?_, List.forall_mem_nil _, .inl rfl,
      .inr ⟨_, name, hstem, rfl, hdocument, List.getLast?_concat, rfl⟩⟩
    rw [outputOf, outputPath, if_pos hstarts, Path.stem_ofNames hinit hname, Path.child, List.nil_append,
      Path.ofNames, String.intercalate_singleton]
  · refine ⟨init, Path.documentName name, ?_, hinit, .inr (List.dropLast_concat ..).symm, ?_⟩
    · rw [outputOf, outputPath, if_neg hstarts, Path.withExtension_ofNames hinit hname]
    · rw [Path.documentName]
      split
      · exact .inl rfl
      · exact .inr ⟨_, name, hstem, rfl, hdocument, List.getLast?_concat, rfl⟩

end MailTemplate
