import MailTemplate.Proofs.OutputNames
import MailTemplate.Proofs.WatchedPaths

/-!
# Templates below the source root

The layout joins the source root to the root of the project, and a template below it loses its directories.
The plan of a build compares the path of the template with the source root as it was configured instead.
The two agree however deep the template is and however the root is spelt: as long as the source root is
spelt without a lead, its components are a front of those of the template exactly if they are once both are
joined to the root.  A source root that is spelt with a leading dot or from the root of the file system is
the front of no path of a template, so nothing below it is flattened although the layout says so.

The name of the document is the stem of the template with `.html` behind it, but for a name of two dots in
front of an extension that is not flattened: it is called by the two dots alone.

## Main definitions

* `Layout.InSourceRoot` — a template lies below the source root.
* `PathSettings.askedPlace` — where the document goes that the layout asks for.

## Main results

* `Path.startsWith_iff_join` — the two comparisons agree exactly without a lead.
* `PathSettings.outputOf_follows_layout_iff` — where a document goes, and when the layout asks for it.
* `PathSettings.dotted_source_root_keeps_directories` — a source root with a leading dot flattens nothing.
-/

namespace MailTemplate

namespace Path

variable {root rel d p : Path} {name name' : String} {init init' : List String}

/-! ## Two comparisons -/

/-- **A place starts with a configured directory** exactly if the two do that are joined to the root, and
the directory is spelt without a lead. -/
theorem startsWith_iff_join (root : Path) (hrel : rel.IsPlace) (d : Path) :
    rel.startsWith d = true ↔ (root.join rel).startsWith (root.join d) = true ∧ d.lead = [] := by
  by_cases hlead : d.lead = []
  · refine Iff.trans ?_ (and_iff_left hlead).symm
    by_cases hroot : root.text = ""
    · obtain ⟨text⟩ := root
      obtain rfl : text = "" := hroot
      rw [empty_join, empty_join]
    · have hrelative : d.isAbsolute = false := by
        refine Bool.eq_false_iff.2 fun habsolute => ?_
        exact List.cons_ne_nil _ _ ((lead_of_isAbsolute habsolute).symm.trans hlead)
      have hinner : d.inner = d.components := by rw [components_eq, hlead, List.nil_append]
      rw [startsWith_iff, startsWith_iff, components_join hroot hrel.isAbsolute_eq,
        components_join hroot hrelative, hrel.inner_eq, hinner, List.prefix_append_right_inj]
  · rw [startsWith_iff]
    exact iff_of_false (hrel.not_startsWith hlead) fun h => hlead h.2

/-! ## Places below the output directory -/

/-- Two lists of names lead to one place below a directory only if they are the same. -/
theorem join_ofNames_inj (hinit : ∀ n ∈ init, IsOrdinary n) (hname : IsStep name)
    (hinit' : ∀ n ∈ init', IsOrdinary n) (hname' : IsStep name') :
    p.join (ofNames (init ++ [name])) = p.join (ofNames (init' ++ [name'])) ↔ init = init' ∧ name = name' := by
  refine ⟨fun h => ?_, fun ⟨hsame, hsame'⟩ => by rw [hsame, hsame']⟩
  have htext := congrArg Path.text h
  rw [text_join p (isAbsolute_ofNames_concat hinit hname),
    text_join p (isAbsolute_ofNames_concat hinit' hname'), String.append_right_inj,
    String.append_right_inj] at htext
  have hsegments := congrArg segments (eq_of_text htext)
  rw [segments_ofNames_concat hinit hname, segments_ofNames_concat hinit' hname'] at hsegments
  obtain ⟨hfront, hlast⟩ := List.append_inj' hsegments rfl
  exact ⟨(List.map_inj_right fun _ _ => String.toList_inj.1).1 hfront,
    String.toList_inj.1 (List.cons.inj hlast).1⟩

theorem isStep_documentName (hname : IsOrdinary name) : IsStep (documentName name) := by
  rw [documentName]
  split
  · exact isStep_parent
  · exact hname.stem_html.2.isStep

/-- Only two dots are no document. -/
theorem documentName_eq_iff (hname : IsOrdinary name) :
    documentName name = String.ofList (splitName name.toList).1 ++ ".html" ↔ documentName name ≠ ".." := by
  have hne : String.ofList (splitName name.toList).1 ++ ".html" ≠ ".." := hname.stem_html.2.ne_parent
  rw [documentName]
  split
  · exact iff_of_false (Ne.symm hne) (not_not_intro rfl)
  · exact iff_of_true rfl hne

end Path

/-! ## What the layout asks for -/

variable {root : Path} {settings : PathSettings} {init : List String} {name : String}

/-- A template, given by its path from the root of the project, lies below the source root. -/
def Layout.InSourceRoot (layout : Layout) (source : Path) : Prop :=
  (layout.root.join source).startsWith layout.sourceRoot = true

instance (layout : Layout) (source : Path) : Decidable (layout.InSourceRoot source) :=
  inferInstanceAs (Decidable (_ = true))

/-- Where the layout asks for the document of a template in some directories: below the output directory,
without the directories if the template lies below the source root, and under its stem. -/
def PathSettings.askedPlace (settings : PathSettings) (root : Path) (init : List String) (name : String) :
    Path :=
  let source := Path.ofNames (init ++ [name])
  let kept := if (Layout.ofSettings root settings).InSourceRoot source then [] else init
  Path.join ⟨settings.output⟩ (.ofNames (kept ++ [source.stem ++ ".html"]))

/-- The source root is compared as it is configured. -/
theorem PathSettings.startsWith_sourceRoot_iff (root : Path) (settings : PathSettings)
    (hinit : ∀ n ∈ init, Path.IsOrdinary n) (hname : Path.IsOrdinary name) :
    (Path.ofNames (init ++ [name])).startsWith ⟨settings.sourceRoot⟩ = true ↔
      (Layout.ofSettings root settings).InSourceRoot (.ofNames (init ++ [name])) ∧
        Path.lead ⟨settings.sourceRoot⟩ = [] :=
  Path.startsWith_iff_join root
    (Path.isPlace_ofNames (Path.forall_isOrdinary_concat hinit hname) (by simp)) _

/-- The directories of a template are dropped exactly if it lies below the source root of the layout and the
source root is spelt without a lead. -/
theorem PathSettings.outputOf_ofNames (root : Path) (settings : PathSettings)
    (hinit : ∀ n ∈ init, Path.IsOrdinary n) (hname : Path.IsOrdinary name) :
    settings.outputOf (.ofNames (init ++ [name])) = Path.join ⟨settings.output⟩ (.ofNames
      (if (Layout.ofSettings root settings).InSourceRoot (.ofNames (init ++ [name])) ∧
          Path.lead ⟨settings.sourceRoot⟩ = [] then
        [(Path.ofNames (init ++ [name])).stem ++ ".html"]
      else init ++ [Path.documentName name])) := by
  rw [outputOf, outputPath]
  by_cases hstarts : (Path.ofNames (init ++ [name])).startsWith ⟨settings.sourceRoot⟩ = true
  · rw [if_pos hstarts, if_pos ((startsWith_sourceRoot_iff root settings hinit hname).1 hstarts), Path.child,
      Path.ofNames, Path.ofNames, String.intercalate_singleton]
  · rw [if_neg hstarts, if_neg (mt (startsWith_sourceRoot_iff root settings hinit hname).2 hstarts),
      Path.withExtension_ofNames hinit hname]

/-- **Where a document goes, and when the layout asks for this place.**  The layout and the plan agree about
a template exactly if the source root that it lies below is spelt without a lead, or the template has no
directories to lose, and if a template that would be called by two dots is flattened. -/
theorem PathSettings.outputOf_follows_layout_iff (root : Path) (settings : PathSettings)
    (hinit : ∀ n ∈ init, Path.IsOrdinary n) (hname : Path.IsOrdinary name) :
    settings.outputOf (.ofNames (init ++ [name])) = Path.join ⟨settings.output⟩ (.ofNames
      (if (Layout.ofSettings root settings).InSourceRoot (.ofNames (init ++ [name])) ∧
          Path.lead ⟨settings.sourceRoot⟩ = [] then
        [(Path.ofNames (init ++ [name])).stem ++ ".html"]
      else init ++ [Path.documentName name])) ∧
    (settings.outputOf (.ofNames (init ++ [name])) = settings.askedPlace root init name ↔
      ((Layout.ofSettings root settings).InSourceRoot (.ofNames (init ++ [name])) →
        Path.lead ⟨settings.sourceRoot⟩ = [] ∨ init = []) ∧
      (Path.documentName name = ".." →
        (Layout.ofSettings root settings).InSourceRoot (.ofNames (init ++ [name])) ∧
          Path.lead ⟨settings.sourceRoot⟩ = [])) := by
  have hplace := outputOf_ofNames root settings hinit hname
  refine ⟨hplace, ?_⟩
  have hdocument := Path.isStep_documentName hname
  have hasked := hname.stem_html.2.isStep
  rw [hplace, askedPlace, Path.stem_ofNames hinit hname]
  by_cases hinside : (Layout.ofSettings root settings).InSourceRoot (.ofNames (init ++ [name]))
  · rw [if_pos hinside]
    by_cases hlead : Path.lead ⟨settings.sourceRoot⟩ = []
    · rw [if_pos ⟨hinside, hlead⟩]
      exact iff_of_true rfl ⟨fun _ => .inl hlead, fun _ => ⟨hinside, hlead⟩⟩
    · -- The plan keeps the directories, so the places are the same only if there are none.
      rw [if_neg fun h => hlead h.2, Path.join_ofNames_inj hinit hdocument (List.forall_mem_nil _) hasked,
        Path.documentName_eq_iff hname]
      simp [hinside, hlead]
  · rw [if_neg hinside, if_neg fun h => hinside h.1, Path.join_ofNames_inj hinit hdocument hinit hasked,
      Path.documentName_eq_iff hname]
    simp [hinside]

/-- With the stock settings a template below the source root loses its directories. -/
theorem PathSettings.campaign_is_flattened :
    ({} : PathSettings).outputOf (.ofNames (["src", "campaigns"] ++ ["spring.mjml"])) =
      ({} : PathSettings).askedPlace ⟨"/p"⟩ ["src", "campaigns"] "spring.mjml" :=
  (outputOf_follows_layout_iff ⟨"/p"⟩ {} (by decide) (by decide)).2.2
    ⟨fun _ => .inl (by decide), fun hdots => absurd hdots (by decide)⟩

/-- Settings whose source root is spelt with a leading dot. -/
def dottedSourceRoot : Settings := { paths := { sourceRoot := "./src" } }

/-- **A source root with a leading dot flattens nothing:** a template below it keeps its directories, one of
which is the source root itself. -/
theorem PathSettings.dotted_source_root_keeps_directories :
    dottedSourceRoot.validate = .ok () ∧
      (Layout.ofSettings ⟨"/p"⟩ dottedSourceRoot.paths).InSourceRoot ⟨"src/campaigns/spring.mjml"⟩ ∧
        dottedSourceRoot.paths.askedPlace ⟨"/p"⟩ ["src", "campaigns"] "spring.mjml" =
          ⟨"dist/spring.html"⟩ ∧
          dottedSourceRoot.paths.outputOf ⟨"src/campaigns/spring.mjml"⟩ =
            ⟨"dist/src/campaigns/spring.html"⟩ :=
  ⟨Settings.validate_of_toBool (by decide +kernel), by decide +kernel⟩

end MailTemplate
