import MailTemplate.Project.Discovery
import MailTemplate.Proofs.OutputClaims
import MailTemplate.Proofs.PathComponents
import MailTemplate.Settings.Validation
import MailTemplate.Watch.Filter

/-!
# Watching what is discovered

Discovery enters a directory unless it is hidden, ignored, or one of the two directories for results.
The filter of the watcher decides the same of a changed file without a walk: it looks at the names on the
way to the file, and asks whether the path of the file begins with one of the directories for results as
it was configured.  The two agree where these directories are spelt plainly.  A leading dot or the root
of the file system hides a directory from the filter, which looks at relative paths only, and a directory
without components is the front of every path.

## Main definitions

* `Path.way` — the directories between a root and what is below it.
* `Path.IsPlain` — a configured directory that is spelt plainly, as seen from a file.

## Main results

* `ChangeFilter.isRelevant_join_iff`, `Settings.forall_enters_iff` — what the filter and discovery look
  at.
* `Path.prunes_iff_startsWith_iff` — they agree about a directory exactly if it is spelt plainly.
* `relevant_iff_entered` — if both directories are, the filter lets through what discovery comes to.
* `dotted_output_watched` — it lets through more if a directory is spelt with a leading dot.
-/

namespace MailTemplate

/-! ## Ways -/

namespace Path

/-- The directories that a walk comes to from a root through entries of some names, each with its
name. -/
def way (root : Path) : List String → List (Path × String)
  | [] => []
  | name :: names => (root.child name, name) :: (root.child name).way names

variable {root rel d : Path} {names : List String}

theorem isAbsolute_child (hroot : root.isAbsolute = true) (name : String) :
    (root.child name).isAbsolute = true :=
  isAbsolute_join hroot _

theorem map_snd_way (root : Path) (names : List String) : (root.way names).map Prod.snd = names := by
  induction names generalizing root with
  | nil => rfl
  | cons name names ih => rw [way, List.map_cons, ih]

/-- A directory on the way has the components of the root and some more. -/
theorem components_of_mem_way (hroot : root.isAbsolute = true) (hnames : ∀ n ∈ names, IsOrdinary n)
    {x : Path × String} (hx : x ∈ root.way names) :
    ∃ cs, cs ≠ [] ∧ cs <+: names.map Component.name ∧ x.1.components = root.components ++ cs := by
  induction names generalizing root with
  | nil => exact absurd hx List.not_mem_nil
  | cons name names ih =>
    obtain ⟨hname, hnames⟩ := List.forall_mem_cons.1 hnames
    have hchild := components_child (text_ne_of_isAbsolute hroot) hname
    rcases List.mem_cons.1 hx with rfl | hx
    · exact ⟨[.name name], List.cons_ne_nil _ _, List.prefix_append _ _, hchild⟩
    · obtain ⟨cs, -, hbegins, hcs⟩ := ih (isAbsolute_child hroot name) hnames hx
      refine ⟨.name name :: cs, List.cons_ne_nil _ _, ?_, ?_⟩
      · exact List.cons_prefix_cons.2 ⟨rfl, hbegins⟩
      · rw [hcs, hchild, List.append_assoc, List.singleton_append]

theorem exists_mem_way (hroot : root.isAbsolute = true) (hnames : ∀ n ∈ names, IsOrdinary n)
    {cs : List Component} (hne : cs ≠ []) (hbegins : cs <+: names.map Component.name) :
    ∃ x ∈ root.way names, x.1.components = root.components ++ cs := by
  induction names generalizing root cs with
  | nil => exact absurd (List.prefix_nil.1 hbegins) hne
  | cons name names ih =>
    obtain ⟨hname, hnames⟩ := List.forall_mem_cons.1 hnames
    have hchild := components_child (text_ne_of_isAbsolute hroot) hname
    obtain ⟨c, cs, rfl⟩ := List.exists_cons_of_ne_nil hne
    obtain ⟨rfl, hrest⟩ := List.cons_prefix_cons.1 hbegins
    by_cases hcs : cs = []
    · subst hcs
      exact ⟨_, List.mem_cons_self, hchild⟩
    · obtain ⟨x, hx, hcomponents⟩ := ih (isAbsolute_child hroot name) hnames hcs hrest
      refine ⟨x, List.mem_cons_of_mem _ hx, ?_⟩
      rw [hcomponents, hchild, List.append_assoc, List.singleton_append]

/-! ## Directories that are spelt plainly -/

/-- A configured directory is spelt plainly, as seen from a file below a root: it has components, is not
the file itself, and does not lead to a directory on the way to the file from the root of the file system
or from a dot. -/
structure IsPlain (root rel d : Path) : Prop where
  /-- It has components. -/
  ne_nil : d.components ≠ []
  /-- It is not the file itself. -/
  ne_file : d.components ≠ rel.components
  /-- Spelt with a root or a dot it is no directory on the way. -/
  off_way : d.lead ≠ [] → ∀ x ∈ root.way rel.directoryNames, x.1.alike (root.join d) = false

instance (root rel d : Path) : Decidable (IsPlain root rel d) :=
  decidable_of_iff (d.components ≠ [] ∧ d.components ≠ rel.components ∧
    (d.lead ≠ [] → ∀ x ∈ root.way rel.directoryNames, x.1.alike (root.join d) = false))
    ⟨fun h => ⟨h.1, h.2.1, h.2.2⟩, fun h => ⟨h.ne_nil, h.ne_file, h.off_way⟩⟩

/-- A place does not start with a path that begins at the root or with a dot. -/
theorem IsPlace.not_startsWith (hrel : rel.IsPlace) (hlead : d.lead ≠ []) :
    ¬ d.components <+: rel.components := by
  obtain ⟨c, cs, hd⟩ := List.exists_cons_of_ne_nil hlead
  intro hbegins
  have hc : c ∈ rel.components := by
    apply hbegins.subset
    rw [components_eq, hd]
    exact List.mem_append_left _ List.mem_cons_self
  obtain ⟨name, rfl⟩ := hrel.names c hc
  unfold lead at hd
  split at hd
  · exact absurd (List.cons.inj hd).1 (by simp)
  · split at hd
    · exact absurd (List.cons.inj hd).1 (by simp)
    · exact absurd hd.symm (List.cons_ne_nil _ _)

/-- The way to a file leads over a directory that is spelt without a lead exactly if the components of the
directory are a front of those of the directory that the file is in. -/
theorem exists_alike_way_iff (hroot : root.isAbsolute = true) (hrel : rel.IsPlace) {d : Path}
    (hlead : d.lead = []) :
    (∃ x ∈ root.way rel.directoryNames, x.1.alike (root.join d) = true) ↔
      d.components ≠ [] ∧ d.components <+: rel.components.dropLast := by
  have hcomponents : d.components = d.inner := by rw [components_eq, hlead, List.nil_append]
  have hrelative : d.isAbsolute = false := by
    refine Bool.eq_false_iff.2 fun habsolute => ?_
    exact List.cons_ne_nil _ _ ((lead_of_isAbsolute habsolute).symm.trans hlead)
  simp only [alike_iff, components_join (text_ne_of_isAbsolute hroot) hrelative]
  rw [hcomponents, ← hrel.map_directoryNames]
  constructor
  · rintro ⟨x, hx, hd⟩
    obtain ⟨cs, hne, hbegins, hcs⟩ := components_of_mem_way hroot hrel.isOrdinary hx
    obtain rfl := List.append_cancel_left (hcs.symm.trans hd)
    exact ⟨hne, hbegins⟩
  · rintro ⟨hne, hbegins⟩
    exact exists_mem_way hroot hrel.isOrdinary hne hbegins

/-- A front of the components of a file is one of its directory, or all of them, and not both. -/
theorem IsPlace.prefix_iff (hrel : rel.IsPlace) (cs : List Component) :
    (cs <+: rel.components ↔ cs = rel.components ∨ cs <+: rel.components.dropLast) ∧
      ¬ rel.components <+: rel.components.dropLast := by
  constructor
  · have hlast := List.dropLast_concat_getLast hrel.ne_nil
    have hfront := @List.prefix_concat_iff _ cs rel.components.dropLast
      (rel.components.getLast hrel.ne_nil)
    rwa [hlast] at hfront
  · intro hbegins
    have hle := hbegins.length_le
    have hpos := List.length_pos_iff.2 hrel.ne_nil
    rw [List.length_dropLast] at hle
    omega

/-- **The walk leaves out a directory on the way to a file exactly if the path of the file starts with
it, provided that it is spelt plainly,** and only then. -/
theorem prunes_iff_startsWith_iff (hroot : root.isAbsolute = true) (hrel : rel.IsPlace) (d : Path) :
    ((∃ x ∈ root.way rel.directoryNames, x.1.alike (root.join d) = true) ↔
      rel.startsWith d = true) ↔ IsPlain root rel d := by
  rw [startsWith_iff]
  by_cases hlead : d.lead = []
  · obtain ⟨hfront, hlonger⟩ := hrel.prefix_iff d.components
    rw [exists_alike_way_iff hroot hrel hlead, hfront]
    constructor
    · intro h
      refine ⟨fun hnil => ?_, fun hfile => ?_, fun hne => absurd hlead hne⟩
      · exact (h.2 (.inr (hnil ▸ List.nil_prefix))).1 hnil
      · exact hlonger (hfile ▸ (h.2 (.inl hfile)).2)
    · intro h
      constructor
      · exact fun hbegins => .inr hbegins.2
      · rintro (hfile | hbegins)
        · exact absurd hfile h.ne_file
        · exact ⟨h.ne_nil, hbegins⟩
  · -- The filter does not see the directory, so the walk must not come to it.
    have hnot := hrel.not_startsWith hlead
    constructor
    · intro h
      refine ⟨?_, fun hfile => hnot (hfile ▸ List.prefix_refl _), fun _ x hx => ?_⟩
      · rw [components_eq]
        exact fun hnil => hlead (List.append_eq_nil_iff.1 hnil).1
      · exact Bool.eq_false_iff.2 fun halike => hnot (h.1 ⟨x, hx, halike⟩)
    · intro h
      refine iff_of_false ?_ hnot
      rintro ⟨x, hx, halike⟩
      exact absurd halike (by simp [h.off_way hlead x hx])

end Path

/-! ## The filter and the walk -/

section

variable {root rel : Path} {settings : Settings}

theorem Path.extension?_congr {p q : Path} (h : p.components = q.components) :
    p.extension? = q.extension? := by
  rw [Path.extension?, Path.extension?, Path.name?, Path.name?, h]

/-- A name that does not lead to a hidden or an ignored directory. -/
def PathSettings.Shows (settings : PathSettings) (name : String) : Prop :=
  name.toList.head? ≠ some '.' ∧ name ∉ settings.ignoredDirectories

theorem Path.IsOrdinary.isHidden_eq {name : String} (h : IsOrdinary name) :
    ChangeFilter.isHidden name = (name.toList.head? == some '.') := by
  have hdot : name ≠ "." := by
    rintro rfl
    exact absurd h.component (by decide)
  have hdots : name ≠ ".." := by
    rintro rfl
    exact absurd h.component (by decide)
  simp [ChangeFilter.isHidden, hdot, hdots]

/-- **What the filter looks at** in a file below the root. -/
theorem ChangeFilter.isRelevant_join_iff (hroot : root.isAbsolute = true) (hrel : rel.IsPlace)
    (paths : PathSettings) :
    (ofSettings root paths).isRelevant (root.join rel) = true ↔
      rel.extension? = some "mjml" ∧
        (rel.startsWith ⟨paths.output⟩ = false ∧ rel.startsWith ⟨paths.exports⟩ = false) ∧
          ∀ name ∈ rel.directoryNames, paths.Shows name := by
  have hinner := hrel.inner_eq
  obtain ⟨htrim, hcomponents⟩ := Path.trim_strip_join (Path.text_ne_of_isAbsolute hroot)
    hrel.isAbsolute_eq (hinner ▸ hrel.ne_nil)
  rw [hinner] at hcomponents
  have hstarts : ∀ d, ((root.join rel).strip root).startsWith d = rel.startsWith d := by
    intro d
    rw [Path.startsWith, Path.startsWith, hcomponents]
  have hdirectories := htrim.components_parent?
  rw [hcomponents, ← hrel.map_directoryNames] at hdirectories
  have hnames : ((rel.directoryNames.map Path.Component.name).any fun c =>
      isHidden c.text || paths.ignoredDirectories.contains c.text) = false ↔
        ∀ name ∈ rel.directoryNames, paths.Shows name := by
    rw [List.any_eq_false, List.forall_mem_map]
    refine forall₂_congr fun name hname => ?_
    rw [show (Path.Component.name name).text = name from rfl,
      (hrel.isOrdinary name hname).isHidden_eq]
    simp [PathSettings.Shows]
  rw [← hnames, ← Path.extension?_congr hcomponents]
  simp only [isRelevant, ofSettings, Layout.ofSettings, Path.child, Path.empty_join, hdirectories,
    hstarts, List.any_cons, List.any_nil, Bool.or_false, Bool.and_eq_true, beq_iff_eq,
    Bool.not_eq_true', Bool.or_eq_false_iff, and_assoc]

theorem Settings.enters_iff {path : Path} {name : String} :
    settings.enters (Layout.ofSettings root settings.paths) path name = true ↔
      (path.alike (root.child settings.paths.output) = false ∧
        path.alike (root.child settings.paths.exports) = false) ∧ settings.paths.Shows name := by
  simp only [enters, Layout.ofSettings, PathSettings.Shows, List.any_cons, List.any_nil, Bool.or_false,
    Bool.and_eq_true, Bool.not_eq_true', Bool.or_eq_false_iff, bne_iff_ne, ne_eq,
    List.contains_eq_mem, decide_eq_false_iff_not]
  exact and_comm

/-- **What discovery looks at** on the way to a file. -/
theorem Settings.forall_enters_iff (settings : Settings) (root : Path) (names : List String) :
    (∀ x ∈ root.way names, settings.enters (Layout.ofSettings root settings.paths) x.1 x.2 = true) ↔
      ((∀ x ∈ root.way names, x.1.alike (root.child settings.paths.output) = false) ∧
        ∀ x ∈ root.way names, x.1.alike (root.child settings.paths.exports) = false) ∧
          ∀ name ∈ names, settings.paths.Shows name := by
  have hnames : (∀ name ∈ names, settings.paths.Shows name) ↔
      ∀ x ∈ root.way names, settings.paths.Shows x.2 := by
    have hmap := @List.forall_mem_map _ _ Prod.snd (root.way names) settings.paths.Shows
    rwa [Path.map_snd_way] at hmap
  simp only [hnames, enters_iff]
  constructor
  · intro h
    exact ⟨⟨fun x hx => (h x hx).1.1, fun x hx => (h x hx).1.2⟩, fun x hx => (h x hx).2⟩
  · rintro ⟨⟨houtput, hexports⟩, hshows⟩ x hx
    exact ⟨⟨houtput x hx, hexports x hx⟩, hshows x hx⟩

/-- **The filter of the watcher lets through exactly the templates that discovery can come to,** below an
absolute root, if the directories for results are spelt plainly. -/
theorem relevant_iff_entered (root rel : Path) (settings : Settings) (hroot : root.isAbsolute = true)
    (hrel : rel.IsPlace) (hextension : rel.extension? = some "mjml")
    (houtput : Path.IsPlain root rel ⟨settings.paths.output⟩)
    (hexports : Path.IsPlain root rel ⟨settings.paths.exports⟩) :
    (ChangeFilter.ofSettings root settings.paths).isRelevant (root.join rel) = true ↔
      ∀ x ∈ root.way rel.directoryNames,
        settings.enters (Layout.ofSettings root settings.paths) x.1 x.2 = true := by
  -- About each of the two directories the filter and the walk agree.
  have hagree : ∀ d : String, Path.IsPlain root rel ⟨d⟩ → (rel.startsWith ⟨d⟩ = false ↔
      ∀ x ∈ root.way rel.directoryNames, x.1.alike (root.child d) = false) := by
    intro d hd
    rw [← Bool.not_eq_true, ← (Path.prunes_iff_startsWith_iff hroot hrel ⟨d⟩).2 hd]
    simp [Path.child]
  rw [ChangeFilter.isRelevant_join_iff hroot hrel, Settings.forall_enters_iff, hagree _ houtput,
    hagree _ hexports]
  exact and_iff_right hextension

/-- Below the root of a project a template in a subdirectory is let through, and a compiled one is
not. -/
theorem relevant_iff_entered_of_project :
    let root : Path := ⟨"/p"⟩
    let source : Path := ⟨"src//mail/a.mjml"⟩
    let copy : Path := ⟨"dist/copy.mjml"⟩
    let settings : Settings := {}
    let filter := ChangeFilter.ofSettings root settings.paths
    let enters := settings.enters (Layout.ofSettings root settings.paths)
    (root.isAbsolute = true ∧ (source.IsPlace ∧ copy.IsPlace) ∧
      (filter.isRelevant (root.join source) = true ∧ filter.isRelevant (root.join copy) = false)) ∧
      (filter.isRelevant (root.join source) = true ↔
        ∀ x ∈ root.way source.directoryNames, enters x.1 x.2 = true) ∧
      (filter.isRelevant (root.join copy) = true ↔
        ∀ x ∈ root.way copy.directoryNames, enters x.1 x.2 = true) :=
  ⟨by decide +kernel,
    relevant_iff_entered ⟨"/p"⟩ ⟨"src//mail/a.mjml"⟩ {} (by decide) (by decide) (by decide)
      (by decide +kernel) (by decide +kernel),
    relevant_iff_entered ⟨"/p"⟩ ⟨"dist/copy.mjml"⟩ {} (by decide) (by decide) (by decide)
      (by decide +kernel) (by decide +kernel)⟩

/-- Settings whose directory for compiled documents is spelt with a leading dot. -/
def dottedOutput : Settings := { paths := { output := "./dist" } }

theorem validate_dottedOutput : dottedOutput.validate = .ok () :=
  Settings.validate_of_toBool (by decide +kernel)

/-- **A leading dot hides a directory from the filter:** it lets through a template that discovery never
comes to. -/
theorem dotted_output_watched :
    ∃ (root rel : Path) (settings : Settings), settings.validate = .ok () ∧ root.isAbsolute = true ∧
      rel.IsPlace ∧ rel.extension? = some "mjml" ∧
        ¬ ((ChangeFilter.ofSettings root settings.paths).isRelevant (root.join rel) = true ↔
          ∀ x ∈ root.way rel.directoryNames,
            settings.enters (Layout.ofSettings root settings.paths) x.1 x.2 = true) :=
  ⟨⟨"/p"⟩, ⟨"dist/copy.mjml"⟩, dottedOutput, validate_dottedOutput, by decide +kernel⟩

end

end MailTemplate
