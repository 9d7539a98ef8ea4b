import Mathlib.Data.List.Sort
import MailTemplate.Export.Basic
import MailTemplate.Proofs.DiscoveredTemplates
import MailTemplate.Proofs.DiskAdditions

/-!
# Places of files

What a walk finds in a tree, apart from what the files hold, are the places of its files.  They come in
order, so two trees with files at the same places give the same list.  The compiled documents of a project
and its templates are found in this way: neither list changes when files change and directories are made,
and a file that comes is in a list only if the list asks for files of its name.

## Main definitions

* `Node.filePlaces` — the places of the files that a walk comes to.

## Main results

* `mem_compiledDocuments_iff`, `nodup_compiledDocuments` — the compiled documents, each of them once.
* `compiledDocuments_congr` — they depend on the places of the files only.
* `discover_congr` — so do the templates, and only on files that the selection accepts.
-/

namespace MailTemplate

namespace Node

variable {enters : Path → String → Bool} {path : Path} {names : List String} {node : Node}

/-- The places of the files that a walk comes to, in order. -/
def filePlaces (enters : Path → String → Bool) (path : Path) (node : Node) : List (List String) :=
  ((node.visits enters path).filter fun v => v.2.isFile).map Prod.fst

/-- **A walk finds the files** to which only directories lead that are entered. -/
theorem mem_filePlaces_iff : names ∈ filePlaces enters path node ↔
    (∃ bytes executable, node.at? names = some (file bytes executable)) ∧
      ∀ x ∈ path.way names.dropLast, enters x.1 x.2 = true := by
  rw [filePlaces, List.mem_map]
  constructor
  · rintro ⟨⟨names, inner⟩, hmem, rfl⟩
    obtain ⟨hvisit, hfile⟩ := List.mem_filter.1 hmem
    cases inner with
    | file bytes executable =>
      obtain ⟨hat, henters⟩ := reaches_iff_of_file.1 (mem_visits_iff.1 hvisit)
      exact ⟨⟨bytes, executable, hat⟩, henters⟩
    | link => exact absurd hfile Bool.false_ne_true
    | directory => exact absurd hfile Bool.false_ne_true
  · rintro ⟨⟨bytes, executable, hat⟩, henters⟩
    refine ⟨(names, file bytes executable), List.mem_filter.2 ⟨?_, rfl⟩, rfl⟩
    exact mem_visits_iff.2 (reaches_iff_of_file.2 ⟨hat, henters⟩)

theorem pairwise_filePlaces (enters : Path → String → Bool) (path : Path) (node : Node) :
    (filePlaces enters path node).Pairwise (· < ·) :=
  List.pairwise_map.2 ((pairwise_visits enters path node).filter _)

end Node

variable {disk after : Disk} {output root p : Path} {links : Nat} {here names : List String} {tree tree' : Node}
  {es : List (String × Node)} {settings : Settings} {selection : Selection}

/-! ## Compiled documents -/

theorem compiledDocuments_eq (h : disk.LeadsTo output links here)
    (hes : disk.root.at? here = some (.directory es)) :
    compiledDocuments disk output =
      ((Node.filePlaces (fun _ _ => true) output (.directory es)).map output.down).filter
        fun p => p.extension? == some "html" := by
  have hdirectory : disk.isDirectory output = true := by
    rw [Disk.isDirectory, h.node_eq hes]
    rfl
  rw [compiledDocuments, if_pos hdirectory, Disk.walk, h.node_eq hes]
  dsimp only
  rw [Node.walk, Node.filePlaces, List.map_map, List.filter_map, List.filter_map, List.filter_filter, List.map_map]
  refine congrArg (List.map _) (List.filter_congr fun v _ => ?_)
  exact Bool.and_comm ..

/-- **The compiled documents** are the files below the output directory whose names end as they should. -/
theorem mem_compiledDocuments_iff (h : disk.LeadsTo output links here) :
    p ∈ compiledDocuments disk output ↔
      ∃ names, disk.HasFile (here ++ names) ∧ p = output.down names ∧ p.extension? = some "html" := by
  obtain ⟨es, hes⟩ := h.directory
  have hat : ∀ names, disk.root.at? (here ++ names) = Node.at? names (.directory es) := by
    intro names
    rw [Node.at?_append, hes]
    rfl
  rw [compiledDocuments_eq h hes, List.mem_filter, List.mem_map, beq_iff_eq]
  constructor
  · rintro ⟨⟨names, hmem, rfl⟩, hextension⟩
    obtain ⟨⟨bytes, executable, hfile⟩, -⟩ := Node.mem_filePlaces_iff.1 hmem
    exact ⟨names, ⟨bytes, executable, (hat names).trans hfile⟩, rfl, hextension⟩
  · rintro ⟨names, ⟨bytes, executable, hfile⟩, rfl, hextension⟩
    refine ⟨⟨names, Node.mem_filePlaces_iff.2 ⟨⟨bytes, executable, ?_⟩, fun _ _ => rfl⟩, rfl⟩, hextension⟩
    exact (hat names).symm.trans hfile

/-- **Every compiled document is listed once.** -/
theorem nodup_compiledDocuments (h : disk.LeadsTo output links here) (hproper : disk.root.IsProper) :
    (compiledDocuments disk output).Nodup := by
  obtain ⟨es, hes⟩ := h.directory
  rw [compiledDocuments_eq h hes]
  refine List.Pairwise.filter _ (List.pairwise_map.2 ?_)
  refine (Node.pairwise_filePlaces _ output _).imp_of_mem fun {names more} hnames hmore hlt heq => ?_
  have hordinary : ∀ place ∈ Node.filePlaces (fun _ _ => true) output (.directory es),
      ∀ n ∈ place, Path.IsOrdinary n := by
    intro place hplace
    obtain ⟨⟨bytes, executable, hfile⟩, -⟩ := Node.mem_filePlaces_iff.1 hplace
    exact hproper.of_at? hes place _ hfile
  -- Different names make different components.
  have hcomponents := congrArg Path.components heq
  rw [Path.components_down h.text_ne (hordinary names hnames),
    Path.components_down h.text_ne (hordinary more hmore)] at hcomponents
  have hsame := List.map_injective_iff.2 (fun _ _ => Path.Component.name.inj)
    (List.append_cancel_left hcomponents)
  exact List.lt_irrefl more (hsame ▸ hlt)

/-- **Compiled documents differ** also as seen from the root. -/
theorem nodup_relativeTo_compiledDocuments {o : Path} (hroot : root.text ≠ "")
    (h : disk.LeadsTo (root.join o) links here) (hproper : disk.root.IsProper) :
    ((compiledDocuments disk (root.join o)).map fun p => p.relativeTo root).Nodup := by
  have hordinary : ∀ names, disk.HasFile (here ++ names) → ∀ n ∈ names, Path.IsOrdinary n := by
    rintro names ⟨bytes, executable, hfile⟩ n hn
    exact hproper _ _ hfile n (List.mem_append_right _ hn)
  refine (nodup_compiledDocuments h hproper).map_on fun p hp q hq heq => ?_
  obtain ⟨names, hnames, rfl, -⟩ := (mem_compiledDocuments_iff h).1 hp
  obtain ⟨more, hmore, rfl, -⟩ := (mem_compiledDocuments_iff h).1 hq
  rw [Path.eq_of_relativeTo_down hroot (hordinary names hnames) (hordinary more hmore) heq]

/-- **The compiled documents depend on the places of the files only.** -/
theorem compiledDocuments_congr (h : disk.LeadsTo output links here) (hgrows : disk.Grows after)
    (hfiles : ∀ names, after.HasFile (here ++ names) ↔ disk.HasFile (here ++ names)) :
    compiledDocuments after output = compiledDocuments disk output := by
  have h' := h.of_grows hgrows
  obtain ⟨es, hes⟩ := h.directory
  obtain ⟨es', hes'⟩ := h'.directory
  rw [compiledDocuments_eq h hes, compiledDocuments_eq h' hes']
  -- Places are listed in order, so it only matters which ones there are.
  have hplaces : Node.filePlaces (fun _ _ => true) output (.directory es') =
      Node.filePlaces (fun _ _ => true) output (.directory es) := by
    refine (Node.pairwise_filePlaces _ _ _).eq_of_mem_iff (Node.pairwise_filePlaces _ _ _) fun names => ?_
    have hsame := hfiles names
    unfold Disk.HasFile at hsame
    rw [Node.at?_append, Node.at?_append, hes, hes'] at hsame
    rw [Node.mem_filePlaces_iff, Node.mem_filePlaces_iff]
    exact and_congr_left' hsame
  rw [hplaces]

/-! ## Templates -/

/-- What there is when discovery gives templates. -/
theorem of_discover_eq_ok {sources : List Path} (hcurrent : disk.HasCurrent) (hproper : disk.root.IsProper)
    (h : discover disk root settings = .ok sources) :
    ∃ links here es selection, disk.LeadsTo root links here ∧ disk.root.at? here = some (.directory es) ∧
      Selection.read settings.paths.includes settings.paths.excludes = .ok selection ∧
      sources = ((found root settings (.directory es)).map fun v => Path.ofNames v.1).filter
        fun p => selection.accepts p.text := by
  by_cases hdirectory : disk.isDirectory root = true
  · obtain ⟨links, here, hleads⟩ := (Disk.isDirectory_iff hcurrent).1 hdirectory
    obtain ⟨es, hes⟩ := hleads.directory
    cases hselection : Selection.read settings.paths.includes settings.paths.excludes with
    | error bad =>
      rw [discover, if_pos hdirectory, hselection] at h
      exact absurd h (by simp [Except.mapError, bind, Except.bind])
    | ok selection =>
      rw [discover_eq (hleads.node_eq hes) rfl (hproper.of_at? hes) hselection] at h
      exact ⟨links, here, es, selection, hleads, hes, rfl, (Except.ok.inj h).symm⟩
  · rw [discover, if_neg hdirectory] at h
    exact absurd h (by simp)

/-- **The templates depend on the places of accepted files only.** -/
theorem discover_congr (htree : disk.node root = .ok tree) (htree' : after.node root = .ok tree')
    (hdirectory : tree.isDirectory = true) (hdirectory' : tree'.isDirectory = true)
    (hproper : tree.IsProper) (hproper' : tree'.IsProper)
    (hselection : Selection.read settings.paths.includes settings.paths.excludes = .ok selection)
    (hfiles : ∀ names, selection.accepts (Path.ofNames names).text = true →
      ((∃ bytes executable, tree'.at? names = some (.file bytes executable)) ↔
        ∃ bytes executable, tree.at? names = some (.file bytes executable))) :
    discover after root settings = discover disk root settings := by
  -- The globs look at the path alone, so they can select among the places before the paths are made.
  have hplaces : ∀ tree : Node, (((found root settings tree).map fun v => Path.ofNames v.1).filter
      fun p => selection.accepts p.text) =
        ((Node.filePlaces (settings.enters (Layout.ofSettings root settings.paths)) root tree).filter
          fun names => selection.accepts (Path.ofNames names).text).map Path.ofNames := by
    intro tree
    rw [found, Node.filePlaces, List.filter_map, List.filter_map, List.map_map]
    rfl
  rw [discover_eq htree hdirectory hproper hselection, discover_eq htree' hdirectory' hproper' hselection,
    hplaces, hplaces]
  refine congrArg (fun places => Except.ok (List.map Path.ofNames places)) ?_
  refine List.Pairwise.eq_of_mem_iff ((Node.pairwise_filePlaces _ _ _).filter _)
    ((Node.pairwise_filePlaces _ _ _).filter _) fun names => ?_
  rw [List.mem_filter, List.mem_filter, Node.mem_filePlaces_iff, Node.mem_filePlaces_iff]
  exact and_congr_left fun haccepted => and_congr_left' (hfiles names haccepted)

end MailTemplate
