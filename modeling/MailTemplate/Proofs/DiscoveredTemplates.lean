import MailTemplate.Proofs.PathDescents
import MailTemplate.Proofs.TreeWalks
import MailTemplate.Proofs.WatchedPaths

/-!
# What is discovered

Discovery walks through the tree of a project, prunes directories while it walks, and looks at the path of
every file that it comes to.  What it gives can be said without a walk: the files that the selection
accepts, less those that are in a directory which is not entered.  They come in the order of their paths,
component by component, since a walk goes through every directory in the order of its names, in whatever
order the directory lists them.

## Main definitions

* `IsTemplate` — a template of a tree, said without a walk.

## Main results

* `Node.reaches_iff_of_file` — a walk comes to a file if all directories on the way are entered.
* `discover_eq_templates` — discovery gives all templates in order.
-/

namespace MailTemplate

variable {enters : Path → String → Bool} {path root : Path} {names : List String}
  {node inner tree : Node} {bytes : Bytes} {executable : Bool} {settings : Settings}
  {selection : Selection}

namespace Node

theorem isDirectory_of_at?_cons {name : String} (h : node.at? (name :: names) = some inner) :
    node.isDirectory = true := by
  cases node with
  | file => exact absurd h (by simp [at?])
  | link => exact absurd h (by simp [at?])
  | directory => rfl

/-- **A walk comes to a file** exactly if all directories on the way to it are entered. -/
theorem reaches_iff_of_file :
    Reaches enters path names node (file bytes executable) ↔
      node.at? names = some (file bytes executable) ∧
        ∀ x ∈ path.way names.dropLast, enters x.1 x.2 = true := by
  induction names generalizing path node with
  | nil =>
    rw [Reaches, at?, Option.some_inj, eq_comm]
    exact (and_iff_left (List.forall_mem_nil _)).symm
  | cons name names ih =>
    rw [at?_cons, Option.bind_eq_some_iff, Reaches]
    simp only [ih]
    cases names with
    | nil =>
      -- The entry of that name is the file itself, so nothing else is entered.
      constructor
      · rintro ⟨next, hnext, -, hat, -⟩
        exact ⟨⟨next, hnext, hat⟩, List.forall_mem_nil _⟩
      · rintro ⟨⟨next, hnext, hat⟩, -⟩
        refine ⟨next, hnext, ?_, hat, List.forall_mem_nil _⟩
        obtain rfl := Option.some.inj hat
        intro hdirectory
        exact Bool.noConfusion hdirectory
    | cons second names =>
      rw [List.dropLast_cons_of_ne_nil (List.cons_ne_nil _ _), Path.way, List.forall_mem_cons]
      constructor
      · rintro ⟨next, hnext, henters, hat, hway⟩
        exact ⟨⟨next, hnext, hat⟩, henters (isDirectory_of_at?_cons hat), hway⟩
      · rintro ⟨⟨next, hnext, hat⟩, henters, hway⟩
        exact ⟨next, hnext, fun _ => henters, hat, hway⟩

end Node

/-! ## Templates -/

/-- A template of a tree is a file that the selection accepts, in a directory to which no hidden and no
ignored directory leads, and neither of the directories for results. -/
structure IsTemplate (root : Path) (settings : Settings) (selection : Selection) (tree : Node)
    (names : List String) : Prop where
  /-- It is a file. -/
  file : ∃ bytes executable, tree.at? names = some (.file bytes executable)
  /-- Its path is accepted. -/
  accepted : selection.accepts (Path.ofNames names).text = true
  /-- No directory above it is hidden or ignored. -/
  shown : ∀ name ∈ names.dropLast, settings.paths.Shows name
  /-- None is the directory for compiled documents. -/
  off_output : ∀ x ∈ root.way names.dropLast, x.1.alike (root.child settings.paths.output) = false
  /-- None is the directory for exports. -/
  off_exports : ∀ x ∈ root.way names.dropLast, x.1.alike (root.child settings.paths.exports) = false

/-- The files that discovery comes to, with the names that lead to them. -/
def found (root : Path) (settings : Settings) (tree : Node) : List (List String × Node) :=
  (tree.visits (settings.enters (Layout.ofSettings root settings.paths)) root).filter fun v => v.2.isFile

theorem isTemplate_iff :
    IsTemplate root settings selection tree names ↔
      (∃ inner, (names, inner) ∈ found root settings tree) ∧
        selection.accepts (Path.ofNames names).text = true := by
  have hreach : ∀ bytes executable,
      (names, Node.file bytes executable) ∈ found root settings tree ↔
        tree.at? names = some (.file bytes executable) ∧
          ((∀ x ∈ root.way names.dropLast, x.1.alike (root.child settings.paths.output) = false) ∧
            ∀ x ∈ root.way names.dropLast, x.1.alike (root.child settings.paths.exports) = false) ∧
              ∀ name ∈ names.dropLast, settings.paths.Shows name := by
    intro bytes executable
    rw [found, List.mem_filter, Node.mem_visits_iff, Node.reaches_iff_of_file,
      Settings.forall_enters_iff]
    exact and_iff_left rfl
  constructor
  · rintro ⟨⟨bytes, executable, hat⟩, haccepted, hshown, houtput, hexports⟩
    exact ⟨⟨_, (hreach bytes executable).2 ⟨hat, ⟨houtput, hexports⟩, hshown⟩⟩, haccepted⟩
  · rintro ⟨⟨inner, hmem⟩, haccepted⟩
    cases inner with
    | file bytes executable =>
      obtain ⟨hat, ⟨houtput, hexports⟩, hshown⟩ := (hreach bytes executable).1 hmem
      exact ⟨⟨bytes, executable, hat⟩, haccepted, hshown, houtput, hexports⟩
    | link => exact absurd (List.mem_filter.1 hmem).2 Bool.false_ne_true
    | directory => exact absurd (List.mem_filter.1 hmem).2 Bool.false_ne_true

/-- What discovery comes to lies below the root. -/
theorem names_of_mem_found (hproper : tree.IsProper) (hdirectory : tree.isDirectory = true)
    (h : (names, inner) ∈ found root settings tree) :
    (∀ n ∈ names, Path.IsOrdinary n) ∧ names ≠ [] := by
  obtain ⟨hvisit, hfile⟩ := List.mem_filter.1 h
  have hat : tree.at? names = some inner := by
    cases inner with
    | file bytes executable => exact (Node.reaches_iff_of_file.1 (Node.mem_visits_iff.1 hvisit)).1
    | link => exact absurd hfile Bool.false_ne_true
    | directory => exact absurd hfile Bool.false_ne_true
  refine ⟨hproper names inner hat, ?_⟩
  rintro rfl
  obtain rfl := Option.some.inj hat
  cases tree with
  | file => exact Bool.false_ne_true hdirectory
  | link => exact Bool.false_ne_true hdirectory
  | directory => exact Bool.false_ne_true hfile

theorem Disk.text_ne_of_node {disk : Disk} (h : disk.node path = .ok node) : path.text ≠ "" := by
  intro htext
  rw [Disk.node, Disk.resolve, if_pos htext] at h
  exact absurd h (by simp [bind, Except.bind])

/-- What discovery gives, by the names that lead to it. -/
theorem discover_eq {disk : Disk} (htree : disk.node root = .ok tree)
    (hdirectory : tree.isDirectory = true) (hproper : tree.IsProper)
    (hselection : Selection.read settings.paths.includes settings.paths.excludes = .ok selection) :
    discover disk root settings =
      .ok (((found root settings tree).map fun v => Path.ofNames v.1).filter
        fun p => selection.accepts p.text) := by
  have hroot : disk.isDirectory root = true := by simp [Disk.isDirectory, htree, hdirectory]
  -- The paths of the walk, as seen from the root, are the names.
  have hnames : ((disk.walk root (settings.enters (Layout.ofSettings root settings.paths))).filter
      fun x => x.2.isFile).map (fun x => x.1.relativeTo root) =
        (found root settings tree).map fun v => (Path.ofNames v.1).text := by
    rw [Disk.walk, htree]
    dsimp only
    rw [Node.walk, List.filter_map, List.map_map]
    refine List.map_congr_left fun v hv => ?_
    obtain ⟨hordinary, hne⟩ := names_of_mem_found hproper hdirectory hv
    exact Path.relativeTo_down (Disk.text_ne_of_node htree) hordinary hne
  rw [discover, if_pos hroot, hselection]
  show Except.ok (((((disk.walk root (settings.enters (Layout.ofSettings root settings.paths))).filter
    fun x => x.2.isFile).map fun x => x.1.relativeTo root).filter selection.accepts).map Path.mk) = _
  rw [hnames, List.filter_map, List.map_map, List.filter_map]
  rfl

/-- **Discovery gives all templates of a project and nothing else,** in the order of their paths and every
one of them once. -/
theorem discover_eq_templates (disk : Disk) (root : Path) (settings : Settings) (selection : Selection)
    (tree : Node) (htree : disk.node root = .ok tree) (hdirectory : tree.isDirectory = true)
    (hproper : tree.IsProper)
    (hselection : Selection.read settings.paths.includes settings.paths.excludes = .ok selection) :
    ∃ templates, discover disk root settings = .ok templates ∧
      (∀ p, p ∈ templates ↔
        ∃ names, IsTemplate root settings selection tree names ∧ p = Path.ofNames names) ∧
      templates.Pairwise Path.Precedes ∧ templates.Nodup := by
  refine ⟨_, discover_eq htree hdirectory hproper hselection, ?_⟩
  have hordered : (((found root settings tree).map fun v => Path.ofNames v.1).filter
      fun p => selection.accepts p.text).Pairwise Path.Precedes := by
    apply List.Pairwise.filter
    rw [List.pairwise_map]
    apply List.Pairwise.imp_of_mem _ (List.Pairwise.filter _ (Node.pairwise_visits _ root tree))
    intro v w hv hw hlt
    obtain ⟨hv, hv_ne⟩ := names_of_mem_found hproper hdirectory hv
    obtain ⟨hw, hw_ne⟩ := names_of_mem_found hproper hdirectory hw
    exact (Path.precedes_ofNames_iff hv hv_ne hw hw_ne).2 hlt
  have hne : ∀ p q : Path, p.Precedes q → p ≠ q := by
    rintro p _ hlt rfl
    exact p.not_precedes_self hlt
  refine ⟨?_, hordered, hordered.imp (hne _ _)⟩
  intro p
  rw [List.mem_filter, List.mem_map]
  constructor
  · rintro ⟨⟨⟨names, inner⟩, hmem, rfl⟩, haccepted⟩
    exact ⟨names, isTemplate_iff.2 ⟨⟨inner, hmem⟩, haccepted⟩, rfl⟩
  · rintro ⟨names, htemplate, rfl⟩
    obtain ⟨⟨inner, hmem⟩, haccepted⟩ := isTemplate_iff.1 htemplate
    exact ⟨⟨_, hmem, rfl⟩, haccepted⟩

/-- A project whose directories list their entries in no order. -/
def listedAnyhow : Node :=
  .directory [("b.mjml", .file [] false), ("dist", .directory [("copy.mjml", .file [] false)]),
    ("src", .directory [("a.x.mjml", .file [] false), (".git", .directory [("c.mjml", .file [] false)]),
      ("a", .directory [("c.mjml", .file [] true), ("b.mjml", .link ⟨"c.mjml"⟩)])]),
    ("note.txt", .file [] false)]

/-- What `src/a` holds comes before `src/a.x.mjml`. -/
example : (discover ⟨.directory [("p", listedAnyhow)], []⟩ ⟨"/p"⟩ {}).toOption =
    some [⟨"b.mjml"⟩, ⟨"src/a/c.mjml"⟩, ⟨"src/a.x.mjml"⟩] := by decide +kernel

/-- Nothing is found in a hidden directory or in the one for compiled documents. -/
theorem discover_eq_templates_of_listedAnyhow :
    let disk : Disk := ⟨.directory [("p", listedAnyhow)], []⟩
    (disk.node ⟨"/p"⟩ = .ok listedAnyhow ∧ listedAnyhow.isDirectory = true ∧ listedAnyhow.IsProper) ∧
      ∃ selection, Selection.read ({} : PathSettings).includes ({} : PathSettings).excludes =
          .ok selection ∧
        ∃ templates, discover disk ⟨"/p"⟩ {} = .ok templates ∧
          (∀ p, p ∈ templates ↔
            ∃ names, IsTemplate ⟨"/p"⟩ {} selection listedAnyhow names ∧ p = Path.ofNames names) ∧
          templates.Pairwise Path.Precedes ∧ templates.Nodup := by
  have hproper : listedAnyhow.IsProper := by decide +kernel
  have hread : (Selection.read ({} : PathSettings).includes ({} : PathSettings).excludes).isOk := by
    decide +kernel
  cases hselection : Selection.read ({} : PathSettings).includes ({} : PathSettings).excludes with
  | error bad =>
    rw [hselection] at hread
    exact Bool.noConfusion hread
  | ok selection =>
    exact ⟨⟨rfl, rfl, hproper⟩, selection, rfl,
      discover_eq_templates ⟨.directory [("p", listedAnyhow)], []⟩ ⟨"/p"⟩ {} selection listedAnyhow rfl rfl
        hproper hselection⟩

end MailTemplate
