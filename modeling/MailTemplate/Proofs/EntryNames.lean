import MailTemplate.Proofs.BundleContents
import MailTemplate.Proofs.OutputClaims

/-!
# Names in archives

An archive is unpacked by the names of its entries, so they should be relative, hold no empty names and no
two dots, and lead to different places.  The entries of a single tree without a label always do, and so do
the files of the project root: their names are the names on the disk.

A tree with a label stands under the path of its directory as seen from the project root.  If this path is
empty or has two dots, the names of its entries are not proper.  If the directory is at or below another one
that is archived under its label, then without links every entry of the one is an entry of the other as
well, under the same name.  These are all the ways in which an archive goes wrong.

## Main definitions

* `Bundle.IsEntryName`, `Bundle.FitToUnpack` — names that can be unpacked.
* `Bundle.labelledDirectories` — the directories that an archive has under their labels.
* `Bundle.LabelsLieApart` — where they have to be.

## Main results

* `Bundle.names_fit_iff` — the names of an archive are proper and differ exactly if its labelled directories
  lie below the project root and none of them at or below another one.
* `Bundle.components_packed_twice` — a directory that is both components and source root is packed twice.
-/

namespace MailTemplate

namespace Path

variable {p root rel : Path} {names more : List String}

/-! ## Paths as seen from the root -/

theorem intercalate_append (hnames : names ≠ []) (hmore : more ≠ []) :
    String.intercalate "/" (names ++ more) =
      String.intercalate "/" names ++ "/" ++ String.intercalate "/" more := by
  have htext (names : List String) : String.intercalate "/" names =
      String.ofList (Text.joinWith ['/'] (names.map String.toList)) := congrArg text (ofNames_eq names)
  rw [htext, htext names, htext more, List.map_append,
    Text.joinWith_append (by simpa using hnames) (by simpa using hmore), String.ofList_append,
    String.ofList_append, String.append_assoc]

/-- Below the front of a path there are names, or the way leads up again. -/
theorem mem_inner_cases {c : Component} (h : c ∈ p.inner) :
    c = .parent ∨ ∃ name, c = .name name ∧ IsOrdinary name := by
  obtain ⟨segment, hsegment, hc⟩ := List.mem_filterMap.1 h
  have hslash := not_mem_of_mem_segments hsegment
  unfold component? at hc
  split at hc
  · exact absurd hc (by simp)
  next htrivial =>
  split at hc
  · exact .inl (Option.some.inj hc).symm
  next hparent =>
  refine .inr ⟨String.ofList segment, (Option.some.inj hc).symm, ?_, ?_⟩
  · rw [String.toList_ofList, component?, if_neg htrivial, if_neg hparent]
  · rwa [String.toList_ofList]

theorem exists_names_of_isPlace (h : p.IsPlace) :
    ∃ names, names ≠ [] ∧ (∀ n ∈ names, IsOrdinary n) ∧ p.components = names.map .name := by
  have hname : ∀ c ∈ p.components, ∃ name, c = .name name ∧ IsOrdinary name := by
    intro c hc
    rcases mem_inner_cases (h.inner_eq ▸ hc) with rfl | hname
    · obtain ⟨name, hparent⟩ := h.names _ hc
      exact absurd hparent (by simp)
    · exact hname
  refine ⟨p.components.map Component.text, by simpa using h.ne_nil, List.forall_mem_map.2 fun c hc => ?_, ?_⟩
  · obtain ⟨name, rfl, hordinary⟩ := hname c hc
    exact hordinary
  · rw [List.map_map]
    refine ((List.map_congr_left fun c hc => ?_).trans (List.map_id _)).symm
    obtain ⟨name, rfl, -⟩ := hname c hc
    rfl

/-- A relative path as seen from where it was joined has its own components, but for a dot in front. -/
theorem components_strip_join (hroot : root.text ≠ "") (hrel : rel.isAbsolute = false) :
    ((root.join rel).strip root).components = rel.inner := by
  have hcomponents := components_join hroot hrel
  rw [components_strip hroot (text_join_ne hroot hrel)
    (startsWith_iff.2 (hcomponents ▸ List.prefix_append _ _)), hcomponents, List.drop_left]

theorem isAbsolute_join_of_relative (hp : p.isAbsolute = false) (hrel : rel.isAbsolute = false) :
    (p.join rel).isAbsolute = false := by
  by_cases htext : p.text = ""
  · obtain ⟨text⟩ := p
    obtain rfl : text = "" := htext
    rw [empty_join, hrel]
  · rw [isAbsolute_join_eq htext hrel, hp]

end Path

namespace Bundle

open Disk (LeadsTo)

/-! ## Names that can be unpacked -/

/-- A name that an entry can be unpacked by: it is relative and has neither empty segments nor two dots. -/
structure IsEntryName (name : String) : Prop where
  /-- It does not begin at the root of the file system. -/
  relative : (Path.mk name).isAbsolute = false
  /-- Its segments are no gaps and do not lead up. -/
  segments : ∀ s ∈ (Path.mk name).segments, s ≠ [] ∧ s ≠ ['.', '.']

/-- Names that can be unpacked together: no two lead to one place. -/
structure FitToUnpack (names : List String) : Prop where
  /-- Each can be unpacked. -/
  proper : ∀ name ∈ names, IsEntryName name
  /-- They lead to different places. -/
  distinct : names.Pairwise fun a b => (Path.mk a).alike ⟨b⟩ = false

section Names

variable {names more : List String} {name : String}

theorem isEntryName_ofNames (hnames : ∀ n ∈ names, Path.IsOrdinary n) (hne : names ≠ []) :
    IsEntryName (Path.ofNames names).text := by
  refine ⟨(Path.isPlace_ofNames hnames hne).isAbsolute_eq, ?_⟩
  show ∀ s ∈ (Path.ofNames names).segments, s ≠ [] ∧ s ≠ ['.', '.']
  rw [Path.segments_ofNames (fun n hn => (hnames n hn).noSlash) hne]
  refine List.forall_mem_map.2 fun n hn => ⟨fun hnil => ?_, fun hparent => ?_⟩
  · exact (hnames n hn).ne_empty (String.toList_inj.1 hnil)
  · exact (hnames n hn).ne_parent (String.toList_inj.1 (hparent.trans (by decide)))

theorem alike_ofNames_iff (hnames : ∀ n ∈ names, Path.IsOrdinary n) (hne : names ≠ [])
    (hmore : ∀ n ∈ more, Path.IsOrdinary n) (hmore_ne : more ≠ []) :
    (Path.ofNames names).alike (.ofNames more) = true ↔ names = more := by
  rw [Path.alike_iff, Path.components_ofNames hnames hne, Path.components_ofNames hmore hmore_ne]
  exact List.map_inj_right fun _ _ => Path.Component.name.inj

end Names

/-! ## The entries of a tree -/

/-- The names of the entries of a member. -/
def Member.names (disk : Disk) (m : Member) : List String := (m.sources disk).map Source.name

/-- An archive has entries of what is below a directory. -/
def HasEntries (disk : Disk) (directory : Path) : Prop := (Member.tree directory none).sources disk ≠ []

/-- The member that a directory is under its label. -/
def labelled (root directory : Path) : Member := .tree directory (some (directory.relativeTo root))

section Trees

variable {disk : Disk} {root directory : Path} {links : Nat} {here : List String} {tree : Node}

theorem isDirectory_of_hasEntries (h : HasEntries disk directory) : disk.isDirectory directory = true := by
  unfold HasEntries Member.sources Disk.walk at h
  dsimp only at h
  rw [Disk.isDirectory]
  cases hnode : disk.node directory with
  | error => rw [hnode] at h; exact absurd rfl h
  | ok node =>
    rw [hnode] at h
    cases node with
    | directory => rfl
    | file => exact absurd rfl h
    | link => exact absurd rfl h

/-- What an archive has of a directory. -/
theorem exists_places (hcurrent : disk.HasCurrent) (hproper : disk.root.IsProper)
    (h : disk.isDirectory directory = true) :
    ∃ links here es, disk.LeadsTo directory links here ∧ disk.root.at? here = some (.directory es) ∧
      (Node.directory es).IsProper ∧ ∀ label, (Member.tree directory label).names disk =
        (placesBelow directory (.directory es)).map fun v => entryName label v.1 := by
  obtain ⟨links, here, hleads⟩ := (Disk.isDirectory_iff hcurrent).1 h
  obtain ⟨es, hes⟩ := hleads.directory
  have hinside := hproper.of_at? hes
  refine ⟨links, here, es, hleads, hes, hinside, fun label => ?_⟩
  rw [Member.names, sources_tree hleads hes hinside, List.map_map]
  rfl

/-- With a label that is a path of names, the entries are called by these names and the names on the disk. -/
theorem entryName_ofNames {names front : List String} (hnames : names ≠ []) :
    entryName none names = (Path.ofNames names).text ∧ (front ≠ [] →
      entryName (some (String.intercalate "/" front)) names = (Path.ofNames (front ++ names)).text) := by
  refine ⟨rfl, fun hfront => ?_⟩
  rw [Path.ofNames, Path.intercalate_append hfront hnames]
  rfl

/-- Names of places below a directory, behind names in front of them, lead to different places. -/
theorem pairwise_ofNames {front : List String} {es : List (String × Node)}
    (hfront : ∀ n ∈ front, Path.IsOrdinary n) (hproper : (Node.directory es).IsProper) :
    ((placesBelow directory (.directory es)).map fun v => (Path.ofNames (front ++ v.1)).text).Pairwise
      fun a b => (Path.mk a).alike ⟨b⟩ = false := by
  rw [List.pairwise_map]
  refine (pairwise_placesBelow directory _).imp_of_mem fun {v w} hv hw hlt => ?_
  obtain ⟨hne, hat, -⟩ := mem_placesBelow_iff.1 (show (v.1, v.2) ∈ _ from hv)
  obtain ⟨hne', hat', -⟩ := mem_placesBelow_iff.1 (show (w.1, w.2) ∈ _ from hw)
  refine Bool.eq_false_iff.2 fun halike => ?_
  have hsame := (alike_ofNames_iff (List.forall_mem_append.2 ⟨hfront, hproper _ _ hat⟩) (by simp [hne])
    (List.forall_mem_append.2 ⟨hfront, hproper _ _ hat'⟩) (by simp [hne'])).1 halike
  rw [List.append_cancel_left hsame] at hlt
  exact absurd hlt (List.lt_irrefl _)

end Trees

/-! ## Trees under their labels -/

section Labels

variable {disk : Disk} {root rel directory other : Path} {links : Nat} {here front front' : List String}
  {tree : Node}

theorem relativeTo_join (hroot : root.text ≠ "") (hrel : rel.isAbsolute = false) :
    (root.join rel).relativeTo root = String.intercalate "/" (rel.inner.map Path.Component.text) := by
  rw [Path.relativeTo, Path.components_strip_join hroot hrel]

/-- A directory of a project whose path from the root consists of names stands at the place of these names,
and its entries are called by them. -/
structure StandsBelow (disk : Disk) (root directory : Path) (here front : List String)
    (es : List (String × Node)) : Prop where
  /-- There is a name. -/
  ne_nil : front ≠ []
  /-- The names are names. -/
  ordinary : ∀ n ∈ front, Path.IsOrdinary n
  /-- The path of the directory goes through them. -/
  components : directory.components = root.components ++ front.map .name
  /-- The directory is at the place of the names. -/
  at_eq : disk.root.at? (here ++ front) = some (.directory es)
  /-- What is in it has names. -/
  proper : (Node.directory es).IsProper
  /-- The entries have the names in front of theirs. -/
  names : (labelled root directory).names disk =
    (placesBelow directory (.directory es)).map fun v => (Path.ofNames (front ++ v.1)).text

theorem Project.exists_standsBelow (h : Project root links here tree disk) (hrel : rel.isAbsolute = false)
    (hdirectory : disk.isDirectory (root.join rel) = true) (hplace : ((root.join rel).strip root).IsPlace) :
    ∃ front es, StandsBelow disk root (root.join rel) here front es := by
  have hroot := h.leads.text_ne
  obtain ⟨front, hne, hordinary, hfront⟩ := Path.exists_names_of_isPlace hplace
  rw [Path.components_strip_join hroot hrel] at hfront
  obtain ⟨links', there, es, hleads, hes, hinside, hnames⟩ := exists_places h.current h.proper hdirectory
  obtain rfl := h.leads.place_join hleads hrel hfront fun below _ target hlink => by
    rw [h.at?_append] at hlink
    exact h.noLink below target hlink
  refine ⟨front, es, hne, hordinary, ?_, hes, hinside, ?_⟩
  · rw [Path.components_join hroot hrel, hfront]
  · have hlabel : (front.map Path.Component.name).map Path.Component.text = front := by
      rw [List.map_map]
      exact List.map_id front
    rw [labelled, hnames, relativeTo_join hroot hrel, hfront, hlabel]
    refine List.map_congr_left fun v hv => ?_
    obtain ⟨hv_ne, -⟩ := mem_placesBelow_iff.1 (show (v.1, v.2) ∈ _ from hv)
    exact (entryName_ofNames hv_ne).2 hne

/-- **Entries that can be unpacked** stand under a path of names. -/
theorem Project.isPlace_of_names (h : Project root links here tree disk) (hrel : rel.isAbsolute = false)
    (hentries : HasEntries disk (root.join rel))
    (hproper : ∀ name ∈ (labelled root (root.join rel)).names disk, IsEntryName name) :
    ((root.join rel).strip root).IsPlace := by
  have hroot := h.leads.text_ne
  obtain ⟨-, -, es, -, -, hinside, hnames⟩ :=
    exists_places h.current h.proper (isDirectory_of_hasEntries hentries)
  -- One entry is enough to tell what is wrong with the label.
  have hplaces : placesBelow (root.join rel) (.directory es) ≠ [] := by
    intro hnil
    have hnone := hnames none
    rw [hnil, List.map_nil, Member.names, List.map_eq_nil_iff] at hnone
    exact hentries hnone
  obtain ⟨⟨names, node⟩, hv⟩ := List.exists_mem_of_ne_nil _ hplaces
  obtain ⟨hne, hat, -⟩ := mem_placesBelow_iff.1 hv
  have hentry : IsEntryName (entryName (some ((root.join rel).relativeTo root)) names) := by
    apply hproper
    rw [labelled, hnames]
    exact List.mem_map.2 ⟨(names, node), hv, rfl⟩
  rw [relativeTo_join hroot hrel] at hentry
  have hinner : rel.inner ≠ [] := by
    intro hnil
    rw [hnil] at hentry
    exact absurd hentry.relative (by simp [entryName, Path.isAbsolute])
  refine ⟨by rwa [Path.components_strip_join hroot hrel], fun c hc => ?_⟩
  rw [Path.components_strip_join hroot hrel] at hc
  rcases Path.mem_inner_cases hc with rfl | ⟨name, rfl, -⟩
  · have hslash : ∀ n ∈ rel.inner.map Path.Component.text ++ names, '/' ∉ n.toList := by
      refine List.forall_mem_append.2 ⟨List.forall_mem_map.2 fun c hc => ?_, fun n hn => ?_⟩
      · rcases Path.mem_inner_cases hc with rfl | ⟨name, rfl, hname⟩
        · decide
        · exact hname.noSlash
      · exact (hinside _ _ hat n hn).noSlash
    have hsegments := hentry.segments
    rw [(entryName_ofNames hne).2 (by simpa using hinner)] at hsegments
    have hsegments : ∀ s ∈ (Path.ofNames (rel.inner.map Path.Component.text ++ names)).segments,
        s ≠ [] ∧ s ≠ ['.', '.'] := hsegments
    rw [Path.segments_ofNames hslash (by simp [hne])] at hsegments
    refine absurd rfl (hsegments ['.', '.'] ?_).2
    exact List.mem_map.2 ⟨"..", List.mem_append_left _ (List.mem_map.2 ⟨_, hc, rfl⟩), by decide⟩
  · exact ⟨name, rfl⟩

theorem names_ne_nil (h : HasEntries disk directory) : (labelled root directory).names disk ≠ [] := by
  rw [labelled, Member.names, sources_tree_some, List.map_map]
  exact fun hnil => h (List.map_eq_nil_iff.1 hnil)

theorem hasEntries_of_mem {name : String} (h : name ∈ (labelled root directory).names disk) :
    HasEntries disk directory := by
  intro hnil
  rw [labelled, Member.names, sources_tree_some, hnil] at h
  exact absurd h List.not_mem_nil

variable {es es' : List (String × Node)}

theorem StandsBelow.exists_of_mem (h : StandsBelow disk root directory here front es) {name : String}
    (hname : name ∈ (labelled root directory).names disk) : ∃ names node,
      (names, node) ∈ placesBelow directory (.directory es) ∧ (∀ n ∈ front ++ names, Path.IsOrdinary n) ∧
        name = (Path.ofNames (front ++ names)).text := by
  rw [h.names] at hname
  obtain ⟨⟨names, node⟩, hv, rfl⟩ := List.mem_map.1 hname
  obtain ⟨-, hat, -⟩ := mem_placesBelow_iff.1 hv
  exact ⟨names, node, hv, List.forall_mem_append.2 ⟨h.ordinary, h.proper _ _ hat⟩, rfl⟩

/-- **Its entries can be unpacked.** -/
theorem StandsBelow.fitToUnpack (h : StandsBelow disk root directory here front es) :
    FitToUnpack ((labelled root directory).names disk) := by
  refine ⟨fun name hname => ?_, ?_⟩
  · obtain ⟨names, -, -, hordinary, rfl⟩ := h.exists_of_mem hname
    exact isEntryName_ofNames hordinary (by simp [h.ne_nil])
  · rw [h.names]
    exact pairwise_ofNames h.ordinary h.proper

/-- Of two directories one of which is at or below the other, the one has entries of the other. -/
theorem StandsBelow.exists_common (h : StandsBelow disk root directory here front es)
    (h' : StandsBelow disk root other here front' es') (hstarts : directory.startsWith other = true)
    (hentries : (labelled root directory).names disk ≠ []) :
    ∃ name, name ∈ (labelled root directory).names disk ∧ name ∈ (labelled root other).names disk := by
  obtain ⟨name, hname⟩ := List.exists_mem_of_ne_nil _ hentries
  obtain ⟨names, node, hv, -, rfl⟩ := h.exists_of_mem hname
  refine ⟨_, hname, ?_⟩
  -- The names of the one are those of the other and some more, which are on the way to the entry.
  rw [Path.startsWith_iff, h.components, h'.components, List.prefix_append_right_inj,
    List.prefix_map_iff_of_injective fun _ _ => Path.Component.name.inj] at hstarts
  obtain ⟨rest, rfl⟩ := hstarts
  obtain ⟨hne, hat, hkind⟩ := mem_placesBelow_iff.1 hv
  rw [h'.names, List.append_assoc]
  refine List.mem_map.2 ⟨(rest ++ names, node), mem_placesBelow_iff.2 ⟨by simp [hne], ?_, hkind⟩, rfl⟩
  have hes := h.at_eq
  rw [← List.append_assoc, Node.at?_append, h'.at_eq, Option.bind_some] at hes
  rw [Node.at?_append, hes, Option.bind_some]
  exact hat

/-- Directories that are not at or below each other have no entry in common. -/
theorem StandsBelow.alike_eq (h : StandsBelow disk root directory here front es)
    (h' : StandsBelow disk root other here front' es') (hbelow : directory.startsWith other = false)
    (habove : other.startsWith directory = false) :
    ∀ a ∈ (labelled root directory).names disk, ∀ b ∈ (labelled root other).names disk,
      (Path.mk a).alike ⟨b⟩ = false := by
  intro a ha b hb
  obtain ⟨names, -, -, hordinary, rfl⟩ := h.exists_of_mem ha
  obtain ⟨names', -, -, hordinary', rfl⟩ := h'.exists_of_mem hb
  refine Bool.eq_false_iff.2 fun halike => ?_
  have hsame := (alike_ofNames_iff hordinary (by simp [h.ne_nil]) hordinary' (by simp [h'.ne_nil])).1 halike
  have hcomparable := List.prefix_or_prefix_of_prefix (List.prefix_append front names)
    (hsame ▸ List.prefix_append front' names')
  have hstarts {d e : Path} {xs ys : List String} (hd : d.components = root.components ++ xs.map .name)
      (he : e.components = root.components ++ ys.map .name) (hfront : xs <+: ys) :
      e.startsWith d = true := by
    rw [Path.startsWith_iff, hd, he, List.prefix_append_right_inj]
    exact hfront.map _
  rcases hcomparable with hfront | hfront
  · exact absurd (hstarts h.components h'.components hfront) (by simp [habove])
  · exact absurd (hstarts h'.components h.components hfront) (by simp [hbelow])

end Labels

/-! ## The files of the root -/

section Files

variable {disk : Disk} {root : Path} {patterns : List String} {files : List Member}

/-- Names on the disk can be unpacked. -/
theorem fitToUnpack_of_pairwise {names : List String} (hnames : ∀ n ∈ names, Path.IsOrdinary n)
    (hordered : names.Pairwise (· < ·)) : FitToUnpack names := by
  have htext (name : String) : name = (Path.ofNames [name]).text := by
    rw [Path.ofNames, String.intercalate_singleton]
  refine ⟨fun name hname => ?_, hordered.imp_of_mem fun {a b} ha hb hlt => Bool.eq_false_iff.2 fun halike => ?_⟩
  · rw [htext name]
    exact isEntryName_ofNames (List.forall_mem_singleton.2 (hnames name hname)) (List.cons_ne_nil _ _)
  · rw [htext a, htext b] at halike
    have hsame := (alike_ofNames_iff (List.forall_mem_singleton.2 (hnames a ha)) (List.cons_ne_nil _ _)
      (List.forall_mem_singleton.2 (hnames b hb)) (List.cons_ne_nil _ _)).1 halike
    rw [(List.cons.inj hsame).1] at hlt
    exact String.lt_irrefl _ hlt

/-- The files of the root are called as they are on the disk. -/
theorem names_of_rootFiles (hcurrent : disk.HasCurrent) (hproper : disk.root.IsProper)
    (h : rootFiles disk root patterns = .ok files) :
    FitToUnpack (files.flatMap (Member.names disk)) ∧
      ∀ name ∈ files.flatMap (Member.names disk), Path.IsOrdinary name := by
  obtain ⟨links, here, hleads⟩ := exists_leadsTo_of_rootFiles hcurrent h
  obtain ⟨es, hes⟩ := hleads.directory
  rw [rootFiles_eq hleads hes] at h
  obtain ⟨globs, -, rfl⟩ := map_eq_ok_iff.1 h
  have hnames : (((fileNames es).filter fun name => globs.any (·.accepts false name)).map
      fun name => Member.file (root.child name) name).flatMap (Member.names disk) =
        (fileNames es).filter fun name => globs.any (·.accepts false name) := by
    rw [List.flatMap_map]
    exact List.flatMap_singleton' _
  have hordinary : ∀ name ∈ (fileNames es).filter fun name => globs.any (·.accepts false name),
      Path.IsOrdinary name := by
    intro name hname
    obtain ⟨node, hnode, -⟩ := mem_fileNames_iff.1 (List.mem_filter.1 hname).1
    exact hproper _ _ ((Node.at?_concat_eq hes).trans hnode) name (by simp)
  rw [hnames]
  exact ⟨fitToUnpack_of_pairwise hordinary ((pairwise_fileNames es).filter _), hordinary⟩

end Files

/-! ## Whole archives -/

/-- The directories that an archive has under their labels. -/
def labelledDirectories (layout : Layout) : ArchiveKind → List Path
  | .source => [layout.components, layout.sourceRoot]
  | .complete => packedDirectories layout
  | _ => []

/-- The labelled directories of an archive that have entries lie below the project root, and none of them is
at or below another one. -/
structure LabelsLieApart (disk : Disk) (layout : Layout) (kind : ArchiveKind) : Prop where
  /-- Names lead to each from the root. -/
  below : ∀ d ∈ labelledDirectories layout kind, HasEntries disk d → (d.strip layout.root).IsPlace
  /-- No two are nested. -/
  apart : (labelledDirectories layout kind).Pairwise fun d e => HasEntries disk d → HasEntries disk e →
    d.startsWith e = false ∧ e.startsWith d = false

/-- The directories of a project are configured by relative paths. -/
def AreRelative (settings : PathSettings) : Prop :=
  ∀ text ∈ [settings.output, settings.exports, settings.components, settings.sourceRoot],
    (Path.mk text).isAbsolute = false

instance (settings : PathSettings) : Decidable (AreRelative settings) :=
  inferInstanceAs (Decidable (∀ text ∈ _, _))

section Whole

variable {disk : Disk} {layout : Layout} {archive : ArchiveSettings} {settings : PathSettings}
  {kind : ArchiveKind} {root : Path} {links : Nat} {here : List String} {tree : Node}
  {members : List Member}

/-- **The members of an archive** are a single tree without a label, or the labelled directories and files
of the root. -/
theorem members_of_plan (h : plan disk layout archive kind = .ok (some members)) :
    (∃ d, members = [.tree d none] ∧ disk.isDirectory d = true ∧ labelledDirectories layout kind = []) ∨
    ∃ patterns files, rootFiles disk layout.root patterns = .ok files ∧
      members = ((labelledDirectories layout kind).filter disk.isDirectory).map (labelled layout.root) ++
        files := by
  have hbare {d : Path} (hd : bareTree disk d = some members) :
      members = [.tree d none] ∧ disk.isDirectory d = true := by
    unfold bareTree at hd
    split at hd
    · next hdirectory => exact ⟨(Option.some.inj hd).symm, hdirectory⟩
    · exact absurd hd (by simp)
  cases kind with
  | html => exact .inl ⟨_, (hbare (Except.ok.inj h)).1, (hbare (Except.ok.inj h)).2, rfl⟩
  | exportHtml => exact .inl ⟨_, (hbare (Except.ok.inj h)).1, (hbare (Except.ok.inj h)).2, rfl⟩
  | outlook => exact .inl ⟨_, (hbare (Except.ok.inj h)).1, (hbare (Except.ok.inj h)).2, rfl⟩
  | source =>
    rw [plan] at h
    cases hnamed : namedTrees disk layout.root [layout.components, layout.sourceRoot] with
    | nil => rw [hnamed] at h; exact absurd (Except.ok.inj h) (by simp)
    | cons tree trees =>
      rw [hnamed] at h
      obtain ⟨files, hfiles, hmembers⟩ := bind_eq_ok_iff.1 h
      obtain rfl := Option.some.inj (Except.ok.inj hmembers)
      exact .inr ⟨_, files, hfiles, by rw [← hnamed]; rfl⟩
  | complete =>
    obtain ⟨files, hfiles, hmembers⟩ := bind_eq_ok_iff.1 h
    obtain rfl := Option.some.inj (Except.ok.inj hmembers)
    exact .inr ⟨_, files, hfiles, rfl⟩

/-- What is configured by relative paths is reached from the root by relative paths. -/
theorem exists_join_of_labelled (hrelative : AreRelative settings) {d : Path}
    (hd : d ∈ labelledDirectories (Layout.ofSettings root settings) kind) :
    ∃ rel, rel.isAbsolute = false ∧ d = root.join rel := by
  have hclient (name : String) (hname : (Path.mk name).isAbsolute = false) :
      ∃ rel, rel.isAbsolute = false ∧ (Layout.ofSettings root settings).clientDirectory name = root.join rel :=
    ⟨_, Path.isAbsolute_join_of_relative (hrelative _ (by simp)) hname, Path.join_assoc _ _ _⟩
  have hpacked : ∀ d ∈ packedDirectories (Layout.ofSettings root settings),
      ∃ rel, rel.isAbsolute = false ∧ d = root.join rel := by
    simp only [packedDirectories, List.forall_mem_cons]
    exact ⟨⟨_, hrelative _ (by simp), rfl⟩, hclient _ (by decide), hclient _ (by decide),
      ⟨_, hrelative _ (by simp), rfl⟩, ⟨_, hrelative _ (by simp), rfl⟩, List.forall_mem_nil _⟩
  cases kind with
  | html => exact absurd hd List.not_mem_nil
  | exportHtml => exact absurd hd List.not_mem_nil
  | outlook => exact absurd hd List.not_mem_nil
  | source =>
    -- They are the last of the directories of the complete archive.
    exact hpacked d (List.mem_cons_of_mem _ (List.mem_cons_of_mem _ (List.mem_cons_of_mem _ hd)))
  | complete => exact hpacked d hd

theorem Project.standsBelow_of_labelled (h : Project root links here tree disk)
    (hrelative : AreRelative settings) {d : Path}
    (hd : d ∈ labelledDirectories (Layout.ofSettings root settings) kind) (hentries : HasEntries disk d)
    (hplace : (d.strip root).IsPlace) : ∃ front es, StandsBelow disk root d here front es := by
  obtain ⟨rel, hrel, rfl⟩ := exists_join_of_labelled hrelative hd
  exact h.exists_standsBelow hrel (isDirectory_of_hasEntries hentries) hplace

/-- **Labelled trees that lie apart** can be unpacked together. -/
theorem Project.fitToUnpack_trees (h : Project root links here tree disk) (hrelative : AreRelative settings)
    (hapart : LabelsLieApart disk (Layout.ofSettings root settings) kind) :
    FitToUnpack ((((labelledDirectories (Layout.ofSettings root settings) kind).filter
      disk.isDirectory).map (labelled root)).flatMap (Member.names disk)) := by
  have hstands : ∀ d ∈ labelledDirectories (Layout.ofSettings root settings) kind, HasEntries disk d →
      ∃ front es, StandsBelow disk root d here front es := fun d hd hentries =>
    h.standsBelow_of_labelled hrelative hd hentries (hapart.below d hd hentries)
  rw [List.flatMap_map]
  refine ⟨fun name hname => ?_, List.pairwise_flatMap.2 ⟨fun d hd => ?_, List.pairwise_filter.2 ?_⟩⟩
  · obtain ⟨d, hd, hname⟩ := List.mem_flatMap.1 hname
    obtain ⟨front, es, hstands⟩ := hstands d (List.mem_filter.1 hd).1 (hasEntries_of_mem hname)
    exact hstands.fitToUnpack.proper name hname
  · by_cases hentries : HasEntries disk d
    · obtain ⟨front, es, hstands⟩ := hstands d (List.mem_filter.1 hd).1 hentries
      exact hstands.fitToUnpack.distinct
    · rw [List.eq_nil_iff_forall_not_mem.2 fun name hname => hentries (hasEntries_of_mem hname)]
      exact .nil
  · refine hapart.apart.imp_of_mem fun {d e} hd he hboth _ _ a ha b hb => ?_
    have hdEntries := hasEntries_of_mem ha
    have heEntries := hasEntries_of_mem hb
    obtain ⟨_, _, hdStands⟩ := hstands d hd hdEntries
    obtain ⟨_, _, heStands⟩ := hstands e he heEntries
    obtain ⟨hbelow, habove⟩ := hboth hdEntries heEntries
    exact hdStands.alike_eq heStands hbelow habove a ha b hb

/-- Below a path of names no entry is called as a file of the root. -/
theorem Project.alike_file_eq (h : Project root links here tree disk) (hrelative : AreRelative settings)
    (hapart : LabelsLieApart disk (Layout.ofSettings root settings) kind) {a b : String}
    (ha : a ∈ (((labelledDirectories (Layout.ofSettings root settings) kind).filter
      disk.isDirectory).map (labelled root)).flatMap (Member.names disk)) (hb : Path.IsOrdinary b) :
    (Path.mk a).alike ⟨b⟩ = false := by
  obtain ⟨m, hm, ha⟩ := List.mem_flatMap.1 ha
  obtain ⟨d, hd, rfl⟩ := List.mem_map.1 hm
  have hlabelled := (List.mem_filter.1 hd).1
  have hentries := hasEntries_of_mem ha
  obtain ⟨front, es, hstands⟩ :=
    h.standsBelow_of_labelled hrelative hlabelled hentries (hapart.below d hlabelled hentries)
  obtain ⟨names, node, hv, hordinary, rfl⟩ := hstands.exists_of_mem ha
  obtain ⟨hne, -⟩ := mem_placesBelow_iff.1 hv
  have hfile : b = (Path.ofNames [b]).text := by rw [Path.ofNames, String.intercalate_singleton]
  refine Bool.eq_false_iff.2 fun halike => ?_
  rw [hfile] at halike
  have hlength := congrArg List.length ((alike_ofNames_iff hordinary (by simp [hne])
    (List.forall_mem_singleton.2 hb) (List.cons_ne_nil _ _)).1 halike)
  have hfront := List.length_pos_iff.2 hstands.ne_nil
  have hnames := List.length_pos_iff.2 hne
  rw [List.length_append, List.length_singleton] at hlength
  omega

/-- A tree without a label can be unpacked. -/
theorem Project.fitToUnpack_bare (h : Project root links here tree disk) {d : Path}
    (hdirectory : disk.isDirectory d = true) : FitToUnpack ((Member.tree d none).names disk) := by
  obtain ⟨_, _, es, -, -, hinside, hnames⟩ := exists_places h.current h.proper hdirectory
  rw [hnames]
  refine ⟨fun name hname => ?_, pairwise_ofNames (List.forall_mem_nil _) hinside⟩
  obtain ⟨⟨names, node⟩, hv, rfl⟩ := List.mem_map.1 hname
  obtain ⟨hne, hat, -⟩ := mem_placesBelow_iff.1 hv
  exact isEntryName_ofNames (hinside _ _ hat) hne

/-- **Trees that can be unpacked together** lie apart. -/
theorem Project.labelsLieApart (h : Project root links here tree disk) (hrelative : AreRelative settings)
    (hfit : FitToUnpack ((((labelledDirectories (Layout.ofSettings root settings) kind).filter
      disk.isDirectory).map (labelled root)).flatMap (Member.names disk))) :
    LabelsLieApart disk (Layout.ofSettings root settings) kind := by
  rw [List.flatMap_map] at hfit
  have hbelow : ∀ d ∈ labelledDirectories (Layout.ofSettings root settings) kind, HasEntries disk d →
      (d.strip root).IsPlace := by
    intro d hd hentries
    obtain ⟨rel, hrel, rfl⟩ := exists_join_of_labelled hrelative hd
    refine h.isPlace_of_names hrel hentries fun name hname => hfit.proper name ?_
    exact List.mem_flatMap.2 ⟨_, List.mem_filter.2 ⟨hd, isDirectory_of_hasEntries hentries⟩, hname⟩
  refine ⟨hbelow, ?_⟩
  have hdistinct := List.pairwise_filter.1 (List.pairwise_flatMap.1 hfit.distinct).2
  refine hdistinct.imp_of_mem fun {d e} hd he hboth hdEntries heEntries => ?_
  obtain ⟨_, _, hdStands⟩ := h.standsBelow_of_labelled hrelative hd hdEntries (hbelow d hd hdEntries)
  obtain ⟨_, _, heStands⟩ := h.standsBelow_of_labelled hrelative he heEntries (hbelow e he heEntries)
  have hall := hboth (isDirectory_of_hasEntries hdEntries) (isDirectory_of_hasEntries heEntries)
  -- If one were at or below the other, they would have an entry in common.
  constructor
  · refine Bool.eq_false_iff.2 fun hstarts => ?_
    obtain ⟨name, hd, he⟩ := hdStands.exists_common heStands hstarts (names_ne_nil hdEntries)
    exact absurd (hall name hd name he) (by simp [Path.alike])
  · refine Bool.eq_false_iff.2 fun hstarts => ?_
    obtain ⟨name, he, hd⟩ := heStands.exists_common hdStands hstarts (names_ne_nil heEntries)
    exact absurd (hall name hd name he) (by simp [Path.alike])

/-- **The names of an archive can be unpacked** exactly if its labelled directories that have entries lie
below the project root and none of them is at or below another one, in a project without links that is
configured by relative paths.  An archive of a single tree has no labelled directories, so its names always
can. -/
theorem names_fit_iff (root : Path) (settings : PathSettings) (archive : ArchiveSettings) (kind : ArchiveKind)
    (tree : Node) (disk : Disk) (members : List Member) (hrelative : AreRelative settings)
    (hcurrent : disk.HasCurrent) (hproper : disk.root.IsProper) (htree : disk.node root = .ok tree)
    (hdirectory : tree.isDirectory = true) (hlinks : ∀ place target, tree.at? place ≠ some (.link target))
    (hplan : plan disk (Layout.ofSettings root settings) archive kind = .ok (some members)) :
    FitToUnpack (members.flatMap (Member.names disk)) ↔
      LabelsLieApart disk (Layout.ofSettings root settings) kind := by
  obtain ⟨links, here, h⟩ := exists_project hcurrent hproper htree hdirectory hlinks
  rcases members_of_plan hplan with ⟨d, rfl, hsingle, hnone⟩ | ⟨patterns, files, hfiles, rfl⟩
  · rw [List.flatMap_singleton]
    refine iff_of_true (h.fitToUnpack_bare hsingle) ⟨?_, ?_⟩
    · rw [hnone]
      exact fun d hd => absurd hd List.not_mem_nil
    · rw [hnone]
      exact .nil
  · obtain ⟨hfit, hordinary⟩ := names_of_rootFiles hcurrent hproper hfiles
    rw [List.flatMap_append]
    constructor
    · intro hall
      refine h.labelsLieApart hrelative ⟨fun name hname => ?_, (List.pairwise_append.1 hall.distinct).1⟩
      exact hall.proper name (List.mem_append_left _ hname)
    · intro hapart
      have htrees := h.fitToUnpack_trees hrelative hapart
      refine ⟨List.forall_mem_append.2 ⟨htrees.proper, hfit.proper⟩,
        List.pairwise_append.2 ⟨htrees.distinct, hfit.distinct, fun a ha b hb => ?_⟩⟩
      exact h.alike_file_eq hrelative hapart ha (hordinary b hb)

/-- The sources of the small project are packed under its stock paths. -/
theorem names_fit_of_smallProject :
    let disk : Disk := ⟨smallProject, []⟩
    let members := [labelled ⟨"/"⟩ ⟨"/src"⟩]
    AreRelative {} ∧ disk.HasCurrent ∧ disk.root.IsProper ∧ disk.node ⟨"/"⟩ = .ok smallProject ∧
      plan disk (Layout.ofSettings ⟨"/"⟩ {}) {} .source = .ok (some members) ∧
        (FitToUnpack (members.flatMap (Member.names disk)) ↔
          LabelsLieApart disk (Layout.ofSettings ⟨"/"⟩ {}) .source) := by
  have hrelative : AreRelative {} := by decide
  have hproper : smallProject.IsProper := by decide +kernel
  have hplan : plan ⟨smallProject, []⟩ (Layout.ofSettings ⟨"/"⟩ {}) {} .source =
      .ok (some [labelled ⟨"/"⟩ ⟨"/src"⟩]) := by decide +kernel
  have hlinks : ∀ place target, smallProject.at? place ≠ some (.link target) :=
    noLink_of_visits (by decide +kernel)
  have hfit := names_fit_iff ⟨"/"⟩ {} {} .source smallProject ⟨smallProject, []⟩ _ hrelative ⟨_, rfl⟩ hproper
    rfl rfl hlinks hplan
  exact ⟨hrelative, ⟨_, rfl⟩, hproper, rfl, hplan, hfit⟩

end Whole

/-- Settings that take the components from the source root. -/
def sharedSources : Settings := { paths := { components := "src" } }

/-- **A directory that is both components and source root is packed twice,** each entry under the same name
as before. -/
theorem components_packed_twice :
    let disk : Disk := ⟨smallProject, []⟩
    let members := [labelled ⟨"/"⟩ ⟨"/src"⟩, labelled ⟨"/"⟩ ⟨"/src"⟩]
    sharedSources.validate = .ok () ∧ AreRelative sharedSources.paths ∧
      (∀ place target, smallProject.at? place ≠ some (.link target)) ∧
      plan disk (Layout.ofSettings ⟨"/"⟩ sharedSources.paths) sharedSources.archive .source =
        .ok (some members) ∧
      members.flatMap (Member.names disk) = ["src/a", "src/a"] ∧
      ¬ FitToUnpack (members.flatMap (Member.names disk)) := by
  have hnames : [labelled ⟨"/"⟩ ⟨"/src"⟩, labelled ⟨"/"⟩ ⟨"/src"⟩].flatMap
      (Member.names ⟨smallProject, []⟩) = ["src/a", "src/a"] := by decide +kernel
  refine ⟨Settings.validate_of_toBool (by decide +kernel), by decide, noLink_of_visits (by decide +kernel),
    by decide +kernel, hnames, fun hfit => ?_⟩
  have hdistinct := hfit.distinct
  rw [hnames] at hdistinct
  exact absurd hdistinct (by decide)

end Bundle

end MailTemplate
