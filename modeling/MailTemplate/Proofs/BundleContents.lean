import MailTemplate.Proofs.DiskDescents
import MailTemplate.Proofs.Rearchiving
import MailTemplate.Proofs.RelatedLists

/-!
# What archives hold

With the stock paths nothing that is archived is near the directory of the archives, so the archives of a
run hold what the project held before it.  The archive of the compiled documents has one entry for
everything below their directory, and the complete archive has all entries of the others: those of a tree
under the name of its directory, and those of the sources as they are.

A project without links is needed for the first part only because a link has no entry, and for the second
because a link could lead one of the directories to another one.

## Main definitions

* `Bundle.bundleOf` — the entries of the archive of a kind.
* `Bundle.ListsBelow` — entries for everything below a directory.

## Main results

* `Bundle.bundleOf_resultOf_iff` — what an archive holds is what was packed for its kind.
* `Bundle.entries_of_tree` — the entries of a single tree.
* `Bundle.Project.steady` — with the stock paths the archives are apart.
* `Bundle.archives_hold_project` — what archives hold.
-/

namespace MailTemplate

namespace Bundle

/-! ## Archives of a run -/

/-- The entries of the archive of a kind, as a run tells of them. -/
def bundleOf (done : BundleReport × List (List Tar.Entry)) (kind : ArchiveKind) :
    Option (List Tar.Entry) :=
  ((done.1.manifest.archives.zip done.2).find? fun x => x.1.label == kind.label).map Prod.snd

/-- Entries for everything below a directory: one for each place, with what is there, and a directory
before what it holds. -/
def ListsBelow (node : Node) (entries : List Tar.Entry) : Prop :=
  ∃ places : List (List String × Node),
    (∀ names inner, (names, inner) ∈ places ↔ names ≠ [] ∧ node.at? names = some inner) ∧
      places.Pairwise (fun v w => ¬ w.1 <+: v.1) ∧
        entries = places.map fun v => ⟨String.intercalate "/" v.1, contentOf v.2⟩

section Archives

variable {layout : Layout} {settings : ArchiveSettings} {stem stamp : String} {kind other : ArchiveKind}
  {disk : Disk} {results : List (Option (ManifestEntry × List Tar.Entry))} {members : List Member}
  {entries : List Tar.Entry} {entry : Tar.Entry} {archive : Bytes} {directory : Path} {links : Nat}
  {here : List String} {es : List (String × Node)}

theorem label_injective (h : kind.label = other.label) : kind = other := by
  revert h
  cases kind <;> cases other <;> decide

theorem Outcome.label_eq {e : ManifestEntry}
    (h : Outcome layout settings stem disk kind (some (e, entries))) : e.label = kind.label := by
  cases h
  rfl

theorem Outcome.some_iff : (∃ e, Outcome layout settings stem disk kind (some (e, entries))) ↔
    ∃ members archive, plan disk layout settings kind = .ok (some members) ∧
      pack disk members = .ok (entries, archive) := by
  constructor
  · rintro ⟨e, h⟩
    cases h with
    | written hplan hpack => exact ⟨_, _, hplan, hpack⟩
  · rintro ⟨members, archive, hplan, hpack⟩
    exact ⟨_, .written hplan hpack⟩

/-- A kind has one outcome. -/
theorem Outcome.unique {result result' : Option (ManifestEntry × List Tar.Entry)}
    (h : Outcome layout settings stem disk kind result)
    (h' : Outcome layout settings stem disk kind result') : result = result' := by
  cases h with
  | skipped hplan =>
    cases h' with
    | skipped => rfl
    | written hplan' => exact absurd (hplan.symm.trans hplan') (by simp)
  | written hplan hpack =>
    cases h' with
    | skipped hplan' => exact absurd (hplan.symm.trans hplan') (by simp)
    | written hplan' hpack' =>
      obtain rfl := Option.some.inj (Except.ok.inj (hplan.symm.trans hplan'))
      obtain ⟨rfl, rfl⟩ := Prod.mk.inj (Except.ok.inj (hpack.symm.trans hpack'))
      rfl

/-- **What an archive holds** is what was packed for its kind. -/
theorem bundleOf_resultOf_iff
    (h : List.Forall₂ (Outcome layout settings stem disk) ArchiveKind.all results) :
    bundleOf (resultOf layout stem stamp results) kind = some entries ↔
      ∃ members archive, plan disk layout settings kind = .ok (some members) ∧
        pack disk members = .ok (entries, archive) := by
  have hzip : (resultOf layout stem stamp results).1.manifest.archives.zip
      (resultOf layout stem stamp results).2 = results.filterMap id := (List.zip_of_prod rfl rfl).symm
  -- Among the kinds only one has the label.
  have hfound : ∀ x, (results.filterMap id).find? (fun x => x.1.label == kind.label) = some x →
      ∃ e, Outcome layout settings stem disk kind (some (e, x.2)) := by
    intro x hx
    have hlabel := List.find?_some hx
    obtain ⟨result, hresult, rfl⟩ := List.mem_filterMap.1 (List.mem_of_find?_eq_some hx)
    obtain ⟨other, -, houtcome⟩ := exists_left_of_mem h hresult
    obtain rfl := label_injective (houtcome.label_eq.symm.trans (beq_iff_eq.1 hlabel))
    exact ⟨x.1, houtcome⟩
  rw [bundleOf, hzip, Option.map_eq_some_iff, ← @Outcome.some_iff layout settings stem]
  constructor
  · rintro ⟨x, hx, rfl⟩
    exact hfound x hx
  · -- A run goes through all kinds, so it has come to the kind as well.
    rintro ⟨e, houtcome⟩
    obtain ⟨result, hresult, hagain⟩ := exists_right_of_mem h (ArchiveName.mem_all kind)
    obtain rfl := houtcome.unique hagain
    have hsome : ((results.filterMap id).find? fun x => x.1.label == kind.label).isSome = true := by
      rw [List.find?_isSome]
      exact ⟨(e, entries), List.mem_filterMap.2 ⟨_, hresult, rfl⟩, beq_iff_eq.2 houtcome.label_eq⟩
    obtain ⟨x, hx⟩ := Option.isSome_iff_exists.1 hsome
    obtain ⟨e', hx'⟩ := hfound x hx
    exact ⟨x, hx, (Prod.mk.inj (Option.some.inj (houtcome.unique hx'))).2.symm⟩

/-- The entries of an archive are those of its sources. -/
theorem mem_iff_of_pack (h : pack disk members = .ok (entries, archive)) :
    entry ∈ entries ↔ ∃ m ∈ members, ∃ source ∈ m.sources disk, source.entry disk = .ok entry := by
  have hentries := forall₂_of_pack h
  constructor
  · intro hentry
    obtain ⟨source, hsource, heq⟩ := exists_left_of_mem hentries hentry
    obtain ⟨m, hm, hsource⟩ := List.mem_flatMap.1 hsource
    exact ⟨m, hm, source, hsource, heq⟩
  · rintro ⟨m, hm, source, hsource, heq⟩
    obtain ⟨found, hfound, heq'⟩ :=
      exists_right_of_mem hentries (List.mem_flatMap.2 ⟨m, hm, hsource⟩)
    obtain rfl := Except.ok.inj (heq.symm.trans heq')
    exact hfound

/-- **The entries of a single tree** are what is below its directory. -/
theorem entries_of_tree {label : Option String} (h : disk.LeadsTo directory links here)
    (hes : disk.root.at? here = some (.directory es)) (hproper : (Node.directory es).IsProper)
    (hpack : pack disk [.tree directory label] = .ok (entries, archive)) :
    entries = (placesBelow directory (.directory es)).map fun v => ⟨entryName label v.1, contentOf v.2⟩ := by
  have hentries := forall₂_of_pack hpack
  rw [List.flatMap_singleton, sources_tree h hes hproper, List.forall₂_map_left_iff] at hentries
  apply eq_map_of_forall₂ hentries
  rintro ⟨names, node⟩ hv entry hentry
  exact ((Source.standsAt_of_mem_placesBelow h hes hproper hv _).resolve_of_entry hentry).2

end Archives

/-! ## Projects with the stock paths -/

/-- The layout of a project with the stock paths. -/
def stockLayout (root : Path) : Layout := Layout.ofSettings root {}

/-- The names that lead to the directories that are archived. -/
def packedNames : List (List String) :=
  [["dist"], ["exports", "html"], ["exports", "outlook"], ["components"], ["src"]]

/-- The names that lead to the directory of the archives. -/
def archivesNames : List String := ["exports", "archives"]

/-- A directory that is archived: its path is no longer than that of the archives, and neither holds the
other one. -/
structure IsPacked (names : List String) : Prop where
  /-- The names are names. -/
  ordinary : ∀ n ∈ names, Path.IsOrdinary n
  /-- It is not the project root. -/
  ne_nil : names ≠ []
  /-- No name is too long. -/
  short : ∀ n ∈ names, n.utf8ByteSize ≤ Disk.maxName
  /-- The path is not too long if that of the archives is not. -/
  size : (String.intercalate "/" names).utf8ByteSize ≤ (String.intercalate "/" archivesNames).utf8ByteSize
  /-- A path can hold the names. -/
  noNul : ((String.intercalate "/" names).toList.any fun c => c.toNat == 0) = false
  /-- The archives are not in it. -/
  not_above : ¬ names <+: archivesNames
  /-- It is not among the archives. -/
  not_below : ¬ archivesNames <+: names

theorem isPacked_of_mem : ∀ names ∈ packedNames, IsPacked names := by
  have hall : ∀ names ∈ packedNames, (∀ n ∈ names, Path.IsOrdinary n) ∧ names ≠ [] ∧
      (∀ n ∈ names, n.utf8ByteSize ≤ Disk.maxName) ∧
      (String.intercalate "/" names).utf8ByteSize ≤ (String.intercalate "/" archivesNames).utf8ByteSize ∧
      ((String.intercalate "/" names).toList.any fun c => c.toNat == 0) = false ∧
      ¬ names <+: archivesNames ∧ ¬ archivesNames <+: names := by decide +kernel
  intro names hnames
  obtain ⟨h₁, h₂, h₃, h₄, h₅, h₆, h₇⟩ := hall names hnames
  exact ⟨h₁, h₂, h₃, h₄, h₅, h₆, h₇⟩

theorem isOrdinary_archivesNames : ∀ n ∈ archivesNames, Path.IsOrdinary n := by decide

/-- A project without links on a disk. -/
structure Project (root : Path) (links : Nat) (here : List String) (tree : Node) (disk : Disk) : Prop where
  /-- The current directory exists. -/
  current : disk.HasCurrent
  /-- Names are names. -/
  proper : disk.root.IsProper
  /-- The root is at a place. -/
  leads : disk.LeadsTo root links here
  /-- The project is there. -/
  at_eq : disk.root.at? here = some tree
  /-- It has no links. -/
  noLink : ∀ place target, tree.at? place ≠ some (.link target)

namespace Project

variable {root : Path} {links links' : Nat} {here names place : List String} {tree : Node}
  {disk made : Disk} {stem : String} {es : List (String × Node)}

theorem at?_append (h : Project root links here tree disk) (names : List String) :
    disk.root.at? (here ++ names) = tree.at? names := by
  rw [Node.at?_append, h.at_eq, Option.bind_some]

theorem madeDown (h : Project root links here tree disk)
    (hmake : (Disk.makeDirectories (root.down archivesNames)).run disk = (.ok (), made)) :
    Node.MadeDown (here ++ archivesNames) disk.root made.root ∧
      made.LeadsTo (root.down archivesNames) links (here ++ archivesNames) := by
  refine h.leads.madeDown h.current isOrdinary_archivesNames (by decide) (by decide) ?_ hmake
  intro below _ target
  rw [h.at?_append]
  exact h.noLink below target

theorem noLink_made (h : Project root links here tree disk)
    (hmake : (Disk.makeDirectories (root.down archivesNames)).run disk = (.ok (), made))
    (names : List String) (target : Path) : made.root.at? (here ++ names) ≠ some (.link target) := by
  intro hlink
  have hbefore := ((h.madeDown hmake).1.grows.link _ _).1 hlink
  rw [h.at?_append] at hbefore
  exact h.noLink names target hbefore

/-- **What is archived** is as it was before the directory of the archives was made. -/
theorem at?_packed (h : Project root links here tree disk)
    (hmake : (Disk.makeDirectories (root.down archivesNames)).run disk = (.ok (), made))
    (hpacked : IsPacked names) (rest : List String) :
    made.root.at? (here ++ (names ++ rest)) = tree.at? (names ++ rest) := by
  rw [(h.madeDown hmake).1.aside _ fun habove => ?_, h.at?_append]
  exact hpacked.not_above
    ((List.prefix_append names rest).trans ((List.prefix_append_right_inj here).1 habove))

theorem place_packed (h : Project root links here tree disk)
    (hmake : (Disk.makeDirectories (root.down archivesNames)).run disk = (.ok (), made))
    (hpacked : IsPacked names) (hleads : made.LeadsTo (root.down names) links' place) :
    place = here ++ names :=
  (h.leads.of_grows (Disk.grows_makeDirectories h.current hmake)).place_down hleads hpacked.ordinary
    hpacked.ne_nil fun below _ target => h.noLink_made hmake below target

/-- **A directory that is archived** is at the place of its names. -/
theorem leadsTo_packed (h : Project root links here tree disk)
    (hmake : (Disk.makeDirectories (root.down archivesNames)).run disk = (.ok (), made))
    (hpacked : IsPacked names) (hes : tree.at? names = some (.directory es)) :
    made.LeadsTo (root.down names) links (here ++ names) ∧
      made.root.at? (here ++ names) = some (.directory es) := by
  have hat : made.root.at? (here ++ names) = some (.directory es) := by
    have hsame := h.at?_packed hmake hpacked []
    rwa [List.append_nil, hes] at hsame
  obtain ⟨-, harchives⟩ := h.madeDown hmake
  have hreach : Disk.downFault root archivesNames = none :=
    Disk.downFault_eq_none_iff.2 ⟨harchives.noNul, harchives.length, by decide⟩
  -- The path is no longer than that of the archives, and this one has been reached.
  have hfault : Disk.downFault root names = none :=
    Disk.downFault_eq_none_of_le h.leads.text_ne hpacked.ordinary hpacked.ne_nil isOrdinary_archivesNames
      (by decide) hreach hpacked.size hpacked.noNul hpacked.short
  have hroot := h.leads.of_grows (Disk.grows_makeDirectories h.current hmake)
  exact ⟨hroot.down hpacked.ordinary hpacked.ne_nil hfault hat, hat⟩

/-- With the stock paths what is archived is off the directory of the archives. -/
theorem steady (h : Project root links here tree disk)
    (hmake : (Disk.makeDirectories (root.down archivesNames)).run disk = (.ok (), made)) :
    Steady (stockLayout root) links (here ++ archivesNames) made := by
  have hcurrent := h.current.grows (Disk.grows_makeDirectories h.current hmake)
  obtain ⟨-, harchives⟩ := h.madeDown hmake
  have hplace : ∀ place ∈ directoryPlace? made (stockLayout root).archives,
      place = here ++ archivesNames := by
    intro place hplace
    obtain ⟨_, hleads⟩ := leadsTo_of_directoryPlace? hcurrent hplace
    exact hleads.place_eq harchives
  refine ⟨hcurrent, harchives, ?_, ?_⟩
  · intro directory hdirectory there hthere place hat
    obtain ⟨names, hnames, rfl⟩ := List.mem_map.1 (show directory ∈ packedNames.map root.down from hdirectory)
    have hpacked := isPacked_of_mem names hnames
    obtain ⟨_, hleads⟩ := leadsTo_of_directoryPlace? hcurrent hthere
    rw [h.place_packed hmake hpacked hleads, hplace place hat, List.prefix_append_right_inj,
      List.prefix_append_right_inj]
    exact ⟨hpacked.not_above, hpacked.not_below⟩
  · -- The root is two names above the archives, so it is not below them.
    intro there hthere place hat habove
    obtain ⟨_, hleads⟩ := leadsTo_of_directoryPlace? hcurrent hthere
    rw [hplace place hat,
      hleads.place_eq (h.leads.of_grows (Disk.grows_makeDirectories h.current hmake))] at habove
    have hlength := habove.length_le
    have htwo : archivesNames.length = 2 := rfl
    rw [List.length_append] at hlength
    omega

/-- Its archives can be written. -/
theorem ready (h : Project root links here tree disk)
    (hmake : (Disk.makeDirectories (root.down archivesNames)).run disk = (.ok (), made))
    (hstem : '/' ∉ stem.toList) :
    Ready (stockLayout root).archives stem links (here ++ archivesNames) made := by
  refine ⟨(h.madeDown hmake).2, hstem, fun name _ target => ?_⟩
  rw [List.append_assoc]
  exact h.noLink_made hmake _ target

end Project

/-! ## The complete archive -/

section Complete

variable {disk : Disk} {layout : Layout} {settings : ArchiveSettings} {directory : Path} {label : String}
  {members more : List Member} {entries complete : List Tar.Entry} {entry : Tar.Entry} {archive : Bytes}
  {patterns extra : List String} {globs : List Glob}

/-- With its name, a tree has the same entries. -/
theorem sources_tree_some (disk : Disk) (directory : Path) (label : String) :
    (Member.tree directory (some label)).sources disk =
      ((Member.tree directory none).sources disk).map fun s => ⟨label ++ "/" ++ s.name, s.path⟩ := by
  rw [Member.sources, Member.sources]
  dsimp only
  rw [List.map_map]
  rfl

/-- **An entry of a tree** is in every archive that holds the tree under its name. -/
theorem mem_of_mem_tree (h : pack disk [.tree directory none] = .ok (entries, archive))
    (hentry : entry ∈ entries) (hmember : .tree directory (some label) ∈ members)
    (hcomplete : ∃ archive, pack disk members = .ok (complete, archive)) :
    ⟨label ++ "/" ++ entry.name, entry.content⟩ ∈ complete := by
  obtain ⟨_, hcomplete⟩ := hcomplete
  obtain ⟨m, hm, source, hsource, heq⟩ := (mem_iff_of_pack h).1 hentry
  obtain rfl := List.mem_singleton.1 hm
  rw [Source.entry_eq] at heq
  obtain ⟨node, hnode, rfl⟩ := map_eq_ok_iff.1 heq
  refine (mem_iff_of_pack hcomplete).2 ⟨_, hmember, ⟨label ++ "/" ++ source.name, source.path⟩, ?_, ?_⟩
  · rw [sources_tree_some]
    exact List.mem_map_of_mem hsource
  · rw [Source.entry_eq]
    exact map_eq_ok_iff.2 ⟨node, hnode, rfl⟩

theorem readGlobs_append (h : readGlobs (patterns ++ extra) = .ok globs) :
    ∃ first, readGlobs patterns = .ok first ∧ first ⊆ globs := by
  rw [readGlobs, List.mapM_append] at h
  obtain ⟨first, hfirst, hrest⟩ := bind_eq_ok_iff.1 h
  obtain ⟨rest, -, hglobs⟩ := bind_eq_ok_iff.1 hrest
  obtain rfl := Except.ok.inj hglobs
  exact ⟨first, hfirst, List.subset_append_left _ _⟩

/-- More patterns accept more files. -/
theorem rootFiles_subset {root : Path} (h : rootFiles disk root patterns = .ok members)
    (hmore : rootFiles disk root (patterns ++ extra) = .ok more) : members ⊆ more := by
  obtain ⟨first, hfirst, hfiles⟩ := bind_eq_ok_iff.1 h
  obtain ⟨globs, hglobs, hmore⟩ := bind_eq_ok_iff.1 hmore
  obtain ⟨es, hes, hfiles⟩ := bind_eq_ok_iff.1 hfiles
  obtain ⟨es', hes', hmore⟩ := bind_eq_ok_iff.1 hmore
  -- Both go through the same files, and each glob of the first is one of the second.
  obtain rfl := Except.ok.inj (hes.symm.trans hes')
  obtain ⟨first', hfirst', hsubset⟩ := readGlobs_append (mapError_eq_ok_iff.1 hglobs)
  obtain rfl := Except.ok.inj ((mapError_eq_ok_iff.1 hfirst).symm.trans hfirst')
  obtain rfl := Except.ok.inj hfiles
  obtain rfl := Except.ok.inj hmore
  intro m hm
  obtain ⟨name, hname, rfl⟩ := List.mem_map.1 hm
  obtain ⟨hname, haccepts⟩ := List.mem_filter.1 hname
  obtain ⟨glob, hglob, haccepts⟩ := List.any_eq_true.1 haccepts
  refine List.mem_map_of_mem (List.mem_filter.2 ⟨hname, ?_⟩)
  exact List.any_eq_true.2 ⟨glob, hsubset hglob, haccepts⟩

/-- **The members of the archive of the sources** are in the complete archive. -/
theorem members_subset (h : plan disk layout settings .source = .ok (some members))
    (hmore : plan disk layout settings .complete = .ok (some more)) : members ⊆ more := by
  rw [plan] at h
  obtain ⟨files', hfiles', hmore⟩ := bind_eq_ok_iff.1 hmore
  obtain rfl := Option.some.inj (Except.ok.inj hmore)
  have htrees : namedTrees disk layout.root [layout.components, layout.sourceRoot] ⊆
      namedTrees disk layout.root (packedDirectories layout) := by
    apply List.map_subset
    apply List.filter_subset
    simp [packedDirectories]
  cases hnamed : namedTrees disk layout.root [layout.components, layout.sourceRoot] with
  | nil => rw [hnamed] at h; exact absurd (Except.ok.inj h) (by simp)
  | cons tree trees =>
    rw [hnamed] at h htrees
    obtain ⟨files, hfiles, hmembers⟩ := bind_eq_ok_iff.1 h
    obtain rfl := Option.some.inj (Except.ok.inj hmembers)
    intro m hm
    rcases List.mem_append.1 hm with hm | hm
    · exact List.mem_append_left _ (htrees hm)
    · exact List.mem_append_right _ (rootFiles_subset hfiles hfiles' hm)

/-- An entry of an archive is in every archive that has all its members. -/
theorem mem_of_subset (h : pack disk members = .ok (entries, archive)) (hentry : entry ∈ entries)
    (hsubset : members ⊆ more) (hcomplete : ∃ archive, pack disk more = .ok (complete, archive)) :
    entry ∈ complete := by
  obtain ⟨_, hcomplete⟩ := hcomplete
  obtain ⟨m, hm, source, hsource, heq⟩ := (mem_iff_of_pack h).1 hentry
  exact (mem_iff_of_pack hcomplete).2 ⟨m, hsubset hm, source, hsource, heq⟩

end Complete

/-! ## All archives -/

section Whole

variable {root : Path} {links : Nat} {here names : List String} {tree : Node} {disk made : Disk}
  {settings : ArchiveSettings} {kind : ArchiveKind} {members : List Member} {es : List (String × Node)}
  {entries : List Tar.Entry} {archive : Bytes} {stem stamp : String}
  {results : List (Option (ManifestEntry × List Tar.Entry))}

/-- The kinds that archive a single tree, with the names that lead to it. -/
def bareKinds : List (ArchiveKind × List String) :=
  [(.html, ["dist"]), (.exportHtml, ["exports", "html"]), (.outlook, ["exports", "outlook"])]

theorem mem_packedNames_of_bare (h : (kind, names) ∈ bareKinds) : names ∈ packedNames := by
  have hall : ∀ x ∈ bareKinds, x.2 ∈ packedNames := by decide
  exact hall _ h

theorem plan_bare (h : (kind, names) ∈ bareKinds) :
    plan disk (stockLayout root) settings kind = .ok (bareTree disk (root.down names)) := by
  simp only [bareKinds, List.mem_cons, Prod.mk.injEq, List.not_mem_nil, or_false] at h
  rcases h with ⟨rfl, rfl⟩ | ⟨rfl, rfl⟩ | ⟨rfl, rfl⟩
  · rfl
  · rfl
  · rfl

theorem tree_mem_complete (hroot : root.text ≠ "") (hnames : names ∈ packedNames)
    (hdirectory : disk.isDirectory (root.down names) = true)
    (h : plan disk (stockLayout root) settings .complete = .ok (some members)) :
    .tree (root.down names) (some (String.intercalate "/" names)) ∈ members := by
  obtain ⟨files, -, hmembers⟩ := bind_eq_ok_iff.1 h
  obtain rfl := Option.some.inj (Except.ok.inj hmembers)
  have hpacked := isPacked_of_mem names hnames
  have hlabel : (root.down names).relativeTo root = String.intercalate "/" names :=
    Path.relativeTo_down hroot hpacked.ordinary hpacked.ne_nil
  refine List.mem_append_left _ (List.mem_map.2 ⟨root.down names, List.mem_filter.2 ⟨?_, hdirectory⟩, ?_⟩)
  · exact List.mem_map_of_mem hnames
  · rw [← hlabel]
    rfl

/-- What is longer does not come before what it begins with. -/
theorem not_append_lt (names rest : List String) : ¬ names ++ rest < names := by
  induction names with
  | nil => exact List.not_lt_nil _
  | cons name names ih =>
    intro h
    rcases List.cons_lt_cons_iff.1 h with hlt | ⟨-, hlt⟩
    · exact String.lt_irrefl name hlt
    · exact ih hlt

/-- **The archive of a single tree** lists what the project holds there. -/
theorem Project.listsBelow (h : Project root links here tree disk)
    (hmake : (Disk.makeDirectories (root.down archivesNames)).run disk = (.ok (), made))
    (hnames : names ∈ packedNames) (hes : tree.at? names = some (.directory es))
    (hpack : pack made [.tree (root.down names) none] = .ok (entries, archive)) :
    ListsBelow (.directory es) entries := by
  obtain ⟨hleads, hat⟩ := h.leadsTo_packed hmake (isPacked_of_mem names hnames) hes
  have hproper := (Disk.isProper_makeDirectories h.current h.proper hmake).of_at? hat
  refine ⟨placesBelow (root.down names) (.directory es), ?_, ?_, entries_of_tree hleads hat hproper hpack⟩
  · intro below inner
    rw [mem_placesBelow_iff, ← and_assoc]
    apply and_iff_left_of_imp
    rintro ⟨-, hinner⟩
    -- Without links there are only files and directories.
    have hbelow : tree.at? (names ++ below) = some inner := by
      rw [Node.at?_append, hes]
      exact hinner
    cases inner with
    | file => rfl
    | directory => rfl
    | link target => exact absurd hbelow (h.noLink _ target)
  · -- In the order of a walk what is longer comes later.
    refine (pairwise_placesBelow _ _).imp fun {v w} hlt hprefix => ?_
    obtain ⟨rest, hrest⟩ := hprefix
    exact not_append_lt w.1 rest (hrest ▸ hlt)

theorem Project.exists_of_isDirectory (h : Project root links here tree disk)
    (hmake : (Disk.makeDirectories (root.down archivesNames)).run disk = (.ok (), made))
    (hnames : names ∈ packedNames) (hdirectory : made.isDirectory (root.down names) = true) :
    ∃ es, tree.at? names = some (.directory es) := by
  obtain ⟨links', place, hleads⟩ :=
    (Disk.isDirectory_iff (h.current.grows (Disk.grows_makeDirectories h.current hmake))).1 hdirectory
  have hpacked := isPacked_of_mem names hnames
  obtain ⟨es, hes⟩ := hleads.directory
  have hsame := h.at?_packed hmake hpacked []
  rw [h.place_packed hmake hpacked hleads] at hes
  rw [List.append_nil, hes] at hsame
  exact ⟨es, hsame.symm⟩

theorem exists_project (hcurrent : disk.HasCurrent) (hproper : disk.root.IsProper)
    (htree : disk.node root = .ok tree) (hdirectory : tree.isDirectory = true)
    (hlinks : ∀ place target, tree.at? place ≠ some (.link target)) :
    ∃ links here, Project root links here tree disk := by
  have hroot : disk.isDirectory root = true := by rw [Disk.isDirectory, htree]; exact hdirectory
  obtain ⟨links, here, hleads⟩ := (Disk.isDirectory_iff hcurrent).1 hroot
  obtain ⟨es, hes⟩ := hleads.directory
  obtain rfl := Except.ok.inj ((hleads.node_eq hes).symm.trans htree)
  exact ⟨links, here, hcurrent, hproper, hleads, hes, hlinks⟩

theorem plan_complete_ne_none (layout : Layout) : plan disk layout settings .complete ≠ .ok none := by
  intro h
  obtain ⟨_, -, hmembers⟩ := bind_eq_ok_iff.1 h
  exact absurd (Except.ok.inj hmembers) (by simp)

theorem bareTree_eq_some_iff {directory : Path} : bareTree disk directory = some members ↔
    disk.isDirectory directory = true ∧ members = [.tree directory none] := by
  unfold bareTree
  split
  · next h => simp [h, eq_comm]
  · next h => simp [h]

/-- The complete archive is always written. -/
theorem exists_complete {layout : Layout}
    (h : List.Forall₂ (Outcome layout settings stem disk) ArchiveKind.all results) :
    ∃ members complete archive, plan disk layout settings .complete = .ok (some members) ∧
      pack disk members = .ok (complete, archive) := by
  obtain ⟨result, -, houtcome⟩ := exists_right_of_mem h (ArchiveName.mem_all .complete)
  cases houtcome with
  | skipped hnone => exact absurd hnone (plan_complete_ne_none _)
  | written hplan hpack => exact ⟨_, _, _, hplan, hpack⟩

/-- **The archive of a single tree** lists what the project held there before the run. -/
theorem Project.exists_bundle (h : Project root links here tree disk)
    (hmake : (Disk.makeDirectories (root.down archivesNames)).run disk = (.ok (), made))
    (houtcomes : List.Forall₂ (Outcome (stockLayout root) settings stem made) ArchiveKind.all results)
    (hkind : (kind, names) ∈ bareKinds) (hes : tree.at? names = some (.directory es)) :
    ∃ entries, bundleOf (resultOf (stockLayout root) stem stamp results) kind = some entries ∧
      ListsBelow (.directory es) entries := by
  have hnames := mem_packedNames_of_bare hkind
  obtain ⟨hleads, hat⟩ := h.leadsTo_packed hmake (isPacked_of_mem names hnames) hes
  have hdirectory : made.isDirectory (root.down names) = true :=
    (Disk.isDirectory_iff (h.steady hmake).current).2 ⟨_, _, hleads⟩
  have hplan : plan made (stockLayout root) settings kind = .ok (some [.tree (root.down names) none]) := by
    rw [plan_bare hkind, bareTree_eq_some_iff.2 ⟨hdirectory, rfl⟩]
  obtain ⟨result, -, houtcome⟩ := exists_right_of_mem houtcomes (ArchiveName.mem_all kind)
  cases houtcome with
  | skipped hnone => exact absurd (hplan.symm.trans hnone) (by simp)
  | @written members entries archive hmembers hpack =>
    obtain rfl := Option.some.inj (Except.ok.inj (hplan.symm.trans hmembers))
    exact ⟨entries, (bundleOf_resultOf_iff houtcomes).2 ⟨_, archive, hplan, hpack⟩,
      h.listsBelow hmake hnames hes hpack⟩

/-- What is in the archive of a single tree was packed from that tree. -/
theorem exists_of_bundle {root : Path}
    (houtcomes : List.Forall₂ (Outcome (stockLayout root) settings stem disk) ArchiveKind.all results)
    (hkind : (kind, names) ∈ bareKinds)
    (hbundle : bundleOf (resultOf (stockLayout root) stem stamp results) kind = some entries) :
    disk.isDirectory (root.down names) = true ∧
      ∃ archive, pack disk [.tree (root.down names) none] = .ok (entries, archive) := by
  obtain ⟨members, archive, hplan, hpack⟩ := (bundleOf_resultOf_iff houtcomes).1 hbundle
  rw [plan_bare hkind] at hplan
  obtain ⟨hdirectory, rfl⟩ := bareTree_eq_some_iff.1 (Except.ok.inj hplan)
  exact ⟨hdirectory, archive, hpack⟩

/-- **Archives hold what a project holds,** under the stock paths and without links.  The archive of the
compiled documents has an entry for everything below their directory, and there is none if there is no such
directory.  The complete archive has all entries of the others: those of single trees under the names of
their directories, and those of the sources as they are.  The name of the project holds no separator, as in
all settings that are valid: with one, archives would be written into the project itself. -/
theorem archives_hold_project (root : Path) (settings : Settings) (now : Instant) (tree : Node)
    (disk after : Disk) (done : BundleReport × List (List Tar.Entry))
    (hpaths : settings.paths = {}) (hname : '/' ∉ settings.projectName.toList)
    (hcurrent : disk.HasCurrent) (hproper : disk.root.IsProper)
    (htree : disk.node root = .ok tree) (hdirectory : tree.isDirectory = true)
    (hlinks : ∀ place target, tree.at? place ≠ some (.link target))
    (hrun : (run (Layout.ofSettings root settings.paths) settings now).run disk = (.ok done, after)) :
    (∀ es, tree.at? ["dist"] = some (.directory es) →
        ∃ entries, bundleOf done .html = some entries ∧ ListsBelow (.directory es) entries) ∧
      ((∀ es, tree.at? ["dist"] ≠ some (.directory es)) → bundleOf done .html = none) ∧
      ∃ complete, bundleOf done .complete = some complete ∧
        (∀ x ∈ [(ArchiveKind.html, "dist"), (.exportHtml, "exports/html"), (.outlook, "exports/outlook")],
          ∀ entries, bundleOf done x.1 = some entries →
            ∀ entry ∈ entries, ⟨x.2 ++ "/" ++ entry.name, entry.content⟩ ∈ complete) ∧
        ∀ entries, bundleOf done .source = some entries → ∀ entry ∈ entries, entry ∈ complete := by
  rw [hpaths] at hrun
  change (run (stockLayout root) settings now).run disk = (.ok done, after) at hrun
  obtain ⟨made, hmake, hruns⟩ := exists_kindsRun_of_run hrun
  obtain ⟨links, here, hproject⟩ := exists_project hcurrent hproper htree hdirectory hlinks
  obtain ⟨results, last, hkinds, rfl, -⟩ :=
    hruns (hproject.ready hmake (ArchiveName.noSlash_stemOf hname now))
  have houtcomes := outcomes_of_kindsRun (hproject.steady hmake)
    (Disk.isProper_makeDirectories hcurrent hproper hmake) (.refl _ _ _) hkinds
  obtain ⟨members, complete, archive, hplan, hpack⟩ := exists_complete houtcomes
  have hhtml : (ArchiveKind.html, ["dist"]) ∈ bareKinds := by decide
  refine ⟨?_, ?_, complete, (bundleOf_resultOf_iff houtcomes).2 ⟨members, archive, hplan, hpack⟩, ?_, ?_⟩
  · intro es hes
    exact hproject.exists_bundle hmake houtcomes hhtml hes
  · intro hnone
    rw [Option.eq_none_iff_forall_ne_some]
    intro entries hentries
    obtain ⟨hdist, -⟩ := exists_of_bundle houtcomes hhtml hentries
    obtain ⟨es, hes⟩ := hproject.exists_of_isDirectory hmake (by decide) hdist
    exact hnone es hes
  · have hbare : ∀ kind names, (kind, names) ∈ bareKinds → ∀ entries, bundleOf (resultOf (stockLayout root)
        (ArchiveName.stemOf settings now) now.stamp results) kind = some entries →
          ∀ entry ∈ entries,
            ⟨String.intercalate "/" names ++ "/" ++ entry.name, entry.content⟩ ∈ complete := by
      intro kind names hkind entries hentries entry hentry
      obtain ⟨hthere, _, hpacked⟩ := exists_of_bundle houtcomes hkind hentries
      have hmember :=
        tree_mem_complete hproject.leads.text_ne (mem_packedNames_of_bare hkind) hthere hplan
      exact mem_of_mem_tree hpacked hentry hmember ⟨archive, hpack⟩
    intro x hx
    simp only [List.mem_cons, List.not_mem_nil, or_false] at hx
    rcases hx with rfl | rfl | rfl
    · exact hbare .html ["dist"] (by decide)
    · exact hbare .exportHtml ["exports", "html"] (by decide)
    · exact hbare .outlook ["exports", "outlook"] (by decide)
  · intro entries hentries entry hentry
    obtain ⟨sources, _, hsources, hpacked⟩ := (bundleOf_resultOf_iff houtcomes).1 hentries
    exact mem_of_subset hpacked hentry (members_subset hsources hplan) ⟨archive, hpack⟩

end Whole

/-! ## A small project -/

/-- A tree of files and directories has no links. -/
theorem noLink_of_visits {tree : Node}
    (h : ((tree.visits (fun _ _ => true) ⟨""⟩).all fun v => v.2.isDirectory || v.2.isFile) = true)
    (place : List String) (target : Path) : tree.at? place ≠ some (.link target) := by
  intro hlink
  have hreaches : Node.Reaches (fun _ _ => true) ⟨""⟩ place tree (.link target) :=
    Node.reaches_all_iff.2 hlink
  exact Bool.false_ne_true (List.all_eq_true.1 h _ (Node.mem_visits_iff.2 hreaches))

/-- A project with a compiled document and its template. -/
def smallProject : Node :=
  .directory [("dist", .directory [("b", .directory []), ("a", .file [104, 105] false)]),
    ("src", .directory [("a", .file [] false)])]

/-- Its archives, on the first of May. -/
def archiveSmall : BundleM (BundleReport × List (List Tar.Entry)) :=
  run (Layout.ofSettings ⟨"/"⟩ {}) { projectName := "n" } ⟨1714564800000⟩

/-- The complete archive of the small project has what is in the archive of its compiled document. -/
theorem archives_hold_project_of_smallProject :
    let disk : Disk := ⟨smallProject, []⟩
    ('/' ∉ "n".toList ∧ disk.HasCurrent ∧ disk.root.IsProper ∧ disk.node ⟨"/"⟩ = .ok smallProject ∧
      ∀ place target, smallProject.at? place ≠ some (.link target)) ∧
    ∃ done after entries complete, archiveSmall.run disk = (.ok done, after) ∧
      bundleOf done .html = some entries ∧
      ListsBelow (.directory [("b", .directory []), ("a", .file [104, 105] false)]) entries ∧
      bundleOf done .complete = some complete ∧
      ∀ entry ∈ entries, ⟨"dist" ++ "/" ++ entry.name, entry.content⟩ ∈ complete := by
  have hproper : smallProject.IsProper := by decide +kernel
  have hlinks : ∀ place target, smallProject.at? place ≠ some (.link target) :=
    noLink_of_visits (by decide +kernel)
  have hok : (archiveSmall.run ⟨smallProject, []⟩).1.isOk = true := by decide +kernel
  rcases hrun : archiveSmall.run ⟨smallProject, []⟩ with ⟨outcome, after⟩
  rw [hrun] at hok
  cases outcome with
  | error => exact absurd hok Bool.false_ne_true
  | ok done =>
    obtain ⟨hhtml, -, complete, hcomplete, htrees, -⟩ := archives_hold_project ⟨"/"⟩
      { projectName := "n" } ⟨1714564800000⟩ smallProject ⟨smallProject, []⟩ after done rfl (by decide)
      ⟨_, rfl⟩ hproper rfl rfl hlinks hrun
    obtain ⟨entries, hentries, hlists⟩ := hhtml _ rfl
    have hinside := htrees (.html, "dist") List.mem_cons_self entries hentries
    exact ⟨⟨by decide, ⟨_, rfl⟩, hproper, rfl, hlinks⟩, done, after, entries, complete, hrun, hentries,
      hlists, hcomplete, hinside⟩

end Bundle

end MailTemplate
