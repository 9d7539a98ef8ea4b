import MailTemplate.Proofs.BundleRuns
import MailTemplate.Proofs.Computations

/-!
# Where archives come from

Every entry of an archive stands at a place on the disk: below a directory that is archived as a tree, or
in the project root.  An archive depends on nothing but what is at these places.  If they are neither below
the directory of the archives nor above it, then whatever is written there while archives are made does not
change what is packed.

A tree that holds the directory of the archives would hold what has been written so far, and one inside it
would be an archive of archives.  So would the files of a project root that is among the archives.

## Main definitions

* `Bundle.packedDirectories` — the directories that are archived as trees.
* `Bundle.KeepsApart` — none of them holds the directory of the archives or is in it.
* `Bundle.Source.StandsAt` — where an entry stands.
* `Bundle.Steady` — the directory of the archives is at a place, and what is archived is elsewhere.

## Main results

* `Bundle.sources_tree` — the entries of a tree, by the names that lead to them.
* `Bundle.Steady.exists_standsAt` — all entries of an archive stand off the directory of the archives.
* `Bundle.Steady.plan_iff`, `Bundle.Steady.pack_eq` — what is written there changes no archive.
-/

namespace MailTemplate

namespace Bundle

open Disk (LeadsTo ChangedIn HasCurrent downFault)

/-! ## Files of a directory -/

section Files

variable {disk : Disk} {root : Path} {links : Nat} {here : List String} {name : String}
  {es es' : List (String × Node)} {patterns : List String}

/-- The names of the files of a directory, in order. -/
def fileNames (es : List (String × Node)) : List String :=
  ((Entries.sorted es).filter fun (_, node) => node.isFile).map Prod.fst

theorem mem_fileNames_iff :
    name ∈ fileNames es ↔ ∃ node, Entries.find? name es = some node ∧ node.isFile = true := by
  simp only [fileNames, List.mem_map, List.mem_filter, Prod.exists, exists_and_right, exists_eq_right,
    (Entries.isSorted_sorted es).mem_iff, Entries.find?_sorted]

theorem pairwise_fileNames (es : List (String × Node)) : (fileNames es).Pairwise (· < ·) := by
  rw [fileNames, List.pairwise_map]
  exact (Entries.isSorted_sorted es).filter _

/-- In order, names are determined by which of them there are. -/
theorem fileNames_eq (h : ∀ name, name ∈ fileNames es ↔ name ∈ fileNames es') :
    fileNames es = fileNames es' := by
  have hne : ∀ a b : String, a < b → a ≠ b := by
    rintro a _ hlt rfl
    exact String.lt_irrefl a hlt
  have hperm : (fileNames es).Perm (fileNames es') :=
    (List.perm_ext_iff_of_nodup ((pairwise_fileNames es).imp (hne _ _))
      ((pairwise_fileNames es').imp (hne _ _))).2 h
  apply hperm.eq_of_pairwise _ (pairwise_fileNames es) (pairwise_fileNames es')
  intro a b _ _ hlt hgt
  exact absurd (String.lt_trans hlt hgt) (String.lt_irrefl a)

/-- **The files of the project root** that are archived. -/
theorem rootFiles_eq (h : disk.LeadsTo root links here) (hes : disk.root.at? here = some (.directory es)) :
    rootFiles disk root patterns = ((readGlobs patterns).mapError .badGlob).map fun globs =>
      ((fileNames es).filter fun name => globs.any (·.accepts false name)).map fun name =>
        .file (root.child name) name := by
  rw [rootFiles, h.list_eq hes]
  cases readGlobs patterns <;> rfl

/-- Without a directory there are no files to archive. -/
theorem exists_leadsTo_of_rootFiles {members : List Member} (hcurrent : disk.HasCurrent)
    (h : rootFiles disk root patterns = .ok members) : ∃ links here, disk.LeadsTo root links here := by
  obtain ⟨globs, -, hrest⟩ := bind_eq_ok_iff.1 h
  obtain ⟨entries, hlist, -⟩ := bind_eq_ok_iff.1 hrest
  obtain ⟨node, hnode, hentries⟩ := bind_eq_ok_iff.1 (mapError_eq_ok_iff.1 hlist)
  rw [← Disk.isDirectory_iff hcurrent, Disk.isDirectory, hnode]
  cases node with
  | directory => rfl
  | file => exact absurd hentries (by simp [throw, throwThe, MonadExceptOf.throw])
  | link => exact absurd hentries (by simp [throw, throwThe, MonadExceptOf.throw])

end Files

/-! ## Entries of trees -/

section Trees

variable {disk : Disk} {directory : Path} {links : Nat} {here names : List String} {node : Node}
  {es : List (String × Node)}

/-- What an archive holds of a file or a directory. -/
def contentOf : Node → Tar.Content
  | .file bytes executable => .file bytes executable
  | _ => .directory

theorem Source.entry_eq (disk : Disk) (source : Source) :
    source.entry disk = (disk.node source.path).map fun node => ⟨source.name, contentOf node⟩ := by
  rw [Source.entry]
  cases disk.node source.path with
  | error => rfl
  | ok node => cases node <;> rfl

/-- The places below a directory that have entries in an archive. -/
def placesBelow (directory : Path) (node : Node) : List (List String × Node) :=
  ((node.visits (fun _ _ => true) directory).drop 1).filter fun v => v.2.isDirectory || v.2.isFile

theorem mem_placesBelow_iff : (names, node) ∈ placesBelow directory (.directory es) ↔
    names ≠ [] ∧ (Node.directory es).at? names = some node ∧ (node.isDirectory || node.isFile) = true := by
  rw [placesBelow, List.mem_filter, Node.mem_drop_visits_iff, Node.mem_visits_iff, Node.reaches_all_iff,
    and_assoc]

theorem pairwise_placesBelow (directory : Path) (node : Node) :
    (placesBelow directory node).Pairwise fun v w => v.1 < w.1 :=
  (Node.pairwise_visits _ directory node).drop.filter _

/-- The name of an entry of a tree. -/
def entryName (label : Option String) (names : List String) : String :=
  (label.map (· ++ "/" ++ String.intercalate "/" names)).getD (String.intercalate "/" names)

/-- **The entries of a tree** are what is below its directory. -/
theorem sources_tree (h : disk.LeadsTo directory links here)
    (hes : disk.root.at? here = some (.directory es)) (hproper : (Node.directory es).IsProper)
    (label : Option String) :
    (Member.tree directory label).sources disk =
      (placesBelow directory (.directory es)).map fun v => ⟨entryName label v.1, directory.down v.1⟩ := by
  have hwalk : ((disk.walk directory fun _ _ => true).drop 1).filter
        (fun x => x.2.isDirectory || x.2.isFile) =
      (placesBelow directory (.directory es)).map fun v => (directory.down v.1, v.2) := by
    rw [Disk.walk, h.node_eq hes]
    dsimp only
    rw [Node.walk, ← List.map_drop, List.filter_map]
    rfl
  rw [Member.sources]
  dsimp only
  rw [hwalk, List.map_map]
  refine List.map_congr_left fun v hv => ?_
  obtain ⟨hne, hat, -⟩ := mem_placesBelow_iff.1 (show (v.1, v.2) ∈ _ from hv)
  have hname := Path.relativeTo_down h.text_ne (hproper v.1 v.2 hat) hne
  simp only [Function.comp_apply, hname]
  rfl

end Trees

/-! ## Places of entries -/

/-- An entry stands at a place: a path to a directory leads there and on through some names. -/
structure Source.IsReached (source : Source) (disk : Disk) (directory : Path) (names spot : List String)
    (node : Node) : Prop where
  /-- The directory leads to a place, from which the names lead to that of the entry. -/
  leads : ∃ links here, disk.LeadsTo directory links here ∧ spot = here ++ names
  /-- The names are names. -/
  ordinary : ∀ n ∈ names, Path.IsOrdinary n
  /-- The entry is not the directory itself. -/
  ne_nil : names ≠ []
  /-- The path of the entry goes through them. -/
  path_eq : source.path = directory.down names
  /-- There is something at the place. -/
  at_eq : disk.root.at? spot = some node
  /-- It is a file or a directory. -/
  noLink : ∀ target, node ≠ .link target

/-- Where an entry stands, and what is there. -/
def Source.StandsAt (source : Source) (disk : Disk) (spot : List String) (node : Node) : Prop :=
  ∃ directory names, source.IsReached disk directory names spot node

section Sources

variable {disk after : Disk} {source : Source} {directory : Path} {names spot place changed : List String}
  {node : Node} {entry : Tar.Entry}

theorem Source.IsReached.resolve_eq (h : source.IsReached disk directory names spot node) :
    disk.resolve true source.path =
      (downFault directory names).elim (.ok (.found spot node)) .error := by
  obtain ⟨links, here, hleads, rfl⟩ := h.leads
  rw [h.path_eq]
  exact hleads.resolve_down_of_at? h.ordinary h.ne_nil h.at_eq h.noLink

/-- **The entries of a tree** stand at the places below its directory. -/
theorem Source.standsAt_of_mem_placesBelow {links : Nat} {here : List String} {es : List (String × Node)}
    (h : disk.LeadsTo directory links here) (hes : disk.root.at? here = some (.directory es))
    (hproper : (Node.directory es).IsProper) (hmem : (names, node) ∈ placesBelow directory (.directory es))
    (name : String) : (⟨name, directory.down names⟩ : Source).StandsAt disk (here ++ names) node := by
  obtain ⟨hne, hat, hkind⟩ := mem_placesBelow_iff.1 hmem
  refine ⟨directory, names, ⟨links, here, h, rfl⟩, hproper names node hat, hne, rfl, ?_, ?_⟩
  · rw [Node.at?_append, hes]
    exact hat
  · rintro target rfl
    exact Bool.false_ne_true hkind

/-- What changes in a directory leaves the places alone that are neither below it nor above. -/
theorem Source.IsReached.of_changedIn (h : source.IsReached disk directory names spot node)
    (hchanged : disk.ChangedIn place changed after) (hbelow : ¬ place <+: spot) (habove : ¬ spot <+: place) :
    source.IsReached after directory names spot node := by
  obtain ⟨links, here, hleads, hspot⟩ := h.leads
  refine ⟨⟨links, here, hleads.of_grows hchanged.grows, hspot⟩, h.ordinary, h.ne_nil, h.path_eq, ?_, h.noLink⟩
  rw [hchanged.aside spot habove fun n _ hname => hbelow ((List.prefix_append _ _).trans hname)]
  exact h.at_eq

/-- **An entry that stands elsewhere** stays as it is. -/
theorem Source.StandsAt.entry_of_changedIn (h : source.StandsAt disk spot node)
    (hchanged : disk.ChangedIn place changed after) (hbelow : ¬ place <+: spot) (habove : ¬ spot <+: place) :
    source.entry after = source.entry disk := by
  obtain ⟨directory, names, hreached⟩ := h
  have hsame : disk.node source.path = after.node source.path := by
    rw [Disk.node, Disk.node, hreached.resolve_eq,
      (hreached.of_changedIn hchanged hbelow habove).resolve_eq]
  rw [Source.entry_eq, Source.entry_eq, hsame]

/-- The path of an entry that is packed leads to where it stands. -/
theorem Source.StandsAt.resolve_of_entry (h : source.StandsAt disk spot node)
    (hentry : source.entry disk = .ok entry) :
    disk.resolve true source.path = .ok (.found spot node) ∧ entry = ⟨source.name, contentOf node⟩ := by
  obtain ⟨directory, names, hreached⟩ := h
  have hresolve := hreached.resolve_eq
  rw [Source.entry_eq, Disk.node, hresolve] at hentry
  cases hfault : downFault directory names with
  | some fault => rw [hfault] at hentry; exact absurd hentry (by simp [bind, Except.bind, Except.map])
  | none =>
    rw [hfault] at hresolve hentry
    exact ⟨hresolve, (Except.ok.inj hentry).symm⟩

end Sources

/-! ## Packing -/

section Pack

variable {disk : Disk} {members : List Member} {source : Source} {entries : List Tar.Entry}
  {archive : Bytes}

/-- What is packed is the entry. -/
theorem Source.entry_of_pack {packed : Tar.Entry × Bytes} (h : source.pack disk = .ok packed) :
    source.entry disk = .ok packed.1 := by
  obtain ⟨entry, hentry, hrest⟩ := bind_eq_ok_iff.1 h
  obtain ⟨bytes, -, hpacked⟩ := bind_eq_ok_iff.1 hrest
  obtain rfl := Except.ok.inj hpacked
  exact mapError_eq_ok_iff.1 hentry

/-- **A packed archive** has an entry for every source. -/
theorem forall₂_of_pack (h : pack disk members = .ok (entries, archive)) :
    List.Forall₂ (fun source entry => source.entry disk = .ok entry)
      (members.flatMap (·.sources disk)) entries := by
  obtain ⟨packed, hpacked, hresult⟩ := bind_eq_ok_iff.1 h
  obtain ⟨rfl, -⟩ := Prod.mk.inj (Except.ok.inj hresult)
  rw [List.forall₂_map_right_iff]
  exact (mapM_eq_ok_iff.1 hpacked).imp fun _ _ hpack => Source.entry_of_pack hpack

end Pack

/-! ## Keeping apart -/

/-- The directories that are archived as trees. -/
def packedDirectories (layout : Layout) : List Path :=
  [layout.output, layout.clientDirectory Client.html.name, layout.clientDirectory Client.outlook.name,
    layout.components, layout.sourceRoot]

/-- The place of the directory that a path leads to. -/
def directoryPlace? (disk : Disk) (path : Path) : Option (List String) :=
  match disk.resolve true path with
  | .ok (.found place (.directory _)) => some place
  | _ => none

/-- No tree that is archived holds the directory of the archives or is in it, and neither is the root. -/
structure KeepsApart (layout : Layout) (disk : Disk) : Prop where
  /-- The trees are elsewhere. -/
  trees : ∀ directory ∈ packedDirectories layout, ∀ here ∈ directoryPlace? disk directory,
    ∀ place ∈ directoryPlace? disk layout.archives, ¬ here <+: place ∧ ¬ place <+: here
  /-- The root is not among the archives. -/
  root : ∀ here ∈ directoryPlace? disk layout.root, ∀ place ∈ directoryPlace? disk layout.archives,
    ¬ place <+: here

instance (layout : Layout) (disk : Disk) : Decidable (KeepsApart layout disk) :=
  decidable_of_iff
    ((∀ directory ∈ packedDirectories layout, ∀ here ∈ directoryPlace? disk directory,
      ∀ place ∈ directoryPlace? disk layout.archives, ¬ here <+: place ∧ ¬ place <+: here) ∧
      ∀ here ∈ directoryPlace? disk layout.root, ∀ place ∈ directoryPlace? disk layout.archives,
        ¬ place <+: here)
    ⟨fun h => ⟨h.1, h.2⟩, fun h => ⟨h.trees, h.root⟩⟩

section Apart

variable {disk after : Disk} {layout : Layout} {settings : ArchiveSettings} {kind : ArchiveKind}
  {path directory : Path} {links links' : Nat} {place here changed : List String}
  {members : List Member} {source : Source} {planned : Option (List Member)}
  {entries : List Tar.Entry} {archive : Bytes}

theorem directoryPlace?_of_leadsTo (h : disk.LeadsTo path links place) :
    directoryPlace? disk path = some place := by
  obtain ⟨es, hes⟩ := h.directory
  rw [directoryPlace?, h.resolve_eq hes]

theorem KeepsApart.of_tree (h : KeepsApart layout disk) (harchives : disk.LeadsTo layout.archives links place)
    (hpacked : directory ∈ packedDirectories layout) (hleads : disk.LeadsTo directory links' here) :
    ¬ here <+: place ∧ ¬ place <+: here :=
  h.trees directory hpacked here (directoryPlace?_of_leadsTo hleads) place
    (directoryPlace?_of_leadsTo harchives)

theorem KeepsApart.of_root (h : KeepsApart layout disk) (harchives : disk.LeadsTo layout.archives links place)
    (hleads : disk.LeadsTo layout.root links' here) : ¬ place <+: here :=
  h.root here (directoryPlace?_of_leadsTo hleads) place (directoryPlace?_of_leadsTo harchives)

/-- Which entries the members of an archive are: trees of some directories, and files of the root. -/
inductive IsMember (layout : Layout) (disk : Disk) : Member → Prop
  /-- A tree. -/
  | tree {directory : Path} (label : Option String) (hpacked : directory ∈ packedDirectories layout)
    (hdirectory : disk.isDirectory directory = true) : IsMember layout disk (.tree directory label)
  /-- A file. -/
  | file {links : Nat} {here : List String} {name : String} {node : Node}
    (hleads : disk.LeadsTo layout.root links here)
    (hat : disk.root.at? (here ++ [name]) = some node) (hfile : node.isFile = true) :
    IsMember layout disk (.file (layout.root.child name) name)

theorem isMember_of_bareTree (hpacked : directory ∈ packedDirectories layout)
    (h : bareTree disk directory = some members) : ∀ m ∈ members, IsMember layout disk m := by
  unfold bareTree at h
  split at h
  · next hdirectory =>
    obtain rfl := Option.some.inj h
    intro m hm
    obtain rfl := List.mem_singleton.1 hm
    exact .tree none hpacked hdirectory
  · exact absurd h (by simp)

theorem isMember_of_namedTrees {directories : List Path} (hpacked : directories ⊆ packedDirectories layout) :
    ∀ m ∈ namedTrees disk layout.root directories, IsMember layout disk m := by
  intro m hm
  obtain ⟨directory, hmem, rfl⟩ := List.mem_map.1 hm
  obtain ⟨hmem, hdirectory⟩ := List.mem_filter.1 hmem
  exact .tree _ (hpacked hmem) hdirectory

theorem isMember_of_rootFiles {patterns : List String} (hcurrent : disk.HasCurrent)
    (h : rootFiles disk layout.root patterns = .ok members) : ∀ m ∈ members, IsMember layout disk m := by
  obtain ⟨links, here, hleads⟩ := exists_leadsTo_of_rootFiles hcurrent h
  obtain ⟨es, hes⟩ := hleads.directory
  rw [rootFiles_eq hleads hes] at h
  obtain ⟨globs, -, rfl⟩ := map_eq_ok_iff.1 h
  intro m hm
  obtain ⟨name, hname, rfl⟩ := List.mem_map.1 hm
  obtain ⟨node, hnode, hfile⟩ := mem_fileNames_iff.1 (List.mem_filter.1 hname).1
  exact .file hleads ((Node.at?_concat_eq hes).trans hnode) hfile

/-- **All members of an archive** are trees or files of the root. -/
theorem isMember_of_plan (hcurrent : disk.HasCurrent)
    (h : plan disk layout settings kind = .ok (some members)) : ∀ m ∈ members, IsMember layout disk m := by
  cases kind with
  | html => exact isMember_of_bareTree (by simp [packedDirectories]) (Except.ok.inj h)
  | exportHtml => exact isMember_of_bareTree (by simp [packedDirectories]) (Except.ok.inj h)
  | outlook => exact isMember_of_bareTree (by simp [packedDirectories]) (Except.ok.inj h)
  | source =>
    rw [plan] at h
    have htrees := @isMember_of_namedTrees disk layout [layout.components, layout.sourceRoot]
      (by simp [packedDirectories])
    cases hnamed : namedTrees disk layout.root [layout.components, layout.sourceRoot] with
    | nil => rw [hnamed] at h; exact absurd (Except.ok.inj h) (by simp)
    | cons tree trees =>
      rw [hnamed] at h htrees
      obtain ⟨files, hfiles, hmembers⟩ := bind_eq_ok_iff.1 h
      obtain rfl := Option.some.inj (Except.ok.inj hmembers)
      exact List.forall_mem_append.2 ⟨htrees, isMember_of_rootFiles hcurrent hfiles⟩
  | complete =>
    obtain ⟨files, hfiles, hmembers⟩ := bind_eq_ok_iff.1 h
    obtain rfl := Option.some.inj (Except.ok.inj hmembers)
    exact List.forall_mem_append.2 ⟨isMember_of_namedTrees fun _ hmem => hmem,
      isMember_of_rootFiles hcurrent hfiles⟩

/-! ## Changes among the archives -/

/-- The directory of the archives is at a place, and what is archived is elsewhere. -/
structure Steady (layout : Layout) (links : Nat) (place : List String) (disk : Disk) : Prop where
  /-- The current directory exists. -/
  current : disk.HasCurrent
  /-- The directory of the archives is at the place. -/
  leads : disk.LeadsTo layout.archives links place
  /-- What is archived is elsewhere. -/
  apart : KeepsApart layout disk

theorem isDirectory_of_changedIn (hcurrent : disk.HasCurrent) (h : disk.ChangedIn place changed after)
    (path : Path) : after.isDirectory path = disk.isDirectory path := by
  rw [Bool.eq_iff_iff]
  constructor
  · intro hafter
    exact Disk.isDirectory_of_grows (hcurrent.grows h.grows) hafter h.back
  · intro hdisk
    exact Disk.isDirectory_of_grows hcurrent hdisk h.grows

theorem leadsTo_of_directoryPlace? (hcurrent : disk.HasCurrent) (h : here ∈ directoryPlace? disk path) :
    ∃ links, disk.LeadsTo path links here := by
  have hdirectory : disk.isDirectory path = true := by
    rw [directoryPlace?] at h
    split at h
    · next hresolve => rw [Disk.isDirectory, Disk.node_eq_ok_iff.2 ⟨_, hresolve⟩]; rfl
    · exact absurd h (by simp)
  obtain ⟨links, here', hleads⟩ := (Disk.isDirectory_iff hcurrent).1 hdirectory
  -- A directory has one place.
  obtain rfl := Option.some.inj ((directoryPlace?_of_leadsTo hleads).symm.trans h)
  exact ⟨links, hleads⟩

namespace Steady

theorem of_changedIn (h : Steady layout links place disk) (hchanged : disk.ChangedIn place changed after) :
    Steady layout links place after := by
  -- Directories that the changed disk has were there before, since only files change.
  have hplace : ∀ path here, here ∈ directoryPlace? after path → here ∈ directoryPlace? disk path := by
    intro path here hhere
    obtain ⟨links, hleads⟩ := leadsTo_of_directoryPlace? (h.current.grows hchanged.grows) hhere
    exact directoryPlace?_of_leadsTo (hleads.of_grows hchanged.back)
  refine ⟨h.current.grows hchanged.grows, h.leads.of_grows hchanged.grows, ?_, ?_⟩
  · intro directory hpacked here hhere place hat
    exact h.apart.trees directory hpacked here (hplace _ _ hhere) place (hplace _ _ hat)
  · intro here hhere place hat
    exact h.apart.root here (hplace _ _ hhere) place (hplace _ _ hat)

/-- **Every entry of an archive** stands neither below the directory of the archives nor above it. -/
theorem exists_standsAt (h : Steady layout links place disk) (hproper : disk.root.IsProper) {m : Member}
    (hm : IsMember layout disk m) (hsource : source ∈ m.sources disk) :
    ∃ spot node, source.StandsAt disk spot node ∧ ¬ place <+: spot ∧ ¬ spot <+: place := by
  obtain ⟨archived, harchived⟩ := h.leads.directory
  cases hm with
  | @tree directory label hpacked hdirectory =>
    obtain ⟨links', here, hleads⟩ := (Disk.isDirectory_iff h.current).1 hdirectory
    obtain ⟨es, hes⟩ := hleads.directory
    obtain ⟨hholds, hbelow⟩ := h.apart.of_tree h.leads hpacked hleads
    have hinside := hproper.of_at? hes
    rw [sources_tree hleads hes hinside] at hsource
    obtain ⟨⟨names, node⟩, hv, rfl⟩ := List.mem_map.1 hsource
    refine ⟨here ++ names, node, Source.standsAt_of_mem_placesBelow hleads hes hinside hv _, ?_, ?_⟩
    · intro hprefix
      -- Of two places on one way one is above the other.
      rcases List.prefix_or_prefix_of_prefix hprefix (List.prefix_append here names) with h | h
      · exact hbelow h
      · exact hholds h
    · intro hprefix
      exact hholds ((List.prefix_append here names).trans hprefix)
  | @file links' here name node hleads hat hfile =>
    obtain rfl := List.mem_singleton.1 hsource
    have hbelow := h.apart.of_root h.leads hleads
    refine ⟨here ++ [name], node, ⟨layout.root, [name], ?_⟩, ?_, ?_⟩
    · refine ⟨⟨links', here, hleads, rfl⟩, ?_, List.cons_ne_nil _ _, rfl, hat, ?_⟩
      · intro n hn
        exact hproper _ _ hat n (List.mem_append_right _ hn)
      · rintro target rfl
        exact Bool.false_ne_true hfile
    · intro hprefix
      rcases List.prefix_concat_iff.1 hprefix with rfl | h
      · -- A file is no directory of archives.
        rw [harchived] at hat
        obtain rfl := Option.some.inj hat
        exact Bool.false_ne_true hfile
      · exact hbelow h
    · rintro ⟨rest, rfl⟩
      obtain ⟨es, hes⟩ := Node.exists_directory_of_append harchived
      obtain rfl := Option.some.inj (hes.symm.trans hat)
      exact Bool.false_ne_true hfile

/-- The files of the root are the same. -/
theorem rootFiles_of_changedIn {patterns : List String} (h : Steady layout links place disk)
    (hchanged : disk.ChangedIn place changed after)
    (hfiles : rootFiles disk layout.root patterns = .ok members) :
    rootFiles after layout.root patterns = .ok members := by
  obtain ⟨links', here, hleads⟩ := exists_leadsTo_of_rootFiles h.current hfiles
  obtain ⟨es, hes⟩ := hleads.directory
  have hleads' := hleads.of_grows hchanged.grows
  obtain ⟨es', hes'⟩ := hleads'.directory
  have hbelow := h.apart.of_root h.leads hleads
  obtain ⟨archived, harchived⟩ := h.leads.directory
  have hnames : fileNames es' = fileNames es := by
    apply fileNames_eq
    intro name
    rw [mem_fileNames_iff, mem_fileNames_iff, ← Node.at?_concat_eq hes, ← Node.at?_concat_eq hes']
    by_cases habove : here ++ [name] <+: place
    · -- On the way to the archives there are directories only.
      obtain ⟨rest, rfl⟩ := habove
      obtain ⟨before, hbefore⟩ := Node.exists_directory_of_append harchived
      obtain ⟨now, hnow⟩ := hchanged.grows.1.directory _ _ hbefore
      rw [hbefore, hnow]
      simp [Node.isFile]
    · rw [hchanged.aside _ habove]
      intro n _ hprefix
      rcases List.prefix_concat_iff.1 ((List.prefix_append place [n]).trans hprefix) with heq | h
      · exact habove (heq ▸ List.prefix_refl _)
      · exact hbelow h
  rw [rootFiles_eq hleads' hes', hnames, ← rootFiles_eq hleads hes]
  exact hfiles

theorem plan_of_changedIn (h : Steady layout links place disk) (hchanged : disk.ChangedIn place changed after)
    (hplan : plan disk layout settings kind = .ok planned) :
    plan after layout settings kind = .ok planned := by
  have hbare : ∀ directory, bareTree after directory = bareTree disk directory := by
    intro directory
    rw [bareTree, bareTree, isDirectory_of_changedIn h.current hchanged]
  have hnamed : ∀ directories,
      namedTrees after layout.root directories = namedTrees disk layout.root directories := by
    intro directories
    rw [namedTrees, namedTrees,
      List.filter_congr fun directory _ => isDirectory_of_changedIn h.current hchanged directory]
  cases kind with
  | html => exact (congrArg _ (hbare _)).trans hplan
  | exportHtml => exact (congrArg _ (hbare _)).trans hplan
  | outlook => exact (congrArg _ (hbare _)).trans hplan
  | source =>
    -- Files of the root are archived only with a tree, so the case of no trees is apart.
    rw [plan] at hplan ⊢
    rw [hnamed]
    cases htrees : namedTrees disk layout.root [layout.components, layout.sourceRoot] with
    | nil => rw [htrees] at hplan; exact hplan
    | cons tree trees =>
      rw [htrees] at hplan
      obtain ⟨files, hfiles, hmembers⟩ := bind_eq_ok_iff.1 hplan
      exact bind_eq_ok_iff.2 ⟨files, h.rootFiles_of_changedIn hchanged hfiles, hmembers⟩
  | complete =>
    obtain ⟨files, hfiles, hmembers⟩ := bind_eq_ok_iff.1 hplan
    refine bind_eq_ok_iff.2 ⟨files, h.rootFiles_of_changedIn hchanged hfiles, ?_⟩
    rw [hnamed]
    exact hmembers

/-- **What is written among the archives** changes no plan. -/
theorem plan_iff (h : Steady layout links place disk) (hchanged : disk.ChangedIn place changed after) :
    plan after layout settings kind = .ok planned ↔ plan disk layout settings kind = .ok planned :=
  ⟨(h.of_changedIn hchanged).plan_of_changedIn hchanged.symm, h.plan_of_changedIn hchanged⟩

theorem sources_of_changedIn (h : Steady layout links place disk) (hproper : disk.root.IsProper)
    (hchanged : disk.ChangedIn place changed after) {m : Member} (hm : IsMember layout disk m) :
    m.sources after = m.sources disk := by
  cases hm with
  | file => rfl
  | tree label hpacked hdirectory =>
    obtain ⟨links', here, hleads⟩ := (Disk.isDirectory_iff h.current).1 hdirectory
    obtain ⟨es, hes⟩ := hleads.directory
    obtain ⟨hholds, hbelow⟩ := h.apart.of_tree h.leads hpacked hleads
    have hes' : after.root.at? here = some (.directory es) := by
      rw [hchanged.aside here hholds fun n _ hname => hbelow ((List.prefix_append _ _).trans hname)]
      exact hes
    have hinside := hproper.of_at? hes
    rw [sources_tree hleads hes hinside, sources_tree (hleads.of_grows hchanged.grows) hes' hinside]

/-- **What is written among the archives** changes nothing that is packed. -/
theorem pack_eq (h : Steady layout links place disk) (hproper : disk.root.IsProper)
    (hchanged : disk.ChangedIn place changed after) (hmembers : ∀ m ∈ members, IsMember layout disk m) :
    pack after members = pack disk members := by
  have hsources : members.flatMap (·.sources after) = members.flatMap (·.sources disk) :=
    List.flatMap_congr fun m hm => h.sources_of_changedIn hproper hchanged (hmembers m hm)
  have hpack : ∀ source ∈ members.flatMap (·.sources disk), source.pack after = source.pack disk := by
    intro source hsource
    obtain ⟨m, hm, hsource⟩ := List.mem_flatMap.1 hsource
    obtain ⟨spot, node, hstands, hbelow, habove⟩ := h.exists_standsAt hproper (hmembers m hm) hsource
    rw [Source.pack, Source.pack, hstands.entry_of_changedIn hchanged hbelow habove]
  rw [pack, pack, hsources, mapM_congr hpack]

end Steady

end Apart

end Bundle

end MailTemplate
