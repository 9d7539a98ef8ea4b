import MailTemplate.Proofs.DiskPlaces

/-!
# Files of a directory

When files of a directory are written and removed, nothing changes but what is at their names: paths lead
where they led, and everything else reads as before.  This takes that no link stands at the names, since a
file is written through a link and then it is another one that changes.

## Main definitions

* `Disk.ChangedIn` — only what is at some names of a directory has changed.
* `Disk.NoLinksIn` — no entry of a directory is a link.

## Main results

* `Disk.LeadsTo.write_child`, `Disk.LeadsTo.writeIfChanged_child`, `Disk.LeadsTo.removeFile_child` — what
  writing and removing a file changes.
* `Disk.ChangedIn.read_child_iff` — the other files of the directory read as before.
-/

namespace MailTemplate

/-! ## Entries that are erased -/

theorem Entries.find?_erase_of_ne {α : Type} {key other : String} (h : key ≠ other)
    (entries : List (String × α)) : find? other (erase key entries) = find? other entries := by
  induction entries with
  | nil => rfl
  | cons e rest ih =>
    obtain ⟨k, a⟩ := e
    rw [erase] at ih ⊢
    by_cases hk : k = key
    · subst hk
      rw [List.filter_cons_of_neg (by simp), ih, find?, if_neg h]
    · rw [List.filter_cons_of_pos (by simpa using hk), find?, find?, ih]

theorem Entries.find?_erase_self {α : Type} (key : String) (entries : List (String × α)) :
    find? key (erase key entries) = none := by
  induction entries with
  | nil => rfl
  | cons e rest ih =>
    obtain ⟨k, a⟩ := e
    rw [erase] at ih ⊢
    by_cases hk : k = key
    · rw [List.filter_cons_of_neg (by simpa using hk), ih]
    · rw [List.filter_cons_of_pos (by simpa using hk), find?, if_neg hk, ih]

namespace Node

variable {node : Node} {front place rest : List String} {name : String} {es : List (String × Node)}
  {change : List String → Node → Node}

theorem remove_cons {inner : Node} {names : List String} (hnames : names ≠ [])
    (h : Entries.find? name es = some inner) :
    remove (name :: names) (directory es) =
      directory (Entries.insert name (remove names inner) es) := by
  cases names with
  | nil => exact absurd rfl hnames
  | cons next names => simp [remove, h]

theorem isChangeOf_remove (name : String) : IsChangeOf name fun front => remove (front ++ [name]) where
  here es := ⟨_, rfl, fun _ hne => Entries.find?_erase_of_ne hne es⟩
  above _ front _ _ hfind :=
    remove_cons (List.append_ne_nil_of_right_ne_nil front (List.cons_ne_nil name [])) hfind

/-! ## Files that come and go -/

/-- There is a file, or nothing. -/
def IsFileIfAny (found : Option Node) : Prop := ∀ node, found = some node → node.isFile = true

theorem IsFileIfAny.ne_directory {found : Option Node} (h : IsFileIfAny found) :
    found ≠ some (directory es) :=
  fun hes => Bool.noConfusion (h _ hes)

theorem IsFileIfAny.ne_link {found : Option Node} (h : IsFileIfAny found) (target : Path) :
    found ≠ some (link target) :=
  fun hlink => Bool.noConfusion (h _ hlink)

/-- Nothing is below a file. -/
theorem IsFileIfAny.below (h : IsFileIfAny (at? place node)) (rest : List String) :
    IsFileIfAny (at? (place ++ rest) node) := by
  intro inner hinner
  rw [at?_append] at hinner
  obtain ⟨there, hthere, hrest⟩ := Option.bind_eq_some_iff.1 hinner
  have hfile := h there hthere
  cases there with
  | directory => exact absurd hfile Bool.false_ne_true
  | link => exact absurd hfile Bool.false_ne_true
  | file =>
    cases rest with
    | nil => exact Option.some.inj hrest ▸ rfl
    | cons => exact absurd hrest (by simp [at?])

/-- **A file that comes, changes or goes** lets the tree grow, and it lets it grow back. -/
theorem IsChangeOf.grows (h : IsChangeOf name change) (hfront : at? front node = some (directory es))
    (hold : IsFileIfAny (at? (front ++ [name]) node))
    (hnew : IsFileIfAny (at? [name] (change [] (directory es)))) :
    Grows node (change front node) ∧ Grows (change front node) node := by
  have hcases : ∀ p, at? p (change front node) = at? p node ∨
      ((∃ es', at? p node = some (directory es')) ∧
        ∃ es', at? p (change front node) = some (directory es')) ∨
      IsFileIfAny (at? p node) ∧ IsFileIfAny (at? p (change front node)) := by
    intro p
    by_cases hp : front ++ [name] <+: p
    · obtain ⟨rest, rfl⟩ := hp
      have hafter : IsFileIfAny (at? (front ++ [name]) (change front node)) := by
        rw [h.at?_append hfront]
        exact hnew
      exact .inr (.inr ⟨hold.below rest, hafter.below rest⟩)
    · exact (h.at?_cases hfront p hp).imp_right fun hdirectories => .inl hdirectories.2
  constructor
  · apply Grows.of_cases
    intro p
    rcases hcases p with heq | ⟨⟨es₁, h₁⟩, es₂, h₂⟩ | ⟨hbefore, hafter⟩
    · exact .inl heq
    · exact .inr (by simp [h₁, h₂])
    · exact .inr ⟨hafter.ne_link, hbefore.ne_link, fun _ hes => absurd hes hbefore.ne_directory⟩
  · apply Grows.of_cases
    intro p
    rcases hcases p with heq | ⟨⟨es₁, h₁⟩, es₂, h₂⟩ | ⟨hbefore, hafter⟩
    · exact .inl heq.symm
    · exact .inr (by simp [h₁, h₂])
    · exact .inr ⟨hbefore.ne_link, hafter.ne_link, fun _ hes => absurd hes hafter.ne_directory⟩

end Node

namespace Disk

/-- Only what is at some names of a directory has changed, and the directories above hold what has. -/
structure ChangedIn (place names : List String) (disk after : Disk) : Prop where
  /-- Directories and links stay. -/
  grows : disk.Grows after
  /-- None is new. -/
  back : after.Grows disk
  /-- Everything else is as before. -/
  aside : ∀ p, ¬ p <+: place → (∀ n ∈ names, ¬ place ++ [n] <+: p) →
    after.root.at? p = disk.root.at? p

namespace ChangedIn

variable {disk after : Disk} {path : Path} {links : Nat} {place names more : List String}
  {name : String} {bytes : Bytes}

theorem refl (place names : List String) (disk : Disk) : ChangedIn place names disk disk :=
  ⟨.refl _, .refl _, fun _ _ _ => rfl⟩

theorem symm (h : ChangedIn place names disk after) : ChangedIn place names after disk :=
  ⟨h.back, h.grows, fun p hp hnames => (h.aside p hp hnames).symm⟩

theorem trans {disk₁ disk₂ disk₃ : Disk} (h : ChangedIn place names disk₁ disk₂)
    (h' : ChangedIn place names disk₂ disk₃) : ChangedIn place names disk₁ disk₃ :=
  ⟨h.grows.trans h'.grows, h'.back.trans h.back, fun p hp hnames =>
    (h'.aside p hp hnames).trans (h.aside p hp hnames)⟩

theorem mono (h : ChangedIn place names disk after) (hsubset : names ⊆ more) :
    ChangedIn place more disk after :=
  ⟨h.grows, h.back, fun p hp hmore => h.aside p hp fun n hn => hmore n (hsubset hn)⟩

/-- A change of one entry, from a file or nothing to a file or nothing. -/
theorem of_change {change : List String → Node → Node} {es : List (String × Node)}
    (h : Node.IsChangeOf name change) (hplace : disk.root.at? place = some (.directory es))
    (hold : Node.IsFileIfAny (disk.root.at? (place ++ [name])))
    (hnew : Node.IsFileIfAny (Node.at? [name] (change [] (.directory es)))) :
    ChangedIn place [name] disk { disk with root := change place disk.root } := by
  obtain ⟨hgrows, hback⟩ := h.grows hplace hold hnew
  refine ⟨⟨hgrows, rfl⟩, ⟨hback, rfl⟩, fun p hp hname => ?_⟩
  rcases h.at?_cases hplace p (hname name List.mem_cons_self) with heq | ⟨habove, -⟩
  · exact heq
  · exact absurd habove hp

/-- What is at another name is as before. -/
theorem at?_child (h : ChangedIn place names disk after) (hname : name ∉ names) :
    after.root.at? (place ++ [name]) = disk.root.at? (place ++ [name]) := by
  apply h.aside
  · intro habove
    have hlength := habove.length_le
    simp only [List.length_append, List.length_singleton] at hlength
    omega
  · intro n hn hbegins
    have hsame := List.append_cancel_left (hbegins.eq_of_length (by simp))
    exact hname ((List.cons.inj hsame).1 ▸ hn)

/-- No link comes to stand anywhere. -/
theorem noLink (h : ChangedIn place names disk after) {p : List String}
    (hlink : ∀ target, disk.root.at? p ≠ some (.link target)) (target : Path) :
    after.root.at? p ≠ some (.link target) :=
  fun hnew => hlink target ((h.grows.1.link p target).1 hnew)

/-- **Another file of the directory** reads as before. -/
theorem read_child_iff (h : ChangedIn place names disk after) (hleads : disk.LeadsTo path links place)
    (hname : Path.IsOrdinary name) (hlink : ∀ target, disk.root.at? (place ++ [name]) ≠ some (.link target))
    (hn : name ∉ names) :
    after.read (path.child name) = .ok bytes ↔ disk.read (path.child name) = .ok bytes := by
  have hcurrent : after = { disk with root := after.root } := by
    rw [← h.grows.2]
  rcases hleads.child_cases hname hlink with ⟨front, hway⟩ | ⟨fault, hfault⟩
  · have hway' : after.WayBy (path.child name) front [name] links place := by
      rw [hcurrent]
      exact hway.grows h.grows.1
    rw [hway.read_iff, hway'.read_iff, h.at?_child hn]
  · have hold : disk.resolve true (path.child name) = .error fault := hfault disk.root true (.refl _)
    have hnew : after.resolve true (path.child name) = .error fault := by
      rw [hcurrent]
      exact hfault after.root true h.grows.1
    simp [Disk.read, Disk.node, hold, hnew, bind, Except.bind]

end ChangedIn

/-! ## Writing and removing -/

section Write

variable {disk after : Disk} {path : Path} {links : Nat} {place : List String} {name : String}
  {bytes : Bytes} {outcome : Except Fault Unit}

theorem write_run (path : Path) (bytes : Bytes) (disk : Disk) :
    (write path bytes).run disk = match disk.resolve true path with
      | .error fault => (.error fault, disk)
      | .ok (.found names (.file _ executable)) => (.ok (), disk.put names (.file bytes executable))
      | .ok (.found ..) => (.error .isDirectory, disk)
      | .ok (.free names name trailing) =>
        if trailing then (.error .isDirectory, disk)
        else (.ok (), disk.put (names ++ [name]) (.file bytes false)) := by
  rw [write, run_get_bind]
  cases disk.resolve true path with
  | error fault => rfl
  | ok found =>
    cases found with
    | found names node => cases node <;> rfl
    | free names name trailing => cases trailing <;> rfl

theorem removeFile_run (path : Path) (disk : Disk) :
    (removeFile path).run disk = match disk.resolve false path with
      | .error fault => (.error fault, disk)
      | .ok (.found _ (.directory _)) => (.error .isDirectory, disk)
      | .ok (.found names _) => (.ok (), { disk with root := Node.remove names disk.root })
      | .ok (.free ..) => (.error .missing, disk) := by
  rw [removeFile, run_get_bind]
  cases disk.resolve false path with
  | error fault => rfl
  | ok found =>
    cases found with
    | found names node => cases node <;> rfl
    | free => rfl

/-- What can be read is a file. -/
theorem isFile_of_read (h : disk.read path = .ok bytes) : disk.isFile path = true := by
  rw [read] at h
  rw [isFile]
  cases hnode : disk.node path with
  | error fault => rw [hnode] at h; exact absurd h (by simp [bind, Except.bind])
  | ok node =>
    rw [hnode] at h
    cases node with
    | file => rfl
    | link => exact absurd h (by simp [bind, Except.bind, throw, throwThe, MonadExceptOf.throw])
    | directory => exact absurd h (by simp [bind, Except.bind, throw, throwThe, MonadExceptOf.throw])

/-- What a way with one name leads to, and what that name is. -/
theorem WayBy.resolve_child {front : List String} (h : disk.WayBy path front [name] links place)
    (follow : Bool) :
    disk.resolve follow path = match disk.root.at? (place ++ [name]) with
      | none => .ok (.free place name false)
      | some node => .ok (.found (place ++ [name]) node) := by
  have hname := h.isName name List.mem_cons_self
  have hlink := h.noLink [name] (List.prefix_refl _)
  rw [h.resolve_eq follow]
  cases hat : disk.root.at? (place ++ [name]) with
  | none => exact walkFrom_cons_none hname (by simp) hat
  | some node =>
    cases node with
    | file => exact walkFrom_cons_file hname hat
    | link target => exact absurd hat (hlink target)
    | directory es => rw [walkFrom_cons_directory hname hat, walkFrom_nil, hat]; rfl

/-- **Writing a file of a directory** changes that file and nothing else.  If it fails there was no file,
and nothing changes. -/
theorem LeadsTo.write_child (h : disk.LeadsTo path links place) (hname : Path.IsOrdinary name)
    (hlink : ∀ target, disk.root.at? (place ++ [name]) ≠ some (.link target))
    (hrun : (write (path.child name) bytes).run disk = (outcome, after)) :
    disk.ChangedIn place [name] after ∧
      (outcome = .ok () ∧ after.read (path.child name) = .ok bytes ∨
        (∃ fault, outcome = .error fault) ∧ after = disk ∧
          ∀ old, disk.read (path.child name) ≠ .ok old) := by
  obtain ⟨es, hes⟩ := h.directory
  rcases h.child_cases hname hlink with ⟨front, hway⟩ | ⟨fault, hfault⟩
  · have hput : ∀ executable, Node.IsFileIfAny (disk.root.at? (place ++ [name])) →
        disk.ChangedIn place [name] (disk.put (place ++ [name]) (.file bytes executable)) ∧
          (disk.put (place ++ [name]) (.file bytes executable)).read (path.child name) = .ok bytes := by
      intro executable hold
      have hnew : Node.IsFileIfAny (Node.at? [name]
          (Node.put (.file bytes executable) ([] ++ [name]) (.directory es))) := by
        intro node hnode
        rw [List.nil_append, Node.put, Node.at?, Entries.find?_insert_self] at hnode
        exact Option.some.inj hnode ▸ rfl
      have hchanged := ChangedIn.of_change (Node.isChangeOf_put name (.file bytes executable)) hes hold hnew
      exact ⟨hchanged, (hway.grows hchanged.grows.1).read_iff.2 ⟨executable, Node.at?_put_append hes []⟩⟩
    rw [write_run, hway.resolve_child] at hrun
    cases hat : disk.root.at? (place ++ [name]) with
    | none =>
      rw [hat] at hrun
      obtain ⟨rfl, rfl⟩ := Prod.mk.inj hrun
      obtain ⟨hchanged, hread⟩ := hput false (by simp [Node.IsFileIfAny, hat])
      exact ⟨hchanged, .inl ⟨rfl, hread⟩⟩
    | some node =>
      rw [hat] at hrun
      cases node with
      | file old executable =>
        obtain ⟨rfl, rfl⟩ := Prod.mk.inj hrun
        obtain ⟨hchanged, hread⟩ := hput executable (by simp [Node.IsFileIfAny, hat, Node.isFile])
        exact ⟨hchanged, .inl ⟨rfl, hread⟩⟩
      | link target => exact absurd hat (hlink target)
      | directory es' =>
        obtain ⟨rfl, rfl⟩ := Prod.mk.inj hrun
        refine ⟨.refl _ _ _, .inr ⟨⟨_, rfl⟩, rfl, fun old hold => ?_⟩⟩
        obtain ⟨executable, hfile⟩ := hway.read_iff.1 hold
        exact absurd (hat.symm.trans hfile) (by simp)
  · have hresolve : disk.resolve true (path.child name) = .error fault := hfault disk.root true (.refl _)
    rw [write_run, hresolve] at hrun
    obtain ⟨rfl, rfl⟩ := Prod.mk.inj hrun
    refine ⟨.refl _ _ _, .inr ⟨⟨fault, rfl⟩, rfl, fun old hold => ?_⟩⟩
    rw [read, Disk.node, hresolve] at hold
    exact absurd hold (by simp [bind, Except.bind])

/-- **Removing a file of a directory** changes that file and nothing else. -/
theorem LeadsTo.removeFile_child (h : disk.LeadsTo path links place) (hname : Path.IsOrdinary name)
    (hlink : ∀ target, disk.root.at? (place ++ [name]) ≠ some (.link target))
    (hrun : (removeFile (path.child name)).run disk = (outcome, after)) :
    disk.ChangedIn place [name] after := by
  obtain ⟨es, hes⟩ := h.directory
  rcases h.child_cases hname hlink with ⟨front, hway⟩ | ⟨fault, hfault⟩
  · rw [removeFile_run, hway.resolve_child] at hrun
    cases hat : disk.root.at? (place ++ [name]) with
    | none =>
      rw [hat] at hrun
      obtain ⟨-, rfl⟩ := Prod.mk.inj hrun
      exact .refl _ _ _
    | some node =>
      rw [hat] at hrun
      cases node with
      | file bytes executable =>
        obtain ⟨-, rfl⟩ := Prod.mk.inj hrun
        have hold : Node.IsFileIfAny (disk.root.at? (place ++ [name])) := by
          simp [Node.IsFileIfAny, hat, Node.isFile]
        have hnew : Node.IsFileIfAny (Node.at? [name] (Node.remove ([] ++ [name]) (.directory es))) := by
          simp [Node.IsFileIfAny, Node.remove, Node.at?, Entries.find?_erase_self]
        exact ChangedIn.of_change (Node.isChangeOf_remove name) hes hold hnew
      | link target => exact absurd hat (hlink target)
      | directory es' =>
        obtain ⟨-, rfl⟩ := Prod.mk.inj hrun
        exact .refl _ _ _
  · have hresolve : disk.resolve false (path.child name) = .error fault :=
      hfault disk.root false (.refl _)
    rw [removeFile_run, hresolve] at hrun
    obtain ⟨-, rfl⟩ := Prod.mk.inj hrun
    exact .refl _ _ _

/-- A file of a directory that does not hold its bytes is written, since the directory is there. -/
theorem LeadsTo.writeIfChanged_child_run (h : disk.LeadsTo path links place) (hcurrent : disk.HasCurrent)
    (hname : Path.IsStep name) (hread : disk.read (path.child name) ≠ .ok bytes) :
    (writeIfChanged (path.child name) bytes).run disk =
      (write (path.child name) bytes >>= fun _ => (pure true : DiskM Bool)).run disk := by
  obtain ⟨q, hparent, hq⟩ := h.exists_parent_child hname
  have hmake := makeDirectories_run_of_isDirectory hcurrent ((isDirectory_iff hcurrent).2 ⟨_, _, hq⟩)
  rw [writeIfChanged_run_of_ne hread hparent, run_bind, hmake]

/-- **Writing a file of a directory,** unless it holds the bytes already, changes that file and nothing else.
If it fails, nothing changes. -/
theorem LeadsTo.writeIfChanged_child (h : disk.LeadsTo path links place) (hcurrent : disk.HasCurrent)
    (hname : Path.IsOrdinary name)
    (hlink : ∀ target, disk.root.at? (place ++ [name]) ≠ some (.link target))
    {outcome : Except Fault Bool}
    (hrun : (writeIfChanged (path.child name) bytes).run disk = (outcome, after)) :
    disk.ChangedIn place [name] after ∧
      ((∃ changed, outcome = .ok changed) ∧ after.read (path.child name) = .ok bytes ∨
        (∃ fault, outcome = .error fault) ∧ after = disk) := by
  by_cases hread : disk.read (path.child name) = .ok bytes
  · rw [writeIfChanged_run_of_read hread] at hrun
    obtain ⟨rfl, rfl⟩ := Prod.mk.inj hrun
    exact ⟨.refl _ _ _, .inl ⟨⟨false, rfl⟩, hread⟩⟩
  · rw [h.writeIfChanged_child_run hcurrent hname.isStep hread, run_bind] at hrun
    rcases hwrite : (write (path.child name) bytes).run disk with ⟨written, after'⟩
    rw [hwrite] at hrun
    obtain ⟨hchanged, ⟨rfl, hafter⟩ | ⟨⟨fault, rfl⟩, rfl, -⟩⟩ := h.write_child hname hlink hwrite
    · obtain ⟨rfl, rfl⟩ := Prod.mk.inj hrun
      exact ⟨hchanged, .inl ⟨⟨true, rfl⟩, hafter⟩⟩
    · obtain ⟨rfl, rfl⟩ := Prod.mk.inj hrun
      exact ⟨hchanged, .inr ⟨⟨fault, rfl⟩, rfl⟩⟩

/-! ## Directories without links -/

/-- No entry of a directory is a link. -/
def NoLinksIn (disk : Disk) (path : Path) : Prop :=
  ∀ es, disk.list path = .ok es → ∀ name ∈ es.map Prod.fst, ∀ node ∈ Entries.find? name es,
    node.isFile = true ∨ node.isDirectory = true

instance (disk : Disk) (path : Path) : Decidable (NoLinksIn disk path) :=
  match hlist : disk.list path with
  | .error _ => isTrue fun _ hes => absurd (hlist.symm.trans hes) (by simp)
  | .ok es => decidable_of_iff (∀ name ∈ es.map Prod.fst, ∀ node ∈ Entries.find? name es,
      node.isFile = true ∨ node.isDirectory = true)
    ⟨fun h _ hes => Except.ok.inj (hlist.symm.trans hes) ▸ h, fun h => h es hlist⟩

/-- What can be listed is a directory. -/
theorem isDirectory_of_list {es : List (String × Node)} (h : disk.list path = .ok es) :
    disk.isDirectory path = true := by
  rw [list] at h
  rw [isDirectory]
  cases hnode : disk.node path with
  | error fault => rw [hnode] at h; exact absurd h (by simp [bind, Except.bind])
  | ok node =>
    rw [hnode] at h
    cases node with
    | directory => rfl
    | file => exact absurd h (by simp [bind, Except.bind, throw, throwThe, MonadExceptOf.throw])
    | link => exact absurd h (by simp [bind, Except.bind, throw, throwThe, MonadExceptOf.throw])

/-- No link stands at a name in a directory without links. -/
theorem NoLinksIn.noLink (h : disk.NoLinksIn path) (hleads : disk.LeadsTo path links place) (name : String)
    (target : Path) : disk.root.at? (place ++ [name]) ≠ some (.link target) := by
  intro hat
  obtain ⟨es, hes⟩ := hleads.directory
  rw [Node.at?_concat_eq hes] at hat
  have hmem : name ∈ es.map Prod.fst := List.mem_map_of_mem (Entries.mem_of_find? hat)
  rcases h es (hleads.list_eq hes) name hmem _ hat with hfile | hdirectory
  · exact Bool.noConfusion hfile
  · exact Bool.noConfusion hdirectory

/-- **On a disk without links** no directory holds any, also when directories are made. -/
theorem noLinksIn_of_makeDirectories {made : Disk} {directory : Path} (hcurrent : disk.HasCurrent)
    (hnone : ∀ place target, disk.root.at? place ≠ some (.link target))
    (hmake : (makeDirectories directory).run disk = (outcome, made)) (path : Path) : made.NoLinksIn path := by
  have hgrows := grows_makeDirectories hcurrent hmake
  intro es hlist name hmem node hnode
  obtain ⟨links, place, hleads⟩ := (isDirectory_iff (hcurrent.grows hgrows)).1 (isDirectory_of_list hlist)
  obtain ⟨es', hes'⟩ := hleads.directory
  obtain rfl := Except.ok.inj ((hleads.list_eq hes').symm.trans hlist)
  cases node with
  | file => exact .inl rfl
  | directory => exact .inr rfl
  | link target =>
    refine absurd ((hgrows.1.link _ target).1 ?_) (hnone (place ++ [name]) target)
    exact (Node.at?_concat_eq hes').trans hnode

end Write

end Disk

end MailTemplate
