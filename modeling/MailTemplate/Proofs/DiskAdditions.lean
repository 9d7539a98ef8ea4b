import MailTemplate.Proofs.DirectoryFiles
import MailTemplate.Proofs.DiskDescents

/-!
# Files that are added

Making directories and writing files adds to a disk: directories and links stay, every file stays a file,
and only a file that was written changes or comes.  This holds by whatever path something is made or
written, and whether it succeeds or not.  Below a directory without links the names of a path tell which
file it is that was written.

## Main definitions

* `Disk.Adds` — files have changed or come at some places, and nothing else has.
* `Disk.NoLinksBelow`, `Disk.Plain` — no link stands below a directory.

## Main results

* `Disk.adds_makeDirectories` — making directories adds no file.
* `Disk.write_cases`, `Disk.writeIfChanged_cases` — what writing a file comes to.
* `Disk.LeadsTo.writeIfChanged_down` — which file is written below a directory without links.
* `Disk.Plain.writeIfChanged_up` — what is not a name is not written.
-/

namespace MailTemplate

namespace Node

variable {node : Node} {place rest : List String}

theorem IsFileIfAny.eq_none_below (h : IsFileIfAny (at? place node)) (hrest : rest ≠ []) :
    at? (place ++ rest) node = none := by
  rw [at?_append]
  cases hat : at? place node with
  | none => rfl
  | some there =>
    have hfile := h there hat
    obtain ⟨name, rest, rfl⟩ := List.exists_cons_of_ne_nil hrest
    cases there with
    | file => rfl
    | link => exact absurd hfile Bool.false_ne_true
    | directory => exact absurd hfile Bool.false_ne_true

end Node

namespace Disk

/-- Where a path has led, whether there is something or not. -/
def Place.names : Place → List String
  | .found names _ => names
  | .free directory name _ => directory ++ [name]

/-- There is a file at a place. -/
def HasFile (disk : Disk) (place : List String) : Prop :=
  ∃ bytes executable, disk.root.at? place = some (.file bytes executable)

/-- Files have changed or come at some places, and nothing else has changed but that there can be more
directories. -/
structure Adds (places : List String → Prop) (disk after : Disk) : Prop where
  /-- Directories and links stay. -/
  grows : disk.Grows after
  /-- A file stays a file. -/
  stays : ∀ place, disk.HasFile place → after.HasFile place
  /-- At all other places the files are the same. -/
  aside : ∀ place, ¬ places place → ∀ bytes executable,
    after.root.at? place = some (.file bytes executable) ↔ disk.root.at? place = some (.file bytes executable)

section Additions

variable {places more : List String → Prop} {disk made after : Disk} {path : Path} {links : Nat}
  {front place here names : List String} {name : String} {bytes : Bytes} {es : List (String × Node)}

namespace Adds

theorem refl (places : List String → Prop) (disk : Disk) : Adds places disk disk :=
  ⟨.refl _, fun _ h => h, fun _ _ _ _ => Iff.rfl⟩

theorem trans {disk₁ disk₂ disk₃ : Disk} (h : Adds places disk₁ disk₂) (h' : Adds places disk₂ disk₃) :
    Adds places disk₁ disk₃ :=
  ⟨h.grows.trans h'.grows, fun place hfile => h'.stays place (h.stays place hfile),
    fun place hplace bytes executable =>
      (h'.aside place hplace bytes executable).trans (h.aside place hplace bytes executable)⟩

theorem mono (h : Adds places disk after) (hmore : ∀ place, places place → more place) :
    Adds more disk after :=
  ⟨h.grows, h.stays, fun place hplace => h.aside place fun hold => hplace (hmore place hold)⟩

/-- There is a file at another place exactly if there was one. -/
theorem hasFile_iff (h : Adds places disk after) (hplace : ¬ places place) :
    after.HasFile place ↔ disk.HasFile place :=
  exists_congr fun bytes => exists_congr fun executable => h.aside place hplace bytes executable

end Adds

/-! ## Directories that are made -/

/-- A directory that is made at a free name adds no file. -/
theorem adds_put_directory (hdirectory : disk.root.at? front = some (.directory es))
    (hnone : disk.root.at? (front ++ [name]) = none) :
    disk.Adds (fun _ => False) (disk.put (front ++ [name]) (.directory [])) := by
  have hsame : ∀ place bytes executable,
      (disk.put (front ++ [name]) (.directory [])).root.at? place = some (.file bytes executable) ↔
        disk.root.at? place = some (.file bytes executable) := by
    intro place bytes executable
    by_cases hbelow : front ++ [name] <+: place
    · -- There is nothing below the new directory, and there was nothing at all.
      obtain ⟨rest, rfl⟩ := hbelow
      have hafter := @Node.at?_put_append disk.root front name (.directory []) es hdirectory rest
      rw [put, Node.at?_append (front ++ [name]) rest disk.root, hnone, List.append_assoc,
        List.singleton_append, hafter]
      cases rest <;> simp [Node.at?, Entries.find?]
    · rcases (Node.isChangeOf_put name (.directory [])).at?_cases hdirectory place hbelow with
        heq | ⟨-, ⟨_, hold⟩, _, hnew⟩
      · rw [put, heq]
      · simp [put, hold, hnew]
  refine ⟨⟨Node.grows_put_directory hdirectory hnone, rfl⟩, ?_, fun place _ => hsame place⟩
  rintro place ⟨bytes, executable, hfile⟩
  exact ⟨bytes, executable, (hsame place bytes executable).2 hfile⟩

/-- **Making directories adds no file,** also where it fails. -/
theorem adds_makeDirectories {outcome : Except Fault Unit} (hcurrent : disk.HasCurrent)
    (h : (makeDirectories path).run disk = (outcome, after)) : disk.Adds (fun _ => False) after := by
  have hkept : IsKeptByMaking fun made => disk.Adds (fun _ => False) made := by
    constructor
    intro made path directory name trailing hmade hresolve
    obtain ⟨-, -, -, hwalk⟩ := resolve_eq_ok hresolve
    obtain ⟨⟨es, hes⟩, hnone, -⟩ :=
      leadsToFree_of_walkFrom (.refl _) ((hcurrent.grows hmade.grows).start path) hwalk
    exact hmade.trans (adds_put_directory hes hnone)
  exact hkept.makeFirst (.refl _ _) h

/-! ## Files that are written -/

/-- A file that is put into a directory changes or comes, and no other one does. -/
theorem adds_put_file (hdirectory : disk.root.at? front = some (.directory es))
    (hold : Node.IsFileIfAny (disk.root.at? (front ++ [name]))) (bytes : Bytes) (executable : Bool) :
    disk.Adds (· = front ++ [name]) (disk.put (front ++ [name]) (.file bytes executable)) := by
  have hat : ∀ rest, (disk.put (front ++ [name]) (.file bytes executable)).root.at? (front ++ name :: rest) =
      Node.at? rest (.file bytes executable) := Node.at?_put_append hdirectory
  have hnew : Node.IsFileIfAny (Node.at? [name]
      (Node.put (.file bytes executable) ([] ++ [name]) (.directory es))) := by
    intro node hnode
    rw [List.nil_append, Node.put, Node.at?, Entries.find?_insert_self] at hnode
    exact Option.some.inj hnode ▸ rfl
  have hchanged := ChangedIn.of_change (Node.isChangeOf_put name (.file bytes executable)) hdirectory hold hnew
  have haside : ∀ place, place ≠ front ++ [name] → ∀ old mode,
      (disk.put (front ++ [name]) (.file bytes executable)).root.at? place = some (.file old mode) ↔
        disk.root.at? place = some (.file old mode) := by
    intro place hne old mode
    by_cases hbelow : front ++ [name] <+: place
    · -- Nothing is below a file.
      obtain ⟨rest, rfl⟩ := hbelow
      obtain ⟨next, rest, rfl⟩ := List.exists_cons_of_ne_nil
        (show rest ≠ [] from fun hnil => hne (by rw [hnil, List.append_nil]))
      rw [hold.eq_none_below (List.cons_ne_nil next rest), List.append_assoc, List.singleton_append, hat]
      simp [Node.at?]
    · rcases (Node.isChangeOf_put name (.file bytes executable)).at?_cases hdirectory place hbelow with
        heq | ⟨-, ⟨_, hbefore⟩, _, hafter⟩
      · rw [put, heq]
      · simp [put, hbefore, hafter]
  refine ⟨hchanged.grows, ?_, haside⟩
  rintro place ⟨old, mode, hfile⟩
  by_cases heq : place = front ++ [name]
  · subst heq
    exact ⟨bytes, executable, hat []⟩
  · exact ⟨old, mode, (haside place heq old mode).2 hfile⟩

/-- A path leads to a name in a directory, and a file stands there or nothing does. -/
structure CanPut (disk : Disk) (path : Path) (front : List String) (name : String) : Prop where
  /-- That is where it leads. -/
  resolve : ∃ found, disk.resolve true path = .ok found ∧ found.names = front ++ [name]
  /-- It is in a directory. -/
  directory : ∃ es, disk.root.at? front = some (.directory es)
  /-- There is a file or nothing. -/
  old : Node.IsFileIfAny (disk.root.at? (front ++ [name]))
  /-- A name at which there is nothing is ordinary. -/
  ordinary : Path.IsOrdinary name ∨ disk.HasFile (front ++ [name])

theorem CanPut.of_free {directory : List String} (hcurrent : disk.HasCurrent)
    (h : disk.resolve true path = .ok (.free directory name false)) : disk.CanPut path directory name := by
  obtain ⟨-, -, -, hwalk⟩ := resolve_eq_ok h
  obtain ⟨hdirectory, hnone, -⟩ := leadsToFree_of_walkFrom (.refl _) (hcurrent.start path) hwalk
  refine ⟨⟨_, h, rfl⟩, hdirectory, ?_, .inl (isOrdinary_of_walkFrom (noSlash_segments path) hwalk)⟩
  rw [hnone]
  exact fun _ hsome => absurd hsome (by simp)

theorem CanPut.of_file {old : Bytes} {executable : Bool} (hcurrent : disk.HasCurrent)
    (h : disk.resolve true path = .ok (.found place (.file old executable))) :
    ∃ front name, place = front ++ [name] ∧ disk.CanPut path front name := by
  have hfile := at?_of_resolve h
  rcases List.eq_nil_or_concat place with rfl | ⟨front, name, rfl⟩
  · -- The root of the tree is a directory, since the current directory is in it.
    obtain ⟨_, hdirectory⟩ := hcurrent
    obtain ⟨_, hroot⟩ := Node.exists_directory_of_append
      (show disk.root.at? ([] ++ disk.current) = _ from hdirectory)
    exact absurd (hroot.symm.trans hfile) (by simp)
  · rw [List.concat_eq_append] at h hfile ⊢
    refine ⟨front, name, rfl, ⟨_, h, rfl⟩, Node.exists_directory_of_concat hfile, ?_, .inr ⟨_, _, hfile⟩⟩
    rw [hfile]
    exact fun _ hsome => Option.some.inj hsome ▸ rfl

/-- **What writing a file comes to:** it fails and nothing changes, or the file is put where the path
leads. -/
theorem write_cases {outcome : Except Fault Unit} (hcurrent : disk.HasCurrent)
    (h : (write path bytes).run disk = (outcome, after)) :
    ((∃ fault, outcome = .error fault) ∧ after = disk) ∨
      outcome = .ok () ∧ ∃ front name executable, disk.CanPut path front name ∧
        after = disk.put (front ++ [name]) (.file bytes executable) := by
  rw [write_run] at h
  cases hresolve : disk.resolve true path with
  | error fault =>
    rw [hresolve] at h
    obtain ⟨rfl, rfl⟩ := Prod.mk.inj h
    exact .inl ⟨⟨fault, rfl⟩, rfl⟩
  | ok found =>
    rw [hresolve] at h
    cases found with
    | free directory name trailing =>
      cases trailing with
      | true =>
        obtain ⟨rfl, rfl⟩ := Prod.mk.inj h
        exact .inl ⟨⟨.isDirectory, rfl⟩, rfl⟩
      | false =>
        obtain ⟨rfl, rfl⟩ := Prod.mk.inj h
        exact .inr ⟨rfl, directory, name, false, .of_free hcurrent hresolve, rfl⟩
    | found names node =>
      cases node with
      | link =>
        obtain ⟨rfl, rfl⟩ := Prod.mk.inj h
        exact .inl ⟨⟨.isDirectory, rfl⟩, rfl⟩
      | directory =>
        obtain ⟨rfl, rfl⟩ := Prod.mk.inj h
        exact .inl ⟨⟨.isDirectory, rfl⟩, rfl⟩
      | file old executable =>
        obtain ⟨rfl, rfl⟩ := Prod.mk.inj h
        obtain ⟨front, name, rfl, hput⟩ := CanPut.of_file hcurrent hresolve
        exact .inr ⟨rfl, front, name, executable, hput, rfl⟩

/-- A write that tells whether it was needed fails and changes nothing, or it writes. -/
theorem write_true_cases {outcome : Except Fault Bool} (hcurrent : disk.HasCurrent)
    (h : (write path bytes >>= fun _ => (pure true : DiskM Bool)).run disk = (outcome, after)) :
    (∃ fault, outcome = .error fault) ∧ after = disk ∨
      outcome = .ok true ∧ (write path bytes).run disk = (.ok (), after) := by
  rw [run_bind] at h
  rcases hwritten : (write path bytes).run disk with ⟨written, last⟩
  rw [hwritten] at h
  rcases write_cases hcurrent hwritten with ⟨⟨fault, rfl⟩, rfl⟩ | ⟨rfl, -⟩
  · obtain ⟨rfl, rfl⟩ := Prod.mk.inj h
    exact .inl ⟨⟨fault, rfl⟩, rfl⟩
  · obtain ⟨rfl, rfl⟩ := Prod.mk.inj h
    exact .inr ⟨rfl, rfl⟩

/-- What is in no directory is written without making one. -/
theorem writeIfChanged_run_of_parent?_eq_none (h : disk.read path ≠ .ok bytes) (hparent : path.parent? = none) :
    (writeIfChanged path bytes).run disk =
      (write path bytes >>= fun _ => (pure true : DiskM Bool)).run disk := by
  rw [writeIfChanged, run_get_bind, hparent]
  cases hread : disk.read path with
  | error fault => rfl
  | ok existing =>
    have hne : (existing == bytes) = false := by
      rw [hread] at h
      simpa using h
    dsimp only
    rw [hne]
    rfl

/-- **What writing a file unless it holds its bytes comes to:** it holds them, or directories are made
and the file is written, unless one of the two fails. -/
theorem writeIfChanged_cases {outcome : Except Fault Bool} (hcurrent : disk.HasCurrent)
    (h : (writeIfChanged path bytes).run disk = (outcome, after)) :
    (disk.read path = .ok bytes ∧ outcome = .ok false ∧ after = disk) ∨
      disk.read path ≠ .ok bytes ∧ ∃ made,
        (disk.Adds (fun _ => False) made ∧ (disk.root.IsProper → made.root.IsProper)) ∧
        ((∃ fault, outcome = .error fault) ∧ after = made ∨
          outcome = .ok true ∧ (write path bytes).run made = (.ok (), after)) := by
  by_cases hread : disk.read path = .ok bytes
  · rw [writeIfChanged_run_of_read hread] at h
    obtain ⟨rfl, rfl⟩ := Prod.mk.inj h
    exact .inl ⟨hread, rfl, rfl⟩
  refine .inr ⟨hread, ?_⟩
  cases hparent : path.parent? with
  | none =>
    rw [writeIfChanged_run_of_parent?_eq_none hread hparent] at h
    exact ⟨disk, ⟨.refl _ _, id⟩, write_true_cases hcurrent h⟩
  | some q =>
    rw [writeIfChanged_run_of_ne hread hparent, run_bind] at h
    rcases hmake : (makeDirectories q).run disk with ⟨result, made⟩
    rw [hmake] at h
    have hadds := adds_makeDirectories hcurrent hmake
    have hproper := fun hproper => isProper_makeDirectories hcurrent hproper hmake
    cases result with
    | error fault =>
      obtain ⟨rfl, rfl⟩ := Prod.mk.inj h
      exact ⟨made, ⟨hadds, hproper⟩, .inl ⟨⟨fault, rfl⟩, rfl⟩⟩
    | ok => exact ⟨made, ⟨hadds, hproper⟩, write_true_cases (hcurrent.grows hadds.grows) h⟩

/-- **Writing a file of a directory,** perhaps through a link, lets the tree grow, and if it fails nothing
changes. -/
theorem writeIfChanged_child_cases {outcome : Except Fault Bool} (hcurrent : disk.HasCurrent)
    (hdirectory : disk.isDirectory path = true) (hname : Path.IsStep name)
    (h : (writeIfChanged (path.child name) bytes).run disk = (outcome, after)) :
    disk.Grows after ∧
      ((∃ changed, outcome = .ok changed) ∨ (∃ fault, outcome = .error fault) ∧ after = disk) := by
  obtain ⟨links, place, hleads⟩ := (isDirectory_iff hcurrent).1 hdirectory
  by_cases hread : disk.read (path.child name) = .ok bytes
  · rw [writeIfChanged_run_of_read hread] at h
    obtain ⟨rfl, rfl⟩ := Prod.mk.inj h
    exact ⟨.refl _, .inl ⟨false, rfl⟩⟩
  -- The directory is there already, so all that is left is to write the file.
  rw [hleads.writeIfChanged_child_run hcurrent hname hread] at h
  rcases write_true_cases hcurrent h with ⟨hfault, rfl⟩ | ⟨rfl, hwrite⟩
  · exact ⟨.refl _, .inr ⟨hfault, rfl⟩⟩
  rcases write_cases hcurrent hwrite with ⟨⟨fault, hfault⟩, -⟩ | ⟨-, front, last, executable, hput, rfl⟩
  · exact absurd hfault (by simp)
  · obtain ⟨es, hes⟩ := hput.directory
    exact ⟨(adds_put_file hes hput.old bytes executable).grows, .inl ⟨true, rfl⟩⟩

/-! ## Below a directory without links -/

/-- A name at which there is no link leads on from a directory, or it is the last one. -/
theorem walkFrom_cons_cases {root : Node} {follow : Bool} {found : Place} {rest : List String}
    (hname : Path.IsOrdinary name) (hlink : ∀ target, root.at? (here ++ [name]) ≠ some (.link target))
    (h : walkFrom root follow links (name :: rest) here = .ok found) :
    name.utf8ByteSize ≤ maxName ∧
      ((∃ es, root.at? (here ++ [name]) = some (.directory es)) ∧
          walkFrom root follow links rest (here ++ [name]) = .ok found ∨
        (∀ more ∈ rest, more = "") ∧ found.names = here ++ [name]) := by
  by_cases hlength : name.utf8ByteSize ≤ maxName
  · refine ⟨hlength, ?_⟩
    have hin := isName_of_isOrdinary hname hlength
    cases hat : root.at? (here ++ [name]) with
    | none =>
      rw [walkFrom_cons_name hin, hat] at h
      dsimp only at h
      split at h
      · next hempty =>
        obtain rfl := Except.ok.inj h
        exact .inr ⟨by simpa using hempty, rfl⟩
      · exact absurd h (by simp)
    | some node =>
      cases node with
      | link target => exact absurd hat (hlink target)
      | directory es => exact .inl ⟨⟨es, rfl⟩, (walkFrom_cons_directory hin hat).symm.trans h⟩
      | file old executable =>
        rw [walkFrom_cons_file hin hat] at h
        split at h
        · next hnil =>
          subst hnil
          obtain rfl := Except.ok.inj h
          exact .inr ⟨List.forall_mem_nil _, rfl⟩
        · exact absurd h (by simp)
  · rw [walkFrom_cons_long hname hlength] at h
    exact absurd h (by simp)

/-- Where names lead without links, and that none of them is too long. -/
theorem names_of_walkFrom_down {root : Node} {follow : Bool} {found : Place}
    (hnames : ∀ n ∈ names, Path.IsOrdinary n)
    (hlink : ∀ below, below <+: names → ∀ target, root.at? (here ++ below) ≠ some (.link target))
    (h : walkFrom root follow links names here = .ok found) :
    found.names = here ++ names ∧ ∀ n ∈ names, n.utf8ByteSize ≤ maxName := by
  induction names generalizing here with
  | nil =>
    rw [walkFrom_nil] at h
    obtain rfl := Except.ok.inj h
    exact ⟨(List.append_nil here).symm, List.forall_mem_nil _⟩
  | cons name names ih =>
    obtain ⟨hname, hnames⟩ := List.forall_mem_cons.1 hnames
    obtain ⟨hlength, ⟨-, hon⟩ | ⟨hempty, hfound⟩⟩ := walkFrom_cons_cases hname
      (hlink [name] (List.cons_prefix_cons.2 ⟨rfl, List.nil_prefix⟩)) h
    · have hrest : ∀ below, below <+: names → ∀ target,
          root.at? (here ++ [name] ++ below) ≠ some (.link target) := by
        intro below hbelow
        rw [List.append_assoc]
        exact hlink (name :: below) (List.cons_prefix_cons.2 ⟨rfl, hbelow⟩)
      obtain ⟨hfound, hlengths⟩ := ih hnames hrest hon
      exact ⟨by rw [hfound, List.append_assoc, List.singleton_append],
        List.forall_mem_cons.2 ⟨hlength, hlengths⟩⟩
    · -- No name is empty, so this was the last one.
      obtain rfl : names = [] := List.eq_nil_iff_forall_not_mem.2 fun n hn =>
        (hnames n hn).ne_empty (hempty n hn)
      exact ⟨hfound, List.forall_mem_singleton.2 hlength⟩

/-- **Below a directory without links** a path leads to the place of its names, if it leads anywhere. -/
theorem LeadsTo.names_of_resolve {follow : Bool} {found : Place} (h : disk.LeadsTo path links here)
    (hnames : ∀ n ∈ names, Path.IsOrdinary n) (hne : names ≠ [])
    (hlink : ∀ below, below <+: names → ∀ target, disk.root.at? (here ++ below) ≠ some (.link target))
    (hresolve : disk.resolve follow (path.down names) = .ok found) :
    found.names = here ++ names ∧ downFault path names = none := by
  rw [h.resolve_down hnames hne] at hresolve
  split at hresolve
  · exact absurd hresolve (by simp)
  next hnul =>
  split at hresolve
  · exact absurd hresolve (by simp)
  next hpath =>
  obtain ⟨hfound, hlength⟩ := names_of_walkFrom_down hnames hlink hresolve
  exact ⟨hfound, downFault_eq_none_iff.2 ⟨Bool.eq_false_iff.2 hnul, Nat.not_lt.1 hpath, hlength⟩⟩

/-- What can be read below a directory without links is the file at the place of the names. -/
theorem LeadsTo.at?_of_read (h : disk.LeadsTo path links here) (hnames : ∀ n ∈ names, Path.IsOrdinary n)
    (hne : names ≠ [])
    (hlink : ∀ below, below <+: names → ∀ target, disk.root.at? (here ++ below) ≠ some (.link target))
    (hread : disk.read (path.down names) = .ok bytes) :
    downFault path names = none ∧
      ∃ executable, disk.root.at? (here ++ names) = some (.file bytes executable) := by
  rw [read] at hread
  cases hnode : disk.node (path.down names) with
  | error fault => rw [hnode] at hread; exact absurd hread (by simp [bind, Except.bind])
  | ok node =>
    rw [hnode] at hread
    cases node with
    | link => exact absurd hread (by simp [bind, Except.bind, throw, throwThe, MonadExceptOf.throw])
    | directory => exact absurd hread (by simp [bind, Except.bind, throw, throwThe, MonadExceptOf.throw])
    | file bytes' executable =>
      obtain rfl : bytes' = bytes := Except.ok.inj hread
      obtain ⟨place, hresolve⟩ := node_eq_ok_iff.1 hnode
      obtain ⟨hplace, hfault⟩ := h.names_of_resolve hnames hne hlink hresolve
      exact ⟨hfault, executable, hplace ▸ at?_of_resolve hresolve⟩

/-- A file below a directory is read by its names, unless these cannot be reached at all. -/
theorem LeadsTo.read_of_at? {executable : Bool} (h : disk.LeadsTo path links here)
    (hnames : ∀ n ∈ names, Path.IsOrdinary n) (hne : names ≠ []) (hfault : downFault path names = none)
    (hat : disk.root.at? (here ++ names) = some (.file bytes executable)) :
    disk.read (path.down names) = .ok bytes := by
  have hresolve := h.resolve_down_of_at? hnames hne hat (by simp)
  rw [hfault] at hresolve
  rw [read, Disk.node, hresolve]
  rfl

/-- **A file below a directory reads as before** when files are added elsewhere, whatever links there are. -/
theorem LeadsTo.readText_of_adds (h : disk.LeadsTo path links here)
    (hnames : ∀ n ∈ names, Path.IsOrdinary n) (hne : names ≠ []) (hfile : disk.HasFile (here ++ names))
    (hadds : disk.Adds places after) (hplace : ¬ places (here ++ names)) :
    after.readText (path.down names) = disk.readText (path.down names) := by
  obtain ⟨bytes, executable, hat⟩ := hfile
  have hat' := (hadds.aside _ hplace bytes executable).2 hat
  have hresolve := h.resolve_down_of_at? hnames hne hat (by simp)
  have hresolve' := (h.of_grows hadds.grows).resolve_down_of_at? hnames hne hat' (by simp)
  rw [readText, readText, read, read, Disk.node, Disk.node, hresolve, hresolve']

/-- **Below a directory without links** a write changes the file at the place of its names and no other
one, and if it succeeds the file is there. -/
theorem LeadsTo.writeIfChanged_down {outcome : Except Fault Bool} (h : disk.LeadsTo path links here)
    (hcurrent : disk.HasCurrent) (hnames : ∀ n ∈ names, Path.IsOrdinary n) (hne : names ≠ [])
    (hlink : ∀ below, below <+: names → ∀ target, disk.root.at? (here ++ below) ≠ some (.link target))
    (hrun : (writeIfChanged (path.down names) bytes).run disk = (outcome, after)) :
    disk.Adds (· = here ++ names) after ∧ ∀ changed, outcome = .ok changed →
      downFault path names = none ∧
        ∃ executable, after.root.at? (here ++ names) = some (.file bytes executable) := by
  rcases writeIfChanged_cases hcurrent hrun with ⟨hread, -, rfl⟩ | ⟨-, made, ⟨hmade, -⟩, hrest⟩
  · exact ⟨.refl _ _, fun _ _ => h.at?_of_read hnames hne hlink hread⟩
  have hmade' : disk.Adds (· = here ++ names) made := hmade.mono fun _ hfalse => hfalse.elim
  rcases hrest with ⟨⟨fault, rfl⟩, rfl⟩ | ⟨rfl, hwrite⟩
  · exact ⟨hmade', fun changed hok => absurd hok (by simp)⟩
  rcases write_cases (hcurrent.grows hmade.grows) hwrite with ⟨⟨fault, hfault⟩, -⟩ |
    ⟨-, front, name, executable, hput, rfl⟩
  · exact absurd hfault (by simp)
  -- The file is put where the path leads, and making directories has put no link on the way there.
  have hlink' : ∀ below, below <+: names → ∀ target,
      made.root.at? (here ++ below) ≠ some (.link target) := fun below hbelow target hnew =>
    hlink below hbelow target ((hmade.grows.1.link _ _).1 hnew)
  obtain ⟨found, hresolve, hfound⟩ := hput.resolve
  obtain ⟨hplace, hreach⟩ := (h.of_grows hmade.grows).names_of_resolve hnames hne hlink' hresolve
  obtain ⟨es, hes⟩ := hput.directory
  rw [← hplace, hfound]
  rw [← hplace, hfound] at hmade'
  exact ⟨hmade'.trans (adds_put_file hes hput.old bytes executable), fun _ _ =>
    ⟨hreach, executable, Node.at?_put_append hes []⟩⟩

/-- **In a directory** a write changes the file of its name and no other one. -/
theorem LeadsTo.adds_writeIfChanged_child {outcome : Except Fault Bool} (h : disk.LeadsTo path links here)
    (hcurrent : disk.HasCurrent) (hname : Path.IsOrdinary name)
    (hlink : ∀ target, disk.root.at? (here ++ [name]) ≠ some (.link target))
    (hrun : (writeIfChanged (path.child name) bytes).run disk = (outcome, after)) :
    disk.Adds (· = here ++ [name]) after := by
  have hnames : ∀ n ∈ [name], Path.IsOrdinary n := by simpa using hname
  refine (h.writeIfChanged_down hcurrent hnames (List.cons_ne_nil _ _) ?_ hrun).1
  intro below hbelow target
  rcases List.prefix_concat_iff.1 (show below <+: [] ++ [name] from hbelow) with rfl | hnil
  · exact hlink target
  · obtain ⟨es, hes⟩ := h.directory
    rw [List.prefix_nil.1 hnil, List.append_nil, hes]
    simp

/-- Two dots behind names lead to a directory, if they lead anywhere. -/
theorem directory_of_walkFrom_up {root : Node} {follow : Bool} {found : Place}
    (hnames : ∀ n ∈ names, Path.IsOrdinary n) (hhere : ∃ es, root.at? here = some (.directory es))
    (hlink : ∀ below, below <+: names → ∀ target, root.at? (here ++ below) ≠ some (.link target))
    (h : walkFrom root follow links (names ++ [".."]) here = .ok found) :
    ∃ place es, found = .found place (.directory es) := by
  induction names generalizing here with
  | nil =>
    obtain ⟨es, hes⟩ := exists_directory_dropLast hhere
    rw [List.nil_append, walkFrom_cons_up, walkFrom_nil, hes] at h
    exact ⟨_, es, (Except.ok.inj h).symm⟩
  | cons name names ih =>
    obtain ⟨hname, hnames⟩ := List.forall_mem_cons.1 hnames
    rw [List.cons_append] at h
    obtain ⟨-, ⟨hdirectory, hon⟩ | ⟨hempty, -⟩⟩ := walkFrom_cons_cases hname
      (hlink [name] (List.cons_prefix_cons.2 ⟨rfl, List.nil_prefix⟩)) h
    · refine ih hnames hdirectory (fun below hbelow => ?_) hon
      rw [List.append_assoc]
      exact hlink (name :: below) (List.cons_prefix_cons.2 ⟨rfl, hbelow⟩)
    · -- The two dots are still to come.
      exact absurd (hempty ".." (by simp)) (by decide)

/-! ## Names that stay ordinary -/

/-- **Writing a file** gives it an ordinary name. -/
theorem isProper_write {outcome : Except Fault Unit} (hcurrent : disk.HasCurrent)
    (hproper : disk.root.IsProper) (h : (write path bytes).run disk = (outcome, after)) :
    after.root.IsProper := by
  rcases write_cases hcurrent h with ⟨-, rfl⟩ | ⟨-, front, name, executable, hput, rfl⟩
  · exact hproper
  obtain ⟨es, hes⟩ := hput.directory
  have hname : Path.IsOrdinary name := by
    rcases hput.ordinary with hname | ⟨old, mode, hfile⟩
    · exact hname
    · exact hproper _ _ hfile name (by simp)
  exact hproper.put hes hname (Node.isProper_file bytes executable)

/-- **Writing a file unless it holds its bytes** keeps all names ordinary. -/
theorem isProper_writeIfChanged {outcome : Except Fault Bool} (hcurrent : disk.HasCurrent)
    (hproper : disk.root.IsProper) (h : (writeIfChanged path bytes).run disk = (outcome, after)) :
    after.root.IsProper := by
  rcases writeIfChanged_cases hcurrent h with ⟨-, -, rfl⟩ | ⟨-, made, ⟨hmade, hproper'⟩, hrest⟩
  · exact hproper
  rcases hrest with ⟨-, rfl⟩ | ⟨-, hwrite⟩
  · exact hproper' hproper
  · exact isProper_write (hcurrent.grows hmade.grows) (hproper' hproper) hwrite

/-! ## Directories without links below them -/

/-- No link stands below a directory. -/
def NoLinksBelow (disk : Disk) (path : Path) : Prop :=
  ∀ links place, disk.LeadsTo path links place →
    ∀ rest target, disk.root.at? (place ++ rest) ≠ some (.link target)

/-- A path leads to a directory, and below it there are files and directories with ordinary names only. -/
structure Plain (disk : Disk) (path : Path) (links : Nat) (here : List String) : Prop where
  /-- The current directory exists. -/
  current : disk.HasCurrent
  /-- Names are ordinary. -/
  proper : disk.root.IsProper
  /-- The path leads to the directory. -/
  leads : disk.LeadsTo path links here
  /-- There are no links. -/
  noLink : ∀ rest target, disk.root.at? (here ++ rest) ≠ some (.link target)

/-- **On a disk without links** none stands below a directory that was made. -/
theorem noLinksBelow_of_makeDirectories {outcome : Except Fault Unit} (hcurrent : disk.HasCurrent)
    (h : ∀ place target, disk.root.at? place ≠ some (.link target))
    (hmake : (makeDirectories path).run disk = (outcome, made)) : made.NoLinksBelow path := by
  intro links place _ rest target hat
  exact h _ target (((grows_makeDirectories hcurrent hmake).1.link _ _).1 hat)

/-- **Below a project without links** a directory of ordinary names has none either. -/
theorem NoLinksBelow.down (h : disk.NoLinksBelow path) (hleads : disk.LeadsTo path links here)
    (hnames : ∀ n ∈ names, Path.IsOrdinary n) (hne : names ≠ []) : disk.NoLinksBelow (path.down names) := by
  intro links' place hdown rest target
  obtain rfl := hleads.place_down hdown hnames hne fun below _ => h links here hleads below
  rw [List.append_assoc]
  exact h links here hleads (names ++ rest) target

/-- **A directory that was made** is plain if no link stands below it. -/
theorem exists_plain (hcurrent : disk.HasCurrent) (hproper : disk.root.IsProper) (htext : path.text ≠ "")
    (hmake : (makeDirectories path).run disk = (.ok (), made)) (hlinks : made.NoLinksBelow path) :
    ∃ links here, made.Plain path links here := by
  have hcurrent' := hcurrent.grows (grows_makeDirectories hcurrent hmake)
  obtain ⟨links, here, hleads⟩ := (isDirectory_iff hcurrent').1
    (isDirectory_of_makeDirectories hcurrent htext hmake)
  exact ⟨links, here, hcurrent', isProper_makeDirectories hcurrent hproper hmake, hleads,
    hlinks links here hleads⟩

namespace Plain

theorem of_grows (h : disk.Plain path links here) (hgrows : disk.Grows after) (hproper : after.root.IsProper) :
    after.Plain path links here :=
  ⟨h.current.grows hgrows, hproper, h.leads.of_grows hgrows, fun rest target hnew =>
    h.noLink rest target ((hgrows.1.link _ _).1 hnew)⟩

/-- Whatever is written, a plain directory stays plain. -/
theorem of_writeIfChanged {other : Path} {outcome : Except Fault Bool} (h : disk.Plain path links here)
    (hadds : disk.Adds places after)
    (hrun : (writeIfChanged other bytes).run disk = (outcome, after)) : after.Plain path links here :=
  h.of_grows hadds.grows (isProper_writeIfChanged h.current h.proper hrun)

theorem writeIfChanged_down {outcome : Except Fault Bool} (h : disk.Plain path links here)
    (hnames : ∀ n ∈ names, Path.IsOrdinary n) (hne : names ≠ [])
    (hrun : (writeIfChanged (path.down names) bytes).run disk = (outcome, after)) :
    disk.Adds (· = here ++ names) after ∧ ∀ changed, outcome = .ok changed →
      downFault path names = none ∧
        ∃ executable, after.root.at? (here ++ names) = some (.file bytes executable) :=
  h.leads.writeIfChanged_down h.current hnames hne (fun below _ => h.noLink below) hrun

/-- Two dots behind names lead to a directory, if they lead anywhere. -/
theorem directory_of_resolve_up {found : Place} (h : disk.Plain path links here)
    (hnames : ∀ n ∈ names, Path.IsOrdinary n)
    (hresolve : disk.resolve true (path.join (.ofNames (names ++ [".."]))) = .ok found) :
    ∃ place es, found = .found place (.directory es) := by
  rw [h.leads.resolve_join (Path.isAbsolute_ofNames_concat hnames Path.isStep_parent)] at hresolve
  split at hresolve
  · exact absurd hresolve (by simp)
  split at hresolve
  · exact absurd hresolve (by simp)
  have hwords : (Path.ofNames (names ++ [".."])).segments.map String.ofList = names ++ [".."] := by
    rw [Path.segments_ofNames_concat hnames Path.isStep_parent]
    simp
  rw [hwords] at hresolve
  exact directory_of_walkFrom_up hnames h.leads.directory (fun below _ => h.noLink below) hresolve

/-- What has two dots for its name is never read. -/
theorem read_up_ne (h : disk.Plain path links here) (hnames : ∀ n ∈ names, Path.IsOrdinary n) :
    disk.read (path.join (.ofNames (names ++ [".."]))) ≠ .ok bytes := by
  intro hread
  have hfile := isFile_of_read hread
  rw [isFile] at hfile
  cases hnode : disk.node (path.join (.ofNames (names ++ [".."]))) with
  | error fault => rw [hnode] at hfile; exact absurd hfile Bool.false_ne_true
  | ok node =>
    rw [hnode] at hfile
    obtain ⟨place, hresolve⟩ := node_eq_ok_iff.1 hnode
    obtain ⟨_, es, heq⟩ := h.directory_of_resolve_up hnames hresolve
    obtain ⟨-, rfl⟩ := Place.found.inj heq
    exact absurd hfile Bool.false_ne_true

/-- **What has two dots for its name** is never written. -/
theorem writeIfChanged_up {outcome : Except Fault Bool} (h : disk.Plain path links here)
    (hnames : ∀ n ∈ names, Path.IsOrdinary n)
    (hrun : (writeIfChanged (path.join (.ofNames (names ++ [".."]))) bytes).run disk = (outcome, after)) :
    disk.Adds (fun _ => False) after ∧ ∃ fault, outcome = .error fault := by
  rcases writeIfChanged_cases h.current hrun with ⟨hread, -, -⟩ | ⟨-, made, ⟨hmade, hproper⟩, hrest⟩
  · exact absurd hread (h.read_up_ne hnames)
  rcases hrest with ⟨hfault, rfl⟩ | ⟨-, hwrite⟩
  · exact ⟨hmade, hfault⟩
  have hmade' := h.of_grows hmade.grows (hproper h.proper)
  rcases write_cases hmade'.current hwrite with ⟨⟨fault, hfault⟩, -⟩ | ⟨-, front, name, executable, hput, -⟩
  · exact absurd hfault (by simp)
  -- A file is put where a file is or nothing, and here the path leads to a directory.
  obtain ⟨found, hresolve, hfound⟩ := hput.resolve
  obtain ⟨place, es, rfl⟩ := hmade'.directory_of_resolve_up hnames hresolve
  obtain ⟨-, -, -, hwalk⟩ := resolve_eq_ok hresolve
  obtain ⟨hes, -⟩ := passes_of_walkFrom (hmade'.current.start _) hwalk
  have hplace : place = front ++ [name] := hfound
  exact absurd (hplace ▸ hes) hput.old.ne_directory

end Plain

end Additions

end Disk

end MailTemplate
