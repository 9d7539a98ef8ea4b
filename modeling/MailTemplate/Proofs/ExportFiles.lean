import MailTemplate.Export.Basic
import MailTemplate.Proofs.DirectoryFiles

/-!
# Files of an export

The name of a container file tells the base name of its document and the kind of container, whatever dots and
dashes the base name holds: for one client no two endings are the end of one another.  Each base name is
exported once, so no file of an export is written over another one, and none over the notes.  What a document
lists is what was written for it, and it is still there when the export is over.

This takes that no entry of the directory of the client is a link, since a file is written through a link to
wherever that leads.

## Main definitions

* `Container.ending` — what stands behind the base name in the name of a container file.
* `Export.Outcome`, `Export.DocumentRun`, `Export.DocumentsRun` — what an export does for documents.
* `Export.NamedApart` — names of files for documents of which only the first with a base name has any.
* `Export.KeptApart` — what an export leaves behind.

## Main results

* `Container.fileName_injective` — the name of a file tells its base name and its container.
* `Export.exportOne_returns`, `Export.run_returns` — what the export of one document and of all returns.
* `Export.NamedApart.nodup_flatten` — no two of such names are the same.
* `Export.foldlM_cases` — an export goes through its documents one by one.
* `Export.exports_overwrite_nothing` — exports do not overwrite one another.
-/

namespace MailTemplate

/-! ## Names of container files -/

namespace Container

variable {container other : Container} {base base' : String} {client : Client}

/-- What stands behind the base name in the name of a container file. -/
def ending (container : Container) (client : Client) : String :=
  match container, client with
  | single, _ => ".oft"
  | nested, _ => ".emltpl"
  | html, .html => ".html"
  | html, .outlook => "-outlook.html"

theorem fileName_eq (container : Container) (base : String) (client : Client) :
    container.fileName base client = base ++ container.ending client := by
  cases container with
  | single => rfl
  | nested => rfl
  | html =>
    cases client with
    | html => rfl
    | outlook =>
      rw [fileName, String.append_assoc, String.append_assoc]
      rfl

/-- No ending is the end of another one. -/
theorem eq_of_ending_suffix (h : (container.ending client).toList <:+ (other.ending client).toList) :
    container = other := by
  revert h
  cases client <;> cases container <;> cases other <;> decide

/-- **The name of a file tells** the base name and the container. -/
theorem fileName_injective (h : container.fileName base client = other.fileName base' client) :
    base = base' ∧ container = other := by
  rw [fileName_eq, fileName_eq, ← String.toList_inj, String.toList_append, String.toList_append] at h
  have hcontainer : container = other := by
    rcases List.suffix_or_suffix_of_suffix (List.suffix_append _ _) (h ▸ List.suffix_append _ _) with hs | hs
    · exact (eq_of_ending_suffix hs).symm
    · exact eq_of_ending_suffix hs
  subst hcontainer
  exact ⟨String.toList_inj.1 (List.append_cancel_right h), rfl⟩

/-- The last letter of the name of a file. -/
theorem getLast?_fileName (container : Container) (base : String) (client : Client) :
    (container.fileName base client).toList.getLast? = some 't' ∨
      (container.fileName base client).toList.getLast? = some 'l' := by
  have hending : (container.ending client).toList.getLast? = some 't' ∨
      (container.ending client).toList.getLast? = some 'l' := by
    cases container <;> cases client <;> decide
  rw [fileName_eq, String.toList_append, List.getLast?_append]
  rcases hending with hlast | hlast
  · exact .inl (by rw [hlast]; rfl)
  · exact .inr (by rw [hlast]; rfl)

theorem isOrdinary_fileName (hbase : '/' ∉ base.toList) (container : Container) (client : Client) :
    Path.IsOrdinary (container.fileName base client) := by
  have hslash : '/' ∉ (container.fileName base client).toList := by
    rw [fileName_eq, String.toList_append, List.mem_append, not_or]
    refine ⟨hbase, ?_⟩
    cases container <;> cases client <;> decide
  rcases container.getLast?_fileName base client with hlast | hlast
  · exact Path.isOrdinary_of_getLast? hlast (by decide) hslash
  · exact Path.isOrdinary_of_getLast? hlast (by decide) hslash

theorem fileName_ne_notesName : container.fileName base client ≠ Export.notesName := by
  intro h
  have hlast := container.getLast?_fileName base client
  rw [h] at hlast
  exact absurd hlast (by decide)

end Container

namespace Profile

variable {profile : Profile} {client : Client} {containers : List Container} {base html subject : String}
  {source : BoundarySource} {asked asked' : List Nat} {artifacts : List Artifact}

theorem fileNames_packAll
    (h : packAll client base html subject source containers asked = (.ok artifacts, asked')) :
    artifacts.map Artifact.fileName = containers.map fun container => container.fileName base client := by
  induction containers generalizing asked asked' artifacts with
  | nil =>
    obtain ⟨hok, -⟩ := Prod.mk.inj h
    exact Except.ok.inj hok ▸ rfl
  | cons container containers ih =>
    rw [packAll] at h
    rcases hcontents : contents container html subject source asked with ⟨fault | bytes, between⟩
    · rw [hcontents] at h
      exact absurd (Prod.mk.inj h).1 (by simp)
    rw [hcontents] at h
    dsimp only at h
    rcases hrest : packAll client base html subject source containers between with ⟨fault | others, last⟩
    · rw [hrest] at h
      exact absurd (Prod.mk.inj h).1 (by simp [Except.map])
    · rw [hrest] at h
      obtain rfl := Except.ok.inj (Prod.mk.inj h).1
      rw [List.map_cons, List.map_cons, ih hrest]

/-- **The files of a document** are named after it, one for each container. -/
theorem fileNames_pack (h : profile.pack base html subject source asked = (.ok artifacts, asked')) :
    artifacts.map Artifact.fileName =
      profile.containers.map fun container => container.fileName base profile.client :=
  fileNames_packAll h

theorem nodup_containers (client : Client) (settings : Settings) :
    (client.profile settings).containers.Nodup := by
  cases client with
  | html => exact (by decide : [Container.html].Nodup)
  | outlook => exact (by decide : [Container.single, .nested, .html].Nodup)

end Profile

namespace Export

variable {setting : Setting} {directory path : Path} {links : Nat} {place : List String}
  {disk between after : Disk} {artifacts rest : List Artifact} {artifact : Artifact} {earlier paths : List Path}
  {asked asked' : List Nat} {p p' : Progress}

/-! ## Writing files -/

/-- Files can be written into a directory: a path leads to it, and no link stands at a name in it. -/
structure Ready (directory : Path) (links : Nat) (place : List String) (disk : Disk) : Prop where
  /-- The current directory exists. -/
  current : disk.HasCurrent
  /-- The path leads to the directory. -/
  leads : disk.LeadsTo directory links place
  /-- There are no links. -/
  noLink : ∀ name target, disk.root.at? (place ++ [name]) ≠ some (.link target)

theorem Ready.of_changedIn {names : List String} (h : Ready directory links place disk)
    (hchanged : disk.ChangedIn place names after) : Ready directory links place after :=
  ⟨h.current.grows hchanged.grows, h.leads.of_grows hchanged.grows,
    fun name => hchanged.noLink (h.noLink name)⟩

/-- Artifacts were written into a directory, where they are, and nothing else has changed. -/
structure Stored (directory : Path) (place : List String) (artifacts : List Artifact) (disk after : Disk) :
    Prop where
  /-- Nothing has changed but files of their names. -/
  changed : disk.ChangedIn place (artifacts.map Artifact.fileName) after
  /-- The files hold them. -/
  held : ∀ artifact ∈ artifacts, after.read (directory.child artifact.fileName) = .ok artifact.bytes

theorem Stored.nil (directory : Path) (place : List String) (disk : Disk) :
    Stored directory place [] disk disk :=
  ⟨.refl _ _ _, fun _ hmem => absurd hmem List.not_mem_nil⟩

/-- A file stays when others are written. -/
theorem Ready.read_of_changedIn {names : List String} {name : String} {bytes : Bytes}
    (h : Ready directory links place disk) (hchanged : disk.ChangedIn place names after)
    (hname : Path.IsOrdinary name) (hnot : name ∉ names)
    (hread : disk.read (directory.child name) = .ok bytes) :
    after.read (directory.child name) = .ok bytes :=
  (hchanged.read_child_iff h.leads hname (h.noLink name) hnot).2 hread

theorem Stored.cons (h : Ready directory links place disk) (hname : Path.IsOrdinary artifact.fileName)
    (hnot : artifact.fileName ∉ rest.map Artifact.fileName)
    (hchanged : disk.ChangedIn place [artifact.fileName] between)
    (hread : between.read (directory.child artifact.fileName) = .ok artifact.bytes)
    (hrest : Stored directory place rest between after) :
    Stored directory place (artifact :: rest) disk after := by
  refine ⟨(hchanged.mono (by simp)).trans (hrest.changed.mono (by simp)), fun other hother => ?_⟩
  rcases List.mem_cons.1 hother with rfl | hother
  · exact (h.of_changedIn hchanged).read_of_changedIn hrest.changed hname hnot hread
  · exact hrest.held other hother

/-- **Writing files** writes all of them, or those before one that cannot be written. -/
theorem writeFiles_cases {outcome : Except String Unit} (h : Ready directory links place disk)
    (hordinary : ∀ artifact ∈ artifacts, Path.IsOrdinary artifact.fileName)
    (hnodup : (artifacts.map Artifact.fileName).Nodup)
    (hrun : (writeFiles directory artifacts).run disk = (outcome, after)) :
    (outcome = .ok () ∧ Stored directory place artifacts disk after) ∨
      ∃ written artifact rest fault, artifacts = written ++ artifact :: rest ∧
        outcome = .error ("cannot write " ++ artifact.fileName ++ ": " ++ Disk.Fault.message fault) ∧
        Stored directory place written disk after := by
  induction artifacts generalizing disk outcome after with
  | nil =>
    obtain ⟨rfl, rfl⟩ := Prod.mk.inj hrun
    exact .inl ⟨rfl, .nil _ _ _⟩
  | cons artifact artifacts ih =>
    obtain ⟨hname, hordinary⟩ := List.forall_mem_cons.1 hordinary
    rw [List.map_cons, List.nodup_cons] at hnodup
    rcases hwrite : (Disk.writeIfChanged (directory.child artifact.fileName) artifact.bytes).run.run disk
      with ⟨first, between⟩
    rw [writeFiles, Disk.run_state_bind _ hwrite] at hrun
    obtain ⟨hchanged, ⟨⟨changed, rfl⟩, hread⟩ | ⟨⟨fault, rfl⟩, rfl⟩⟩ :=
      h.leads.writeIfChanged_child h.current hname (h.noLink _) hwrite
    · rcases ih (h.of_changedIn hchanged) hordinary hnodup.2 hrun with
        ⟨rfl, hrest⟩ | ⟨written, failed, rest, fault, rfl, rfl, hrest⟩
      · exact .inl ⟨rfl, .cons h hname hnodup.1 hchanged hread hrest⟩
      · -- A later file has failed; the first one is still there, since what was written has other names.
        have hnot : artifact.fileName ∉ written.map Artifact.fileName := fun hmem =>
          hnodup.1 (List.map_append ▸ List.mem_append_left _ hmem)
        exact .inr ⟨artifact :: written, failed, rest, fault, rfl, rfl,
          .cons h hname hnot hchanged hread hrest⟩
    · obtain ⟨rfl, rfl⟩ := Prod.mk.inj hrun
      exact .inr ⟨[], artifact, artifacts, fault, rfl, rfl, .nil _ _ _⟩

/-! ## One document -/

/-- What the files of a document hold that reads as a text, and the levels that boundaries were drawn for. -/
def packed (setting : Setting) (path : Path) (html : String) (asked : List Nat) :
    Except Boundary.Failure (List Artifact) × List Nat :=
  let adapted := setting.profile.adapt html
  setting.profile.pack (baseName path) adapted.html (subjectOf adapted.html (baseName path)) setting.source asked

/-- What the export of a document comes to, with the artifacts that were written for it. -/
inductive Outcome (setting : Setting) (place : List String) (path : Path) (disk : Disk) :
    Except String (List String × List String) → List Artifact → Disk → Prop
  /-- The document cannot be read. -/
  | unread (fault : Disk.Fault) (hread : disk.readText path = .error fault) :
    Outcome setting place path disk (.error ("cannot read: " ++ fault.message)) [] disk
  /-- It cannot be packed. -/
  | unpacked (html : String) (asked asked' : List Nat) (failure : Boundary.Failure)
    (hread : disk.readText path = .ok html)
    (hpack : packed setting path html asked = (.error failure, asked')) :
    Outcome setting place path disk (.error failure.message) [] disk
  /-- One of its files cannot be written. -/
  | unwritten (html : String) (asked asked' : List Nat) (written : List Artifact) (artifact : Artifact)
    (rest : List Artifact) (fault : Disk.Fault) {after : Disk} (hread : disk.readText path = .ok html)
    (hpack : packed setting path html asked = (.ok (written ++ artifact :: rest), asked'))
    (hstored : Stored setting.directory place written disk after) :
    Outcome setting place path disk
      (.error ("cannot write " ++ artifact.fileName ++ ": " ++ fault.message)) written after
  /-- All of its files are written. -/
  | exported (html : String) (asked asked' : List Nat) (artifacts : List Artifact) {after : Disk}
    (hread : disk.readText path = .ok html)
    (hpack : packed setting path html asked = (.ok artifacts, asked'))
    (hstored : Stored setting.directory place artifacts disk after) :
    Outcome setting place path disk
      (.ok (artifacts.map Artifact.fileName, (setting.profile.adapt html).applied)) artifacts after

theorem packed_fileNames {html : String} (h : packed setting path html asked = (.ok artifacts, asked')) :
    artifacts.map Artifact.fileName =
      setting.profile.containers.map fun container =>
        container.fileName (baseName path) setting.profile.client :=
  Profile.fileNames_pack h

/-- The names of the files of a document. -/
theorem isOrdinary_of_packed {html : String} (h : packed setting path html asked = (.ok artifacts, asked')) :
    ∀ artifact ∈ artifacts, Path.IsOrdinary artifact.fileName := by
  intro artifact hmem
  have hname := List.mem_map_of_mem (f := Artifact.fileName) hmem
  rw [packed_fileNames h] at hname
  obtain ⟨container, -, heq⟩ := List.mem_map.1 hname
  exact heq ▸ Container.isOrdinary_fileName (Path.noSlash_stem path) container _

theorem nodup_fileNames (hcontainers : setting.profile.containers.Nodup) (base : String) :
    (setting.profile.containers.map fun container =>
      container.fileName base setting.profile.client).Nodup :=
  List.pairwise_map.2 (hcontainers.imp fun hne heq => hne (Container.fileName_injective heq).2)

/-- **What the export of a document returns:** the document cannot be read, or it cannot be packed, or its
files are written. -/
theorem exportOne_returns {result : Except String (List String × List String)}
    (hrun : (exportOne setting path (baseName path) asked).run disk = ((result, asked'), after)) :
    (∃ fault, disk.readText path = .error fault ∧ result = .error ("cannot read: " ++ fault.message) ∧
      after = disk) ∨
    (∃ html failure, disk.readText path = .ok html ∧ packed setting path html asked = (.error failure, asked') ∧
      result = .error failure.message ∧ after = disk) ∨
    ∃ html artifacts outcome, disk.readText path = .ok html ∧
      packed setting path html asked = (.ok artifacts, asked') ∧
      (writeFiles setting.directory artifacts).run disk = (outcome, after) ∧
      result = outcome.map fun () => (artifacts.map Artifact.fileName, (setting.profile.adapt html).applied) := by
  rw [exportOne, Disk.run_state_get_bind] at hrun
  cases hread : disk.readText path with
  | error fault =>
    rw [hread] at hrun
    obtain ⟨heq, rfl⟩ := Prod.mk.inj hrun
    obtain ⟨rfl, -⟩ := Prod.mk.inj heq
    exact .inl ⟨fault, rfl, rfl, rfl⟩
  | ok html =>
    rw [hread] at hrun
    dsimp only at hrun
    rcases hpack : packed setting path html asked with ⟨failure | artifacts, last⟩
    · rw [show setting.profile.pack _ _ _ _ _ = _ from hpack] at hrun
      obtain ⟨heq, rfl⟩ := Prod.mk.inj hrun
      obtain ⟨rfl, rfl⟩ := Prod.mk.inj heq
      exact .inr (.inl ⟨html, failure, rfl, hpack, rfl, rfl⟩)
    · rw [show setting.profile.pack _ _ _ _ _ = _ from hpack] at hrun
      dsimp only at hrun
      rcases hwrite : (writeFiles setting.directory artifacts).run disk with ⟨outcome, written⟩
      rw [Disk.run_state_bind _ hwrite] at hrun
      obtain ⟨heq, rfl⟩ := Prod.mk.inj hrun
      obtain ⟨rfl, rfl⟩ := Prod.mk.inj heq
      exact .inr (.inr ⟨html, artifacts, outcome, rfl, hpack, hwrite, rfl⟩)

/-- **The export of a document** comes to one of these. -/
theorem exportOne_cases {result : Except String (List String × List String)}
    (h : Ready setting.directory links place disk) (hcontainers : setting.profile.containers.Nodup)
    (hrun : (exportOne setting path (baseName path) asked).run disk = ((result, asked'), after)) :
    ∃ written, Outcome setting place path disk result written after := by
  rcases exportOne_returns hrun with ⟨fault, hread, rfl, rfl⟩ | ⟨html, failure, hread, hpack, rfl, rfl⟩ |
    ⟨html, artifacts, outcome, hread, hpack, hwrite, rfl⟩
  · exact ⟨[], .unread fault hread⟩
  · exact ⟨[], .unpacked html asked asked' failure hread hpack⟩
  -- One document has a file for each container, and no container occurs twice.
  have hnodup : (artifacts.map Artifact.fileName).Nodup :=
    packed_fileNames hpack ▸ nodup_fileNames hcontainers _
  rcases writeFiles_cases h (isOrdinary_of_packed hpack) hnodup hwrite with
    ⟨rfl, hstored⟩ | ⟨written, artifact, rest, fault, rfl, rfl, hstored⟩
  · exact ⟨artifacts, .exported html asked asked' artifacts hread hpack hstored⟩
  · exact ⟨written, .unwritten html asked asked' written artifact rest fault hread hpack hstored⟩

/-! ## All documents -/

/-- What is told of a document that was exported or that failed. -/
def documentOf (setting : Setting) (path : Path) :
    Except String (List String × List String) → ExportedDocument
  | .ok (files, applied) => ⟨⟨path.relativeTo setting.root⟩, files, applied, none⟩
  | .error error => ⟨⟨path.relativeTo setting.root⟩, [], [], some error⟩

/-- What is told of a document whose base name another one has that comes before it. -/
def repeated (setting : Setting) (path first : Path) : ExportedDocument :=
  documentOf setting path
    (.error ("base name '" ++ baseName path ++ "' is already exported from " ++ first.relativeTo setting.root))

/-- What became of a document, and what was written for it. -/
structure Done where
  /-- What is told of it. -/
  document : ExportedDocument
  /-- The artifacts that were written. -/
  written : List Artifact

/-- The names of the files that were written for a document. -/
def Done.names (done : Done) : List String := done.written.map Artifact.fileName

/-- The first of some documents with a base name. -/
def firstWith (base : String) (earlier : List Path) : Option Path :=
  earlier.find? fun other => baseName other == base

/-- What an export does for a document after some others. -/
inductive DocumentRun (setting : Setting) (place : List String) (earlier : List Path) (path : Path)
    (disk : Disk) : Done → Disk → Prop
  /-- Its base name is claimed by the first of them that has it, and nothing is written. -/
  | again (first : Path) (hfirst : firstWith (baseName path) earlier = some first) :
    DocumentRun setting place earlier path disk ⟨repeated setting path first, []⟩ disk
  /-- Its base name is new, and it is exported or fails. -/
  | fresh {result : Except String (List String × List String)} {written : List Artifact} {after : Disk}
    (hnew : firstWith (baseName path) earlier = none)
    (houtcome : Outcome setting place path disk result written after) :
    DocumentRun setting place earlier path disk ⟨documentOf setting path result, written⟩ after

/-- What an export does for documents after some others. -/
inductive DocumentsRun (setting : Setting) (place : List String) :
    List Path → List Path → Disk → List Done → Disk → Prop
  /-- There are none. -/
  | nil (earlier : List Path) (disk : Disk) : DocumentsRun setting place earlier [] disk [] disk
  /-- There is one, and then there are others. -/
  | cons {earlier : List Path} {path : Path} {paths : List Path} {disk between after : Disk} {done : Done}
    {dones : List Done} (hfirst : DocumentRun setting place earlier path disk done between)
    (hrest : DocumentsRun setting place (earlier ++ [path]) paths between dones after) :
    DocumentsRun setting place earlier (path :: paths) disk (done :: dones) after

/-- The base names that are claimed are those of some documents, each by the first that has it. -/
def Claims (setting : Setting) (claimed : List (String × Path)) (earlier : List Path) : Prop :=
  ∀ base, (claimed.find? fun (name, _) => name == base) =
    (firstWith base earlier).map fun first => (base, ⟨first.relativeTo setting.root⟩)

theorem firstWith_concat (base : String) (earlier : List Path) (path : Path) :
    firstWith base (earlier ++ [path]) =
      (firstWith base earlier).or (if baseName path = base then some path else none) := by
  rw [firstWith, List.find?_append, firstWith]
  by_cases h : baseName path = base <;> simp [h]

theorem Claims.again {claimed : List (String × Path)} {first : Path} (h : Claims setting claimed earlier)
    (hfirst : firstWith (baseName path) earlier = some first) :
    Claims setting claimed (earlier ++ [path]) := by
  intro base
  rw [h base, firstWith_concat]
  by_cases heq : baseName path = base
  · rw [← heq, hfirst]
    rfl
  · rw [if_neg heq, Option.or_none]

theorem Claims.fresh {claimed : List (String × Path)} (h : Claims setting claimed earlier)
    (hnew : firstWith (baseName path) earlier = none) :
    Claims setting (claimed ++ [(baseName path, ⟨path.relativeTo setting.root⟩)]) (earlier ++ [path]) := by
  intro base
  rw [List.find?_append, h base, firstWith_concat]
  by_cases heq : baseName path = base
  · subst heq
    simp [hnew]
  · simp [heq]

/-- A document whose base name is claimed is told of, and nothing is written. -/
theorem step_run_of_some {claim : String × Path}
    (h : (p.claimed.find? fun (name, _) => name == baseName path) = some claim) (disk : Disk) :
    (step setting p path).run disk = ({ p with documents := documentOf setting path (.error
      ("base name '" ++ baseName path ++ "' is already exported from " ++ claim.2.text)) :: p.documents },
        disk) := by
  rw [step]
  dsimp only
  rw [h]
  rfl

/-- Another document claims its base name and is exported. -/
theorem step_run_of_none {result : Except String (List String × List String)}
    (h : (p.claimed.find? fun (name, _) => name == baseName path) = none)
    (hone : (exportOne setting path (baseName path) p.asked).run disk = ((result, asked'), after)) :
    (step setting p path).run disk =
      (⟨p.claimed ++ [(baseName path, ⟨path.relativeTo setting.root⟩)], asked',
        documentOf setting path result :: p.documents⟩, after) := by
  rw [step]
  dsimp only
  rw [h]
  dsimp only
  rw [Disk.run_state_bind _ hone]
  cases result <;> rfl

/-- **A step of an export** deals with one document. -/
theorem step_cases (h : Ready setting.directory links place disk)
    (hcontainers : setting.profile.containers.Nodup) (hclaims : Claims setting p.claimed earlier)
    (hrun : (step setting p path).run disk = (p', after)) :
    ∃ done, DocumentRun setting place earlier path disk done after ∧
      p'.documents = done.document :: p.documents ∧ Claims setting p'.claimed (earlier ++ [path]) := by
  have hclaim := hclaims (baseName path)
  cases hfirst : firstWith (baseName path) earlier with
  | some first =>
    rw [hfirst] at hclaim
    rw [step_run_of_some hclaim] at hrun
    obtain ⟨rfl, rfl⟩ := Prod.mk.inj hrun
    exact ⟨_, .again first hfirst, rfl, hclaims.again hfirst⟩
  | none =>
    rw [hfirst] at hclaim
    rcases hone : (exportOne setting path (baseName path) p.asked).run disk with ⟨⟨result, asked⟩, between⟩
    rw [step_run_of_none hclaim hone] at hrun
    obtain ⟨rfl, rfl⟩ := Prod.mk.inj hrun
    obtain ⟨written, houtcome⟩ := exportOne_cases h hcontainers hone
    exact ⟨_, .fresh hfirst houtcome, rfl, hclaims.fresh hfirst⟩

theorem Outcome.changedIn {result : Except String (List String × List String)} {written : List Artifact}
    (h : Outcome setting place path disk result written after) :
    disk.ChangedIn place (written.map Artifact.fileName) after := by
  cases h with
  | unread => exact .refl _ _ _
  | unpacked => exact .refl _ _ _
  | unwritten _ _ _ _ _ _ _ _ _ hstored => exact hstored.changed
  | exported _ _ _ _ _ _ hstored => exact hstored.changed

theorem DocumentRun.changedIn {done : Done} (h : DocumentRun setting place earlier path disk done after) :
    disk.ChangedIn place done.names after := by
  cases h with
  | again => exact .refl _ _ _
  | fresh _ houtcome => exact houtcome.changedIn

/-- **An export goes through its documents** one by one. -/
theorem foldlM_cases (h : Ready setting.directory links place disk)
    (hcontainers : setting.profile.containers.Nodup) (hclaims : Claims setting p.claimed earlier)
    (hrun : (paths.foldlM (step setting) p).run disk = (p', after)) :
    ∃ dones, DocumentsRun setting place earlier paths disk dones after ∧
      p'.documents = (dones.map Done.document).reverse ++ p.documents := by
  induction paths generalizing p earlier disk with
  | nil =>
    obtain ⟨rfl, rfl⟩ := Prod.mk.inj hrun
    exact ⟨[], .nil _ _, rfl⟩
  | cons path paths ih =>
    rw [List.foldlM_cons] at hrun
    rcases hstep : (step setting p path).run disk with ⟨q, between⟩
    rw [Disk.run_state_bind _ hstep] at hrun
    obtain ⟨done, hdone, hdocuments, hclaims'⟩ := step_cases h hcontainers hclaims hstep
    obtain ⟨dones, hdones, hrest⟩ := ih (h.of_changedIn hdone.changedIn) hclaims' hrun
    refine ⟨done :: dones, .cons hdone hdones, ?_⟩
    rw [hrest, hdocuments, List.map_cons, List.reverse_cons, List.append_assoc]
    rfl

/-! ## What is written stays -/

section Kept

variable {result : Except String (List String × List String)} {written : List Artifact} {done : Done}
  {dones : List Done} {name : String}

/-- The names of the files of a document. -/
def namesOf (setting : Setting) (path : Path) : List String :=
  setting.profile.containers.map fun container => container.fileName (baseName path) setting.profile.client

theorem Outcome.names_prefix (h : Outcome setting place path disk result written after) :
    written.map Artifact.fileName <+: namesOf setting path := by
  cases h with
  | unread => exact List.nil_prefix
  | unpacked => exact List.nil_prefix
  | unwritten _ _ _ _ artifact rest _ _ hpack =>
    rw [namesOf, ← packed_fileNames hpack, List.map_append]
    exact List.prefix_append _ _
  | exported _ _ _ _ _ hpack => exact (packed_fileNames hpack) ▸ List.prefix_refl _

theorem Outcome.held (h : Outcome setting place path disk result written after) :
    ∀ artifact ∈ written, after.read (setting.directory.child artifact.fileName) = .ok artifact.bytes := by
  cases h with
  | unread => exact fun _ hmem => absurd hmem List.not_mem_nil
  | unpacked => exact fun _ hmem => absurd hmem List.not_mem_nil
  | unwritten _ _ _ _ _ _ _ _ _ hstored => exact hstored.held
  | exported _ _ _ _ _ _ hstored => exact hstored.held

theorem Outcome.files_eq (h : Outcome setting place path disk result written after) :
    (documentOf setting path result).files =
      if (documentOf setting path result).error = none then written.map Artifact.fileName else [] := by
  cases h <;> rfl

theorem DocumentRun.names_prefix (h : DocumentRun setting place earlier path disk done after) :
    done.names <+: namesOf setting path := by
  cases h with
  | again => exact List.nil_prefix
  | fresh _ houtcome => exact houtcome.names_prefix

theorem DocumentRun.held (h : DocumentRun setting place earlier path disk done after) :
    ∀ artifact ∈ done.written,
      after.read (setting.directory.child artifact.fileName) = .ok artifact.bytes := by
  cases h with
  | again => exact fun _ hmem => absurd hmem List.not_mem_nil
  | fresh _ houtcome => exact houtcome.held

theorem DocumentRun.files_eq (h : DocumentRun setting place earlier path disk done after) :
    done.document.files = if done.document.error = none then done.names else [] := by
  cases h with
  | again => rfl
  | fresh _ houtcome => exact houtcome.files_eq

/-- Only a document with a new base name has files written. -/
theorem DocumentRun.new_of_name (h : DocumentRun setting place earlier path disk done after)
    (hname : name ∈ done.names) : firstWith (baseName path) earlier = none := by
  cases h with
  | again => exact absurd hname List.not_mem_nil
  | fresh hnew => exact hnew

theorem exists_of_mem_namesOf (h : name ∈ namesOf setting path) :
    ∃ container : Container, name = container.fileName (baseName path) setting.profile.client := by
  obtain ⟨container, -, heq⟩ := List.mem_map.1 h
  exact ⟨container, heq.symm⟩

/-- Names of files for some documents after others: only a document with a new base name has any, and they are
the first of those that it can have. -/
inductive NamedApart (setting : Setting) : List Path → List Path → List (List String) → Prop
  /-- There are no documents. -/
  | nil (earlier : List Path) : NamedApart setting earlier [] []
  /-- There is one, and then there are others. -/
  | cons {earlier : List Path} {path : Path} {paths : List Path} {names : List String}
    {others : List (List String)} (hfront : names <+: namesOf setting path)
    (hnew : ∀ name ∈ names, firstWith (baseName path) earlier = none)
    (hrest : NamedApart setting (earlier ++ [path]) paths others) :
    NamedApart setting earlier (path :: paths) (names :: others)

/-- **Every one of these names** is one of a document with a new base name. -/
theorem NamedApart.exists_of_name {others : List (List String)}
    (h : NamedApart setting earlier paths others) (hname : name ∈ others.flatten) :
    ∃ path ∈ paths, firstWith (baseName path) earlier = none ∧ name ∈ namesOf setting path := by
  induction h with
  | nil => exact absurd hname List.not_mem_nil
  | cons hfront hnew _ ih =>
    rw [List.flatten_cons, List.mem_append] at hname
    rcases hname with hname | hname
    · exact ⟨_, List.mem_cons_self, hnew name hname, hfront.subset hname⟩
    · obtain ⟨path, hpath, hnew, hmem⟩ := ih hname
      rw [firstWith_concat, Option.or_eq_none_iff] at hnew
      exact ⟨path, List.mem_cons_of_mem _ hpath, hnew.1, hmem⟩

/-- **No two of these names** are the same. -/
theorem NamedApart.nodup_flatten {others : List (List String)} (h : NamedApart setting earlier paths others)
    (hcontainers : setting.profile.containers.Nodup) : others.flatten.Nodup := by
  induction h with
  | nil => exact List.nodup_nil
  | cons hfront _ hrest ih =>
    rw [List.flatten_cons, List.nodup_append]
    refine ⟨hfront.sublist.nodup (nodup_fileNames hcontainers _), ih, ?_⟩
    rintro name hname _ hname' rfl
    -- The later document has a base name of its own, and the name of a file tells the base name.
    obtain ⟨other, -, hnew, hother⟩ := hrest.exists_of_name hname'
    obtain ⟨container, rfl⟩ := exists_of_mem_namesOf (hfront.subset hname)
    obtain ⟨container', heq⟩ := exists_of_mem_namesOf hother
    rw [firstWith_concat, Option.or_eq_none_iff, if_pos (Container.fileName_injective heq).1] at hnew
    exact absurd hnew.2 (by simp)

/-- None of these names is that of the notes. -/
theorem NamedApart.notesName_notMem {others : List (List String)}
    (h : NamedApart setting earlier paths others) : notesName ∉ others.flatten := by
  intro hmem
  obtain ⟨path, -, -, hname⟩ := h.exists_of_name hmem
  obtain ⟨container, heq⟩ := exists_of_mem_namesOf hname
  exact Container.fileName_ne_notesName heq.symm

theorem DocumentsRun.namedApart (h : DocumentsRun setting place earlier paths disk dones after) :
    NamedApart setting earlier paths (dones.map Done.names) := by
  induction h with
  | nil => exact .nil _
  | cons hfirst _ ih => exact .cons hfirst.names_prefix (fun _ => hfirst.new_of_name) ih

/-- **Every file that is written** is named after a document with a new base name. -/
theorem DocumentsRun.exists_of_name (h : DocumentsRun setting place earlier paths disk dones after)
    (hname : name ∈ dones.flatMap Done.names) :
    ∃ path ∈ paths, firstWith (baseName path) earlier = none ∧ name ∈ namesOf setting path :=
  h.namedApart.exists_of_name (List.flatMap_def ▸ hname)

/-- **No two files that are written** have one name. -/
theorem DocumentsRun.nodup (h : DocumentsRun setting place earlier paths disk dones after)
    (hcontainers : setting.profile.containers.Nodup) : (dones.flatMap Done.names).Nodup :=
  List.flatMap_def ▸ h.namedApart.nodup_flatten hcontainers

theorem DocumentsRun.changedIn (h : DocumentsRun setting place earlier paths disk dones after) :
    disk.ChangedIn place (dones.flatMap Done.names) after := by
  induction h with
  | nil => exact .refl _ _ _
  | cons hfirst _ ih =>
    rw [List.flatMap_cons]
    exact (hfirst.changedIn.mono (List.subset_append_left ..)).trans (ih.mono (List.subset_append_right ..))

theorem DocumentsRun.isOrdinary (h : DocumentsRun setting place earlier paths disk dones after)
    (hname : name ∈ dones.flatMap Done.names) : Path.IsOrdinary name := by
  obtain ⟨path, -, -, hmem⟩ := h.exists_of_name hname
  obtain ⟨container, rfl⟩ := exists_of_mem_namesOf hmem
  exact Container.isOrdinary_fileName (Path.noSlash_stem path) container _

/-- **What was written** is there when the export has gone through all documents. -/
theorem DocumentsRun.held (h : DocumentsRun setting place earlier paths disk dones after)
    (hready : Ready setting.directory links place disk) (hnodup : (dones.flatMap Done.names).Nodup) :
    ∀ done ∈ dones, ∀ artifact ∈ done.written,
      after.read (setting.directory.child artifact.fileName) = .ok artifact.bytes := by
  induction h with
  | nil => exact fun _ hmem => absurd hmem List.not_mem_nil
  | cons hfirst hrest ih =>
    rw [List.flatMap_cons, List.nodup_append] at hnodup
    obtain ⟨-, hnodup, hapart⟩ := hnodup
    have hbetween := hready.of_changedIn hfirst.changedIn
    -- The files of the first document survive the later ones, whose names are apart from theirs.
    refine List.forall_mem_cons.2 ⟨fun artifact hmem => ?_, ih hbetween hnodup⟩
    have hname : artifact.fileName ∈ Done.names _ := List.mem_map_of_mem hmem
    obtain ⟨container, hcontainer⟩ := exists_of_mem_namesOf (hfirst.names_prefix.subset hname)
    refine hbetween.read_of_changedIn hrest.changedIn ?_ ?_ (hfirst.held artifact hmem)
    · exact hcontainer ▸ Container.isOrdinary_fileName (Path.noSlash_stem _) container _
    · exact fun hlater => hapart _ hname _ hlater rfl

/-- **A document whose base name is claimed** by one before it is reported, and nothing is written for it. -/
theorem DocumentsRun.getElem?_again (h : DocumentsRun setting place earlier paths disk dones after)
    {front back : List Path} {first : Path} (hpaths : paths = front ++ path :: back)
    (hfirst : firstWith (baseName path) (earlier ++ front) = some first) :
    dones[front.length]? = some ⟨repeated setting path first, []⟩ := by
  induction h generalizing front with
  | nil => exact absurd hpaths (by simp)
  | cons hone _ ih =>
    cases front with
    | nil =>
      obtain ⟨rfl, rfl⟩ := List.cons.inj hpaths
      rw [List.append_nil] at hfirst
      cases hone with
      | again first' hfirst' =>
        obtain rfl := Option.some.inj (hfirst'.symm.trans hfirst)
        rfl
      | fresh hnew => exact absurd (hnew.symm.trans hfirst) (by simp)
    | cons other front =>
      obtain ⟨rfl, rfl⟩ := List.cons.inj hpaths
      exact ih rfl (by rwa [List.append_assoc])

end Kept

/-! ## Whole exports -/

section Whole

variable {client : Client} {layout : Layout} {settings : Settings} {source : BoundarySource} {made : Disk}
  {outcome : Except Disk.Fault ExportReport} {drawn : Nat}

/-- What every document of an export needs to know. -/
def settingOf (client : Client) (layout : Layout) (settings : Settings) (source : BoundarySource) : Setting :=
  ⟨client.profile settings, layout.root, layout.clientDirectory client.name, source⟩

/-- The names of the files that belong to no document. -/
def extraNames (client : Client) : List String := if client = .outlook then [notesName] else []

/-- What an export of some documents leaves behind in the directory of the client. -/
structure KeptApart (client : Client) (setting : Setting) (place : List String) (inputs : List Path)
    (made after : Disk) (dones : List Done) : Prop where
  /-- The documents were gone through one by one, and then the notes were written. -/
  runs : ∃ written, DocumentsRun setting place [] inputs made dones written ∧
    written.ChangedIn place (extraNames client) after
  /-- No two files have one name, and none has that of the notes. -/
  nodup : (notesName :: dones.flatMap Done.names).Nodup
  /-- Their names are names of entries. -/
  ordinary : ∀ name ∈ dones.flatMap Done.names ++ extraNames client, Path.IsOrdinary name
  /-- Nothing has changed but files of these names that lie directly in the directory. -/
  changed : made.ChangedIn place (dones.flatMap Done.names ++ extraNames client) after
  /-- A document that was exported lists what was written for it, and one that failed lists nothing. -/
  listed : ∀ done ∈ dones, done.document.files = if done.document.error = none then done.names else []
  /-- All that was written is there. -/
  held : ∀ done ∈ dones, ∀ artifact ∈ done.written,
    after.read (setting.directory.child artifact.fileName) = .ok artifact.bytes
  /-- A document that has the base name of one before it is reported with the first one that has it, and
  nothing is written for it. -/
  again : ∀ front path back first, inputs = front ++ path :: back →
    firstWith (baseName path) front = some first →
      dones[front.length]? = some ⟨repeated setting path first, []⟩

theorem DocumentsRun.listed {dones : List Done}
    (h : DocumentsRun setting place earlier paths disk dones after) :
    ∀ done ∈ dones, done.document.files = if done.document.error = none then done.names else [] := by
  induction h with
  | nil => exact fun _ hmem => absurd hmem List.not_mem_nil
  | cons hfirst _ ih => exact List.forall_mem_cons.2 ⟨hfirst.files_eq, ih⟩

/-- **When the documents are gone through** and nothing but the notes is written after them, everything is
kept apart. -/
theorem keptApart_of_documentsRun {setting : Setting} {inputs : List Path} {written : Disk} {dones : List Done}
    (hready : Ready setting.directory links place made) (hcontainers : setting.profile.containers.Nodup)
    (hruns : DocumentsRun setting place [] inputs made dones written)
    (hnotes : written.ChangedIn place (extraNames client) after) :
    KeptApart client setting place inputs made after dones := by
  have hnodup := hruns.nodup hcontainers
  have hnotesName : notesName ∉ dones.flatMap Done.names :=
    List.flatMap_def ▸ hruns.namedApart.notesName_notMem
  have hextra : extraNames client ⊆ [notesName] := by
    unfold extraNames
    split
    · exact List.Subset.refl _
    · exact List.nil_subset _
  refine ⟨⟨written, hruns, hnotes⟩, List.nodup_cons.2 ⟨hnotesName, hnodup⟩, fun name hname => ?_, ?_,
    hruns.listed, fun done hdone artifact hartifact => ?_, fun _ _ _ _ => hruns.getElem?_again⟩
  · rcases List.mem_append.1 hname with hname | hname
    · exact hruns.isOrdinary hname
    · rw [List.mem_singleton.1 (hextra hname)]
      decide
  · exact (hruns.changedIn.mono (List.subset_append_left ..)).trans (hnotes.mono (List.subset_append_right ..))
  · have hmem : artifact.fileName ∈ dones.flatMap Done.names :=
      List.mem_flatMap.2 ⟨done, hdone, List.mem_map_of_mem hartifact⟩
    refine (hready.of_changedIn hruns.changedIn).read_of_changedIn hnotes (hruns.isOrdinary hmem) ?_
      (hruns.held hready hnodup done hdone artifact hartifact)
    intro hextraName
    exact hnotesName (List.mem_singleton.1 (hextra hextraName) ▸ hmem)

theorem Claims.nil (setting : Setting) : Claims setting [] [] := fun _ => rfl

/-- **When its directory is made** and holds no links, files can be written into it. -/
theorem exists_ready (hcurrent : disk.HasCurrent)
    (hmake : (Disk.makeDirectories (layout.clientDirectory client.name)).run disk = (.ok (), made))
    (hlinks : made.NoLinksIn (layout.clientDirectory client.name)) :
    ∃ links place, Ready (layout.clientDirectory client.name) links place made := by
  have hcurrent' := hcurrent.grows (Disk.grows_makeDirectories hcurrent hmake)
  have htext : (layout.clientDirectory client.name).text ≠ "" :=
    Path.text_child_ne (by cases client <;> decide)
  obtain ⟨links, place, hleads⟩ := (Disk.isDirectory_iff hcurrent').1
    (Disk.isDirectory_of_makeDirectories hcurrent htext hmake)
  exact ⟨links, place, hcurrent', hleads, hlinks.noLink hleads⟩

/-- What an export reports of its documents before the notes are written. -/
def reportOf (client : Client) (layout : Layout) (p : Progress) : ExportReport :=
  ⟨client, layout.clientDirectory client.name, p.documents.reverse, []⟩

/-- The notes of a report. -/
def notesOf (settings : Settings) (report : ExportReport) : Bytes :=
  Bytes.ofString (ImportNotes.text (report.client.profile settings) report)

/-- **What an export returns:** there is nothing to export, or the directory cannot be made, or it goes
through the documents and reports them, unless notes are to be written and cannot be. -/
theorem run_returns (hrun : (run client layout settings source).run disk = ((outcome, drawn), after)) :
    (compiledDocuments disk layout.output = [] ∧
      outcome = .ok ⟨client, layout.clientDirectory client.name, [], []⟩ ∧ after = disk) ∨
    (∃ fault, outcome = .error fault ∧
      (Disk.makeDirectories (layout.clientDirectory client.name)).run disk = (.error fault, after)) ∨
    compiledDocuments disk layout.output ≠ [] ∧ ∃ made p written,
      (Disk.makeDirectories (layout.clientDirectory client.name)).run disk = (.ok (), made) ∧
      ((compiledDocuments disk layout.output).foldlM
        (step (settingOf client layout settings source)) {}).run made = (p, written) ∧
      (client = .html ∧ after = written ∧ outcome = .ok (reportOf client layout p) ∨
        client = .outlook ∧ ∃ result,
          (Disk.writeIfChanged ((layout.clientDirectory client.name).child notesName)
            (notesOf settings (reportOf client layout p))).run written = (result, after) ∧
          outcome = result.map fun _ => { reportOf client layout p with extras := [notesName] }) := by
  rw [run, Disk.run_state_get_bind] at hrun
  dsimp only at hrun
  cases hinputs : compiledDocuments disk layout.output with
  | nil =>
    rw [hinputs] at hrun
    obtain ⟨heq, rfl⟩ := Prod.mk.inj hrun
    obtain ⟨rfl, -⟩ := Prod.mk.inj heq
    exact .inl ⟨rfl, rfl, rfl⟩
  | cons path paths =>
    rw [hinputs] at hrun
    dsimp only at hrun
    rcases hmake : (Disk.makeDirectories (layout.clientDirectory client.name)).run.run disk
      with ⟨fault | ⟨⟩, made⟩
    · rw [Disk.run_state_bind _ hmake] at hrun
      obtain ⟨heq, rfl⟩ := Prod.mk.inj hrun
      obtain ⟨rfl, -⟩ := Prod.mk.inj heq
      exact .inr (.inl ⟨fault, rfl, hmake⟩)
    rcases hloop : ((path :: paths).foldlM (step (settingOf client layout settings source)) {}).run made
      with ⟨p, written⟩
    rw [settingOf] at hloop
    rw [Disk.run_state_bind _ hmake] at hrun
    dsimp only at hrun
    rw [Disk.run_state_bind _ hloop] at hrun
    refine .inr (.inr ⟨List.cons_ne_nil _ _, made, p, written, hmake, hloop, ?_⟩)
    cases client with
    | html =>
      obtain ⟨heq, rfl⟩ := Prod.mk.inj hrun
      obtain ⟨rfl, -⟩ := Prod.mk.inj heq
      exact .inl ⟨rfl, rfl, rfl⟩
    | outlook =>
      rw [if_pos rfl] at hrun
      rcases hnotes : (Disk.writeIfChanged ((layout.clientDirectory Client.outlook.name).child notesName)
        (Bytes.ofString (ImportNotes.text (Client.outlook.profile settings)
          ⟨.outlook, layout.clientDirectory Client.outlook.name, p.documents.reverse, []⟩))).run.run written
        with ⟨result, last⟩
      rw [Disk.run_state_bind _ hnotes] at hrun
      refine .inr ⟨rfl, result, ?_⟩
      cases result <;>
        · obtain ⟨heq, rfl⟩ := Prod.mk.inj hrun
          obtain ⟨rfl, -⟩ := Prod.mk.inj heq
          exact ⟨hnotes, rfl⟩

/-- **What an export comes to:** there is nothing to export, or the directory cannot be made, or it goes
through the documents, and then the notes are written if the client has some. -/
theorem run_cases (hrun : (run client layout settings source).run disk = ((outcome, drawn), after)) :
    (compiledDocuments disk layout.output = [] ∧
      outcome = .ok ⟨client, layout.clientDirectory client.name, [], []⟩ ∧ after = disk) ∨
    (∃ fault, outcome = .error fault ∧
      (Disk.makeDirectories (layout.clientDirectory client.name)).run disk = (.error fault, after)) ∨
    ∃ made p written,
      (Disk.makeDirectories (layout.clientDirectory client.name)).run disk = (.ok (), made) ∧
      ((compiledDocuments disk layout.output).foldlM
        (step (settingOf client layout settings source)) {}).run made = (p, written) ∧
      (client = .html ∧ after = written ∨ client = .outlook ∧ ∃ bytes result,
        (Disk.writeIfChanged ((layout.clientDirectory client.name).child notesName) bytes).run written =
          (result, after)) ∧
      ∀ report, outcome = .ok report → report.documents = p.documents.reverse := by
  rcases run_returns hrun with hnone | hfault | ⟨-, made, p, written, hmake, hloop, hlast⟩
  · exact .inl hnone
  · exact .inr (.inl hfault)
  refine .inr (.inr ⟨made, p, written, hmake, hloop, ?_⟩)
  rcases hlast with ⟨hclient, hafter, rfl⟩ | ⟨hclient, result, hnotes, rfl⟩
  · exact ⟨.inl ⟨hclient, hafter⟩, fun report hok => Except.ok.inj hok ▸ rfl⟩
  · refine ⟨.inr ⟨hclient, _, result, hnotes⟩, fun report hok => ?_⟩
    cases result with
    | error fault => exact absurd hok (by simp [Except.map])
    | ok changed => exact Except.ok.inj hok ▸ rfl

/-- **Exports do not overwrite one another.**  An export that finds documents and can make the directory of
the client keeps everything apart that it writes there, also if the notes cannot be written in the end.  On a
disk without links the directory holds none once it is made (`Disk.noLinksIn_of_makeDirectories`). -/
theorem exports_overwrite_nothing (hcurrent : disk.HasCurrent)
    (hlinks : ∀ made, (Disk.makeDirectories (layout.clientDirectory client.name)).run disk = (.ok (), made) →
      made.NoLinksIn (layout.clientDirectory client.name))
    (hrun : (run client layout settings source).run disk = ((outcome, drawn), after)) :
    (compiledDocuments disk layout.output = [] ∧
      outcome = .ok ⟨client, layout.clientDirectory client.name, [], []⟩ ∧ after = disk) ∨
    (∃ fault, outcome = .error fault ∧
      (Disk.makeDirectories (layout.clientDirectory client.name)).run disk = (.error fault, after)) ∨
    ∃ made links place dones,
      (Disk.makeDirectories (layout.clientDirectory client.name)).run disk = (.ok (), made) ∧
      made.LeadsTo (layout.clientDirectory client.name) links place ∧
      KeptApart client (settingOf client layout settings source) place (compiledDocuments disk layout.output)
        made after dones ∧
      ∀ report, outcome = .ok report → report.documents = dones.map Done.document := by
  rcases run_cases hrun with hnone | hfault | ⟨made, p, written, hmake, hloop, hlast, hreport⟩
  · exact .inl hnone
  · exact .inr (.inl hfault)
  obtain ⟨links, place, hready⟩ := exists_ready hcurrent hmake (hlinks made hmake)
  have hcontainers := Profile.nodup_containers client settings
  obtain ⟨dones, hruns, hdocuments⟩ := foldlM_cases hready hcontainers (Claims.nil _) hloop
  have hnotes : written.ChangedIn place (extraNames client) after := by
    rcases hlast with ⟨rfl, rfl⟩ | ⟨rfl, bytes, result, hnotes⟩
    · exact .refl _ _ _
    · have hwritten := hready.of_changedIn hruns.changedIn
      exact (hwritten.leads.writeIfChanged_child hwritten.current (by decide)
        (hwritten.noLink notesName) hnotes).1
  refine .inr (.inr ⟨made, links, place, dones, hmake, hready.leads,
    keptApart_of_documentsRun hready hcontainers hruns hnotes, fun report hok => ?_⟩)
  rw [hreport report hok, hdocuments, List.append_nil, List.reverse_reverse]

/-- A project with two compiled documents of one name. -/
def paired : Disk :=
  ⟨.directory [("dist", .directory [("a", .directory [("x.html", .file [] false)]),
      ("b", .directory [("x.html", .file [] false)])]),
    ("exports", .directory [("html", .directory [])])], []⟩

/-- In that project the second document is reported with the first one. -/
theorem paired_kept_apart : ∃ place dones report drawn after,
    (run .html (.ofSettings ⟨"/"⟩ {}) {} fun _ _ => "b").run paired = ((.ok report, drawn), after) ∧
      report.documents = dones.map Done.document ∧
      KeptApart .html (settingOf .html (.ofSettings ⟨"/"⟩ {}) {} fun _ _ => "b") place
        [⟨"/dist/a/x.html"⟩, ⟨"/dist/b/x.html"⟩] paired after dones ∧
      report.documents[1]? = some ⟨⟨"dist/b/x.html"⟩, [], [],
        some "base name 'x' is already exported from dist/a/x.html"⟩ := by
  have hcurrent : paired.HasCurrent := ⟨_, rfl⟩
  have hmake := Disk.makeDirectories_run_of_isDirectory hcurrent (show paired.isDirectory
    ((Layout.ofSettings ⟨"/"⟩ {}).clientDirectory Client.html.name) = true by decide +kernel)
  have hinputs : compiledDocuments paired (Layout.ofSettings ⟨"/"⟩ {}).output =
      [⟨"/dist/a/x.html"⟩, ⟨"/dist/b/x.html"⟩] := by decide +kernel
  have hok : ((run .html (.ofSettings ⟨"/"⟩ {}) {} fun _ _ => "b").run paired).1.1.isOk = true := by
    decide +kernel
  rcases hrun : (run .html (.ofSettings ⟨"/"⟩ {}) {} fun _ _ => "b").run paired with
    ⟨⟨fault | report, drawn⟩, after⟩
  · rw [hrun] at hok
    exact absurd hok (by simp [Except.isOk, Except.toBool])
  have hkept := exports_overwrite_nothing hcurrent (fun made hmade => by
    obtain rfl := (Prod.mk.inj (hmake.symm.trans hmade)).2
    decide +kernel) hrun
  rw [hinputs] at hkept
  rcases hkept with ⟨hnone, -⟩ | ⟨fault, -, hfault⟩ |
    ⟨made, links, place, dones, hmade, -, hkept, hreport⟩
  · exact absurd hnone (by simp)
  · exact absurd (Prod.mk.inj (hmake.symm.trans hfault)).1 (by simp)
  · obtain rfl := (Prod.mk.inj (hmake.symm.trans hmade)).2
    have hagain := hkept.again [⟨"/dist/a/x.html"⟩] ⟨"/dist/b/x.html"⟩ [] ⟨"/dist/a/x.html"⟩ rfl
      (by decide +kernel)
    refine ⟨place, dones, report, drawn, after, rfl, hreport report rfl, hkept, ?_⟩
    rw [hreport report rfl, List.getElem?_map, show dones[1]? = _ from hagain]
    decide +kernel

end Whole

end Export

end MailTemplate
