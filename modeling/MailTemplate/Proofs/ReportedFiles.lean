import Mathlib.Data.List.Forall2
import MailTemplate.Proofs.DiskAdditions
import MailTemplate.Proofs.ExportFiles

/-!
# Reported files

A file is settled by an export if the export writes it or finds that it is up to date.  Whatever becomes of a
document, the disk is afterwards as if just its settled files had been written, and what a report lists is
settled.  Not all that is settled is listed.  The files of a document are written one after another, and if one
of them cannot be written, then those before it stay, while the document is reported as failed and without
files.  The report tells exactly what was settled if and only if that happens to no document: a document that
is claimed, cannot be read, cannot be packed or fails at its first file leaves nothing behind.

Links are allowed everywhere, since a file is told by its name in the directory of the client.

## Main definitions

* `Export.settledOf` — which of some artifacts are settled when they are written.
* `Export.Attempt`, `Export.attempts` — what an export does for its documents, with the disks between them.
* `Export.settledNames` — the names of all files that an export settles.
* `Export.Told` — what a report tells of an attempt.

## Main results

* `Export.writeFiles_settledOf` — writing artifacts comes to writing those that are settled.
* `Export.step_told`, `Export.foldlM_told` — one document and all documents.
* `Export.report_lists_settled_iff` — when a report lists exactly what was settled.
-/

namespace MailTemplate

/-- The names of all files that a report lists. -/
def ExportReport.fileNames (report : ExportReport) : List String :=
  report.documents.flatMap ExportedDocument.files ++ report.extras

/-- A report without the files that belong to no document. -/
def ExportReport.withoutExtras (report : ExportReport) : ExportReport := { report with extras := [] }

theorem ExportReport.filesWritten_eq (report : ExportReport) :
    report.filesWritten = report.fileNames.length := by
  rw [filesWritten, fileNames, List.length_append, List.length_flatMap, List.sum_eq_foldl]

namespace Export

variable {client : Client} {layout : Layout} {settings : Settings} {source : BoundarySource} {setting : Setting}
  {directory path : Path} {paths earlier : List Path} {disk between after : Disk}
  {artifacts others : List Artifact} {p p' : Progress} {asked asked' : List Nat} {drawn : Nat}

/-! ## Settled files -/

/-- The artifacts that are settled when some are written into a directory one after another: each is written
or found up to date, up to the first that cannot be written. -/
def settledOf (directory : Path) (disk : Disk) : List Artifact → List Artifact
  | [] => []
  | artifact :: rest =>
    let written := (Disk.writeIfChanged (directory.child artifact.fileName) artifact.bytes).run.run disk
    if written.1.isOk then artifact :: settledOf directory written.2 rest else []

theorem prefix_settledOf (directory : Path) (disk : Disk) (artifacts : List Artifact) :
    settledOf directory disk artifacts <+: artifacts := by
  induction artifacts generalizing disk with
  | nil => exact List.nil_prefix
  | cons artifact artifacts ih =>
    rw [settledOf]
    split
    · exact (List.prefix_cons_inj artifact).2 (ih _)
    · exact List.nil_prefix

theorem writeFiles_cons_ok {artifact : Artifact} {changed : Bool}
    (h : (Disk.writeIfChanged (directory.child artifact.fileName) artifact.bytes).run.run disk =
      (.ok changed, between)) :
    (writeFiles directory (artifact :: artifacts)).run disk = (writeFiles directory artifacts).run between := by
  rw [writeFiles, Disk.run_state_bind _ h]

theorem writeFiles_append (h : (writeFiles directory artifacts).run disk = (.ok (), between)) :
    (writeFiles directory (artifacts ++ others)).run disk = (writeFiles directory others).run between := by
  induction artifacts generalizing disk with
  | nil =>
    obtain ⟨-, rfl⟩ := Prod.mk.inj h
    rfl
  | cons artifact artifacts ih =>
    rcases hwrite : (Disk.writeIfChanged (directory.child artifact.fileName) artifact.bytes).run.run disk
      with ⟨fault | changed, first⟩
    · rw [writeFiles, Disk.run_state_bind _ hwrite] at h
      exact absurd (Prod.mk.inj h).1 (by simp)
    · rw [writeFiles_cons_ok hwrite] at h
      rw [List.cons_append, writeFiles_cons_ok hwrite, ih h]

/-- **Writing artifacts** comes to writing those that are settled, and it fails unless these are all. -/
theorem writeFiles_settledOf {outcome : Except String Unit} (hcurrent : disk.HasCurrent)
    (hdirectory : disk.isDirectory directory = true)
    (hordinary : ∀ artifact ∈ artifacts, Path.IsOrdinary artifact.fileName)
    (hrun : (writeFiles directory artifacts).run disk = (outcome, after)) :
    (writeFiles directory (settledOf directory disk artifacts)).run disk = (.ok (), after) ∧
      (outcome = .ok () ↔ settledOf directory disk artifacts = artifacts) ∧ disk.Grows after := by
  induction artifacts generalizing disk with
  | nil =>
    obtain ⟨rfl, rfl⟩ := Prod.mk.inj hrun
    exact ⟨rfl, by simp [settledOf], .refl _⟩
  | cons artifact artifacts ih =>
    obtain ⟨hname, hordinary⟩ := List.forall_mem_cons.1 hordinary
    rcases hwrite : (Disk.writeIfChanged (directory.child artifact.fileName) artifact.bytes).run.run disk
      with ⟨result, first⟩
    obtain ⟨hgrows, ⟨changed, rfl⟩ | ⟨⟨fault, rfl⟩, rfl⟩⟩ :=
      Disk.writeIfChanged_child_cases hcurrent hdirectory hname.isStep hwrite
    · rw [writeFiles_cons_ok hwrite] at hrun
      obtain ⟨hsettled, hall, hmore⟩ := ih (hcurrent.grows hgrows)
        (Disk.isDirectory_of_grows hcurrent hdirectory hgrows) hordinary hrun
      simp only [settledOf, hwrite, Except.isOk, Except.toBool, if_true]
      exact ⟨(writeFiles_cons_ok hwrite).trans hsettled, by simpa using hall, hgrows.trans hmore⟩
    · -- A write that fails changes nothing, and those after it are not tried.
      rw [writeFiles, Disk.run_state_bind _ hwrite] at hrun
      obtain ⟨rfl, rfl⟩ := Prod.mk.inj hrun
      simp only [settledOf, hwrite, Except.isOk, Except.toBool, Bool.false_eq_true, if_false]
      exact ⟨rfl, by simp, .refl _⟩

/-! ## One document -/

/-- What a document is packed into, if it can be read and packed. -/
def packedOne (setting : Setting) (path : Path) (asked : List Nat) (disk : Disk) : Option (List Artifact) :=
  match disk.readText path with
  | .error _ => none
  | .ok html => (packed setting path html asked).1.toOption

/-- What the next document is packed into, if its base name is not claimed. -/
def packedNext (setting : Setting) (p : Progress) (path : Path) (disk : Disk) : Option (List Artifact) :=
  match p.claimed.find? fun (name, _) => name == baseName path with
  | some _ => none
  | none => packedOne setting path p.asked disk

/-- An attempt to export a document. -/
structure Attempt where
  /-- The disk before it. -/
  before : Disk
  /-- What the document is packed into, if it comes to that. -/
  packed : Option (List Artifact)
  /-- The artifacts that are settled. -/
  settled : List Artifact
  /-- The disk after it. -/
  after : Disk

namespace Attempt

/-- The names of the settled files. -/
def names (attempt : Attempt) : List String := attempt.settled.map Artifact.fileName

/-- None of the files of the document is settled, or all are. -/
def AllOrNone (attempt : Attempt) : Prop :=
  attempt.settled = [] ∨ attempt.packed = some attempt.settled

end Attempt

/-- The attempt to export the next document. -/
def attemptNext (setting : Setting) (p : Progress) (path : Path) (disk : Disk) : Attempt :=
  let packed := packedNext setting p path disk
  ⟨disk, packed, settledOf setting.directory disk (packed.getD []), ((step setting p path).run disk).2⟩

/-- The attempts to export documents one after another. -/
def attemptsFrom (setting : Setting) : Progress → List Path → Disk → List Attempt
  | _, [], _ => []
  | p, path :: paths, disk =>
    attemptNext setting p path disk ::
      attemptsFrom setting ((step setting p path).run disk).1 paths ((step setting p path).run disk).2

/-- What a report tells of an attempt. -/
structure Told (directory : Path) (attempt : Attempt) (document : ExportedDocument) : Prop where
  /-- The disk is as if just the settled files had been written. -/
  written : (writeFiles directory attempt.settled).run attempt.before = (.ok (), attempt.after)
  /-- A document without an error lists what is settled, and one with an error lists nothing. -/
  files : document.files = if document.error = none then attempt.names else []
  /-- A document has no error exactly if all of its files are settled. -/
  error : document.error = none ↔ attempt.packed = some attempt.settled

/-- **A document that failed** with all of its files settled or none has left the disk as it was. -/
theorem Told.unchanged {attempt : Attempt} {document : ExportedDocument} (h : Told directory attempt document)
    (hall : attempt.AllOrNone) (herror : document.error ≠ none) : attempt.after = attempt.before := by
  rcases hall with hnone | hpacked
  · have hwritten := h.written
    rw [hnone] at hwritten
    exact (Prod.mk.inj hwritten).2.symm
  · exact absurd (h.error.2 hpacked) herror

theorem names_of_packedOne (h : packedOne setting path asked disk = some artifacts) :
    artifacts.map Artifact.fileName = namesOf setting path := by
  rw [packedOne] at h
  split at h
  · exact absurd h (by simp)
  · rename_i html _
    rcases hpack : packed setting path html asked with ⟨failure | artifacts', asked'⟩
    · rw [hpack] at h
      exact absurd h (by simp [Except.toOption])
    · rw [hpack] at h
      obtain rfl := Option.some.inj h
      exact packed_fileNames hpack

theorem names_of_packedNext (h : packedNext setting p path disk = some artifacts) :
    artifacts.map Artifact.fileName = namesOf setting path := by
  rw [packedNext] at h
  split at h
  · exact absurd h (by simp)
  · exact names_of_packedOne h

/-- **The export of a document** settles files and tells of it. -/
theorem exportOne_told {result : Except String (List String × List String)} (hcurrent : disk.HasCurrent)
    (hdirectory : disk.isDirectory setting.directory = true)
    (hrun : (exportOne setting path (baseName path) asked).run disk = ((result, asked'), after)) :
    Told setting.directory ⟨disk, packedOne setting path asked disk,
        settledOf setting.directory disk ((packedOne setting path asked disk).getD []), after⟩
      (documentOf setting path result) ∧ disk.Grows after := by
  rcases exportOne_returns hrun with ⟨fault, hread, rfl, rfl⟩ | ⟨html, failure, hread, hpack, rfl, rfl⟩ |
    ⟨html, artifacts, outcome, hread, hpack, hwrite, rfl⟩
  · simp only [packedOne, hread]
    exact ⟨⟨rfl, rfl, by simp [documentOf]⟩, .refl _⟩
  · simp only [packedOne, hread, hpack, Except.toOption]
    exact ⟨⟨rfl, rfl, by simp [documentOf]⟩, .refl _⟩
  obtain ⟨hsettled, hall, hgrows⟩ :=
    writeFiles_settledOf hcurrent hdirectory (isOrdinary_of_packed hpack) hwrite
  simp only [packedOne, hread, hpack, Except.toOption, Option.getD_some]
  cases outcome with
  | error error =>
    simp only [reduceCtorEq, false_iff] at hall
    exact ⟨⟨hsettled, rfl, by simpa [documentOf, Except.map, eq_comm] using hall⟩, hgrows⟩
  | ok =>
    have heq := hall.1 rfl
    exact ⟨⟨hsettled, congrArg (List.map Artifact.fileName) heq.symm,
      iff_of_true rfl (congrArg some heq.symm)⟩, hgrows⟩

/-- **A step of an export** settles files and tells of one document. -/
theorem step_told (hcurrent : disk.HasCurrent) (hdirectory : disk.isDirectory setting.directory = true)
    (hrun : (step setting p path).run disk = (p', after)) :
    ∃ document, Told setting.directory (attemptNext setting p path disk) document ∧
      p'.documents = document :: p.documents ∧ disk.Grows after := by
  rw [attemptNext, hrun, packedNext]
  cases hclaim : p.claimed.find? fun (name, _) => name == baseName path with
  | some claim =>
    rw [step_run_of_some hclaim] at hrun
    obtain ⟨rfl, rfl⟩ := Prod.mk.inj hrun
    exact ⟨_, ⟨rfl, rfl, by simp [documentOf]⟩, rfl, .refl _⟩
  | none =>
    rcases hone : (exportOne setting path (baseName path) p.asked).run disk with ⟨⟨result, asked⟩, last⟩
    rw [step_run_of_none hclaim hone] at hrun
    obtain ⟨rfl, rfl⟩ := Prod.mk.inj hrun
    obtain ⟨htold, hgrows⟩ := exportOne_told hcurrent hdirectory hone
    exact ⟨documentOf setting path result, htold, rfl, hgrows⟩

/-! ## All documents -/

/-- **All steps of an export** settle files one after another, and their documents are told of in order. -/
theorem foldlM_told (hcurrent : disk.HasCurrent) (hdirectory : disk.isDirectory setting.directory = true)
    (hrun : (paths.foldlM (step setting) p).run disk = (p', after)) :
    ∃ documents, List.Forall₂ (Told setting.directory) (attemptsFrom setting p paths disk) documents ∧
      p'.documents = documents.reverse ++ p.documents ∧
      (writeFiles setting.directory ((attemptsFrom setting p paths disk).flatMap Attempt.settled)).run disk =
        (.ok (), after) := by
  induction paths generalizing p disk with
  | nil =>
    obtain ⟨rfl, rfl⟩ := Prod.mk.inj hrun
    exact ⟨[], .nil, rfl, rfl⟩
  | cons path paths ih =>
    rw [List.foldlM_cons] at hrun
    rcases hstep : (step setting p path).run disk with ⟨q, between⟩
    rw [Disk.run_state_bind _ hstep] at hrun
    obtain ⟨document, htold, hfirst, hgrows⟩ := step_told hcurrent hdirectory hstep
    obtain ⟨documents, hdocuments, hrest, hwritten⟩ := ih (hcurrent.grows hgrows)
      (Disk.isDirectory_of_grows hcurrent hdirectory hgrows) hrun
    have hbetween : (attemptNext setting p path disk).after = between := congrArg Prod.snd hstep
    simp only [attemptsFrom, hstep, List.flatMap_cons]
    refine ⟨document :: documents, .cons htold hdocuments, ?_, ?_⟩
    · rw [hrest, hfirst, List.reverse_cons, List.append_assoc]
      rfl
    · -- What is settled for the first document is written before what is settled for the others.
      rw [writeFiles_append (hbetween ▸ htold.written), hwritten]

theorem step_claims (hclaims : Claims setting p.claimed earlier) (path : Path) (disk : Disk) :
    Claims setting ((step setting p path).run disk).1.claimed (earlier ++ [path]) := by
  have hclaim := hclaims (baseName path)
  cases hfirst : firstWith (baseName path) earlier with
  | some first =>
    rw [hfirst] at hclaim
    rw [step_run_of_some hclaim]
    exact hclaims.again hfirst
  | none =>
    rw [hfirst] at hclaim
    rw [step_run_of_none hclaim rfl]
    exact hclaims.fresh hfirst

/-- The settled files of a document are the first of those that it can have, and only a document with a new
base name has any. -/
theorem attemptNext_names (hclaims : Claims setting p.claimed earlier) (path : Path) (disk : Disk) :
    (attemptNext setting p path disk).names <+: namesOf setting path ∧
      ∀ name ∈ (attemptNext setting p path disk).names, firstWith (baseName path) earlier = none := by
  -- A document is packed only if no document before it has its base name.
  have hpacked : packedNext setting p path disk =
      (firstWith (baseName path) earlier).elim (packedOne setting path p.asked disk) fun _ => none := by
    rw [packedNext, hclaims (baseName path)]
    cases firstWith (baseName path) earlier <;> rfl
  rw [Attempt.names, attemptNext]
  dsimp only
  rw [hpacked]
  cases firstWith (baseName path) earlier with
  | some first => exact ⟨List.nil_prefix, fun name hname => absurd hname List.not_mem_nil⟩
  | none =>
    refine ⟨?_, fun _ _ => rfl⟩
    rw [Option.elim_none]
    cases hone : packedOne setting path p.asked disk with
    | none => exact List.nil_prefix
    | some artifacts =>
      rw [← names_of_packedOne hone]
      exact (prefix_settledOf setting.directory disk artifacts).map _

theorem attemptNext_allOrNone (hone : setting.profile.containers.length ≤ 1) (p : Progress) (path : Path)
    (disk : Disk) : (attemptNext setting p path disk).AllOrNone := by
  rw [Attempt.AllOrNone, attemptNext]
  dsimp only
  cases hpacked : packedNext setting p path disk with
  | none => exact .inl rfl
  | some artifacts =>
    have hlength : artifacts.length ≤ 1 := by
      rw [← List.length_map Artifact.fileName, names_of_packedNext hpacked, namesOf, List.length_map]
      exact hone
    rw [Option.getD_some]
    obtain ⟨rest, hrest⟩ := prefix_settledOf setting.directory disk artifacts
    cases hsettled : settledOf setting.directory disk artifacts with
    | nil => exact .inl rfl
    | cons first more =>
      -- The first file is the only one.
      have hlengths := congrArg List.length hrest
      rw [hsettled, List.length_append, List.length_cons] at hlengths
      obtain rfl : rest = [] := List.eq_nil_of_length_eq_zero (by omega)
      rw [List.append_nil, hsettled] at hrest
      exact .inr (congrArg some hrest.symm)

theorem attemptsFrom_namedApart (hclaims : Claims setting p.claimed earlier) :
    NamedApart setting earlier paths ((attemptsFrom setting p paths disk).map Attempt.names) := by
  induction paths generalizing p earlier disk with
  | nil => exact .nil _
  | cons path paths ih =>
    obtain ⟨hfront, hnew⟩ := attemptNext_names hclaims path disk
    exact .cons hfront hnew (ih (step_claims hclaims path disk))

/-- **If a document has one file at most,** then all of its files are settled or none. -/
theorem allOrNone_of_mem_attemptsFrom {attempt : Attempt} (hone : setting.profile.containers.length ≤ 1)
    (h : attempt ∈ attemptsFrom setting p paths disk) : attempt.AllOrNone := by
  induction paths generalizing p disk with
  | nil => exact absurd h List.not_mem_nil
  | cons path paths ih =>
    rcases List.mem_cons.1 h with rfl | h
    · exact attemptNext_allOrNone hone p path disk
    · exact ih h

/-! ## What is listed -/

section Listed

variable {attempt : Attempt} {document : ExportedDocument} {attempts : List Attempt}
  {documents : List ExportedDocument}

theorem Told.sublist (h : Told directory attempt document) : document.files.Sublist attempt.names := by
  rw [h.files]
  split
  · exact List.Sublist.refl _
  · exact List.nil_sublist _

/-- A document lists as many files as are settled exactly if all are settled or none. -/
theorem Told.length_eq_iff (h : Told directory attempt document) :
    document.files.length = attempt.names.length ↔ attempt.AllOrNone := by
  rw [h.files, Attempt.AllOrNone, ← h.error]
  by_cases herror : document.error = none
  · simp [herror]
  · simp [herror, Attempt.names, eq_comm]

theorem files_sublist (h : List.Forall₂ (Told directory) attempts documents) :
    (documents.flatMap ExportedDocument.files).Sublist (attempts.flatMap Attempt.names) := by
  induction h with
  | nil => exact List.Sublist.refl _
  | cons hfirst _ ih => exact hfirst.sublist.append ih

/-- **As many files are listed as are settled** exactly if each document has all of its files settled or
none. -/
theorem length_files_eq_iff (h : List.Forall₂ (Told directory) attempts documents) :
    (documents.flatMap ExportedDocument.files).length = (attempts.flatMap Attempt.names).length ↔
      ∀ attempt ∈ attempts, attempt.AllOrNone := by
  induction h with
  | nil => simp
  | cons hfirst hrest ih =>
    rw [List.forall_mem_cons, ← hfirst.length_eq_iff, ← ih, List.flatMap_cons, List.flatMap_cons,
      List.length_append, List.length_append]
    -- No document lists more than is settled for it, so nothing makes up for what is missing.
    have hone := hfirst.sublist.length_le
    have hall := (files_sublist hrest).length_le
    omega

/-- A sublist of a list without repetitions has all of its elements exactly if it is as long. -/
theorem mem_iff_of_sublist {listed settled : List String} (h : listed.Sublist settled)
    (hnodup : settled.Nodup) :
    (∀ name, name ∈ listed ↔ name ∈ settled) ↔ listed.length = settled.length := by
  -- Without repetitions the same elements are a permutation, which has the same length.
  rw [← List.perm_ext_iff_of_nodup (h.nodup hnodup) hnodup]
  exact ⟨List.Perm.length_eq, fun hlength => h.eq_of_length hlength ▸ List.Perm.refl _⟩

end Listed

/-! ## Whole exports -/

section Whole

variable {report : ExportReport}

/-- The disk when an export turns to its documents: the directory of the client is made if there are any. -/
def opened (client : Client) (layout : Layout) (disk : Disk) : Disk :=
  if compiledDocuments disk layout.output = [] then disk
  else ((Disk.makeDirectories (layout.clientDirectory client.name)).run.run disk).2

/-- The attempts of an export, one for each compiled document. -/
def attempts (client : Client) (layout : Layout) (settings : Settings) (source : BoundarySource) (disk : Disk) :
    List Attempt :=
  attemptsFrom (settingOf client layout settings source) {} (compiledDocuments disk layout.output)
    (opened client layout disk)

/-- The names of all files that an export settles which returns a report: those of the documents, and the notes
if the client has some and there is anything to export. -/
def settledNames (client : Client) (layout : Layout) (settings : Settings) (source : BoundarySource)
    (disk : Disk) : List String :=
  (attempts client layout settings source disk).flatMap Attempt.names ++
    if compiledDocuments disk layout.output = [] then [] else extraNames client

theorem nodup_settledNames (client : Client) (layout : Layout) (settings : Settings) (source : BoundarySource)
    (disk : Disk) : (settledNames client layout settings source disk).Nodup := by
  have hapart : NamedApart (settingOf client layout settings source) [] (compiledDocuments disk layout.output)
      ((attempts client layout settings source disk).map Attempt.names) :=
    attemptsFrom_namedApart (Claims.nil _)
  have hnodup : (((attempts client layout settings source disk).map Attempt.names).flatten ++
      [notesName]).Nodup :=
    (List.perm_append_singleton notesName _).nodup_iff.2 (List.nodup_cons.2
      ⟨hapart.notesName_notMem, hapart.nodup_flatten (Profile.nodup_containers client settings)⟩)
  rw [settledNames, List.flatMap_def]
  refine ((List.Sublist.refl _).append ?_).nodup hnodup
  rw [extraNames]
  split
  · exact List.nil_sublist _
  · split
    · exact List.Sublist.refl _
    · exact List.nil_sublist _

/-- **A client with one file for each document** has all of them settled or none. -/
theorem allOrNone_of_html {attempt : Attempt} (h : attempt ∈ attempts .html layout settings source disk) :
    attempt.AllOrNone := by
  have hone : (settingOf .html layout settings source).profile.containers.length ≤ 1 := Nat.le_refl 1
  exact allOrNone_of_mem_attemptsFrom hone h

/-- What an export that returns a report has done, and what the report tells of it. -/
structure Accounted (client : Client) (layout : Layout) (settings : Settings) (source : BoundarySource)
    (disk after : Disk) (report : ExportReport) : Prop where
  /-- Each compiled document was attempted in its turn. -/
  told : List.Forall₂ (Told (layout.clientDirectory client.name)) (attempts client layout settings source disk)
    report.documents
  /-- The notes are told of. -/
  extras : report.extras = if compiledDocuments disk layout.output = [] then [] else extraNames client
  /-- The disk is as if just the settled files had been written, the notes last. -/
  written : ∃ written, (writeFiles (layout.clientDirectory client.name)
      ((attempts client layout settings source disk).flatMap Attempt.settled)).run (opened client layout disk) =
        (.ok (), written) ∧
    (report.extras = [] ∧ after = written ∨
      report.extras = [notesName] ∧ ∃ changed, (Disk.writeIfChanged
        ((layout.clientDirectory client.name).child notesName)
        (notesOf settings report.withoutExtras)).run written = (.ok changed, after))

theorem Accounted.sublist (h : Accounted client layout settings source disk after report) :
    report.fileNames.Sublist (settledNames client layout settings source disk) := by
  rw [ExportReport.fileNames, settledNames, h.extras]
  exact (files_sublist h.told).append (List.Sublist.refl _)

/-- As many files are listed as are settled exactly if that is so for the documents. -/
theorem Accounted.length_eq_iff (h : Accounted client layout settings source disk after report) :
    report.fileNames.length = (settledNames client layout settings source disk).length ↔
      ∀ attempt ∈ attempts client layout settings source disk, attempt.AllOrNone := by
  rw [← length_files_eq_iff h.told, ExportReport.fileNames, settledNames, h.extras, List.length_append,
    List.length_append, Nat.add_right_cancel_iff]

/-- **An export that returns a report** accounts for what it has done. -/
theorem accounted_of_run (hcurrent : disk.HasCurrent)
    (hrun : (run client layout settings source).run disk = ((.ok report, drawn), after)) :
    Accounted client layout settings source disk after report := by
  rcases run_returns hrun with ⟨hnone, hreport, rfl⟩ | ⟨fault, hfault, -⟩ |
    ⟨hsome, made, p, written, hmake, hloop, hlast⟩
  · obtain rfl := Except.ok.inj hreport
    have hattempts : attempts client layout settings source after = [] := by
      rw [attempts, hnone, attemptsFrom]
    have hopened : opened client layout after = after := if_pos hnone
    exact ⟨hattempts ▸ .nil, (if_pos hnone).symm, after, by rw [hattempts, hopened]; rfl, .inl ⟨rfl, rfl⟩⟩
  · exact absurd hfault (by simp)
  have hopened : opened client layout disk = made := (if_neg hsome).trans (congrArg Prod.snd hmake)
  have htext : (layout.clientDirectory client.name).text ≠ "" :=
    Path.text_child_ne (by cases client <;> decide)
  have hdirectory : made.isDirectory (settingOf client layout settings source).directory = true :=
    Disk.isDirectory_of_makeDirectories hcurrent htext hmake
  obtain ⟨documents, htold, hdocuments, hwritten⟩ :=
    foldlM_told (hcurrent.grows (Disk.grows_makeDirectories hcurrent hmake)) hdirectory hloop
  rw [List.append_nil] at hdocuments
  rw [← hopened] at htold hwritten
  have hreported : (reportOf client layout p).documents = documents := by
    rw [reportOf, hdocuments, List.reverse_reverse]
  rcases hlast with ⟨rfl, rfl, hreport⟩ | ⟨rfl, result, hnotes, hreport⟩
  · obtain rfl := Except.ok.inj hreport
    exact ⟨hreported ▸ htold, (if_neg hsome).symm, _, hwritten, .inl ⟨rfl, rfl⟩⟩
  · cases result with
    | error fault => exact absurd hreport (by simp [Except.map])
    | ok changed =>
      obtain rfl := Except.ok.inj hreport
      have hbare : ExportReport.withoutExtras { reportOf .outlook layout p with extras := [notesName] } =
          reportOf .outlook layout p := rfl
      refine ⟨hreported ▸ htold, (if_neg hsome).symm, written, hwritten, .inr ⟨rfl, changed, ?_⟩⟩
      rw [hbare, hnotes]

/-- **A report lists exactly what was settled,** and counts it right, if and only if each document has all of
its files settled or none, and then no document that is reported with an error has changed anything.  Nothing
is ever listed that was not settled. -/
theorem report_lists_settled_iff (hcurrent : disk.HasCurrent)
    (hrun : (run client layout settings source).run disk = ((.ok report, drawn), after)) :
    Accounted client layout settings source disk after report ∧
      report.fileNames.Sublist (settledNames client layout settings source disk) ∧
      ((∀ name, name ∈ report.fileNames ↔ name ∈ settledNames client layout settings source disk) ↔
        ∀ attempt ∈ attempts client layout settings source disk, attempt.AllOrNone) ∧
      (report.filesWritten = (settledNames client layout settings source disk).length ↔
        ∀ attempt ∈ attempts client layout settings source disk, attempt.AllOrNone) ∧
      List.Forall₂ (fun attempt document =>
        attempt.AllOrNone → document.error ≠ none → attempt.after = attempt.before)
        (attempts client layout settings source disk) report.documents := by
  have haccounted := accounted_of_run hcurrent hrun
  refine ⟨haccounted, haccounted.sublist, ?_, ?_, haccounted.told.imp fun _ _ htold => htold.unchanged⟩
  · rw [mem_iff_of_sublist haccounted.sublist (nodup_settledNames client layout settings source disk),
      haccounted.length_eq_iff]
  · rw [ExportReport.filesWritten_eq, haccounted.length_eq_iff]

/-- In the project with two documents of one name the second is reported with an error, and the report lists
what was settled. -/
theorem paired_lists_settled : ∃ report drawn after,
    (run .html (.ofSettings ⟨"/"⟩ {}) {} fun _ _ => "b").run paired = ((.ok report, drawn), after) ∧
      report.documents.map ExportedDocument.files = [["x.html"], []] ∧
      ∀ name, name ∈ report.fileNames ↔
        name ∈ settledNames .html (.ofSettings ⟨"/"⟩ {}) {} (fun _ _ => "b") paired := by
  have hfiles : ((run .html (.ofSettings ⟨"/"⟩ {}) {} fun _ _ => "b").run paired).1.1.toOption.map
      (fun report => report.documents.map ExportedDocument.files) = some [["x.html"], []] := by decide +kernel
  rcases hrun : (run .html (.ofSettings ⟨"/"⟩ {}) {} fun _ _ => "b").run paired with
    ⟨⟨fault | report, drawn⟩, after⟩
  · rw [hrun] at hfiles
    exact absurd hfiles (by simp [Except.toOption])
  · rw [hrun] at hfiles
    exact ⟨report, drawn, after, rfl, Option.some.inj hfiles,
      (report_lists_settled_iff ⟨_, rfl⟩ hrun).2.2.1.2 fun _ => allOrNone_of_html⟩

/-- A compiled project with a directory where the second of the files for Outlook is to be written. -/
def blocked : Disk :=
  ⟨.directory [("dist", .directory [("a.html", .file [] false)]),
    ("exports", .directory [("outlook", .directory [("a.emltpl", .directory [])])])], []⟩

/-- A source of boundaries that differ by their levels. -/
def numbered : BoundarySource := fun _ level => String.ofList ['b', Nat.digitChar level]

/-- In that project the first file is written, and the document is reported without any. -/
theorem blocked_lists_nothing : ∃ report drawn after,
    (run .outlook (.ofSettings ⟨"/"⟩ {}) {} numbered).run blocked = ((.ok report, drawn), after) ∧
      report.documents = [⟨⟨"dist/a.html"⟩, [], [],
        some "cannot write a.emltpl: Is a directory (os error 21)"⟩] ∧
      blocked.isFile ⟨"/exports/outlook/a.oft"⟩ = false ∧ after.isFile ⟨"/exports/outlook/a.oft"⟩ = true ∧
      "a.oft" ∈ settledNames .outlook (.ofSettings ⟨"/"⟩ {}) {} numbered blocked ∧
      "a.oft" ∉ report.fileNames := by
  have hreport : ((run .outlook (.ofSettings ⟨"/"⟩ {}) {} numbered).run blocked).1.1.toOption =
      some ⟨.outlook, ⟨"/exports/outlook"⟩, [⟨⟨"dist/a.html"⟩, [], [],
        some "cannot write a.emltpl: Is a directory (os error 21)"⟩], [notesName]⟩ := by decide +kernel
  have hafter : ((run .outlook (.ofSettings ⟨"/"⟩ {}) {} numbered).run blocked).2.isFile
      ⟨"/exports/outlook/a.oft"⟩ = true := by decide +kernel
  rcases hrun : (run .outlook (.ofSettings ⟨"/"⟩ {}) {} numbered).run blocked with
    ⟨⟨fault | report, drawn⟩, after⟩
  · rw [hrun] at hreport
    exact absurd hreport (by simp [Except.toOption])
  · rw [hrun] at hreport hafter
    obtain rfl := Option.some.inj hreport
    exact ⟨_, drawn, after, rfl, rfl, by decide +kernel, hafter, by decide +kernel, by decide⟩

end Whole

end Export

end MailTemplate
