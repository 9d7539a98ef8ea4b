import MailTemplate.Proofs.BundleRuns
import MailTemplate.Proofs.ManifestText

/-!
# What a manifest records

A manifest records the size and the digest of every archive of a day.  A run that succeeds leaves a manifest
that is right, whatever was there before: every archive that it lists was written in this run, and nothing
that is written later in the run has another archive's name.

A run that fails leaves the manifest as it was, and it may have written some archives by then and removed
another one.  So a manifest is right as long as no run has failed since the last one that succeeded, or
there was none to be left behind.

## Main definitions

* `Bundle.Day` — a day of runs and of changes to the project.
* `Bundle.DescribesArchives` — every archive that is listed is there as it is recorded.

## Main results

* `Bundle.read_manifest_of_run` — what a manifest holds after a run.
* `Bundle.manifest_describes_archives` — a manifest is right unless a failure has left it behind.
* `Bundle.failed_run_leaves_record` — a failure can leave a record of an archive that it has removed.
-/

namespace MailTemplate

namespace Bundle

/-- The path of the manifest of a day. -/
def manifestPath (directory : Path) (stem : String) : Path := directory.child (ArchiveName.manifest stem)

/-- The path of an archive of a day. -/
def archivePath (directory : Path) (stem : String) (kind : ArchiveKind) : Path :=
  directory.child (ArchiveName.archive stem kind)

/-- Every archive that the manifest lists is there, with the size and the digest that it records. -/
def DescribesArchives (directory : Path) (stem : String) (disk : Disk) : Prop :=
  ∀ m : Manifest, disk.read (manifestPath directory stem) = .ok (Bytes.ofString m.text) →
    ∀ e ∈ m.archives, ∃ bytes, disk.read (directory.child e.fileName) = .ok bytes ∧
      e.size = bytes.length ∧ e.digest = sha256 bytes

/-! ## A day -/

/-- A change of a project that leaves the files of a day alone: archives that are there stay as they are,
and the manifest stays, or there is still none. -/
structure LeavesAlone (directory : Path) (stem : String) (disk after : Disk) : Prop where
  /-- Archives stay. -/
  archives : ∀ kind bytes, disk.read (archivePath directory stem kind) = .ok bytes →
    after.read (archivePath directory stem kind) = .ok bytes
  /-- The manifest stays. -/
  manifest : ∀ bytes, after.read (manifestPath directory stem) = .ok bytes ↔
    disk.read (manifestPath directory stem) = .ok bytes

/-- A disk after some directories were made on it. -/
def made (directory : Path) (disk : Disk) : Disk := ((Disk.makeDirectories directory).run disk).2

/-- A run whose files are those of a day, in a directory where no link stands at their names. -/
structure IsCall (directory : Path) (stem : String) (layout : Layout) (settings : Settings)
    (now : Instant) (disk : Disk) : Prop where
  /-- The archives go to the directory. -/
  archives_eq : layout.archives = directory
  /-- Their names are those of the day. -/
  stemOf_eq : ArchiveName.stemOf settings now = stem
  /-- No link stands at them. -/
  noLinks : NoLinks directory stem (made directory disk)

/-- A day of runs, which can fail, and of changes in between.  The flag tells whether a run has failed since
the last one that succeeded, with a manifest there that it has left behind.  A run that fails and leaves all
files of the day alone is a change like any other. -/
inductive Day (directory : Path) (stem : String) : Bool → Disk → Prop
  /-- In the morning there is no manifest. -/
  | start {disk : Disk} (hcurrent : disk.HasCurrent)
    (hnone : ∀ bytes, disk.read (manifestPath directory stem) ≠ .ok bytes) : Day directory stem false disk
  /-- The project changes. -/
  | change {stale : Bool} {disk after : Disk} (h : Day directory stem stale disk)
    (hcurrent : after.HasCurrent) (halone : LeavesAlone directory stem disk after) :
    Day directory stem stale after
  /-- A run succeeds. -/
  | success {stale : Bool} {disk after : Disk} {layout : Layout} {settings : Settings} {now : Instant}
    {done : BundleReport × List (List Tar.Entry)} (h : Day directory stem stale disk)
    (hcall : IsCall directory stem layout settings now disk)
    (hrun : (run layout settings now).run disk = (.ok done, after)) : Day directory stem false after
  /-- A run fails. -/
  | failure {stale : Bool} {disk after : Disk} {layout : Layout} {settings : Settings} {now : Instant}
    {fault : Fault} (h : Day directory stem stale disk)
    (hcall : IsCall directory stem layout settings now disk)
    (hrun : (run layout settings now).run disk = (.error fault, after)) :
    Day directory stem (stale || (made directory disk).isFile (manifestPath directory stem)) after

/-! ## What runs leave -/

section Runs

variable {layout : Layout} {settings : ArchiveSettings} {stem : String} {kind : ArchiveKind}
  {kinds : List ArchiveKind} {links : Nat} {place : List String} {directory : Path} {disk after : Disk}
  {result : Option (ManifestEntry × List Tar.Entry)}
  {results : List (Option (ManifestEntry × List Tar.Entry))} {bytes : Bytes}

/-- **What a run over several kinds records** is what their files hold at its end. -/
theorem exists_read_of_kindsRun (hkinds : kinds.Nodup) (hready : Ready layout.archives stem links place disk)
    (h : KindsRun layout settings stem place kinds disk results after) :
    ∀ e ∈ (results.filterMap id).map Prod.fst, ∃ kind ∈ kinds, ∃ bytes,
      e = recordOf stem kind bytes ∧ after.read (archivePath layout.archives stem kind) = .ok bytes := by
  induction h with
  | nil => exact fun _ he => absurd he List.not_mem_nil
  | @cons kind kinds disk between after result results hfirst hrest ih =>
    obtain ⟨hnew, hkinds⟩ := List.nodup_cons.1 hkinds
    have hbetween := hready.of_changedIn hfirst.changedIn
    have hlater := ih hkinds hbetween
    intro e he
    have hweaken : (∃ kind ∈ kinds, ∃ bytes, e = recordOf stem kind bytes ∧
        after.read (archivePath layout.archives stem kind) = .ok bytes) →
        ∃ other ∈ kind :: kinds, ∃ bytes, e = recordOf stem other bytes ∧
          after.read (archivePath layout.archives stem other) = .ok bytes := by
      rintro ⟨other, hother, hexists⟩
      exact ⟨other, List.mem_cons_of_mem _ hother, hexists⟩
    cases hfirst with
    | skipped => exact hweaken (hlater e he)
    | written _ _ _ _ hread =>
      rcases List.mem_cons.1 he with rfl | he
      · -- No later kind writes the file of this one.
        exact ⟨kind, List.mem_cons_self, _, rfl, (hbetween.read_iff hrest.changedIn
          (ArchiveName.archive_mem_ofDay stem kind) (archive_notMem hnew)).2 hread⟩
      · exact hweaken (hlater e he)

end Runs

section Whole

variable {layout : Layout} {settings : Settings} {now : Instant} {directory : Path} {stem : String}
  {disk after : Disk} {fault : Fault} {done : BundleReport × List (List Tar.Entry)} {stale : Bool}

/-- The archives that a manifest lists are those of some kinds, as their files are. -/
def Records (directory : Path) (stem : String) (m : Manifest) (disk : Disk) : Prop :=
  ∀ e ∈ m.archives, ∃ kind bytes, e = recordOf stem kind bytes ∧
    disk.read (archivePath directory stem kind) = .ok bytes

theorem made_eq {outcome : Except Disk.Fault Unit}
    (h : (Disk.makeDirectories directory).run disk = (outcome, after)) : made directory disk = after := by
  rw [made, h]

/-- **After a run that succeeds** the manifest is the one that it tells of, and it is right. -/
theorem read_manifest_of_run (hstem : '/' ∉ stem.toList) (hcurrent : disk.HasCurrent)
    (hcall : IsCall directory stem layout settings now disk)
    (hrun : (run layout settings now).run disk = (.ok done, after)) :
    after.read (manifestPath directory stem) = .ok (Bytes.ofString done.1.manifest.text) ∧
      Records directory stem done.1.manifest after ∧ disk.Grows after ∧
        ∃ links place, Ready directory stem links place after := by
  obtain ⟨rfl, rfl, hlinks⟩ := hcall
  obtain ⟨between, hmake, hruns⟩ := exists_kindsRun_of_run hrun
  rw [made_eq hmake] at hlinks
  obtain ⟨links, place, hready⟩ := exists_ready_of_makeDirectories hcurrent hmake hstem hlinks
  obtain ⟨results, written, hkinds, rfl, hlast, hread⟩ := hruns hready
  have hwritten := hready.of_changedIn hkinds.changedIn
  have hgrows := (Disk.grows_makeDirectories hcurrent hmake).trans hkinds.changedIn.grows
  refine ⟨hread, fun e he => ?_, hgrows.trans hlast.grows, links, place, hwritten.of_changedIn hlast⟩
  obtain ⟨kind, -, bytes, heq, hbytes⟩ := exists_read_of_kindsRun (by decide) hready hkinds e he
  exact ⟨kind, bytes, heq, (hwritten.read_iff hlast (ArchiveName.archive_mem_ofDay _ kind)
    (archive_notMem_manifest _ kind)).2 hbytes⟩

/-- **After a run that fails** the manifest is as it was once the directory was made. -/
theorem read_manifest_of_failure (hstem : '/' ∉ stem.toList) (hcurrent : disk.HasCurrent)
    (hcall : IsCall directory stem layout settings now disk)
    (hrun : (run layout settings now).run disk = (.error fault, after)) :
    (∀ bytes, after.read (manifestPath directory stem) = .ok bytes ↔
      (made directory disk).read (manifestPath directory stem) = .ok bytes) ∧ disk.Grows after := by
  obtain ⟨rfl, rfl, hlinks⟩ := hcall
  rcases run_cases hrun with ⟨_, -, hmake⟩ | ⟨between, hmake, hkinds⟩
  · rw [made_eq hmake]
    exact ⟨fun _ => Iff.rfl, Disk.grows_makeDirectories hcurrent hmake⟩
  rw [made_eq hmake] at hlinks ⊢
  have hgrows := Disk.grows_makeDirectories hcurrent hmake
  obtain ⟨links, place, hready⟩ := exists_ready_of_makeDirectories hcurrent hmake hstem hlinks
  -- Whatever fails, only archives were written.
  have hchanged : between.ChangedIn place
      (ArchiveKind.all.map (ArchiveName.archive (ArchiveName.stemOf settings now))) after := by
    rcases hkinds with ⟨_, -, hkinds⟩ | ⟨results, written, hkinds, ⟨_, -, hwrite⟩ | ⟨hok, -⟩⟩
    · exact (mapM_writeKind_cases hready hkinds).1
    · obtain ⟨hchanged, -⟩ := mapM_writeKind_cases hready hkinds
      obtain ⟨-, ⟨hok, -⟩ | ⟨-, rfl, -⟩⟩ :=
        (hready.of_changedIn hchanged).write_child (ArchiveName.manifest_mem_ofDay _) hwrite
      · exact absurd hok (by simp)
      · exact hchanged
    · exact absurd hok (by simp)
  exact ⟨fun _ => hready.read_iff hchanged (ArchiveName.manifest_mem_ofDay _) manifest_notMem,
    hgrows.trans hchanged.grows⟩

theorem Day.hasCurrent (hstem : '/' ∉ stem.toList) (h : Day directory stem stale disk) :
    disk.HasCurrent := by
  induction h with
  | start hcurrent => exact hcurrent
  | change _ hcurrent => exact hcurrent
  | success _ hcall hrun ih => exact ih.grows (read_manifest_of_run hstem ih hcall hrun).2.2.1
  | failure _ hcall hrun ih =>
    exact ih.grows (read_manifest_of_failure hstem ih hcall hrun).2

/-- As long as no failure has left it behind, a manifest lists what is there. -/
theorem Day.records (hstem : '/' ∉ stem.toList) (h : Day directory stem stale disk) (hstale : stale = false)
    {m : Manifest} (hm : disk.read (manifestPath directory stem) = .ok (Bytes.ofString m.text)) :
    Records directory stem m disk := by
  induction h with
  | start _ hnone => exact absurd hm (hnone _)
  | change _ _ halone ih =>
    intro e he
    obtain ⟨kind, bytes, heq, hbytes⟩ := ih hstale ((halone.manifest _).1 hm) e he
    exact ⟨kind, bytes, heq, halone.archives kind bytes hbytes⟩
  | success hday hcall hrun =>
    obtain ⟨hread, hrecords, -⟩ := read_manifest_of_run hstem (hday.hasCurrent hstem) hcall hrun
    -- The text that is there belongs to one manifest only.
    have hbytes := Except.ok.inj (hm.symm.trans hread)
    obtain rfl := Manifest.text_injective (Bytes.ofString_injective hbytes)
    exact hrecords
  | failure hday hcall hrun =>
    have hread := ((read_manifest_of_failure hstem (hday.hasCurrent hstem) hcall hrun).1 _).1 hm
    obtain ⟨-, hnone⟩ := Bool.or_eq_false_iff.1 hstale
    exact absurd (hnone.symm.trans (Disk.isFile_of_read hread)) Bool.false_ne_true

/-- **A manifest describes the archives** of its day, with the size and the digest of each of them, unless a
run has failed and left it behind. -/
theorem manifest_describes_archives (directory : Path) (stem : String) (disk : Disk)
    (hstem : '/' ∉ stem.toList) (h : Day directory stem false disk) :
    DescribesArchives directory stem disk := by
  intro m hm e he
  obtain ⟨kind, bytes, rfl, hbytes⟩ := h.records hstem rfl hm e he
  exact ⟨bytes, hbytes, rfl, rfl⟩

theorem Ready.made_eq {links : Nat} {place : List String} (hcurrent : disk.HasCurrent)
    (h : Ready directory stem links place disk) : made directory disk = disk :=
  Bundle.made_eq (Disk.makeDirectories_run_of_isDirectory hcurrent
    ((Disk.isDirectory_iff hcurrent).2 ⟨links, place, h.leads⟩))

end Whole

/-! ## Two runs -/

/-- A disk with a compiled document and an empty directory. -/
def compiledOnly : Disk :=
  ⟨.directory [("d", .directory [("a", .directory [])]), ("x", .directory [])], []⟩

/-- Settings that say where the compiled documents are. -/
def archivedFrom (output : String) : Settings :=
  { projectName := "n", paths := { output, exports := "e" } }

/-- Archiving the compiled documents on the first of May. -/
def archiveFrom (output : String) : BundleM (BundleReport × List (List Tar.Entry)) :=
  run (Layout.ofSettings ⟨"/"⟩ (archivedFrom output).paths) (archivedFrom output) ⟨1714564800000⟩

theorem isCall_compiledOnly : IsCall ⟨"/e/archives"⟩ "n-2024-05-01"
    (Layout.ofSettings ⟨"/"⟩ (archivedFrom "d").paths) (archivedFrom "d") ⟨1714564800000⟩ compiledOnly := by
  refine ⟨?_, ?_, ?_⟩ <;> decide +kernel

theorem exists_archiveFrom : ∃ done written, (archiveFrom "d").run compiledOnly = (.ok done, written) := by
  have hok : ((archiveFrom "d").run compiledOnly).1.isOk = true := by decide +kernel
  rcases hrun : (archiveFrom "d").run compiledOnly with ⟨outcome, written⟩
  rw [hrun] at hok
  cases outcome with
  | error => exact absurd hok Bool.false_ne_true
  | ok done => exact ⟨done, written, rfl⟩

/-- After a first run the manifest describes the archives that were written. -/
theorem manifest_describes_archives_of_compiledOnly : ∃ done written,
    (archiveFrom "d").run compiledOnly = (.ok done, written) ∧
      ('/' ∉ "n-2024-05-01".toList ∧ Day ⟨"/e/archives"⟩ "n-2024-05-01" false written) ∧
        DescribesArchives ⟨"/e/archives"⟩ "n-2024-05-01" written := by
  obtain ⟨done, written, hrun⟩ := exists_archiveFrom
  have hnone : compiledOnly.isFile (manifestPath ⟨"/e/archives"⟩ "n-2024-05-01") = false := by
    decide +kernel
  have hstart : Day ⟨"/e/archives"⟩ "n-2024-05-01" false compiledOnly := by
    refine .start ⟨_, rfl⟩ fun bytes hbytes => ?_
    exact Bool.false_ne_true (hnone.symm.trans (Disk.isFile_of_read hbytes))
  have hday := hstart.success isCall_compiledOnly hrun
  exact ⟨done, written, hrun, ⟨by decide, hday⟩,
    manifest_describes_archives ⟨"/e/archives"⟩ "n-2024-05-01" written (by decide) hday⟩

/-- **A run that fails can leave a record of an archive that it has removed.**  The directory of the
documents is spelt with two dots in the second run, and no name in an archive can hold these. -/
theorem failed_run_leaves_record :
    (archivedFrom "d").validate = .ok () ∧ (archivedFrom "x/../d").validate = .ok () ∧
      ∃ done written fault after,
        (archiveFrom "d").run compiledOnly = (.ok done, written) ∧
        (archiveFrom "x/../d").run written = (.error fault, after) ∧
        ¬ DescribesArchives ⟨"/e/archives"⟩ "n-2024-05-01" after := by
  refine ⟨Settings.validate_of_toBool (by decide +kernel), Settings.validate_of_toBool (by decide +kernel),
    ?_⟩
  obtain ⟨done, written, hrun⟩ := exists_archiveFrom
  have heval : (((archiveFrom "d").run compiledOnly).1.toOption.any fun done =>
        done.1.manifest.archives.any fun e => e.fileName == "n-2024-05-01-complete.tar.gz") = true ∧
      let failed := (archiveFrom "x/../d").run ((archiveFrom "d").run compiledOnly).2
      failed.1.isOk = false ∧ failed.2.isFile ⟨"/e/archives/n-2024-05-01-complete.tar.gz"⟩ = false := by
    decide +kernel
  rw [hrun] at heval
  obtain ⟨hlisted, hfails, hremoved⟩ := heval
  rcases hfailed : (archiveFrom "x/../d").run written with ⟨outcome, after⟩
  dsimp only at hfails hremoved
  rw [hfailed] at hfails hremoved
  cases outcome with
  | ok => exact Bool.noConfusion hfails
  | error fault =>
    refine ⟨done, written, fault, after, hrun, hfailed, fun hdescribes => ?_⟩
    obtain ⟨hread, -, hgrows, links, place, hready⟩ :=
      read_manifest_of_run (by decide) ⟨_, rfl⟩ isCall_compiledOnly hrun
    have hcurrent : written.HasCurrent := Disk.HasCurrent.grows ⟨_, rfl⟩ hgrows
    have hcall : IsCall ⟨"/e/archives"⟩ "n-2024-05-01" (Layout.ofSettings ⟨"/"⟩ (archivedFrom "x/../d").paths)
        (archivedFrom "x/../d") ⟨1714564800000⟩ written := by
      refine ⟨by decide +kernel, by decide +kernel, ?_⟩
      rw [hready.made_eq hcurrent]
      exact hready.noLinks
    -- The failure leaves the manifest of the first run.
    have hleft := (read_manifest_of_failure (by decide) hcurrent hcall hfailed).1
      (Bytes.ofString done.1.manifest.text)
    rw [hready.made_eq hcurrent] at hleft
    obtain ⟨e, he, hname⟩ := List.any_eq_true.1 hlisted
    obtain ⟨bytes, hbytes, -⟩ := hdescribes done.1.manifest (hleft.2 hread) e he
    have hfile := Disk.isFile_of_read hbytes
    rw [beq_iff_eq.1 hname, show Path.child ⟨"/e/archives"⟩ "n-2024-05-01-complete.tar.gz" =
      ⟨"/e/archives/n-2024-05-01-complete.tar.gz"⟩ by decide +kernel, hremoved] at hfile
    exact Bool.noConfusion hfile

end Bundle

end MailTemplate
