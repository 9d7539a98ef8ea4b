import MailTemplate.Proofs.BundleSources
import MailTemplate.Proofs.ManifestRecords

/-!
# Archiving again

What goes into the archives of a run is settled before the first of them is written: as long as what is
archived is off the directory of the archives, no archive is in an archive, and a run that is repeated
plans and packs what it did before.  Its files are there by then, so they can be written, and it gives the
same report and the same entries.

The condition is not checked.  If the output directory is the one for exports, or the source root is the
project root, every archive holds those that are there by then, and a second run packs more than the first.

## Main definitions

* `Bundle.Outcome` — what becomes of a kind of archive, read off one disk.
* `Bundle.HoldsSources` — the entries of an archive are what its sources are.

## Main results

* `Bundle.outcomes_of_kindsRun` — what a run gives is read off the disk that it starts from.
* `Bundle.exists_mapM_writeKind_run` — what has been read off can be written again.
* `Bundle.archives_hold_no_archives` — no archive is archived, and archiving again gives the same.
* `Bundle.exports_hold_archives` — archives of the directory for exports hold each other.
-/

namespace MailTemplate

namespace Bundle

/-! ## What is settled in advance -/

/-- What becomes of a kind of archive, read off one disk. -/
inductive Outcome (layout : Layout) (settings : ArchiveSettings) (stem : String) (disk : Disk)
    (kind : ArchiveKind) : Option (ManifestEntry × List Tar.Entry) → Prop
  /-- There is nothing to archive. -/
  | skipped (hplan : plan disk layout settings kind = .ok none) :
    Outcome layout settings stem disk kind none
  /-- It is packed. -/
  | written {members : List Member} {entries : List Tar.Entry} {archive : Bytes}
    (hplan : plan disk layout settings kind = .ok (some members))
    (hpack : pack disk members = .ok (entries, archive)) :
    Outcome layout settings stem disk kind
      (some (recordOf stem kind (Gzip.compress settings.compression archive), entries))

section Runs

variable {layout : Layout} {settings : ArchiveSettings} {stem : String} {kind : ArchiveKind}
  {kinds : List ArchiveKind} {links level : Nat} {place : List String} {name : String} {directory : Path}
  {base disk after : Disk} {members : List Member} {entries : List Tar.Entry} {old archive bytes : Bytes}
  {result : Option (ManifestEntry × List Tar.Entry)}
  {results : List (Option (ManifestEntry × List Tar.Entry))}

theorem ArchiveName.singleton_subset_ofDay (stem : String) (kind : ArchiveKind) :
    [ArchiveName.archive stem kind] ⊆ ArchiveName.ofDay stem := by
  intro name hname
  rw [List.mem_singleton.1 hname]
  exact ArchiveName.archive_mem_ofDay stem kind

theorem outcome_of_kindRun (hsteady : Steady layout links place base) (hproper : base.root.IsProper)
    (hbase : base.ChangedIn place (ArchiveName.ofDay stem) disk)
    (h : KindRun layout settings stem place kind disk result after) :
    Outcome layout settings stem base kind result := by
  cases h with
  | skipped hplan => exact .skipped ((hsteady.plan_iff hbase).1 hplan)
  | written hplan hopened hpack =>
    -- Neither what was written before nor the open archive is among what is archived.
    have hplan := (hsteady.plan_iff hbase).1 hplan
    have hopened := hbase.trans (hopened.mono (ArchiveName.singleton_subset_ofDay stem kind))
    refine .written hplan ?_
    rw [← hsteady.pack_eq hproper hopened (isMember_of_plan hsteady.current hplan)]
    exact hpack

/-- **What a run gives** is read off the disk that it starts from, whatever it has written by then. -/
theorem outcomes_of_kindsRun (hsteady : Steady layout links place base) (hproper : base.root.IsProper)
    (hbase : base.ChangedIn place (ArchiveName.ofDay stem) disk)
    (h : KindsRun layout settings stem place kinds disk results after) :
    List.Forall₂ (Outcome layout settings stem base) kinds results := by
  induction h with
  | nil => exact .nil
  | @cons kind _ _ _ _ _ _ hfirst _ ih =>
    refine .cons (outcome_of_kindRun hsteady hproper hbase hfirst) (ih ?_)
    exact hbase.trans (hfirst.changedIn.mono (ArchiveName.singleton_subset_ofDay stem kind))

/-! ## Files that are there -/

/-- The archive of a kind can be read, if there is one. -/
def IsThere (directory : Path) (stem : String) (disk : Disk) (kind : ArchiveKind)
    (result : Option (ManifestEntry × List Tar.Entry)) : Prop :=
  result.isSome → ∃ old, disk.read (directory.child (ArchiveName.archive stem kind)) = .ok old

/-- Files of a day stay files when an archive is written. -/
theorem exists_read_child_of_kindRun (hready : Ready layout.archives stem links place disk)
    (h : KindRun layout settings stem place kind disk result after) (hname : name ∈ ArchiveName.ofDay stem)
    (hread : disk.read (layout.archives.child name) = .ok old) :
    ∃ new, after.read (layout.archives.child name) = .ok new := by
  cases h with
  | skipped => exact ⟨old, hread⟩
  | written _ _ _ hafter hnew =>
    by_cases hsame : name = ArchiveName.archive stem kind
    · exact ⟨_, hsame ▸ hnew⟩
    · exact ⟨old, (hready.read_iff hafter hname (by simpa using hsame)).2 hread⟩

theorem exists_read_child_of_kindsRun (hready : Ready layout.archives stem links place disk)
    (h : KindsRun layout settings stem place kinds disk results after) (hname : name ∈ ArchiveName.ofDay stem)
    (hread : disk.read (layout.archives.child name) = .ok old) :
    ∃ new, after.read (layout.archives.child name) = .ok new := by
  induction h generalizing old with
  | nil => exact ⟨old, hread⟩
  | cons hfirst _ ih =>
    obtain ⟨between, hbetween⟩ := exists_read_child_of_kindRun hready hfirst hname hread
    exact ih (hready.of_changedIn hfirst.changedIn) hbetween

theorem isThere_of_kindRun (h : KindRun layout settings stem place kind disk result after) :
    IsThere layout.archives stem after kind result := by
  cases h with
  | skipped => exact fun hnone => absurd hnone (by simp)
  | written _ _ _ _ hread => exact fun _ => ⟨_, hread⟩

/-- **What was written is there** at the end of a run. -/
theorem isThere_of_kindsRun (hready : Ready layout.archives stem links place disk)
    (h : KindsRun layout settings stem place kinds disk results after) :
    List.Forall₂ (IsThere layout.archives stem after) kinds results := by
  induction h with
  | nil => exact .nil
  | @cons kind _ _ _ _ _ _ hfirst hrest ih =>
    have hbetween := hready.of_changedIn hfirst.changedIn
    refine .cons (fun hsome => ?_) (ih hbetween)
    obtain ⟨old, hold⟩ := isThere_of_kindRun hfirst hsome
    exact exists_read_child_of_kindsRun hbetween hrest (ArchiveName.archive_mem_ofDay stem kind) hold

/-! ## Writing again -/

/-- A file of the day that is there can be written. -/
theorem Ready.exists_write_run (h : Ready directory stem links place disk)
    (hname : name ∈ ArchiveName.ofDay stem) (hread : disk.read (directory.child name) = .ok old)
    (bytes : Bytes) :
    ∃ after, (Disk.write (directory.child name) bytes).run.run disk = (.ok (), after) ∧
      disk.ChangedIn place [name] after ∧ after.read (directory.child name) = .ok bytes := by
  rcases hrun : (Disk.write (directory.child name) bytes).run.run disk with ⟨outcome, after⟩
  obtain ⟨hchanged, ⟨rfl, hnew⟩ | ⟨-, -, hnone⟩⟩ := h.write_child hname hrun
  · exact ⟨after, rfl, hchanged, hnew⟩
  · exact absurd hread (hnone old)

/-- What is packed while an archive is open, whatever it holds by then, is written. -/
theorem Ready.exists_archive_run {fileName : String} (h : Ready directory stem links place disk)
    (hname : name ∈ ArchiveName.ofDay stem) (hread : disk.read (directory.child name) = .ok old)
    (hpack : ∀ opened, disk.ChangedIn place [name] opened → pack opened members = .ok (entries, archive)) :
    ∃ after, (write level (directory.child name) fileName members).run disk =
        (.ok (entries, Gzip.compress level archive), after) ∧
      after.read (directory.child name) = .ok (Gzip.compress level archive) := by
  obtain ⟨opened, hopen, hopened, hheader⟩ := h.exists_write_run hname hread (Gzip.header level)
  obtain ⟨after, hwrite, -, hnew⟩ :=
    (h.of_changedIn hopened).exists_write_run hname hheader (Gzip.compress level archive)
  have harchive : (writeArchive level (directory.child name) members).run disk =
      (.ok (entries, Gzip.compress level archive), after) := by
    rw [writeArchive, Disk.run_state_bind _ hopen]
    dsimp only
    rw [Disk.run_state_get_bind, hpack opened hopened]
    dsimp only
    rw [Disk.run_state_bind _ hwrite]
    rfl
  refine ⟨after, ?_, hnew⟩
  rw [write, run_lift_bind _ harchive]
  rfl

/-- **An archive is written again** as it was read off, if its file is there. -/
theorem exists_writeKind_run (hsteady : Steady layout links place base) (hproper : base.root.IsProper)
    (hready : Ready layout.archives stem links place disk)
    (hbase : base.ChangedIn place (ArchiveName.ofDay stem) disk)
    (houtcome : Outcome layout settings stem base kind result)
    (hthere : IsThere layout.archives stem disk kind result) :
    ∃ after, (writeKind layout settings stem kind).run disk = (.ok result, after) := by
  cases houtcome with
  | skipped hplan =>
    refine ⟨disk, ?_⟩
    rw [writeKind, Disk.run_get_bind, (hsteady.plan_iff hbase).2 hplan]
    rfl
  | @written members entries archive hplan hpack =>
    obtain ⟨old, hold⟩ := hthere rfl
    have hopened : ∀ opened, disk.ChangedIn place [ArchiveName.archive stem kind] opened →
        pack opened members = .ok (entries, archive) := by
      intro opened hopened
      have hchanged := hbase.trans (hopened.mono (ArchiveName.singleton_subset_ofDay stem kind))
      rw [hsteady.pack_eq hproper hchanged (isMember_of_plan hsteady.current hplan)]
      exact hpack
    obtain ⟨after, hwrite, hread⟩ :=
      hready.exists_archive_run (ArchiveName.archive_mem_ofDay stem kind) hold hopened
    refine ⟨after, ?_⟩
    rw [writeKind, Disk.run_get_bind, (hsteady.plan_iff hbase).2 hplan,
      run_bind_ok _ (ofResult_run (.ok (some members)) disk)]
    dsimp only
    rw [run_bind_ok _ hwrite, Disk.run_get_bind, hread]
    rfl

/-- **What has been read off** is written again for all kinds. -/
theorem exists_mapM_writeKind_run (hsteady : Steady layout links place base) (hproper : base.root.IsProper)
    (hready : Ready layout.archives stem links place disk)
    (hbase : base.ChangedIn place (ArchiveName.ofDay stem) disk)
    (houtcomes : List.Forall₂ (Outcome layout settings stem base) kinds results)
    (hthere : List.Forall₂ (IsThere layout.archives stem disk) kinds results) :
    ∃ after, (kinds.mapM (writeKind layout settings stem)).run disk = (.ok results, after) := by
  -- The files that are left to write stay there while the first one is written.
  induction houtcomes generalizing disk with
  | nil => exact ⟨disk, rfl⟩
  | @cons kind result kinds results houtcome _ ih =>
    obtain ⟨hfirst, hrest⟩ := List.forall₂_cons.1 hthere
    obtain ⟨between, hwrite⟩ := exists_writeKind_run hsteady hproper hready hbase houtcome hfirst
    obtain ⟨hchanged, hrun⟩ := writeKind_cases hready hwrite
    have hbetween := hbase.trans (hchanged.mono (ArchiveName.singleton_subset_ofDay stem kind))
    obtain ⟨after, hmore⟩ := ih (hready.of_changedIn hchanged) hbetween <| hrest.imp
      fun other _ hother hsome => by
        obtain ⟨old, hold⟩ := hother hsome
        exact exists_read_child_of_kindRun hready (hrun _ rfl) (ArchiveName.archive_mem_ofDay stem other) hold
    refine ⟨after, ?_⟩
    rw [List.mapM_cons, run_bind_ok _ hwrite, run_bind_ok _ hmore]
    rfl

end Runs

/-! ## Whole runs -/

section Whole

variable {layout : Layout} {settings : Settings} {now : Instant} {disk made written after : Disk}
  {links : Nat} {place : List String} {kinds : List ArchiveKind}
  {results : List (Option (ManifestEntry × List Tar.Entry))} {done : BundleReport × List (List Tar.Entry)}

/-- A run that goes through all its parts. -/
theorem run_eq (hmake : (Disk.makeDirectories layout.archives).run disk = (.ok (), made))
    (hkinds : (ArchiveKind.all.mapM
      (writeKind layout settings.archive (ArchiveName.stemOf settings now))).run made =
        (.ok results, written))
    (hwrite : (Disk.write (layout.archives.child (ArchiveName.manifest (ArchiveName.stemOf settings now)))
      (Bytes.ofString (resultOf layout (ArchiveName.stemOf settings now) now.stamp
        results).1.manifest.text)).run written = (.ok (), after)) :
    (run layout settings now).run disk =
      (.ok (resultOf layout (ArchiveName.stemOf settings now) now.stamp results), after) := by
  rw [run, run_bind_ok _ (onDisk_run_of_ok hmake)]
  apply (run_bind_ok _ hkinds).trans
  exact run_bind_ok _ (onDisk_run_of_ok hwrite)

/-- **A run can be repeated** where all its files are there. -/
theorem exists_run_again {old : Bytes} (hsteady : Steady layout links place made)
    (hproper : made.root.IsProper)
    (hready : Ready layout.archives (ArchiveName.stemOf settings now) links place disk)
    (hbase : made.ChangedIn place (ArchiveName.ofDay (ArchiveName.stemOf settings now)) disk)
    (houtcomes : List.Forall₂ (Outcome layout settings.archive (ArchiveName.stemOf settings now) made)
      ArchiveKind.all results)
    (hthere : List.Forall₂ (IsThere layout.archives (ArchiveName.stemOf settings now) disk)
      ArchiveKind.all results)
    (hmanifest : disk.read (layout.archives.child (ArchiveName.manifest (ArchiveName.stemOf settings now))) =
      .ok old) :
    ∃ again, (run layout settings now).run disk =
      (.ok (resultOf layout (ArchiveName.stemOf settings now) now.stamp results), again) := by
  -- The directory is there, so making it changes nothing.
  have hmake := Disk.makeDirectories_run_of_isDirectory (hsteady.current.grows hbase.grows)
    ((Disk.isDirectory_iff (hsteady.current.grows hbase.grows)).2 ⟨links, place, hready.leads⟩)
  obtain ⟨last, hkinds⟩ := exists_mapM_writeKind_run hsteady hproper hready hbase houtcomes hthere
  obtain ⟨hchanged, -⟩ := mapM_writeKind_cases hready hkinds
  have hname := ArchiveName.manifest_mem_ofDay (ArchiveName.stemOf settings now)
  obtain ⟨again, hwrite, -, -⟩ := (hready.of_changedIn hchanged).exists_write_run hname
    ((hready.read_iff hchanged hname manifest_notMem).2 hmanifest) _
  exact ⟨again, run_eq hmake hkinds hwrite⟩

/-- What an entry of an archive comes from: its source holds what the entry does, and it is not in the
directory of the archives. -/
structure ComesFrom (disk : Disk) (place : List String) (source : Source) (entry : Tar.Entry) : Prop where
  /-- The entry is what the source is. -/
  entry_eq : source.entry disk = .ok entry
  /-- The source is elsewhere. -/
  elsewhere : ∃ spot node, disk.resolve true source.path = .ok (.found spot node) ∧ ¬ place <+: spot

/-- What a run gives for a kind: nothing if there is nothing to archive, or else an entry for each source of
the archive, none of which is in the directory of the archives. -/
def HoldsSources (layout : Layout) (settings : ArchiveSettings) (disk : Disk) (kind : ArchiveKind) :
    Option (ManifestEntry × List Tar.Entry) → Prop
  | none => plan disk layout settings kind = .ok none
  | some (_, entries) => ∃ members place,
    plan disk layout settings kind = .ok (some members) ∧
      directoryPlace? disk layout.archives = some place ∧
        List.Forall₂ (ComesFrom disk place) (members.flatMap (·.sources disk)) entries

theorem holdsSources_of_outcome {settings : ArchiveSettings} {stem : String} {kind : ArchiveKind}
    {result : Option (ManifestEntry × List Tar.Entry)} (hsteady : Steady layout links place disk)
    (hproper : disk.root.IsProper) (h : Outcome layout settings stem disk kind result) :
    HoldsSources layout settings disk kind result := by
  cases h with
  | skipped hplan => exact hplan
  | @written members entries archive hplan hpack =>
    refine ⟨members, place, hplan, directoryPlace?_of_leadsTo hsteady.leads, ?_⟩
    have hmembers := isMember_of_plan hsteady.current hplan
    have hentries := forall₂_of_pack hpack
    rw [List.forall₂_iff_zip] at hentries ⊢
    refine ⟨hentries.1, fun {source entry} hmem => ?_⟩
    have hentry := hentries.2 hmem
    obtain ⟨m, hm, hsource⟩ := List.mem_flatMap.1 (List.of_mem_zip hmem).1
    obtain ⟨spot, node, hstands, hbelow, -⟩ := hsteady.exists_standsAt hproper (hmembers m hm) hsource
    exact ⟨hentry, spot, node, (hstands.resolve_of_entry hentry).1, hbelow⟩

/-- **No archive is archived, and archiving again gives the same,** as long as what is archived is off the
directory of the archives.  Every archive that is written, also in a run that fails later, has one entry
for each of its sources, with what these were before the first archive was written.  A second run at the
same instant gives the report, the entries and the skipped kinds of the first one. -/
theorem archives_hold_no_archives (layout : Layout) (settings : Settings) (now : Instant) (disk made : Disk)
    (hvalid : settings.validate = .ok ()) (hcurrent : disk.HasCurrent) (hproper : disk.root.IsProper)
    (hmake : (Disk.makeDirectories layout.archives).run disk = (.ok (), made))
    (hlinks : NoLinks layout.archives (ArchiveName.stemOf settings now) made)
    (hapart : KeepsApart layout made) :
    (∀ kinds results written,
      (kinds.mapM (writeKind layout settings.archive (ArchiveName.stemOf settings now))).run made =
          (.ok results, written) →
        List.Forall₂ (HoldsSources layout settings.archive made) kinds results) ∧
      ∀ done written, (run layout settings now).run disk = (.ok done, written) →
        ∃ again, (run layout settings now).run written = (.ok done, again) := by
  have hstem := ArchiveName.noSlash_stemOf (ArchiveName.noSlash_of_validate hvalid) now
  obtain ⟨links, place, hready⟩ := exists_ready_of_makeDirectories hcurrent hmake hstem hlinks
  have hproper := Disk.isProper_makeDirectories hcurrent hproper hmake
  have hmade := hcurrent.grows (Disk.grows_makeDirectories hcurrent hmake)
  have hsteady : Steady layout links place made := ⟨hmade, hready.leads, hapart⟩
  constructor
  · intro kinds results written hrun
    obtain ⟨-, hkinds⟩ := mapM_writeKind_cases hready hrun
    have houtcomes := outcomes_of_kindsRun hsteady hproper (.refl _ _ _) (hkinds results rfl)
    exact houtcomes.imp fun _ _ => holdsSources_of_outcome hsteady hproper
  · intro done written hrun
    obtain ⟨made', hmake', hruns⟩ := exists_kindsRun_of_run hrun
    obtain rfl := (Prod.mk.inj (hmake'.symm.trans hmake)).2
    obtain ⟨results, last, hkinds, rfl, hmanifest, hread⟩ := hruns hready
    have hlast := hready.of_changedIn hkinds.changedIn
    have houtcomes := outcomes_of_kindsRun hsteady hproper (.refl _ _ _) hkinds
    refine exists_run_again hsteady hproper (hlast.of_changedIn hmanifest) ?_ houtcomes ?_ hread
    · exact (hkinds.changedIn.mono (List.subset_cons_self _ _)).trans
        (hmanifest.mono (List.cons_subset.2 ⟨ArchiveName.manifest_mem_ofDay _, List.nil_subset _⟩))
    · -- The manifest is none of the archives, so these are there after it was written, too.
      refine (isThere_of_kindsRun hready hkinds).imp fun kind result hthere hsome => ?_
      obtain ⟨old, hold⟩ := hthere hsome
      exact ⟨old, (hlast.read_iff hmanifest (ArchiveName.archive_mem_ofDay _ kind)
        (archive_notMem_manifest _ kind)).2 hold⟩

end Whole

/-! ## Two runs -/

/-- The disk is as it is asked for, and so is a second run. -/
theorem archives_hold_no_archives_of_compiledOnly :
    let layout := Layout.ofSettings ⟨"/"⟩ (archivedFrom "d").paths
    let ready := made layout.archives compiledOnly
    ((archivedFrom "d").validate = .ok () ∧ compiledOnly.HasCurrent ∧ compiledOnly.root.IsProper ∧
      (Disk.makeDirectories layout.archives).run compiledOnly = (.ok (), ready) ∧
      NoLinks layout.archives (ArchiveName.stemOf (archivedFrom "d") ⟨1714564800000⟩) ready ∧
      KeepsApart layout ready) ∧
    (∀ kinds results written,
      (kinds.mapM (writeKind layout (archivedFrom "d").archive
          (ArchiveName.stemOf (archivedFrom "d") ⟨1714564800000⟩))).run ready = (.ok results, written) →
        List.Forall₂ (HoldsSources layout (archivedFrom "d").archive ready) kinds results) ∧
      ∃ done written again, (archiveFrom "d").run compiledOnly = (.ok done, written) ∧
        (archiveFrom "d").run written = (.ok done, again) := by
  have hvalid : (archivedFrom "d").validate = .ok () := Settings.validate_of_toBool (by decide +kernel)
  have hproper : compiledOnly.root.IsProper := by decide +kernel
  have hmake : (Disk.makeDirectories (Layout.ofSettings ⟨"/"⟩ (archivedFrom "d").paths).archives).run
      compiledOnly =
        (.ok (), made (Layout.ofSettings ⟨"/"⟩ (archivedFrom "d").paths).archives compiledOnly) := by
    have hok : ((Disk.makeDirectories (Layout.ofSettings ⟨"/"⟩ (archivedFrom "d").paths).archives).run
        compiledOnly).1 = .ok () := by decide +kernel
    exact Prod.ext hok rfl
  have hlinks := isCall_compiledOnly.noLinks
  have hapart : KeepsApart (Layout.ofSettings ⟨"/"⟩ (archivedFrom "d").paths)
      (made (Layout.ofSettings ⟨"/"⟩ (archivedFrom "d").paths).archives compiledOnly) := by decide +kernel
  obtain ⟨hholds, hagain⟩ := archives_hold_no_archives _ (archivedFrom "d") ⟨1714564800000⟩ compiledOnly _
    hvalid ⟨_, rfl⟩ hproper hmake hlinks hapart
  obtain ⟨done, written, hrun⟩ := exists_archiveFrom
  obtain ⟨again, hrun'⟩ := hagain done written hrun
  exact ⟨⟨hvalid, ⟨_, rfl⟩, hproper, hmake, hlinks, hapart⟩, hholds, done, written, again, hrun, hrun'⟩

/-- Settings that say where the compiled documents are, without compression. -/
def storedFrom (output : String) : Settings :=
  { archivedFrom output with archive := { compression := 0 } }

/-- Archiving the compiled documents on the first of May, without compression. -/
def storeFrom (output : String) : BundleM (BundleReport × List (List Tar.Entry)) :=
  run (Layout.ofSettings ⟨"/"⟩ (storedFrom output).paths) (storedFrom output) ⟨1714564800000⟩

/-- **Archives of the directory for exports hold each other,** and a second run packs what the first one has
left.  The first archive of a run is that of the compiled documents. -/
theorem exports_hold_archives :
    (storedFrom "e").validate = .ok () ∧
      let first := (storeFrom "e").run compiledOnly
      let second := (storeFrom "e").run first.2
      (first.1.toOption.map fun done => done.2.head?.map (·.map (·.name))) =
          some (some ["archives", "archives/n-2024-05-01-html.tar.gz"]) ∧
        (second.1.toOption.map fun done => done.2.head?.map (·.map (·.name))) =
          some (some ["archives", "archives/n-2024-05-01-complete.tar.gz",
            "archives/n-2024-05-01-html.tar.gz", "archives/n-2024-05-01-manifest.json"]) := by
  refine ⟨Settings.validate_of_toBool (by decide +kernel), ?_⟩
  decide +kernel

end Bundle

end MailTemplate
