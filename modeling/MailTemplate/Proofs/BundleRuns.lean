import MailTemplate.Archive.Bundle
import MailTemplate.Proofs.DirectoryFiles
import MailTemplate.Proofs.TreeWalks
import MailTemplate.Settings.Validation

/-!
# Runs of archiving

A run goes through all kinds of archives.  What it does for one kind is said once: the archive is skipped
and nothing happens, or it is packed while its file is open and the file then holds what was packed, or
something fails and whatever happens, happens to that file.  From this follows what a run comes to, over
the kinds in their order.

The files of a day are those of all kinds and the manifest.  No link stands at their names, or two of them
could be one file.

## Main definitions

* `Bundle.Ready` — the directory of the archives, with no links at the names of a day.
* `Bundle.KindRun`, `Bundle.KindsRun` — what is done for one kind, and for several.

## Main results

* `Bundle.writeKind_cases` — what happens for a kind.
* `Bundle.mapM_writeKind_cases` — what happens for several.
* `Bundle.run_cases`, `Bundle.exists_kindsRun_of_run` — what a run comes to.
-/

namespace MailTemplate

/-! ## Names of a day -/

namespace ArchiveName

variable {stem : String}

/-- The names of all files of a day. -/
def ofDay (stem : String) : List String := manifest stem :: ArchiveKind.all.map (archive stem)

theorem getLast?_archive (stem : String) (kind : ArchiveKind) :
    (archive stem kind).toList.getLast? = some 'z' := by
  rw [archive, String.toList_append, List.getLast?_append]
  rfl

theorem getLast?_manifest (stem : String) : (manifest stem).toList.getLast? = some 'n' := by
  rw [manifest, String.toList_append, List.getLast?_append]
  rfl

theorem isOrdinary_archive (hstem : '/' ∉ stem.toList) (kind : ArchiveKind) :
    Path.IsOrdinary (archive stem kind) := by
  have hsuffix : '/' ∉ kind.suffix.toList := by cases kind <;> decide
  apply Path.isOrdinary_of_getLast? (getLast?_archive stem kind)
  · decide
  · simp [archive, String.toList_append, hstem, hsuffix]

theorem isOrdinary_manifest (hstem : '/' ∉ stem.toList) : Path.IsOrdinary (manifest stem) := by
  apply Path.isOrdinary_of_getLast? (getLast?_manifest stem)
  · decide
  · simp [manifest, String.toList_append, hstem]

theorem isOrdinary_of_mem_ofDay (hstem : '/' ∉ stem.toList) {name : String} (h : name ∈ ofDay stem) :
    Path.IsOrdinary name := by
  rcases List.mem_cons.1 h with rfl | h
  · exact isOrdinary_manifest hstem
  · obtain ⟨kind, -, rfl⟩ := List.mem_map.1 h
    exact isOrdinary_archive hstem kind

theorem mem_all (kind : ArchiveKind) : kind ∈ ArchiveKind.all := by cases kind <;> decide

theorem archive_mem_ofDay (stem : String) (kind : ArchiveKind) : archive stem kind ∈ ofDay stem :=
  List.mem_cons_of_mem _ (List.mem_map_of_mem (mem_all kind))

theorem manifest_mem_ofDay (stem : String) : manifest stem ∈ ofDay stem := List.mem_cons_self

theorem archive_injective {kind other : ArchiveKind} (h : archive stem kind = archive stem other) :
    kind = other := by
  have hsuffix : kind.suffix.toList = other.suffix.toList := by
    have hlist := String.toList_inj.2 h
    simp only [archive, String.toList_append] at hlist
    exact List.append_cancel_left (List.append_cancel_right hlist)
  revert hsuffix
  cases kind <;> cases other <;> decide

theorem archive_ne_manifest (stem : String) (kind : ArchiveKind) : archive stem kind ≠ manifest stem := by
  intro h
  have hlast := getLast?_archive stem kind
  rw [h, getLast?_manifest] at hlast
  exact absurd hlast (by decide)

/-- The stem of the names of a run. -/
def stemOf (settings : Settings) (now : Instant) : String :=
  ArchiveName.stem settings.projectName now.date.text

theorem noSlash_digits (width n : Nat) : '/' ∉ (Date.digits width n).toList := by
  rw [Date.digits, String.toList_append, String.toList_ofList, Nat.toString_eq_ofList_toDigits,
    String.toList_ofList, List.mem_append, not_or]
  constructor
  · intro h
    exact absurd (List.eq_of_mem_replicate h) (by decide)
  · intro h
    exact absurd (Nat.isDigit_of_mem_toDigits (by decide) (by decide) h) (by decide)

/-- A date has no separators, so the stem has none if the name of the project has none. -/
theorem noSlash_stemOf {settings : Settings} (h : '/' ∉ settings.projectName.toList) (now : Instant) :
    '/' ∉ (stemOf settings now).toList := by
  have hyear : '/' ∉ (Date.yearText now.date.year).toList := by
    rw [Date.yearText, String.toList_append, List.mem_append, not_or]
    refine ⟨?_, noSlash_digits _ _⟩
    split
    · decide
    · split <;> decide
  simp [stemOf, ArchiveName.stem, Date.text, String.toList_append, h, hyear, noSlash_digits]

theorem noSlash_of_validate {settings : Settings} (h : settings.validate = .ok ()) :
    '/' ∉ settings.projectName.toList := by
  intro hslash
  have hname : Settings.isFileName settings.projectName = false := by
    simp only [Settings.isFileName, Bool.and_eq_false_iff, Bool.not_eq_false']
    exact .inr (List.any_eq_true.2 ⟨'/', hslash, rfl⟩)
  rw [Settings.validate, hname] at h
  exact absurd h (by simp)

end ArchiveName

namespace Bundle

/-! ## Steps -/

section Steps

variable {ε α β : Type} {disk after : Disk}

theorem run_lift_bind {m : StateM Disk α} {a : α} (f : α → ExceptT ε (StateM Disk) β)
    (h : m.run disk = (a, after)) :
    ((liftM m : ExceptT ε (StateM Disk) α) >>= f).run disk = (f a).run after := by
  show (f (m.run disk).1).run (m.run disk).2 = _
  rw [h]

theorem run_bind_ok {m : ExceptT ε (StateM Disk) α} {a : α} (f : α → ExceptT ε (StateM Disk) β)
    (h : m.run disk = (.ok a, after)) : (m >>= f).run disk = (f a).run after := by
  rw [Disk.run_bind, h]

/-- A computation of two parts fails in the first one, or goes on with what that one gives. -/
theorem run_bind_cases {m : ExceptT ε (StateM Disk) α} {f : α → ExceptT ε (StateM Disk) β}
    {outcome : Except ε β} (h : (m >>= f).run disk = (outcome, after)) :
    (∃ fault, outcome = .error fault ∧ m.run disk = (.error fault, after)) ∨
      ∃ a between, m.run disk = (.ok a, between) ∧ (f a).run between = (outcome, after) := by
  rw [Disk.run_bind] at h
  rcases hm : m.run disk with ⟨first, between⟩
  rw [hm] at h
  cases first with
  | error fault =>
    obtain ⟨rfl, rfl⟩ := Prod.mk.inj h
    exact .inl ⟨fault, rfl, rfl⟩
  | ok a => exact .inr ⟨a, between, rfl, h⟩

theorem run_pure {a : α} {outcome : Except ε α}
    (h : (pure a : ExceptT ε (StateM Disk) α).run disk = (outcome, after)) :
    outcome = .ok a ∧ after = disk := by
  obtain ⟨rfl, rfl⟩ := Prod.mk.inj h
  exact ⟨rfl, rfl⟩

theorem ofResult_run (x : Except Fault α) (disk : Disk) : (ofResult x).run disk = (x, disk) := rfl

theorem onDisk_run (x : DiskM α) (disk : Disk) :
    (onDisk x).run disk = ((x.run disk).1.mapError .disk, (x.run disk).2) := rfl

theorem onDisk_run_of_ok {x : DiskM α} {a : α} (h : x.run disk = (.ok a, after)) :
    (onDisk x).run disk = (.ok a, after) := by
  rw [onDisk_run, h]
  rfl

theorem run_of_onDisk_ok {x : DiskM α} {a : α} (h : (onDisk x).run disk = (.ok a, after)) :
    x.run disk = (.ok a, after) := by
  rw [onDisk_run] at h
  rcases hx : x.run disk with ⟨outcome, between⟩
  rw [hx] at h
  obtain ⟨houtcome, rfl⟩ := Prod.mk.inj h
  cases outcome with
  | error fault => nomatch houtcome
  | ok b => exact congrArg (fun b => (Except.ok b, between)) (Except.ok.inj houtcome)

theorem run_of_onDisk_error {x : DiskM α} {fault : Fault} (h : (onDisk x).run disk = (.error fault, after)) :
    ∃ fault', fault = .disk fault' ∧ x.run disk = (.error fault', after) := by
  rw [onDisk_run] at h
  rcases hx : x.run disk with ⟨outcome, between⟩
  rw [hx] at h
  obtain ⟨houtcome, rfl⟩ := Prod.mk.inj h
  cases outcome with
  | error fault' => exact ⟨fault', (Except.error.inj houtcome).symm, rfl⟩
  | ok => nomatch houtcome

end Steps

/-! ## A directory for archives -/

/-- The directory of the archives is at a place, and no link stands at the names of a day. -/
structure Ready (directory : Path) (stem : String) (links : Nat) (place : List String) (disk : Disk) :
    Prop where
  /-- The directory is there. -/
  leads : disk.LeadsTo directory links place
  /-- The names are names. -/
  noSlash : '/' ∉ stem.toList
  /-- No link stands at them. -/
  noLink : ∀ name ∈ ArchiveName.ofDay stem, ∀ target,
    disk.root.at? (place ++ [name]) ≠ some (.link target)

/-- What a manifest tells of an archive. -/
def recordOf (stem : String) (kind : ArchiveKind) (bytes : Bytes) : ManifestEntry :=
  ⟨kind.label, ArchiveName.archive stem kind, bytes.length, sha256 bytes⟩

/-- What is done for a kind of archive, if it does not fail: it is skipped, or its file holds what was
packed from the disk while the file was open. -/
inductive KindRun (layout : Layout) (settings : ArchiveSettings) (stem : String) (place : List String)
    (kind : ArchiveKind) (disk : Disk) : Option (ManifestEntry × List Tar.Entry) → Disk → Prop
  /-- There is nothing to archive. -/
  | skipped (hplan : plan disk layout settings kind = .ok none) :
    KindRun layout settings stem place kind disk none disk
  /-- The archive is written. -/
  | written {members : List Member} {opened after : Disk} {entries : List Tar.Entry} {archive : Bytes}
    (hplan : plan disk layout settings kind = .ok (some members))
    (hopened : disk.ChangedIn place [ArchiveName.archive stem kind] opened)
    (hpack : pack opened members = .ok (entries, archive))
    (hafter : disk.ChangedIn place [ArchiveName.archive stem kind] after)
    (hread : after.read (layout.archives.child (ArchiveName.archive stem kind)) =
      .ok (Gzip.compress settings.compression archive)) :
    KindRun layout settings stem place kind disk
      (some (recordOf stem kind (Gzip.compress settings.compression archive), entries)) after

/-- What is done for several kinds, one after the other. -/
inductive KindsRun (layout : Layout) (settings : ArchiveSettings) (stem : String)
    (place : List String) :
    List ArchiveKind → Disk → List (Option (ManifestEntry × List Tar.Entry)) → Disk → Prop
  /-- None is left. -/
  | nil (disk : Disk) : KindsRun layout settings stem place [] disk [] disk
  /-- The first one, and then the others. -/
  | cons {kind : ArchiveKind} {kinds : List ArchiveKind} {disk between after : Disk}
    {result : Option (ManifestEntry × List Tar.Entry)}
    {results : List (Option (ManifestEntry × List Tar.Entry))}
    (hfirst : KindRun layout settings stem place kind disk result between)
    (hrest : KindsRun layout settings stem place kinds between results after) :
    KindsRun layout settings stem place (kind :: kinds) disk (result :: results) after

section Runs

variable {layout : Layout} {settings : ArchiveSettings} {stem : String} {kind : ArchiveKind}
  {kinds : List ArchiveKind} {links level : Nat} {place names : List String} {directory : Path}
  {name : String} {disk after : Disk} {members : List Member}
  {result : Option (ManifestEntry × List Tar.Entry)}
  {results : List (Option (ManifestEntry × List Tar.Entry))} {bytes : Bytes}

theorem Ready.of_changedIn (h : Ready directory stem links place disk)
    (hchanged : disk.ChangedIn place names after) : Ready directory stem links place after :=
  ⟨h.leads.of_grows hchanged.grows, h.noSlash, fun name hname =>
    hchanged.noLink (h.noLink name hname)⟩

/-- **Writing a file of the day** changes it and nothing else, or there was none and there is none. -/
theorem Ready.write_child {outcome : Except Disk.Fault Unit} (h : Ready directory stem links place disk)
    (hname : name ∈ ArchiveName.ofDay stem)
    (hrun : (Disk.write (directory.child name) bytes).run disk = (outcome, after)) :
    disk.ChangedIn place [name] after ∧
      (outcome = .ok () ∧ after.read (directory.child name) = .ok bytes ∨
        (∃ fault, outcome = .error fault) ∧ after = disk ∧
          ∀ old, disk.read (directory.child name) ≠ .ok old) :=
  h.leads.write_child (ArchiveName.isOrdinary_of_mem_ofDay h.noSlash hname) (h.noLink name hname) hrun

/-- **Writing a compressed archive** changes its file and nothing else.  If it succeeds, the file holds the
archive that was packed while the file was open. -/
theorem writeArchive_cases {outcome : Except String (List Tar.Entry × Bytes)}
    (h : Ready directory stem links place disk) (hname : name ∈ ArchiveName.ofDay stem)
    (hrun : (writeArchive level (directory.child name) members).run disk = (outcome, after)) :
    disk.ChangedIn place [name] after ∧ ∀ entries bytes, outcome = .ok (entries, bytes) →
      ∃ opened archive, disk.ChangedIn place [name] opened ∧
        pack opened members = .ok (entries, archive) ∧ bytes = Gzip.compress level archive ∧
          after.read (directory.child name) = .ok bytes := by
  rw [writeArchive] at hrun
  rcases hopen : (Disk.write (directory.child name) (Gzip.header level)).run.run disk with ⟨first, opened⟩
  rw [Disk.run_state_bind _ hopen] at hrun
  obtain ⟨hopened, -⟩ := h.write_child hname hopen
  have h' := h.of_changedIn hopened
  cases first with
  | error fault =>
    obtain ⟨rfl, rfl⟩ := Prod.mk.inj hrun
    exact ⟨hopened, fun _ _ hok => absurd hok (by simp)⟩
  | ok =>
    -- From here on the disk that is packed is the one on which the archive is open.
    dsimp only at hrun
    rw [Disk.run_state_get_bind] at hrun
    cases hpack : pack opened members with
    | error reason =>
      rw [hpack] at hrun
      obtain ⟨rfl, rfl⟩ := Prod.mk.inj hrun
      exact ⟨hopened, fun _ _ hok => absurd hok (by simp)⟩
    | ok packed =>
      obtain ⟨entries, archive⟩ := packed
      rw [hpack] at hrun
      dsimp only at hrun
      rcases hwrite : (Disk.write (directory.child name) (Gzip.compress level archive)).run.run opened
        with ⟨second, written⟩
      rw [Disk.run_state_bind _ hwrite] at hrun
      obtain ⟨hwritten, hsecond⟩ := h'.write_child hname hwrite
      obtain ⟨rfl, rfl⟩ := Prod.mk.inj hrun
      refine ⟨hopened.trans hwritten, fun entries' bytes hok => ?_⟩
      rcases hsecond with ⟨rfl, hread⟩ | ⟨⟨fault, rfl⟩, -⟩
      · obtain ⟨rfl, rfl⟩ := Prod.mk.inj (Except.ok.inj hok)
        exact ⟨opened, archive, hopened, hpack, rfl, hread⟩
      · nomatch hok

/-- If an archive cannot be written, no file is left, and no other file is touched. -/
theorem write_cases {fileName : String} {outcome : Except Fault (List Tar.Entry × Bytes)}
    (h : Ready directory stem links place disk) (hname : name ∈ ArchiveName.ofDay stem)
    (hrun : (write level (directory.child name) fileName members).run disk = (outcome, after)) :
    disk.ChangedIn place [name] after ∧ ∀ entries bytes, outcome = .ok (entries, bytes) →
      ∃ opened archive, disk.ChangedIn place [name] opened ∧
        pack opened members = .ok (entries, archive) ∧ bytes = Gzip.compress level archive ∧
          after.read (directory.child name) = .ok bytes := by
  rw [write] at hrun
  rcases harchive : (writeArchive level (directory.child name) members).run disk with ⟨first, between⟩
  rw [run_lift_bind _ harchive] at hrun
  obtain ⟨hbetween, hok⟩ := writeArchive_cases h hname harchive
  cases first with
  | ok written =>
    obtain ⟨rfl, rfl⟩ := run_pure hrun
    exact ⟨hbetween, fun entries bytes heq => hok entries bytes (congrArg _ (Except.ok.inj heq))⟩
  | error reason =>
    -- What is left of the archive is removed if it is a file.
    dsimp only at hrun
    rw [Disk.run_get_bind] at hrun
    split at hrun
    · rcases hremove : (Disk.removeFile (directory.child name)).run.run between with ⟨removed, after'⟩
      have h' := h.of_changedIn hbetween
      have hafter := h'.leads.removeFile_child (ArchiveName.isOrdinary_of_mem_ofDay h.noSlash hname)
        (h'.noLink name hname) hremove
      rw [run_lift_bind _ hremove] at hrun
      obtain ⟨rfl, rfl⟩ := Prod.mk.inj hrun
      exact ⟨hbetween.trans hafter, fun _ _ hok => absurd hok (by simp)⟩
    · obtain ⟨rfl, rfl⟩ := Prod.mk.inj hrun
      exact ⟨hbetween, fun _ _ hok => absurd hok (by simp)⟩

/-- **What is done for a kind,** whatever it comes to. -/
theorem writeKind_cases {outcome : Except Fault (Option (ManifestEntry × List Tar.Entry))}
    (h : Ready layout.archives stem links place disk)
    (hrun : (writeKind layout settings stem kind).run disk = (outcome, after)) :
    disk.ChangedIn place [ArchiveName.archive stem kind] after ∧
      ∀ result, outcome = .ok result → KindRun layout settings stem place kind disk result after := by
  rw [writeKind, Disk.run_get_bind] at hrun
  rcases run_bind_cases hrun with ⟨fault, rfl, hplan⟩ | ⟨planned, between, hplan, hrun⟩ <;>
    rw [ofResult_run] at hplan
  · obtain ⟨-, rfl⟩ := Prod.mk.inj hplan
    exact ⟨.refl _ _ _, fun _ hok => absurd hok (by simp)⟩
  obtain ⟨hmembers, rfl⟩ := Prod.mk.inj hplan
  cases planned with
  | none =>
    obtain ⟨rfl, rfl⟩ := run_pure hrun
    exact ⟨.refl _ _ _, fun _ hok => Except.ok.inj hok ▸ .skipped hmembers⟩
  | some members =>
    have hname := ArchiveName.archive_mem_ofDay stem kind
    rcases run_bind_cases hrun with ⟨fault, rfl, hwrite⟩ | ⟨⟨entries, bytes⟩, written, hwrite, hrun⟩
    · exact ⟨(write_cases h hname hwrite).1, fun _ hok => absurd hok (by simp)⟩
    obtain ⟨hwritten, hok⟩ := write_cases h hname hwrite
    obtain ⟨opened, archive, hopened, hpack, rfl, hread⟩ := hok entries bytes rfl
    dsimp only at hrun
    rw [Disk.run_get_bind, hread] at hrun
    obtain ⟨rfl, rfl⟩ := Prod.mk.inj hrun
    exact ⟨hwritten, fun _ hok => Except.ok.inj hok ▸ .written hmembers hopened hpack hwritten hread⟩

/-- **What is done for several kinds,** whatever it comes to. -/
theorem mapM_writeKind_cases
    {outcome : Except Fault (List (Option (ManifestEntry × List Tar.Entry)))}
    (h : Ready layout.archives stem links place disk)
    (hrun : (kinds.mapM (writeKind layout settings stem)).run disk = (outcome, after)) :
    disk.ChangedIn place (kinds.map (ArchiveName.archive stem)) after ∧
      ∀ results, outcome = .ok results → KindsRun layout settings stem place kinds disk results after := by
  -- The induction goes over the disks too: each kind starts from what the ones before it have left.
  induction kinds generalizing disk after outcome with
  | nil =>
    obtain ⟨rfl, rfl⟩ := run_pure hrun
    exact ⟨.refl _ _ _, fun _ hok => Except.ok.inj hok ▸ .nil _⟩
  | cons kind kinds ih =>
    rw [List.mapM_cons] at hrun
    have hfirst_subset : [ArchiveName.archive stem kind] ⊆
        (kind :: kinds).map (ArchiveName.archive stem) := by simp
    have hrest_subset : kinds.map (ArchiveName.archive stem) ⊆
        (kind :: kinds).map (ArchiveName.archive stem) := by simp
    rcases run_bind_cases hrun with ⟨fault, rfl, hfirst⟩ | ⟨result, between, hfirst, hrun⟩
    · exact ⟨(writeKind_cases h hfirst).1.mono hfirst_subset, fun _ hok => absurd hok (by simp)⟩
    obtain ⟨hbetween, hresult⟩ := writeKind_cases h hfirst
    rcases run_bind_cases hrun with ⟨fault, rfl, hrest⟩ | ⟨results, last, hrest, hrun⟩
    · exact ⟨(hbetween.mono hfirst_subset).trans
        ((ih (h.of_changedIn hbetween) hrest).1.mono hrest_subset), fun _ hok => absurd hok (by simp)⟩
    obtain ⟨hlast, hresults⟩ := ih (h.of_changedIn hbetween) hrest
    obtain ⟨rfl, rfl⟩ := run_pure hrun
    refine ⟨(hbetween.mono hfirst_subset).trans (hlast.mono hrest_subset), fun _ hok => ?_⟩
    exact Except.ok.inj hok ▸ .cons (hresult _ rfl) (hresults _ rfl)

theorem KindRun.changedIn (h : KindRun layout settings stem place kind disk result after) :
    disk.ChangedIn place [ArchiveName.archive stem kind] after := by
  cases h with
  | skipped => exact .refl _ _ _
  | written _ _ _ hafter => exact hafter

theorem KindsRun.changedIn (h : KindsRun layout settings stem place kinds disk results after) :
    disk.ChangedIn place (kinds.map (ArchiveName.archive stem)) after := by
  induction h with
  | nil => exact .refl _ _ _
  | cons hfirst _ ih => exact (hfirst.changedIn.mono (by simp)).trans (ih.mono (by simp))

/-- The other files of the day read as before. -/
theorem Ready.read_iff {names : List String} {name : String} (h : Ready directory stem links place disk)
    (hchanged : disk.ChangedIn place names after) (hname : name ∈ ArchiveName.ofDay stem)
    (hn : name ∉ names) :
    after.read (directory.child name) = .ok bytes ↔ disk.read (directory.child name) = .ok bytes :=
  hchanged.read_child_iff h.leads (ArchiveName.isOrdinary_of_mem_ofDay h.noSlash hname)
    (h.noLink name hname) hn

theorem archive_notMem (hkind : kind ∉ kinds) :
    ArchiveName.archive stem kind ∉ kinds.map (ArchiveName.archive stem) := by
  intro hmem
  obtain ⟨other, hother, heq⟩ := List.mem_map.1 hmem
  exact hkind (ArchiveName.archive_injective heq ▸ hother)

/-- An archive is none of the files that are written when only the manifest is. -/
theorem archive_notMem_manifest (stem : String) (kind : ArchiveKind) :
    ArchiveName.archive stem kind ∉ [ArchiveName.manifest stem] := by
  rw [List.mem_singleton]
  exact ArchiveName.archive_ne_manifest stem kind

theorem manifest_notMem : ArchiveName.manifest stem ∉ kinds.map (ArchiveName.archive stem) := by
  intro hmem
  obtain ⟨kind, -, heq⟩ := List.mem_map.1 hmem
  exact ArchiveName.archive_ne_manifest stem kind heq

end Runs

/-! ## Whole runs -/

/-- What a run tells of the results for all kinds. -/
def resultOf (layout : Layout) (stem stamp : String)
    (results : List (Option (ManifestEntry × List Tar.Entry))) :
    BundleReport × List (List Tar.Entry) :=
  let written := results.filterMap id
  let skipped := (ArchiveKind.all.zip results).filter fun (_, result) => result.isNone
  (⟨layout.archives, layout.archives.child (ArchiveName.manifest stem),
    ⟨stamp, written.map Prod.fst⟩, skipped.map Prod.fst⟩, written.map Prod.snd)

section Whole

variable {layout : Layout} {settings : Settings} {now : Instant} {disk after made : Disk}
  {directory : Path} {stem : String}

/-- **What a run comes to:** it fails to make the directory, or to write an archive, or to write the
manifest, or all of it is done. -/
theorem run_cases {outcome : Except Fault (BundleReport × List (List Tar.Entry))}
    (hrun : (run layout settings now).run disk = (outcome, after)) :
    (∃ fault, outcome = .error (.disk fault) ∧
      (Disk.makeDirectories layout.archives).run disk = (.error fault, after)) ∨
    ∃ made, (Disk.makeDirectories layout.archives).run disk = (.ok (), made) ∧
      ((∃ fault, outcome = .error fault ∧
        (ArchiveKind.all.mapM (writeKind layout settings.archive (ArchiveName.stemOf settings now))).run
          made = (.error fault, after)) ∨
      ∃ results written,
        (ArchiveKind.all.mapM (writeKind layout settings.archive (ArchiveName.stemOf settings now))).run
          made = (.ok results, written) ∧
        let done := resultOf layout (ArchiveName.stemOf settings now) now.stamp results
        let write := Disk.write done.1.manifestPath (Bytes.ofString done.1.manifest.text)
        ((∃ fault, outcome = .error (.disk fault) ∧ write.run written = (.error fault, after)) ∨
          outcome = .ok done ∧ write.run written = (.ok (), after))) := by
  rw [run] at hrun
  rcases run_bind_cases hrun with ⟨fault, rfl, hmake⟩ | ⟨_, made, hmake, hrun⟩
  · obtain ⟨fault', rfl, hmakes⟩ := run_of_onDisk_error hmake
    exact .inl ⟨fault', rfl, hmakes⟩
  refine .inr ⟨made, run_of_onDisk_ok hmake, ?_⟩
  rcases run_bind_cases hrun with ⟨fault, rfl, hkinds⟩ | ⟨results, written, hkinds, hrun⟩
  · exact .inl ⟨fault, rfl, hkinds⟩
  refine .inr ⟨results, written, hkinds, ?_⟩
  rcases run_bind_cases hrun with ⟨fault, rfl, hwrite⟩ | ⟨_, last, hwrite, hrun⟩
  · obtain ⟨fault', rfl, hwrites⟩ := run_of_onDisk_error hwrite
    exact .inl ⟨fault', rfl, hwrites⟩
  · obtain ⟨rfl, rfl⟩ := run_pure hrun
    exact .inr ⟨rfl, run_of_onDisk_ok hwrite⟩

/-- **A run that succeeds** has made the directory, and from there it has gone through all kinds and has
written its manifest. -/
theorem exists_kindsRun_of_run {done : BundleReport × List (List Tar.Entry)}
    (hrun : (run layout settings now).run disk = (.ok done, after)) :
    ∃ made, (Disk.makeDirectories layout.archives).run disk = (.ok (), made) ∧
      ∀ {links place}, Ready layout.archives (ArchiveName.stemOf settings now) links place made →
        ∃ results written,
          KindsRun layout settings.archive (ArchiveName.stemOf settings now) place ArchiveKind.all made
            results written ∧
          done = resultOf layout (ArchiveName.stemOf settings now) now.stamp results ∧
          written.ChangedIn place [ArchiveName.manifest (ArchiveName.stemOf settings now)] after ∧
          after.read done.1.manifestPath = .ok (Bytes.ofString done.1.manifest.text) := by
  rcases run_cases hrun with ⟨_, hok, -⟩ | ⟨made, hmake, ⟨_, hok, -⟩ | ⟨results, written, hkinds,
    ⟨_, hok, -⟩ | ⟨hok, hwrite⟩⟩⟩
  · exact absurd hok (by simp)
  · exact absurd hok (by simp)
  · exact absurd hok (by simp)
  obtain rfl := Except.ok.inj hok
  refine ⟨made, hmake, fun {links place} hready => ?_⟩
  obtain ⟨hchanged, hkinds⟩ := mapM_writeKind_cases hready hkinds
  obtain ⟨hmanifest, ⟨-, hread⟩ | ⟨⟨_, hfault⟩, -⟩⟩ :=
    (hready.of_changedIn hchanged).write_child (ArchiveName.manifest_mem_ofDay _) hwrite
  · exact ⟨results, written, hkinds results rfl, rfl, hmanifest, hread⟩
  · exact absurd hfault (by simp)

/-- The entries of the directory of the archives with names of a day are no links. -/
def NoLinks (directory : Path) (stem : String) (disk : Disk) : Prop :=
  ∀ es, disk.list directory = .ok es → ∀ name ∈ ArchiveName.ofDay stem,
    ∀ node ∈ Entries.find? name es, node.isFile = true ∨ node.isDirectory = true

instance (directory : Path) (stem : String) (disk : Disk) : Decidable (NoLinks directory stem disk) :=
  match hlist : disk.list directory with
  | .error _ => isTrue fun _ hes => absurd (hlist.symm.trans hes) (by simp)
  | .ok es => decidable_of_iff (∀ name ∈ ArchiveName.ofDay stem,
      ∀ node ∈ Entries.find? name es, node.isFile = true ∨ node.isDirectory = true)
    ⟨fun h _ hes => Except.ok.inj (hlist.symm.trans hes) ▸ h, fun h => h es hlist⟩

/-- **A directory without links is ready.** -/
theorem exists_ready (hcurrent : disk.HasCurrent) (hdirectory : disk.isDirectory directory = true)
    (hstem : '/' ∉ stem.toList) (hlinks : NoLinks directory stem disk) :
    ∃ links place, Ready directory stem links place disk := by
  obtain ⟨links, place, hleads⟩ := (Disk.isDirectory_iff hcurrent).1 hdirectory
  obtain ⟨es, hes⟩ := hleads.directory
  refine ⟨links, place, hleads, hstem, fun name hname target hat => ?_⟩
  rw [Node.at?_concat_eq hes] at hat
  rcases hlinks es (hleads.list_eq hes) name hname _ hat with hfile | hdirectory
  · exact Bool.noConfusion hfile
  · exact Bool.noConfusion hdirectory

theorem Ready.noLinks {links : Nat} {place : List String} (h : Ready directory stem links place disk) :
    NoLinks directory stem disk := by
  obtain ⟨es, hes⟩ := h.leads.directory
  intro es' hes' name hname node hnode
  obtain rfl := Except.ok.inj ((h.leads.list_eq hes).symm.trans hes')
  have hat : disk.root.at? (place ++ [name]) = some node := (Node.at?_concat_eq hes).trans hnode
  cases node with
  | file => exact .inl rfl
  | directory => exact .inr rfl
  | link target => exact absurd hat (h.noLink name hname target)

theorem text_archives_ne (layout : Layout) : layout.archives.text ≠ "" :=
  Path.text_child_ne (by decide)

/-- **When its directory is made** the archives can be written. -/
theorem exists_ready_of_makeDirectories (hcurrent : disk.HasCurrent)
    (hmake : (Disk.makeDirectories layout.archives).run disk = (.ok (), made))
    (hstem : '/' ∉ stem.toList) (hlinks : NoLinks layout.archives stem made) :
    ∃ links place, Ready layout.archives stem links place made :=
  exists_ready (hcurrent.grows (Disk.grows_makeDirectories hcurrent hmake))
    (Disk.isDirectory_of_makeDirectories hcurrent (text_archives_ne layout) hmake) hstem hlinks

end Whole

end Bundle

end MailTemplate
