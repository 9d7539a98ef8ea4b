import MailTemplate.Proofs.DiskRewrites
import MailTemplate.Proofs.ExportFiles
import MailTemplate.Proofs.FilePlaces

/-!
# Exporting again

An export for clients that read plain HTML writes one file for each base name, into the directory of the
client.  When that directory lies outside the output directory, nothing that an export writes is a compiled
document, so an export that follows finds the same documents, reads the same texts and has the same files to
write, and these are there.

When the directory of the client is the output directory or lies below it, an export finds what exports have
written.  Discovery passes over the directory for exports; the search for compiled documents does not.

## Main definitions

* `Disk.LiesOutside` — a directory is not another one and not below it.
* `Export.IsExportPlace` — a place that an export writes to.

## Main results

* `Export.foldlM_again` — an export goes through the same documents again.
* `Export.reexport_changes_nothing` — it then tells the same and changes nothing.
* `Export.reexport_finds_exports` — an output directory that holds the exports.
-/

namespace MailTemplate

/-- A directory is not another one and not below it, by whatever paths they are reached. -/
def Disk.LiesOutside (disk : Disk) (path directory : Path) : Prop :=
  ∀ links place links' here, disk.LeadsTo path links place → disk.LeadsTo directory links' here →
    ¬ here <+: place

theorem Disk.liesOutside_of_resolve {disk : Disk} {path directory : Path} {place here : List String}
    {node node' : Node} (h : disk.resolve true path = .ok (.found place node))
    (h' : disk.resolve true directory = .ok (.found here node')) (hnot : ¬ here <+: place) :
    disk.LiesOutside path directory := by
  intro links place' links' here' hleads hleads'
  obtain ⟨es, hes⟩ := hleads.directory
  obtain ⟨es', hes'⟩ := hleads'.directory
  have hplace := Except.ok.inj (h.symm.trans (hleads.resolve_eq hes))
  have hhere := Except.ok.inj (h'.symm.trans (hleads'.resolve_eq hes'))
  rw [← (Disk.Place.found.inj hplace).1, ← (Disk.Place.found.inj hhere).1]
  exact hnot

namespace Export

variable {layout : Layout} {settings : Settings} {source : BoundarySource} {path directory : Path}
  {paths inputs : List Path} {links links' : Nat} {place here : List String} {disk made after later : Disk}
  {asked : List Nat} {p p' : Progress} {places : List String → Prop}

/-! ## One document -/

/-- The name of the file of a document. -/
def fileOf (path : Path) : String := Container.html.fileName (baseName path) .html

theorem isOrdinary_fileOf (path : Path) : Path.IsOrdinary (fileOf path) :=
  Container.isOrdinary_fileName (Path.noSlash_stem path) _ _

theorem baseName_eq_of_fileOf {other : Path} (h : fileOf path = fileOf other) :
    baseName path = baseName other :=
  (Container.fileName_injective h).1

theorem Ready.of_grows (h : Ready directory links place disk) (hgrows : disk.Grows after) :
    Ready directory links place after :=
  ⟨h.current.grows hgrows, h.leads.of_grows hgrows, fun name target hat =>
    h.noLink name target ((hgrows.1.link _ _).1 hat)⟩

theorem packed_html (path : Path) (html : String) (asked : List Nat) :
    packed (settingOf .html layout settings source) path html asked =
      (.ok [⟨.html, fileOf path, Bytes.ofString ((Client.html.profile settings).adapt html).html⟩], asked) := rfl

/-- What is told of a document when its file has been written, or has not. -/
def told (path : Path) (applied : List String) :
    Except Disk.Fault Bool → Except String (List String × List String)
  | .error fault => .error ("cannot write " ++ fileOf path ++ ": " ++ fault.message)
  | .ok _ => .ok ([fileOf path], applied)

theorem told_map (path : Path) (applied : List String) (outcome : Except Disk.Fault Bool) :
    told path applied (outcome.map fun _ => false) = told path applied outcome := by
  cases outcome <;> rfl

theorem exportOne_run_of_error {fault : Disk.Fault} (hread : disk.readText path = .error fault) :
    (exportOne (settingOf .html layout settings source) path (baseName path) asked).run disk =
      ((.error ("cannot read: " ++ fault.message), asked), disk) := by
  rw [exportOne, Disk.run_state_get_bind, hread]
  rfl

/-- **The export of a document** that can be read adapts it and writes one file.  No boundary is drawn. -/
theorem exportOne_run_of_ok {html : String} {outcome : Except Disk.Fault Bool}
    (hread : disk.readText path = .ok html)
    (hwrite : (Disk.writeIfChanged ((layout.clientDirectory Client.html.name).child (fileOf path))
      (Bytes.ofString ((Client.html.profile settings).adapt html).html)).run disk = (outcome, after)) :
    (exportOne (settingOf .html layout settings source) path (baseName path) asked).run disk =
      ((told path ((Client.html.profile settings).adapt html).applied outcome, asked), after) := by
  have hpack : packed (settingOf .html layout settings source) path html asked = _ :=
    packed_html path html asked
  have hfiles : (writeFiles (settingOf .html layout settings source).directory [⟨.html, fileOf path,
      Bytes.ofString ((Client.html.profile settings).adapt html).html⟩]).run disk =
        ((told path ((Client.html.profile settings).adapt html).applied outcome).map fun _ => (), after) := by
    have hfirst : (Disk.writeIfChanged
        ((settingOf .html layout settings source).directory.child (Artifact.mk .html (fileOf path)
          (Bytes.ofString ((Client.html.profile settings).adapt html).html)).fileName)
        (Artifact.mk .html (fileOf path)
          (Bytes.ofString ((Client.html.profile settings).adapt html).html)).bytes).run.run disk =
            (outcome, after) := hwrite
    rw [writeFiles, Disk.run_state_bind _ hfirst]
    cases outcome <;> rfl
  rw [exportOne, Disk.run_state_get_bind, hread]
  dsimp only
  rw [show (settingOf .html layout settings source).profile.pack _ _ _ _ _ = _ from hpack]
  dsimp only
  rw [Disk.run_state_bind _ hfiles]
  cases outcome <;> rfl

/-- The export of a document writes its file and nothing else. -/
theorem exportOne_adds {result : Except String (List String × List String) × List Nat}
    (h : Ready (layout.clientDirectory Client.html.name) links place disk)
    (hrun : (exportOne (settingOf .html layout settings source) path (baseName path) asked).run disk =
      (result, after)) : disk.Adds (· = place ++ [fileOf path]) after := by
  cases hread : disk.readText path with
  | error fault =>
    rw [exportOne_run_of_error hread] at hrun
    obtain ⟨-, rfl⟩ := Prod.mk.inj hrun
    exact .refl _ _
  | ok html =>
    rcases hwrite : (Disk.writeIfChanged ((layout.clientDirectory Client.html.name).child (fileOf path))
      (Bytes.ofString ((Client.html.profile settings).adapt html).html)).run disk with ⟨outcome, last⟩
    rw [exportOne_run_of_ok hread hwrite] at hrun
    obtain ⟨-, rfl⟩ := Prod.mk.inj hrun
    exact h.leads.adds_writeIfChanged_child h.current (isOrdinary_fileOf path) (h.noLink _) hwrite

/-- **A document again:** if it reads as before and its file is as it was left, its export comes to the same
and changes nothing. -/
theorem exportOne_again (source' : BoundarySource) {result : Except String (List String × List String) × List Nat}
    (h : Ready (layout.clientDirectory Client.html.name) links place disk)
    (hrun : (exportOne (settingOf .html layout settings source) path (baseName path) asked).run disk =
      (result, after))
    (hadds : after.Adds places later) (hplace : ¬ places (place ++ [fileOf path]))
    (hread : later.readText path = disk.readText path) :
    (exportOne (settingOf .html layout settings source') path (baseName path) asked).run later =
      (result, later) := by
  cases hhtml : disk.readText path with
  | error fault =>
    rw [exportOne_run_of_error hhtml] at hrun
    rw [exportOne_run_of_error (hread.trans hhtml), (Prod.mk.inj hrun).1]
  | ok html =>
    rcases hwrite : (Disk.writeIfChanged ((layout.clientDirectory Client.html.name).child (fileOf path))
      (Bytes.ofString ((Client.html.profile settings).adapt html).html)).run disk with ⟨outcome, last⟩
    rw [exportOne_run_of_ok hhtml hwrite] at hrun
    obtain ⟨rfl, rfl⟩ := Prod.mk.inj hrun
    have hagain :=
      h.leads.writeIfChanged_again h.current (isOrdinary_fileOf path) (h.noLink _) hwrite hadds hplace
    rw [exportOne_run_of_ok (hread.trans hhtml) hagain, told_map]

/-! ## All documents -/

/-- A place that an export writes to: that of the file of a document whose base name is not claimed. -/
def IsExportPlace (place : List String) (claimed : List (String × Path)) (paths : List Path)
    (q : List String) : Prop :=
  ∃ path ∈ paths, (claimed.find? fun (name, _) => name == baseName path) = none ∧ q = place ++ [fileOf path]

theorem IsExportPlace.of_cons {claimed more : List (String × Path)} {q : List String}
    (h : IsExportPlace place (claimed ++ more) paths q) : IsExportPlace place claimed (path :: paths) q := by
  obtain ⟨other, hother, hfree, rfl⟩ := h
  rw [List.find?_append, Option.or_eq_none_iff] at hfree
  exact ⟨other, List.mem_cons_of_mem _ hother, hfree.1, rfl⟩

/-- It lies directly in the directory of the client. -/
theorem IsExportPlace.exists_name {claimed : List (String × Path)} {q : List String}
    (h : IsExportPlace place claimed paths q) : ∃ name, q = place ++ [name] := by
  obtain ⟨path, -, -, heq⟩ := h
  exact ⟨fileOf path, heq⟩

/-- The place of a document that was exported is no place for the others. -/
theorem not_isExportPlace {claimed : List (String × Path)} (first : Path) :
    ¬ IsExportPlace place (claimed ++ [(baseName path, first)]) paths (place ++ [fileOf path]) := by
  rintro ⟨other, -, hfree, heq⟩
  have hbase := baseName_eq_of_fileOf (List.cons.inj (List.append_cancel_left heq)).1
  rw [List.find?_append, Option.or_eq_none_iff, hbase] at hfree
  simp at hfree

/-- An export writes files of base names that are not claimed, and nothing else. -/
theorem foldlM_adds (h : Ready (layout.clientDirectory Client.html.name) links place disk)
    (hrun : (paths.foldlM (step (settingOf .html layout settings source)) p).run disk = (p', after)) :
    disk.Adds (IsExportPlace place p.claimed paths) after := by
  induction paths generalizing p disk with
  | nil =>
    obtain ⟨-, rfl⟩ := Prod.mk.inj hrun
    exact .refl _ _
  | cons path paths ih =>
    rw [List.foldlM_cons] at hrun
    cases hclaim : p.claimed.find? fun (name, _) => name == baseName path with
    | some claim =>
      rw [Disk.run_state_bind _ (step_run_of_some hclaim disk)] at hrun
      refine (ih h hrun).mono fun q hq => ?_
      rw [← List.append_nil p.claimed] at hq
      exact hq.of_cons
    | none =>
      rcases hone : (exportOne (settingOf .html layout settings source) path (baseName path) p.asked).run disk
        with ⟨⟨result, asked'⟩, between⟩
      rw [Disk.run_state_bind _ (step_run_of_none hclaim hone)] at hrun
      have hfirst := exportOne_adds h hone
      have hrest := ih (h.of_grows hfirst.grows) hrun
      refine (hfirst.mono ?_).trans (hrest.mono fun q => IsExportPlace.of_cons)
      rintro q rfl
      exact ⟨path, List.mem_cons_self, hclaim, rfl⟩

/-- **An export goes through the same documents again:** if they read as before whatever is written into the
directory of the client, everything comes to the same and nothing changes. -/
theorem foldlM_again (source' : BoundarySource)
    (h : Ready (layout.clientDirectory Client.html.name) links place disk)
    (hread : ∀ path ∈ paths, ∀ later : Disk, disk.Adds (fun q => ∃ name, q = place ++ [name]) later →
      later.readText path = disk.readText path)
    (hrun : (paths.foldlM (step (settingOf .html layout settings source)) p).run disk = (p', after)) :
    (paths.foldlM (step (settingOf .html layout settings source')) p).run after = (p', after) := by
  -- A document that has a file of its own finds it as it was left, since the later ones have other files.
  induction paths generalizing p disk with
  | nil =>
    obtain ⟨rfl, -⟩ := Prod.mk.inj hrun
    rfl
  | cons path paths ih =>
    obtain ⟨hfirst, hrest⟩ := List.forall_mem_cons.1 hread
    rw [List.foldlM_cons] at hrun ⊢
    cases hclaim : p.claimed.find? fun (name, _) => name == baseName path with
    | some claim =>
      rw [Disk.run_state_bind _ (step_run_of_some hclaim disk)] at hrun
      rw [Disk.run_state_bind _ (step_run_of_some hclaim after)]
      exact ih h hrest hrun
    | none =>
      rcases hone : (exportOne (settingOf .html layout settings source) path (baseName path) p.asked).run disk
        with ⟨⟨result, asked'⟩, between⟩
      rw [Disk.run_state_bind _ (step_run_of_none hclaim hone)] at hrun
      have hadds := exportOne_adds h hone
      have hbetween := h.of_grows hadds.grows
      have hlater := foldlM_adds hbetween hrun
      have hadds' : disk.Adds (fun q => ∃ name, q = place ++ [name]) between :=
        hadds.mono fun q heq => ⟨_, heq⟩
      have hagain := exportOne_again source' h hone hlater (not_isExportPlace _)
        (hfirst after (hadds'.trans (hlater.mono fun _ => IsExportPlace.exists_name)))
      rw [Disk.run_state_bind _ (step_run_of_none hclaim hagain)]
      refine ih hbetween (fun other hother later hmore => ?_) hrun
      rw [hrest other hother later (hadds'.trans hmore), hrest other hother between hadds']

/-! ## Whole exports -/

/-- Where there are no compiled documents nothing is exported. -/
theorem run_of_nil {client : Client} (h : compiledDocuments disk layout.output = []) :
    (run client layout settings source).run disk =
      ((.ok ⟨client, layout.clientDirectory client.name, [], []⟩, 0), disk) := by
  rw [run, Disk.run_state_get_bind, h]
  rfl

/-- An export for clients that read plain HTML ends when it has gone through its documents. -/
theorem run_of_makeDirectories (h : compiledDocuments disk layout.output ≠ [])
    (hmake : (Disk.makeDirectories (layout.clientDirectory Client.html.name)).run disk = (.ok (), made))
    (hloop : ((compiledDocuments disk layout.output).foldlM
      (step (settingOf .html layout settings source)) {}).run made = (p, after)) :
    (run .html layout settings source).run disk =
      ((.ok ⟨.html, layout.clientDirectory Client.html.name, p.documents.reverse, []⟩, p.asked.length),
        after) := by
  have hmade : (Disk.makeDirectories (layout.clientDirectory Client.html.name)).run.run disk =
      (.ok (), made) := hmake
  obtain ⟨path, paths, hinputs⟩ := List.exists_cons_of_ne_nil h
  rw [hinputs, settingOf] at hloop
  rw [run, Disk.run_state_get_bind, hinputs]
  dsimp only
  rw [Disk.run_state_bind _ hmade]
  dsimp only
  rw [Disk.run_state_bind _ hloop]
  rfl

/-- **What is written outside the output directory** is no compiled document, and changes none. -/
theorem compiledDocuments_of_adds {output : Path} (h : made.LeadsTo output links' here)
    (hproper : made.root.IsProper) (houtside : ¬ here <+: place)
    (hadds : made.Adds (fun q => ∃ name, q = place ++ [name]) after) :
    compiledDocuments after output = compiledDocuments made output ∧
      ∀ p ∈ compiledDocuments made output, after.readText p = made.readText p := by
  obtain ⟨es, hes⟩ := h.directory
  -- A file in a directory that lies outside is no place below the output directory.
  have hkept : ∀ names, names ≠ [] → ¬ ∃ name, here ++ names = place ++ [name] := by
    rintro names hne ⟨name, heq⟩
    rw [← List.dropLast_concat_getLast hne, ← List.append_assoc] at heq
    exact houtside ((List.append_inj' heq rfl).1 ▸ List.prefix_append _ _)
  refine ⟨compiledDocuments_congr h hadds.grows fun names => ?_, fun p hp => ?_⟩
  · by_cases hne : names = []
    · -- At its own place there is the output directory.
      obtain ⟨es', hes'⟩ := hadds.grows.1.directory _ es hes
      rw [hne, List.append_nil, Disk.HasFile, Disk.HasFile, hes, hes']
      simp
    · exact hadds.hasFile_iff (hkept names hne)
  · obtain ⟨names, hfile, rfl, -⟩ := (mem_compiledDocuments_iff h).1 hp
    have hne : names ≠ [] := by
      rintro rfl
      obtain ⟨bytes, executable, hat⟩ := hfile
      rw [List.append_nil, hes] at hat
      exact absurd hat (by simp)
    have hordinary : ∀ n ∈ names, Path.IsOrdinary n := by
      obtain ⟨bytes, executable, hat⟩ := hfile
      exact fun n hn => hproper _ _ hat n (List.mem_append_right _ hn)
    exact h.readText_of_adds hordinary hne hfile hadds (hkept names hne)

/-- **Exporting again changes nothing.**  If the directory of the client is not the output directory and not
below it, an export for clients that read plain HTML that directly follows one comes to the same, with the
same documents, and leaves the disk as it is.

As for `exports_overwrite_nothing`, no entry of the directory of the client may be a link. -/
theorem reexport_changes_nothing (layout : Layout) (settings : Settings) (source source' : BoundarySource)
    {report : ExportReport} {drawn : Nat} (hcurrent : disk.HasCurrent) (hproper : disk.root.IsProper)
    (hlinks : ∀ made,
      (Disk.makeDirectories (layout.clientDirectory Client.html.name)).run disk = (.ok (), made) →
        made.NoLinksIn (layout.clientDirectory Client.html.name))
    (houtside : ∀ made,
      (Disk.makeDirectories (layout.clientDirectory Client.html.name)).run disk = (.ok (), made) →
        made.LiesOutside (layout.clientDirectory Client.html.name) layout.output)
    (hrun : (run .html layout settings source).run disk = ((.ok report, drawn), after)) :
    (run .html layout settings source').run after = ((.ok report, drawn), after) := by
  by_cases hnone : compiledDocuments disk layout.output = []
  · rw [run_of_nil hnone] at hrun
    obtain ⟨heq, rfl⟩ := Prod.mk.inj hrun
    rw [run_of_nil hnone, heq]
  rcases run_cases hrun with ⟨hnil, -⟩ | ⟨fault, hfault, -⟩ | ⟨made, p, written, hmake, hloop, -⟩
  · exact absurd hnil hnone
  · exact absurd hfault (by simp)
  rw [run_of_makeDirectories hnone hmake hloop] at hrun
  obtain ⟨heq, rfl⟩ := Prod.mk.inj hrun
  obtain ⟨links, place, hready⟩ := exists_ready hcurrent hmake (hlinks made hmake)
  have houtput : disk.isDirectory layout.output = true := by
    by_contra hnot
    exact hnone (by rw [compiledDocuments, if_neg hnot])
  obtain ⟨links', here, hhere⟩ := (Disk.isDirectory_iff hcurrent).1 houtput
  have hmade := Disk.adds_makeDirectories hcurrent hmake
  have hhere' := hhere.of_grows hmade.grows
  have hproper' := Disk.isProper_makeDirectories hcurrent hproper hmake
  have hapart := houtside made hmake links place links' here hready.leads hhere'
  -- Making the directory of the client adds no file, so the first run goes through what is there then.
  have hsame := compiledDocuments_congr hhere hmade.grows fun names => hmade.hasFile_iff not_false
  rw [← hsame] at hloop hnone
  have hadds := (foldlM_adds hready hloop).mono fun _ => IsExportPlace.exists_name
  have hagain := foldlM_again source' hready
    (fun path hpath later hlater => (compiledDocuments_of_adds hhere' hproper' hapart hlater).2 path hpath) hloop
  -- What it has written is no document of the second run.
  have hinputs := (compiledDocuments_of_adds hhere' hproper' hapart hadds).1
  rw [← hinputs] at hagain hnone
  rw [run_of_makeDirectories hnone (Disk.makeDirectories_again hcurrent ?_ hmake hadds.grows) hagain, heq]
  exact Path.text_child_ne (by decide)

/-- Two exports of a project with two documents of one name. -/
theorem paired_reexported : ∃ report drawn after,
    (paired.HasCurrent ∧ paired.root.IsProper) ∧
    (run .html (.ofSettings ⟨"/"⟩ {}) {} fun _ _ => "b").run paired = ((.ok report, drawn), after) ∧
    report.documents.length = 2 ∧
    (run .html (.ofSettings ⟨"/"⟩ {}) {} fun _ _ => "c").run after = ((.ok report, drawn), after) := by
  have hcurrent : paired.HasCurrent := ⟨_, rfl⟩
  have hproper : paired.root.IsProper := by decide +kernel
  -- The directory of the client is there.
  have hmake := Disk.makeDirectories_run_of_isDirectory hcurrent (show paired.isDirectory
    ((Layout.ofSettings ⟨"/"⟩ {}).clientDirectory Client.html.name) = true by decide +kernel)
  have houtside : paired.LiesOutside ((Layout.ofSettings ⟨"/"⟩ {}).clientDirectory Client.html.name)
      (Layout.ofSettings ⟨"/"⟩ {}).output :=
    @Disk.liesOutside_of_resolve _ _ _ ["exports", "html"] ["dist"] _ _ rfl rfl (by decide)
  have hlength : (match ((run .html (.ofSettings ⟨"/"⟩ {}) {} fun _ _ => "b").run paired).1.1 with
      | .ok report => report.documents.length
      | .error _ => 0) = 2 := by decide +kernel
  rcases hrun : (run .html (.ofSettings ⟨"/"⟩ {}) {} fun _ _ => "b").run paired with
    ⟨⟨fault | report, drawn⟩, after⟩
  · rw [hrun] at hlength
    exact absurd hlength (by simp)
  · rw [hrun] at hlength
    refine ⟨report, drawn, after, ⟨hcurrent, hproper⟩, rfl, hlength, ?_⟩
    refine reexport_changes_nothing (.ofSettings ⟨"/"⟩ {}) {} (fun _ _ => "b") (fun _ _ => "c") hcurrent hproper
      (fun made hmade => ?_) (fun made hmade => ?_) hrun
    · obtain rfl := (Prod.mk.inj (hmake.symm.trans hmade)).2
      decide +kernel
    · obtain rfl := (Prod.mk.inj (hmake.symm.trans hmade)).2
      exact houtside

/-- Settings that put the compiled documents where the exports are. -/
def outputExports : Settings := { paths := { output := "exports" } }

theorem validate_outputExports : outputExports.validate = .ok () :=
  Settings.validate_of_toBool (by decide +kernel)

/-- A project with a compiled document there. -/
def besideExports : Disk := ⟨.directory [("exports", .directory [("a.html", .file [] false)])], []⟩

/-- An export of that project tells of a document that the one before has written. -/
theorem reexport_finds_exports : ∃ (settings : Settings) (disk : Disk), settings.validate = .ok () ∧
    let first := (run .html (.ofSettings ⟨"/"⟩ settings.paths) settings fun _ _ => "b").run disk
    let second := (run .html (.ofSettings ⟨"/"⟩ settings.paths) settings fun _ _ => "b").run first.2
    first.1.1.toOption.map ExportReport.documents = some [⟨⟨"exports/a.html"⟩, ["a.html"], [], none⟩] ∧
      second.1.1.toOption.map ExportReport.documents = some [⟨⟨"exports/a.html"⟩, ["a.html"], [], none⟩,
        ⟨⟨"exports/html/a.html"⟩, [], [], some "base name 'a' is already exported from exports/a.html"⟩] :=
  ⟨outputExports, besideExports, validate_outputExports, by decide +kernel⟩

end Export

end MailTemplate
