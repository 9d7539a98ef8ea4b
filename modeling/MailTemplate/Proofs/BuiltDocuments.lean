import Mathlib.Data.List.Forall2
import MailTemplate.Proofs.BuildOrder
import MailTemplate.Proofs.BundleContents
import MailTemplate.Proofs.ExportFiles
import MailTemplate.Proofs.FilePlaces
import MailTemplate.Proofs.OutputNames

/-!
# Built documents

A build puts every document that it compiles below the output directory, and there an export finds it
again: it walks through the directory and takes what is a document by its extension.  What lies between is
the name, which is made from the name of the template in two ways, and whatever dots are in it, it ends as
it has to and leads to one file.  A later template can write over the file and cannot remove it.

Links are left out below the output directory.  A walk does not follow them and an export does not take
them, while a document is written through them.

## Main definitions

* `Build.Placed` — a template of a plan with the place of its document.
* `Build.Leaves` — what a template leaves behind.
* `Export.Reports` — what a report says of a document.

## Main results

* `Build.compileOne_run_draft` — a template writes its draft.
* `Build.Placed.leaves_of_compileOne`, `Build.mapM_compileOne_adds` — what one template and what all of them do.
* `Export.run_reports` — a report says something of every document.
* `Build.built_documents_exported` — what is built is exported once.
-/

namespace MailTemplate

namespace Build

variable {root : Path} {settings : Settings} {compiler : Compiler} {planned : PlannedOutput}
  {plan : List PlannedOutput} {names init here : List String} {last : String} {links : Nat}
  {disk made after : Disk} {document : CompiledDocument} {html : String}

/-! ## One template -/

/-- Why a file was not written. -/
def faultOf : Except Disk.Fault Bool → Option Disk.Fault
  | .ok _ => none
  | .error fault => some fault

/-- **A template writes its draft,** if it has one. -/
theorem compileOne_run_draft (compiler : Compiler) (hclaimant : planned.isClaimant = true) (disk : Disk) :
    (compileOne root compiler planned).run disk =
      let draft := draft root compiler planned (disk.readText (root.join planned.source))
      match draft.bytes? with
      | none => (draft.document none, disk)
      | some bytes =>
        let written := (Disk.writeIfChanged (root.join planned.output) bytes).run disk
        (draft.document (faultOf written.1), written.2) := by
  have hcollides : planned.collidesWith = none := Option.isNone_iff_eq_none.1 hclaimant
  have hrun : (compileOne root compiler planned).run disk =
      (complete root compiler (prepare disk root planned)).run disk := rfl
  rw [hrun, prepare, hcollides]
  dsimp only
  cases disk.readText (root.join planned.source) with
  | error fault => rfl
  | ok text =>
    dsimp only [complete, draft]
    cases compiler text (root.join planned.source) ((root.join planned.source).parent?.getD root) with
    | crashed => rfl
    | failed fault => rfl
    | compiled output =>
      rcases hwrite : (Disk.writeIfChanged (root.join planned.output) (Bytes.ofString output.html)).run disk
        with ⟨fault | changed, after⟩
      · simp only [StateT.run, bind, StateT.bind]
        rw [hwrite]
        rfl
      · simp only [StateT.run, bind, StateT.bind]
        rw [hwrite]
        rfl

/-- A document that is compiled comes from a draft that was written. -/
theorem bytes_of_compiled {read : Except Disk.Fault String} {fault? : Option Disk.Fault}
    (h : (draft root compiler planned read).document fault? = some document)
    (hcompiled : document.outcome = .compiled html) :
    (draft root compiler planned read).bytes? = some (Bytes.ofString html) ∧ fault? = none ∧
      document.output = planned.output := by
  have hfailed : ∀ warnings error, some (failure planned warnings error) ≠ some document := by
    rintro warnings error heq
    obtain rfl := Option.some.inj heq
    exact Outcome.noConfusion hcompiled
  cases read with
  | error fault => exact absurd h (hfailed _ _)
  | ok text =>
    dsimp only [draft] at h ⊢
    cases hcompiler : compiler text (root.join planned.source)
        ((root.join planned.source).parent?.getD root) with
    | crashed => rw [hcompiler] at h; exact absurd h (by simp)
    | failed fault => rw [hcompiler] at h; exact absurd h (hfailed _ _)
    | compiled output =>
      rw [hcompiler] at h
      cases fault? with
      | some fault => exact absurd h (hfailed _ _)
      | none =>
        obtain rfl := Option.some.inj h
        obtain rfl := Outcome.compiled.inj hcompiled
        exact ⟨rfl, rfl, rfl⟩

/-- A template of a plan, by its names, with the directories and the name that its document goes to. -/
structure Placed (settings : Settings) (planned : PlannedOutput) (names init : List String) (last : String) :
    Prop where
  /-- The template is below the root. -/
  source : planned.source = .ofNames names
  /-- Its names are ordinary. -/
  ordinary : ∀ n ∈ names, Path.IsOrdinary n
  /-- It has one. -/
  ne_nil : names ≠ []
  /-- The plan has the path of its document. -/
  output : planned.output = settings.paths.outputOf planned.source
  /-- This is where it goes. -/
  place : settings.paths.OutputPlace names init last

namespace Placed

/-- The path of the document on the disk. -/
theorem join_output (h : Placed settings planned names init last) :
    root.join planned.output =
      (Layout.ofSettings root settings.paths).output.join (.ofNames (init ++ [last])) := by
  rw [h.output, h.source, h.place.output, ← Path.join_assoc]
  rfl

/-- The document has a name, or it has two dots instead. -/
theorem last_cases (h : Placed settings planned names init last) : Path.IsOrdinary last ∨ last = ".." := by
  rcases h.place.name with hdots | ⟨-, -, -, -, hordinary, -⟩
  · exact .inr hdots
  · exact .inl hordinary

theorem ordinary_place (h : Placed settings planned names init last) (hlast : last ≠ "..") :
    (∀ n ∈ init ++ [last], Path.IsOrdinary n) ∧ ∃ stem, stem ≠ "" ∧ last = stem ++ ".html" := by
  rcases h.place.name with hdots | ⟨stem, before, hstem, heq, hordinary, -⟩
  · exact absurd hdots hlast
  · refine ⟨List.forall_mem_append.2 ⟨h.place.ordinary, ?_⟩, stem, hstem, heq⟩
    simpa using hordinary

/-- The path of the document is the name in its directories, whether the name is one or not. -/
theorem child_output (h : Placed settings planned names init last)
    (htext : (Layout.ofSettings root settings.paths).output.text ≠ "") :
    root.join planned.output = ((Layout.ofSettings root settings.paths).output.down init).child last := by
  have hstep : Path.IsStep last := by
    rcases h.last_cases with hlast | rfl
    · exact hlast.isStep
    · exact Path.isStep_parent
  rw [h.join_output, Path.join_ofNames_concat htext h.place.ordinary hstep]

/-- One place is the place of one path. -/
theorem output_eq_of_place {other : PlannedOutput} {names' init' : List String} {last' : String}
    (h : Placed settings planned names init last) (h' : Placed settings other names' init' last')
    (hplace : init ++ [last] = init' ++ [last']) : planned.output = other.output := by
  rw [h.output, h'.output, h.source, h'.source, h.place.output, h'.place.output, hplace]

/-- A name leads down from the output directory. -/
theorem join_output_down (h : Placed settings planned names init last) (hlast : last ≠ "..")
    (htext : (Layout.ofSettings root settings.paths).output.text ≠ "") :
    root.join planned.output = (Layout.ofSettings root settings.paths).output.down (init ++ [last]) := by
  rw [h.join_output, Path.down_eq_join htext (h.ordinary_place hlast).1 (by simp)]

/-- **What the write of a document does:** at most the file at its place changes or comes, and if nothing
goes wrong the file is there. -/
theorem writeOutput_adds {bytes : Bytes} {outcome : Except Disk.Fault Bool}
    (h : Placed settings planned names init last)
    (hplain : disk.Plain (Layout.ofSettings root settings.paths).output links here)
    (hwrite : (Disk.writeIfChanged (root.join planned.output) bytes).run disk = (outcome, after)) :
    after.Plain (Layout.ofSettings root settings.paths).output links here ∧
      disk.Adds (fun place => place = here ++ (init ++ [last])) after ∧
        (faultOf outcome = none → last ≠ ".." ∧ ∃ executable,
          after.root.at? (here ++ (init ++ [last])) = some (.file bytes executable)) := by
  rw [h.join_output] at hwrite
  by_cases hlast : last = ".."
  · -- Two dots are no name, so nothing is written.
    subst hlast
    obtain ⟨hadds, fault, rfl⟩ := hplain.writeIfChanged_up h.place.ordinary hwrite
    exact ⟨hplain.of_writeIfChanged hadds hwrite, hadds.mono fun _ hfalse => hfalse.elim,
      fun hfault => absurd hfault (by simp [faultOf])⟩
  · obtain ⟨hnames, -⟩ := h.ordinary_place hlast
    rw [← Path.down_eq_join hplain.leads.text_ne hnames (by simp)] at hwrite
    obtain ⟨hadds, hok⟩ := hplain.writeIfChanged_down hnames (by simp) hwrite
    refine ⟨hplain.of_writeIfChanged hadds hwrite, hadds, fun hfault => ⟨hlast, ?_⟩⟩
    cases outcome with
    | error fault => exact absurd hfault (by simp [faultOf])
    | ok changed => exact (hok changed rfl).2

end Placed

/-- What a template leaves behind: at most the file at the place of its document has changed or come, and
if the template is compiled the file is the document. -/
structure Leaves (root : Path) (settings : Settings) (links : Nat) (here init : List String) (last : String)
    (planned : PlannedOutput) (disk : Disk) (document? : Option CompiledDocument) (after : Disk) : Prop where
  /-- The output directory is where it was. -/
  plain : after.Plain (Layout.ofSettings root settings.paths).output links here
  /-- Nothing else has changed. -/
  adds : disk.Adds (fun place => planned.isClaimant = true ∧ place = here ++ (init ++ [last])) after
  /-- The document is there. -/
  found : ∀ document ∈ document?, ∀ html, document.outcome = .compiled html →
    document.output = planned.output ∧ last ≠ ".." ∧ ∃ executable,
      after.root.at? (here ++ (init ++ [last])) = some (.file (Bytes.ofString html) executable)

/-- A template that is not compiled and writes nothing leaves everything as it is. -/
theorem Leaves.refl {document? : Option CompiledDocument}
    (hplain : disk.Plain (Layout.ofSettings root settings.paths).output links here)
    (hfailed : ∀ document ∈ document?, ∀ html, document.outcome ≠ .compiled html) :
    Leaves root settings links here init last planned disk document? disk :=
  ⟨hplain, .refl _ _, fun document hdocument html hcompiled =>
    absurd hcompiled (hfailed document hdocument html)⟩

/-- **What one template does.**  A template leaves behind its document and nothing else. -/
theorem Placed.leaves_of_compileOne {document? : Option CompiledDocument}
    (h : Placed settings planned names init last)
    (hplain : disk.Plain (Layout.ofSettings root settings.paths).output links here)
    (hrun : (compileOne root compiler planned).run disk = (document?, after)) :
    Leaves root settings links here init last planned disk document? after := by
  cases hcollides : planned.collidesWith with
  | some first =>
    rw [compileOne_collided hcollides] at hrun
    obtain ⟨rfl, rfl⟩ := Prod.mk.inj hrun
    refine .refl hplain fun document hdocument html hcompiled => ?_
    obtain rfl := Option.some.inj hdocument
    exact Outcome.noConfusion hcompiled
  | none =>
    have hclaimant : planned.isClaimant = true := Option.isNone_iff_eq_none.2 hcollides
    rw [compileOne_run_draft compiler hclaimant] at hrun
    dsimp only at hrun
    cases hbytes : (draft root compiler planned (disk.readText (root.join planned.source))).bytes? with
    | none =>
      rw [hbytes] at hrun
      obtain ⟨rfl, rfl⟩ := Prod.mk.inj hrun
      refine .refl hplain fun document hdocument html hcompiled => ?_
      exact absurd (hbytes.symm.trans (bytes_of_compiled hdocument hcompiled).1) (by simp)
    | some bytes =>
      rw [hbytes] at hrun
      dsimp only at hrun
      rcases hwrite : (Disk.writeIfChanged (root.join planned.output) bytes).run disk with ⟨outcome, last'⟩
      rw [hwrite] at hrun
      obtain ⟨rfl, rfl⟩ := Prod.mk.inj hrun
      obtain ⟨hafter, hadds, hthere⟩ := h.writeOutput_adds hplain hwrite
      refine ⟨hafter, hadds.mono fun _ heq => ⟨hclaimant, heq⟩, fun document hdocument html hcompiled => ?_⟩
      -- A compiled document is the draft that was written, so what is at its place are its bytes.
      obtain ⟨hhtml, hfault, houtput⟩ := bytes_of_compiled hdocument hcompiled
      obtain rfl := Option.some.inj (hbytes.symm.trans hhtml)
      exact ⟨houtput, hthere hfault⟩

/-! ## All templates -/

/-- The places of the documents of a plan, for an output directory at a place. -/
def IsOutputPlace (settings : Settings) (here : List String) (plan : List PlannedOutput)
    (place : List String) : Prop :=
  ∃ p ∈ plan, p.isClaimant = true ∧
    ∃ names init last, Placed settings p names init last ∧ place = here ++ (init ++ [last])

/-- **What all templates do:** files change or come at the places of their documents only, and every document
that is compiled is found. -/
theorem mapM_compileOne_adds {documents : List (Option CompiledDocument)}
    (hplaced : ∀ p ∈ plan, ∃ names init last, Placed settings p names init last)
    (hplain : disk.Plain (Layout.ofSettings root settings.paths).output links here)
    (hrun : (plan.mapM (compileOne root compiler)).run disk = (documents, after)) :
    after.Plain (Layout.ofSettings root settings.paths).output links here ∧
      disk.Adds (IsOutputPlace settings here plan) after ∧ ∀ document html, some document ∈ documents →
        document.outcome = .compiled html →
          root.join document.output ∈ compiledDocuments after (Layout.ofSettings root settings.paths).output := by
  -- Along the plan files only change or come, so a document that was found after one template is found
  -- after all of them.
  induction plan generalizing disk documents with
  | nil =>
    obtain ⟨rfl, rfl⟩ := Prod.mk.inj hrun
    exact ⟨hplain, .refl _ _, fun document html hmem => absurd hmem List.not_mem_nil⟩
  | cons planned plan ih =>
    obtain ⟨⟨names, init, last, hplaced⟩, hrest⟩ := List.forall_mem_cons.1 hplaced
    rw [run_mapM_cons] at hrun
    obtain ⟨rfl, rfl⟩ := Prod.mk.inj hrun
    obtain ⟨hbetween, hadds, hcompiled⟩ :=
      hplaced.leaves_of_compileOne hplain (show (compileOne root compiler planned).run disk = _ from rfl)
    obtain ⟨hafter, hmore, hbuilt⟩ := ih hrest hbetween rfl
    have hfirst : ∀ place, planned.isClaimant = true ∧ place = here ++ (init ++ [last]) →
        IsOutputPlace settings here (planned :: plan) place := by
      rintro place ⟨hclaimant, hplace⟩
      exact ⟨planned, List.mem_cons_self, hclaimant, names, init, last, hplaced, hplace⟩
    have hlater : ∀ place, IsOutputPlace settings here plan place →
        IsOutputPlace settings here (planned :: plan) place := by
      rintro place ⟨p, hp, hplace⟩
      exact ⟨p, List.mem_cons_of_mem _ hp, hplace⟩
    refine ⟨hafter, (hadds.mono hfirst).trans (hmore.mono hlater), ?_⟩
    intro document html hmem houtcome
    rcases List.mem_cons.1 hmem with hfirst | hmem
    · obtain ⟨houtput, hlast, executable, hat⟩ := hcompiled document hfirst.symm html houtcome
      obtain ⟨hnames, stem, hstem, rfl⟩ := hplaced.ordinary_place hlast
      have htext := hafter.leads.text_ne
      rw [houtput, hplaced.join_output_down hlast htext]
      refine (mem_compiledDocuments_iff hafter.leads).2 ⟨_, hmore.stays _ ⟨_, executable, hat⟩, rfl, ?_⟩
      exact Path.extension?_down htext hplaced.place.ordinary hstem (hnames _ (by simp))
    · exact hbuilt document html hmem houtcome

/-! ## What is planned -/

/-- **Every entry of a plan** is a template with a place for its document. -/
theorem exists_placed {sources : List Path} (hcurrent : disk.HasCurrent) (hproper : disk.root.IsProper)
    (hdiscover : discover disk root settings = .ok sources) :
    ∃ links here es selection, disk.LeadsTo root links here ∧ disk.root.at? here = some (.directory es) ∧
      Selection.read settings.paths.includes settings.paths.excludes = .ok selection ∧
      ∀ p ∈ planOutputs sources ⟨settings.paths.sourceRoot⟩ ⟨settings.paths.output⟩,
        ∃ names init last, Placed settings p names init last ∧
          IsTemplate root settings selection (.directory es) names := by
  obtain ⟨links, here, es, selection, hroot, hes, hselection, rfl⟩ :=
    of_discover_eq_ok hcurrent hproper hdiscover
  refine ⟨links, here, es, selection, hroot, hes, hselection, fun p hp => ?_⟩
  -- What is planned is what was found and accepted.
  have hplan := planOutputs_claimedOnce (((found root settings (.directory es)).map fun v =>
    Path.ofNames v.1).filter fun p => selection.accepts p.text) ⟨settings.paths.sourceRoot⟩
      ⟨settings.paths.output⟩
  have hsource := List.mem_map_of_mem (f := PlannedOutput.source) hp
  rw [hplan.source_eq] at hsource
  obtain ⟨hmem, haccepted⟩ := List.mem_filter.1 hsource
  obtain ⟨⟨names, inner⟩, hfound, hnames⟩ := List.mem_map.1 hmem
  obtain ⟨hordinary, hne⟩ := names_of_mem_found (hproper.of_at? hes) rfl hfound
  obtain ⟨init, last, hplace⟩ := settings.paths.exists_outputPlace hordinary hne
  refine ⟨names, init, last, ⟨hnames.symm, hordinary, hne, hplan.output_eq p hp, hplace⟩, ?_⟩
  exact isTemplate_iff.2 ⟨⟨inner, hfound⟩, hnames ▸ haccepted⟩

end Build

/-! ## What is exported -/

namespace Export

variable {setting : Setting} {path : Path} {paths : List Path} {p p' : Progress} {disk after : Disk}
  {asked asked' : List Nat} {d : ExportedDocument} {base : String}

/-- What a report says of a document: it was exported and these are its files, or it failed and nothing is
said but why. -/
structure Reports (setting : Setting) (path : Path) (d : ExportedDocument) : Prop where
  /-- It is this document. -/
  source : d.source = ⟨path.relativeTo setting.root⟩
  /-- It was exported or it failed. -/
  exported_or_failed : d.error = none ∧ d.files = namesOf setting path ∨
    d.error.isSome = true ∧ d.files = [] ∧ d.applied = []

theorem reports_documentOf {result : Except String (List String × List String)}
    (h : ∀ files applied, result = .ok (files, applied) → files = namesOf setting path) :
    Reports setting path (documentOf setting path result) := by
  cases result with
  | error error => exact ⟨rfl, .inr ⟨rfl, rfl, rfl⟩⟩
  | ok done => exact ⟨rfl, .inl ⟨rfl, h done.1 done.2 rfl⟩⟩

/-- A document that is exported has a file for each container. -/
theorem files_of_exportOne {files applied : List String}
    (h : (exportOne setting path (baseName path) asked).run disk = ((.ok (files, applied), asked'), after)) :
    files = namesOf setting path := by
  rcases exportOne_returns h with ⟨fault, -, herror, -⟩ | ⟨html, failure, -, -, herror, -⟩ |
    ⟨html, artifacts, outcome, -, hpack, -, hresult⟩
  · exact absurd herror (by simp)
  · exact absurd herror (by simp)
  cases outcome with
  | error error => exact absurd hresult (by simp [Except.map])
  | ok =>
    rw [(Prod.mk.inj (Except.ok.inj hresult)).1, packed_fileNames hpack]
    rfl

/-- **A step of an export** reports its document. -/
theorem step_reports (h : (step setting p path).run disk = (p', after)) :
    ∃ d, Reports setting path d ∧ p'.documents = d :: p.documents := by
  cases hclaim : p.claimed.find? fun claim => claim.1 == baseName path with
  | some claim =>
    rw [step_run_of_some hclaim] at h
    obtain ⟨rfl, -⟩ := Prod.mk.inj h
    exact ⟨_, ⟨rfl, .inr ⟨rfl, rfl, rfl⟩⟩, rfl⟩
  | none =>
    rcases hone : (exportOne setting path (baseName path) p.asked).run disk with ⟨⟨result, asked⟩, between⟩
    rw [step_run_of_none hclaim hone] at h
    obtain ⟨rfl, -⟩ := Prod.mk.inj h
    refine ⟨documentOf setting path result, reports_documentOf ?_, rfl⟩
    rintro files applied rfl
    exact files_of_exportOne hone

/-- **All steps of an export** report their documents one by one. -/
theorem foldlM_reports (h : (paths.foldlM (step setting) p).run disk = (p', after)) :
    ∃ ds, List.Forall₂ (Reports setting) paths ds ∧ p'.documents = ds.reverse ++ p.documents := by
  induction paths generalizing p disk with
  | nil =>
    obtain ⟨rfl, -⟩ := Prod.mk.inj h
    exact ⟨[], .nil, rfl⟩
  | cons path paths ih =>
    rw [List.foldlM_cons] at h
    rcases hstep : (step setting p path).run disk with ⟨q, between⟩
    rw [Disk.run_state_bind _ hstep] at h
    obtain ⟨d, hd, hfirst⟩ := step_reports hstep
    obtain ⟨ds, hds, hrest⟩ := ih h
    refine ⟨d :: ds, .cons hd hds, ?_⟩
    rw [hrest, hfirst, List.reverse_cons, List.append_assoc]
    rfl

/-- **A report** says something of every compiled document, in order. -/
theorem run_reports {client : Client} {layout : Layout} {settings : Settings} {source : BoundarySource}
    {report : ExportReport} {drawn : Nat}
    (h : (run client layout settings source).run disk = ((.ok report, drawn), after)) :
    List.Forall₂ (Reports (settingOf client layout settings source)) (compiledDocuments disk layout.output)
      report.documents := by
  rcases run_cases h with ⟨hnone, hreport, -⟩ | ⟨fault, hfault, -⟩ |
    ⟨made, p, written, -, hloop, -, hreport⟩
  · obtain rfl := Except.ok.inj hreport
    rw [hnone]
    exact .nil
  · exact absurd hfault (by simp)
  · obtain ⟨ds, hds, hdocuments⟩ := foldlM_reports hloop
    rw [hreport report rfl, hdocuments, List.append_nil, List.reverse_reverse]
    exact hds

theorem sources_of_reports {ds : List ExportedDocument} (h : List.Forall₂ (Reports setting) paths ds) :
    ds.map ExportedDocument.source = paths.map fun p => ⟨p.relativeTo setting.root⟩ := by
  induction h with
  | nil => rfl
  | cons hfirst _ ih => rw [List.map_cons, List.map_cons, hfirst.source, ih]

/-- **One report for each document:** if the paths of the documents differ as seen from the root, what is
told of one of them is found by its path. -/
theorem exists_report {ds : List ExportedDocument} (h : List.Forall₂ (Reports setting) paths ds)
    (hnodup : (paths.map fun p => p.relativeTo setting.root).Nodup) (hmem : path ∈ paths) :
    ∃ d, Reports setting path d ∧ (ds.filter fun d => d.source == ⟨path.relativeTo setting.root⟩) = [d] := by
  induction h with
  | nil => exact absurd hmem List.not_mem_nil
  | @cons first d paths ds hfirst hrest ih =>
    obtain ⟨hnew, hnodup⟩ := List.nodup_cons.1 hnodup
    rcases List.mem_cons.1 hmem with rfl | hmem
    · -- None of the later documents has its path.
      have hothers : ds.filter (fun d => d.source == ⟨path.relativeTo setting.root⟩) = [] := by
        rw [List.filter_eq_nil_iff]
        intro other hother heq
        have hsource := List.mem_map_of_mem (f := ExportedDocument.source) hother
        rw [sources_of_reports hrest, beq_iff_eq.1 heq] at hsource
        obtain ⟨later, hlater, heq⟩ := List.mem_map.1 hsource
        exact hnew (List.mem_map.2 ⟨later, hlater, Path.mk.inj heq⟩)
      exact ⟨d, hfirst, by rw [List.filter_cons_of_pos (by simp [hfirst.source]), hothers]⟩
    · obtain ⟨found, hfound, hfilter⟩ := ih hnodup hmem
      refine ⟨found, hfound, ?_⟩
      rw [List.filter_cons_of_neg, hfilter]
      rw [hfirst.source, beq_iff_eq, Path.mk.injEq]
      intro heq
      exact hnew (List.mem_map.2 ⟨path, hmem, heq.symm⟩)

end Export

/-! ## What is built and exported -/

namespace Build

variable {root : Path} {settings : Settings} {disk final : Disk} {run : BuildRun} {plan : List PlannedOutput}

/-- What has happened in a build that ends with a run. -/
theorem exists_start_of_done {compiler : Compiler} {elapsed : Nat}
    (h : (Build.run root settings compiler elapsed).run disk = (.done run, final)) :
    ∃ plan made, (start root settings).run disk = (.ok plan, made) ∧
      (plan.mapM (compileOne root compiler)).run made = (run.documents.map some, final) ∧
      run.elapsed = elapsed := by
  rcases hstart : (start root settings).run disk with ⟨fault | plan, made⟩
  · rw [Build.run, Disk.run_state_bind _ hstart] at h
    exact absurd (Prod.mk.inj h).1 (by simp)
  · rw [run_of_start_eq_ok hstart] at h
    obtain ⟨hconclude, rfl⟩ := Prod.mk.inj h
    refine ⟨plan, made, rfl, Prod.ext (map_some_of_conclude hconclude).symm rfl, ?_⟩
    unfold conclude at hconclude
    split at hconclude
    · exact Result.done.inj hconclude ▸ rfl
    · exact absurd hconclude (by simp)

/-- **What is built is exported.**  When a build ends with a run, the compiled documents of the project have
the document of every template that was compiled, and have it once, so every report of an export that
follows tells of it once: its files, or why there are none.

No link may stand below the output directory once it is made.  That is so on a disk without links
(`Disk.noLinksBelow_of_makeDirectories`), and for an output directory in a project without links
(`Disk.NoLinksBelow.down`). -/
theorem built_documents_exported (root : Path) (settings : Settings) (compiler : Compiler) (elapsed : Nat)
    (hcurrent : disk.HasCurrent) (hproper : disk.root.IsProper)
    (hlinks : ∀ made,
      (Disk.makeDirectories (Layout.ofSettings root settings.paths).output).run disk = (.ok (), made) →
        made.NoLinksBelow (Layout.ofSettings root settings.paths).output)
    (hrun : (Build.run root settings compiler elapsed).run disk = (.done run, final)) :
    ∀ document ∈ run.documents, ∀ html, document.outcome = .compiled html →
      (compiledDocuments final (Layout.ofSettings root settings.paths).output).count
        (root.join document.output) = 1 ∧
      ∀ client source report drawn after,
        (Export.run client (Layout.ofSettings root settings.paths) settings source).run final =
          ((.ok report, drawn), after) →
        ∃ d, (report.documents.filter fun d => d.source == ⟨(root.join document.output).relativeTo root⟩) =
            [d] ∧
          Export.Reports (Export.settingOf client (Layout.ofSettings root settings.paths) settings source)
            (root.join document.output) d := by
  intro document hdocument html hcompiled
  obtain ⟨plan, made, hstart, hloop, -⟩ := exists_start_of_done hrun
  obtain ⟨sources, hdiscover, rfl, hmake⟩ := of_start_eq_ok hstart
  obtain ⟨_, _, _, _, hroot, -, -, hplaced⟩ := exists_placed hcurrent hproper hdiscover
  obtain ⟨links, here, hplain⟩ :=
    Disk.exists_plain hcurrent hproper (Path.text_ne_of_join hroot.text_ne _) hmake (hlinks made hmake)
  have hplan : ∀ p ∈ planOutputs sources ⟨settings.paths.sourceRoot⟩ ⟨settings.paths.output⟩,
      ∃ names init last, Placed settings p names init last := by
    intro p hp
    obtain ⟨names, init, last, hplaced, -⟩ := hplaced p hp
    exact ⟨names, init, last, hplaced⟩
  -- The build has left files below the output directory and no links, so a walk finds them all.
  obtain ⟨hfinal, -, hbuilt⟩ := mapM_compileOne_adds hplan hplain hloop
  have hmem := hbuilt document html (List.mem_map_of_mem hdocument) hcompiled
  refine ⟨List.count_eq_one_of_mem (nodup_compiledDocuments hfinal.leads hfinal.proper) hmem, ?_⟩
  intro client source report drawn after hexport
  -- A report speaks of what the walk finds, in this order, and no two paths look the same from the root.
  obtain ⟨d, hd, hfilter⟩ := Export.exists_report (Export.run_reports hexport)
    (nodup_relativeTo_compiledDocuments hroot.text_ne hfinal.leads hfinal.proper) hmem
  exact ⟨d, hfilter, hd⟩

/-- A project with a template whose name holds two dots, one whose name begins with a dot, and one that is no
text. -/
def dotted : Disk :=
  ⟨.directory [("a.b.mjml", .file [] false),
    ("src", .directory [(".c.mjml", .file [] false), ("d.mjml", .file [255] false)])], []⟩

/-- In that project the two templates that are texts are built, and their documents are found. -/
theorem dotted_documents_exported : ∃ run final,
    (dotted.HasCurrent ∧ dotted.root.IsProper ∧ ∀ place target, dotted.root.at? place ≠ some (.link target)) ∧
    (Build.run ⟨"/"⟩ {} echo 0).run dotted = (.done run, final) ∧
    (run.documents.filter CompiledDocument.isSuccess).map CompiledDocument.output =
      [⟨"dist/a.b.html"⟩, ⟨"dist/.c.html"⟩] ∧
    ∀ document ∈ run.documents, ∀ html, document.outcome = .compiled html →
      (compiledDocuments final ⟨"/dist"⟩).count ((⟨"/"⟩ : Path).join document.output) = 1 := by
  have hcurrent : dotted.HasCurrent := ⟨_, rfl⟩
  have hproper : dotted.root.IsProper := by decide +kernel
  have hlinks : ∀ place target, dotted.root.at? place ≠ some (.link target) :=
    Bundle.noLink_of_visits (by decide +kernel)
  have hbuilt : (match ((Build.run ⟨"/"⟩ {} echo 0).run dotted).1 with
      | .done run => (run.documents.filter CompiledDocument.isSuccess).map CompiledDocument.output
      | _ => []) = [⟨"dist/a.b.html"⟩, ⟨"dist/.c.html"⟩] := by decide +kernel
  rcases hrun : (Build.run ⟨"/"⟩ {} echo 0).run dotted with ⟨run | fault | -, final⟩
  · rw [hrun] at hbuilt
    refine ⟨run, final, ⟨hcurrent, hproper, hlinks⟩, rfl, hbuilt, ?_⟩
    intro document hdocument html hcompiled
    exact (built_documents_exported ⟨"/"⟩ {} echo 0 hcurrent hproper
      (fun made => Disk.noLinksBelow_of_makeDirectories hcurrent hlinks) hrun
      document hdocument html hcompiled).1
  · rw [hrun] at hbuilt
    exact absurd hbuilt (by simp)
  · rw [hrun] at hbuilt
    exact absurd hbuilt (by simp)

end Build

end MailTemplate
