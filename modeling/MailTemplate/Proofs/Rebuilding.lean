import MailTemplate.Proofs.BuiltDocuments
import MailTemplate.Proofs.DiskRewrites
import MailTemplate.Proofs.GlobEndings

/-!
# Rebuilding

A build that follows a build comes to the same and writes nothing.  What the first one has added to the disk
are directories and documents, and a document ends as no template does: so the same templates are found, each
reads as before, and each has the same place for its document.  There the document is already, unless it
could not be written, and then it cannot be written again.

That a document is no template takes that the globs select nothing but templates by their ending.

## Main definitions

* `Build.writtenBy` — the documents that a build writes, as opposed to those that were there.
* `Build.Sourced` — a template of a plan that is there.

## Main results

* `Build.Sourced.compileOne_again`, `Build.mapM_compileOne_again` — one template again, and all of them.
* `Build.rebuild_writes_nothing` — a second build writes nothing.
-/

namespace MailTemplate

namespace Build

variable {root : Path} {settings : Settings} {compiler : Compiler} {planned other : PlannedOutput}
  {plan : List PlannedOutput} {names init here base : List String} {last : String} {links links' : Nat}
  {disk made after later final : Disk} {places : List String → Prop} {run : BuildRun}

/-! ## What is written -/

/-- Whether the document of a template is written, rather than there already or not to be had. -/
def isWritten (root : Path) (compiler : Compiler) (disk : Disk) (planned : PlannedOutput) : Bool :=
  planned.isClaimant &&
    match (draft root compiler planned (disk.readText (root.join planned.source))).bytes? with
    | none => false
    | some bytes =>
      match ((Disk.writeIfChanged (root.join planned.output) bytes).run disk).1 with
      | .ok changed => changed
      | .error _ => false

/-- The documents of a plan that are written, one after the other. -/
def written (root : Path) (compiler : Compiler) : List PlannedOutput → Disk → List Path
  | [], _ => []
  | planned :: plan, disk =>
    let rest := written root compiler plan ((compileOne root compiler planned).run disk).2
    if isWritten root compiler disk planned then planned.output :: rest else rest

/-- The documents that a build writes. -/
def writtenBy (root : Path) (settings : Settings) (compiler : Compiler) (disk : Disk) : List Path :=
  match (start root settings).run disk with
  | (.error _, _) => []
  | (.ok plan, made) => written root compiler plan made

/-! ## One template -/

/-- A template of a plan that is there, in a root at a place, and whose path ends as that of a template. -/
structure Sourced (settings : Settings) (disk : Disk) (base : List String) (planned : PlannedOutput)
    (names init : List String) (last : String) : Prop where
  /-- It has a place for its document. -/
  placed : Placed settings planned names init last
  /-- There is a file. -/
  file : disk.HasFile (base ++ names)
  /-- Its path ends so. -/
  ending : ".mjml".toList <:+ (Path.ofNames names).text.toList

/-- **A document is at no place of a template.** -/
theorem Placed.ne_template {more : List String} (h : Placed settings planned names init last)
    (hmore : more ≠ []) (hending : ".mjml".toList <:+ (Path.ofNames more).text.toList) :
    base ++ more ≠ here ++ (init ++ [last]) := by
  intro heq
  obtain ⟨front, name, rfl⟩ : ∃ front name, more = front ++ [name] :=
    ⟨_, _, (List.dropLast_concat_getLast hmore).symm⟩
  rw [← List.append_assoc, ← List.append_assoc] at heq
  obtain rfl : name = last := (List.cons.inj (List.append_inj' heq rfl).2).1
  have hname := Path.suffix_ofNames front name
  rcases h.place.name with rfl | ⟨stem, -, -, rfl, -⟩
  · -- Two dots end otherwise.
    obtain ⟨before, hbefore⟩ := hname
    obtain ⟨before', hbefore'⟩ := hending
    have hlast := congrArg List.getLast? (hbefore.trans hbefore'.symm)
    rw [List.getLast?_append, List.getLast?_append, show "..".toList.getLast? = some '.' from rfl,
      show ".mjml".toList.getLast? = some 'l' from rfl] at hlast
    exact absurd hlast (by simp)
  · rw [String.toList_append] at hname
    have hhtml : ".html".toList <:+ _ := (List.suffix_append _ _).trans hname
    exact absurd (List.suffix_of_suffix_length_le hending hhtml (by decide)) (by decide)

namespace Sourced

theorem mono (h : Sourced settings disk base planned names init last) (hadds : disk.Adds places after) :
    Sourced settings after base planned names init last :=
  ⟨h.placed, hadds.stays _ h.file, h.ending⟩

/-- **A template reads as before** when files are added elsewhere. -/
theorem readText_eq (h : Sourced settings disk base planned names init last)
    (hroot : disk.LeadsTo root links base) (hadds : disk.Adds places after) (hkept : ¬ places (base ++ names)) :
    after.readText (root.join planned.source) = disk.readText (root.join planned.source) := by
  rw [h.placed.source, ← Path.down_eq_join hroot.text_ne h.placed.ordinary h.placed.ne_nil]
  exact hroot.readText_of_adds h.placed.ordinary h.placed.ne_nil h.file hadds hkept

/-- A template that is compiled has names that are not too long. -/
theorem length_le (h : Sourced settings disk base planned names init last)
    (hroot : disk.LeadsTo root links base) {text : String}
    (hread : disk.readText (root.join planned.source) = .ok text) :
    ∀ n ∈ init, n.utf8ByteSize ≤ Disk.maxName := by
  obtain ⟨bytes, executable, hat⟩ := h.file
  have hresolve := hroot.resolve_down_of_at? h.placed.ordinary h.placed.ne_nil hat (by simp)
  rw [h.placed.source, ← Path.down_eq_join hroot.text_ne h.placed.ordinary h.placed.ne_nil, Disk.readText,
    Disk.read, Disk.node, hresolve] at hread
  -- A name that is too long would have stopped the reading of the template.
  cases hfault : Disk.downFault root names with
  | some fault =>
    rw [hfault] at hread
    exact absurd hread (by simp [bind, Except.bind])
  | none =>
    obtain ⟨-, -, hlength⟩ := Disk.downFault_eq_none_iff.1 hfault
    intro n hn
    rcases h.placed.place.directories with rfl | rfl
    · exact absurd hn List.not_mem_nil
    · exact hlength n (List.dropLast_subset _ hn)

/-- So have the directories of its document, if it has a draft. -/
theorem length_le_of_bytes (h : Sourced settings disk base planned names init last)
    (hroot : disk.LeadsTo root links base) {bytes : Bytes}
    (hbytes : (draft root compiler planned (disk.readText (root.join planned.source))).bytes? = some bytes) :
    ∀ n ∈ init, n.utf8ByteSize ≤ Disk.maxName := by
  cases hread : disk.readText (root.join planned.source) with
  | error fault => rw [hread] at hbytes; exact absurd hbytes (by simp [draft])
  | ok text => exact h.length_le hroot hread

/-- **One template again:** after a build has processed a template, and then others that have written
elsewhere, the template comes to the same and is not written. -/
theorem compileOne_again {document? : Option CompiledDocument}
    (h : Sourced settings disk base planned names init last)
    (hplain : disk.Plain (Layout.ofSettings root settings.paths).output links here)
    (hroot : disk.LeadsTo root links' base)
    (hrun : (compileOne root compiler planned).run disk = (document?, after))
    (hadds : after.Adds places later) (hproper : later.root.IsProper)
    (hplace : planned.isClaimant = true → ¬ places (here ++ (init ++ [last])))
    (hkept : ¬ places (base ++ names)) :
    (compileOne root compiler planned).run later = (document?, later) ∧
      isWritten root compiler later planned = false := by
  cases hcollides : planned.collidesWith with
  | some first =>
    rw [compileOne_collided hcollides] at hrun ⊢
    obtain ⟨rfl, -⟩ := Prod.mk.inj hrun
    exact ⟨rfl, by rw [isWritten, PlannedOutput.isClaimant, hcollides]; rfl⟩
  | none =>
    have hclaimant : planned.isClaimant = true := Option.isNone_iff_eq_none.2 hcollides
    have hfirst := (h.placed.leaves_of_compileOne hplain hrun).adds
    have hboth : disk.Adds (fun place => place = here ++ (init ++ [last]) ∨ places place) later :=
      (hfirst.mono fun _ heq => .inl heq.2).trans (hadds.mono fun _ hmore => .inr hmore)
    -- Neither its own document nor a later one has changed the template.
    have htext := h.readText_eq hroot hboth
      (not_or.2 ⟨h.placed.ne_template h.placed.ne_nil h.ending, hkept⟩)
    rw [compileOne_run_draft compiler hclaimant] at hrun ⊢
    rw [isWritten, hclaimant, Bool.true_and, htext]
    dsimp only at hrun ⊢
    cases hbytes : (draft root compiler planned (disk.readText (root.join planned.source))).bytes? with
    | none =>
      rw [hbytes] at hrun
      obtain ⟨rfl, -⟩ := Prod.mk.inj hrun
      exact ⟨rfl, rfl⟩
    | some bytes =>
      rw [hbytes] at hrun
      dsimp only at hrun ⊢
      rcases hwrite : (Disk.writeIfChanged (root.join planned.output) bytes).run disk with ⟨outcome, between⟩
      rw [hwrite] at hrun
      obtain ⟨rfl, rfl⟩ := Prod.mk.inj hrun
      -- The write finds what it has left, or what has stopped it.
      rw [h.placed.child_output hplain.leads.text_ne] at hwrite ⊢
      rw [hplain.writeIfChanged_again h.placed.place.ordinary (h.length_le_of_bytes hroot hbytes)
        h.placed.last_cases hwrite hadds hproper (hplace hclaimant)]
      cases outcome with
      | error fault => exact ⟨rfl, rfl⟩
      | ok changed => exact ⟨rfl, rfl⟩

end Sourced

/-! ## All templates -/

theorem exists_placed_of_sourced
    (h : ∀ p ∈ plan, ∃ names init last, Sourced settings disk base p names init last) :
    ∀ p ∈ plan, ∃ names init last, Placed settings p names init last := by
  intro p hp
  obtain ⟨names, init, last, hsourced⟩ := h p hp
  exact ⟨names, init, last, hsourced.placed⟩

/-- **All templates again:** after a build has gone through a plan, going through it again comes to the same
and writes nothing. -/
theorem mapM_compileOne_again {documents : List (Option CompiledDocument)}
    (hsourced : ∀ p ∈ plan, ∃ names init last, Sourced settings disk base p names init last)
    (hpairwise : plan.Pairwise fun p q => q.isClaimant = true → p.output.alike q.output = false)
    (hplain : disk.Plain (Layout.ofSettings root settings.paths).output links here)
    (hroot : disk.LeadsTo root links' base)
    (hrun : (plan.mapM (compileOne root compiler)).run disk = (documents, after)) :
    (plan.mapM (compileOne root compiler)).run after = (documents, after) ∧
      written root compiler plan after = [] := by
  -- What is processed later neither writes where a template has written nor what a template is read from,
  -- so each template finds what it has left behind.
  induction plan generalizing disk documents with
  | nil =>
    obtain ⟨rfl, -⟩ := Prod.mk.inj hrun
    exact ⟨rfl, rfl⟩
  | cons planned plan ih =>
    obtain ⟨⟨names, init, last, hfirst⟩, hrest⟩ := List.forall_mem_cons.1 hsourced
    obtain ⟨hapart, hpairwise⟩ := List.pairwise_cons.1 hpairwise
    rcases hone : (compileOne root compiler planned).run disk with ⟨document?, between⟩
    rcases hmore : (plan.mapM (compileOne root compiler)).run between with ⟨rest, last'⟩
    rw [run_mapM_cons, hone, hmore] at hrun
    obtain ⟨rfl, rfl⟩ := Prod.mk.inj hrun
    obtain ⟨hbetween, hadds, -⟩ := hfirst.placed.leaves_of_compileOne hplain hone
    have hstays : ∀ p ∈ plan, ∃ names init last, Sourced settings between base p names init last := by
      intro p hp
      obtain ⟨names, init, last, hsourced⟩ := hrest p hp
      exact ⟨names, init, last, hsourced.mono hadds⟩
    obtain ⟨hafter, hlater, -⟩ := mapM_compileOne_adds (exists_placed_of_sourced hrest) hbetween hmore
    obtain ⟨hall, hnone⟩ := ih hstays hpairwise hbetween (hroot.of_grows hadds.grows) hmore
    have hplace : planned.isClaimant = true → ¬ IsOutputPlace settings here plan (here ++ (init ++ [last])) := by
      rintro - ⟨q, hq, hclaims, names', init', last', hq', heq⟩
      have hsame := hfirst.placed.output_eq_of_place hq' (List.append_cancel_left heq)
      have hdiffers := hapart q hq hclaims
      rw [hsame, Path.alike_refl] at hdiffers
      exact Bool.noConfusion hdiffers
    have hkept : ¬ IsOutputPlace settings here plan (base ++ names) := by
      rintro ⟨q, hq, -, names', init', last', hq', heq⟩
      exact hq'.ne_template hfirst.placed.ne_nil hfirst.ending heq
    obtain ⟨hagain, hnot⟩ :=
      hfirst.compileOne_again hplain hroot hone hlater hafter.proper hplace hkept
    refine ⟨?_, ?_⟩
    · rw [run_mapM_cons, hagain, hall]
    · rw [written, hagain, hnot, hnone]
      rfl

/-! ## Whole builds -/

/-- A build starts when the templates are found and the output directory is made. -/
theorem start_run {sources : List Path} (hdiscover : discover disk root settings = .ok sources)
    (hmake : (Disk.makeDirectories (Layout.ofSettings root settings.paths).output).run disk = (.ok (), made)) :
    (start root settings).run disk =
      (.ok (planOutputs sources ⟨settings.paths.sourceRoot⟩ ⟨settings.paths.output⟩), made) := by
  have hmade : (Disk.makeDirectories (Layout.ofSettings root settings.paths).output).run.run disk =
      (.ok (), made) := hmake
  rw [start, Disk.run_state_get_bind, hdiscover]
  dsimp only
  rw [Disk.run_state_bind _ hmade]
  rfl

theorem conclude_map_some (elapsed : Nat) (documents : List CompiledDocument) :
    conclude elapsed (documents.map some) = .done ⟨documents, elapsed⟩ := by
  rw [conclude, if_pos (by simp), List.filterMap_map]
  exact congrArg (fun documents => Result.done ⟨documents, elapsed⟩) List.filterMap_some

/-- **The same templates are found** when documents have been written, since no document is a template. -/
theorem discover_of_adds {selection : Selection} (hroot : disk.LeadsTo root links base)
    (hproper : disk.root.IsProper) (hproper' : after.root.IsProper) (hselects : settings.paths.SelectsOnly ".mjml")
    (hselection : Selection.read settings.paths.includes settings.paths.excludes = .ok selection)
    (hadds : disk.Adds (IsOutputPlace settings here plan) after) :
    discover after root settings = discover disk root settings := by
  have hroot' := hroot.of_grows hadds.grows
  obtain ⟨es, hes⟩ := hroot.directory
  obtain ⟨es', hes'⟩ := hroot'.directory
  refine discover_congr (hroot.node_eq hes) (hroot'.node_eq hes') rfl rfl (hproper.of_at? hes)
    (hproper'.of_at? hes') hselection fun names haccepted => ?_
  by_cases hnames : names = []
  · subst hnames
    simp [Node.at?]
  have hkept : ¬ IsOutputPlace settings here plan (base ++ names) := by
    rintro ⟨q, -, -, names', init', last', hq, heq⟩
    exact hq.ne_template hnames (hselects _ hselection _ haccepted) heq
  have hfile := hadds.hasFile_iff hkept
  rw [Disk.HasFile, Disk.HasFile, Node.at?_append, Node.at?_append, hes, hes'] at hfile
  exact hfile

/-- **A second build writes nothing.**  If the globs select only what ends as a template does, a build that
directly follows one that has ended with a run gives the same documents, with their warnings and what became
of them, writes none of them, and leaves the disk as it is.

No link may stand below the output directory once it is made, as for `built_documents_exported`. -/
theorem rebuild_writes_nothing (root : Path) (settings : Settings) (compiler : Compiler)
    (elapsed elapsed' : Nat) (hcurrent : disk.HasCurrent) (hproper : disk.root.IsProper)
    (hlinks : ∀ made,
      (Disk.makeDirectories (Layout.ofSettings root settings.paths).output).run disk = (.ok (), made) →
        made.NoLinksBelow (Layout.ofSettings root settings.paths).output)
    (hselects : settings.paths.SelectsOnly ".mjml")
    (hrun : (Build.run root settings compiler elapsed).run disk = (.done run, final)) :
    (Build.run root settings compiler elapsed').run final = (.done ⟨run.documents, elapsed'⟩, final) ∧
      writtenBy root settings compiler final = [] := by
  obtain ⟨plan, made, hstart, hloop, -⟩ := exists_start_of_done hrun
  obtain ⟨sources, hdiscover, rfl, hmake⟩ := of_start_eq_ok hstart
  obtain ⟨links', base, es, selection, hroot, hes, hselection, hplan⟩ :=
    exists_placed hcurrent hproper hdiscover
  have htext := Path.text_ne_of_join hroot.text_ne ⟨settings.paths.output⟩
  obtain ⟨links, here, hplain⟩ := Disk.exists_plain hcurrent hproper htext hmake (hlinks made hmake)
  have hmade := Disk.adds_makeDirectories hcurrent hmake
  -- Making the output directory adds no file, so the templates are still there.
  have hsourced : ∀ p ∈ planOutputs sources ⟨settings.paths.sourceRoot⟩ ⟨settings.paths.output⟩,
      ∃ names init last, Sourced settings made base p names init last := by
    intro p hp
    obtain ⟨names, init, last, hplaced, htemplate⟩ := hplan p hp
    obtain ⟨bytes, executable, hat⟩ := htemplate.file
    have hfile : disk.HasFile (base ++ names) := ⟨bytes, executable, by rw [Node.at?_append, hes]; exact hat⟩
    exact ⟨names, init, last, hplaced, hmade.stays _ hfile, hselects _ hselection _ htemplate.accepted⟩
  obtain ⟨hagain, hnone⟩ := mapM_compileOne_again hsourced pairwise_planAfter hplain
    (hroot.of_grows hmade.grows) hloop
  obtain ⟨hfinal, hadds, -⟩ := mapM_compileOne_adds (exists_placed_of_sourced hsourced) hplain hloop
  -- Files have come at places of documents only, so the second build starts with the same plan.
  have hall := (hmade.mono fun _ hfalse => hfalse.elim).trans hadds
  have hdiscover' : discover final root settings = .ok sources :=
    (discover_of_adds hroot hproper hfinal.proper hselects hselection hall).trans hdiscover
  have hmake' := Disk.makeDirectories_again hcurrent htext hmake hadds.grows
  have hstart' := start_run hdiscover' hmake'
  refine ⟨?_, ?_⟩
  · rw [run_of_start_eq_ok hstart', hagain, conclude_map_some]
  · rw [writtenBy, hstart']
    exact hnone

/-- The globs of the stock settings select only templates. -/
theorem selectsOnly_stock : ({} : PathSettings).SelectsOnly ".mjml" := by
  apply PathSettings.selectsOnly_of_pieces
  have hglobs : (match readGlobs ({} : PathSettings).includes with
      | .ok globs => globs.all fun glob => (".mjml".toList.map Glob.Piece.literal).isSuffixOf glob.pieces
      | .error _ => true) = true := by decide +kernel
  intro globs hread glob hmem
  rw [hread] at hglobs
  exact List.isSuffixOf_iff_suffix.1 (List.all_eq_true.1 hglobs glob hmem)

/-- The first build of a project writes its documents, and the second one does not. -/
theorem dotted_rebuilt : ∃ run final,
    (dotted.HasCurrent ∧ dotted.root.IsProper ∧ ∀ place target, dotted.root.at? place ≠ some (.link target)) ∧
    (Build.run ⟨"/"⟩ {} echo 0).run dotted = (.done run, final) ∧ run.documents.length = 3 ∧
    writtenBy ⟨"/"⟩ {} echo dotted = [⟨"dist/a.b.html"⟩, ⟨"dist/.c.html"⟩] ∧
    (Build.run ⟨"/"⟩ {} echo 1).run final = (.done ⟨run.documents, 1⟩, final) ∧
    writtenBy ⟨"/"⟩ {} echo final = [] := by
  have hcurrent : dotted.HasCurrent := ⟨_, rfl⟩
  have hproper : dotted.root.IsProper := by decide +kernel
  have hlinks : ∀ place target, dotted.root.at? place ≠ some (.link target) :=
    Bundle.noLink_of_visits (by decide +kernel)
  have hlength : (match ((Build.run ⟨"/"⟩ {} echo 0).run dotted).1 with
      | .done run => run.documents.length
      | _ => 0) = 3 := by decide +kernel
  have hwritten : writtenBy ⟨"/"⟩ {} echo dotted = [⟨"dist/a.b.html"⟩, ⟨"dist/.c.html"⟩] := by
    decide +kernel
  rcases hrun : (Build.run ⟨"/"⟩ {} echo 0).run dotted with ⟨run | fault | -, final⟩
  · rw [hrun] at hlength
    exact ⟨run, final, ⟨hcurrent, hproper, hlinks⟩, rfl, hlength, hwritten,
      rebuild_writes_nothing ⟨"/"⟩ {} echo 0 1 hcurrent hproper
        (fun made => Disk.noLinksBelow_of_makeDirectories hcurrent hlinks) selectsOnly_stock hrun⟩
  · rw [hrun] at hlength
    exact absurd hlength (by simp)
  · rw [hrun] at hlength
    exact absurd hlength (by simp)

end Build

end MailTemplate
