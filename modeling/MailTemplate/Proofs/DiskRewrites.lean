import MailTemplate.Proofs.DiskAdditions

/-!
# Writing again

What was made or written once is not made or written again.  A directory that was made is there; a file that
was written holds its bytes; and what could not be made or written has failed for a reason that stays: a file
or a directory stands in the way, or a name or a path is too long, or it has a character that no path can
have.  In the meantime other files may have been written and more directories made.

## Main results

* `Disk.LeadsTo.writeIfChanged_again` — a file of a directory that is written again.
* `Disk.Plain.makeDirectories_again`, `Disk.Plain.writeIfChanged_again` — the same below a directory without
  links, with the directories on the way.
-/

namespace MailTemplate

namespace Disk

section Again

variable {places : List String → Prop} {disk made after later : Disk} {path file q : Path} {links : Nat}
  {here place names init : List String} {name : String} {bytes : Bytes} {fault : Fault}
  {outcome : Except Fault Bool}

/-! ## Directories -/

/-- A directory that was made is not made again. -/
theorem makeDirectories_again (hcurrent : disk.HasCurrent) (htext : path.text ≠ "")
    (hmake : (makeDirectories path).run disk = (.ok (), made)) (hgrows : made.Grows later) :
    (makeDirectories path).run later = (.ok (), later) := by
  have hmade := hcurrent.grows (grows_makeDirectories hcurrent hmake)
  have hdirectory := isDirectory_of_makeDirectories hcurrent htext hmake
  exact makeDirectories_run_of_isDirectory (hmade.grows hgrows) (isDirectory_of_grows hmade hdirectory hgrows)

/-- A path that cannot be resolved, for another reason than that something is missing, is not made. -/
theorem makeDirectories_run_of_resolve (htext : path.text ≠ "")
    (hresolve : ∀ follow, disk.resolve follow path = .error fault) (hfault : fault ≠ .missing) :
    (makeDirectories path).run disk = (.error fault, disk) := by
  obtain ⟨rest, hrest⟩ := exists_ancestors path path.segments.length
  have hnot : disk.isDirectory path = false := by
    rw [isDirectory, Disk.node, hresolve]
    rfl
  rw [makeDirectories, hrest, makeFirst_cons htext, attempt_run, hresolve]
  dsimp only
  rw [if_neg hfault, hnot, if_neg Bool.false_ne_true]

/-- Names that are not too long cannot be reached only because of the text of the path. -/
theorem LeadsTo.resolve_down_of_downFault (h : disk.LeadsTo path links here)
    (hnames : ∀ n ∈ names, Path.IsOrdinary n) (hne : names ≠ [])
    (hlength : ∀ n ∈ names, n.utf8ByteSize ≤ maxName) (hfault : downFault path names = some fault) :
    (∀ follow, disk.resolve follow (path.down names) = .error fault) ∧ fault ≠ .missing := by
  unfold downFault at hfault
  split at hfault
  · next hnul =>
    obtain rfl := Option.some.inj hfault
    exact ⟨fun follow => (h.resolve_down hnames hne follow).trans (if_pos hnul), by simp⟩
  next hnul =>
  split at hfault
  · next hlong =>
    obtain rfl := Option.some.inj hfault
    exact ⟨fun follow => (h.resolve_down hnames hne follow).trans ((if_neg hnul).trans (if_pos hlong)),
      by simp⟩
  · exact absurd hfault (by simp)

/-- **Making directories again** below a directory without links comes to the same and changes nothing. -/
theorem Plain.makeDirectories_again {outcome : Except Fault Unit} (h : disk.Plain path links here)
    (hnames : ∀ n ∈ names, Path.IsOrdinary n) (hne : names ≠ [])
    (hlength : ∀ n ∈ names, n.utf8ByteSize ≤ maxName)
    (hmake : (makeDirectories (path.down names)).run disk = (outcome, made)) (hadds : made.Adds places later) :
    (makeDirectories (path.down names)).run later = (outcome, later) := by
  have htext := Path.text_down_ne h.leads.text_ne hnames
  cases outcome with
  | ok => exact Disk.makeDirectories_again h.current htext hmake hadds.grows
  | error fault =>
    have hgrows := (grows_makeDirectories h.current hmake).trans hadds.grows
    have hlater := h.leads.of_grows hgrows
    cases hdown : downFault path names with
    | some fault' =>
      obtain ⟨hresolve, hne'⟩ := h.leads.resolve_down_of_downFault hnames hne hlength hdown
      rw [makeDirectories_run_of_resolve htext hresolve hne'] at hmake
      obtain ⟨hfault, -⟩ := Prod.mk.inj hmake
      obtain rfl := Except.error.inj hfault
      obtain ⟨hresolve', -⟩ := hlater.resolve_down_of_downFault hnames hne hlength hdown
      exact makeDirectories_run_of_resolve htext hresolve' hne'
    | none =>
      obtain ⟨front, hway⟩ := h.leads.wayBy_down hnames hne hdown fun below _ => h.noLink below
      rcases hway.makeDirectories_cases with ⟨root', hok, -⟩ |
        ⟨init, m, rest, es, bytes, executable, rfl, hes, hfile, hstop⟩
      · rw [hok] at hmake
        exact absurd (Prod.mk.inj hmake).1 (by simp)
      · rw [hstop] at hmake
        obtain ⟨hfault, rfl⟩ := Prod.mk.inj hmake
        -- The file that has stopped the directories is still there.
        obtain ⟨es', hes'⟩ := hgrows.1.directory _ es hes
        obtain ⟨bytes', executable', hfile'⟩ := hadds.stays _ ⟨bytes, executable, hfile⟩
        obtain ⟨front', hway'⟩ := hlater.wayBy_down hnames hne hdown fun below _ target hat =>
          h.noLink below target ((hgrows.1.link _ _).1 hat)
        rw [← hfault]
        exact hway'.makeFirst_run_of_file hes' hfile'

/-! ## Files of a directory -/

/-- What cannot be resolved is not written and not read. -/
theorem write_run_of_resolve (hresolve : disk.resolve true path = .error fault) :
    (write path bytes).run disk = (.error fault, disk) ∧ ∀ old, disk.read path ≠ .ok old := by
  refine ⟨by rw [write_run, hresolve], fun old hold => ?_⟩
  rw [read, Disk.node, hresolve] at hold
  exact absurd hold (by simp [bind, Except.bind])

/-- Neither is a directory. -/
theorem write_run_of_directory {es : List (String × Node)}
    (hresolve : disk.resolve true path = .ok (.found place (.directory es))) :
    (write path bytes).run disk = (.error .isDirectory, disk) ∧ ∀ old, disk.read path ≠ .ok old := by
  refine ⟨by rw [write_run, hresolve], fun old hold => ?_⟩
  rw [read, node_eq_ok_iff.2 ⟨place, hresolve⟩] at hold
  exact absurd hold (by simp [bind, Except.bind, throw, throwThe, MonadExceptOf.throw])

/-- **A file of a directory that could not be written** cannot be written later either. -/
theorem LeadsTo.write_again (h : disk.LeadsTo path links place) (hname : Path.IsOrdinary name)
    (hlink : ∀ target, disk.root.at? (place ++ [name]) ≠ some (.link target))
    (hwrite : (write (path.child name) bytes).run disk = (.error fault, after)) (hgrows : disk.Grows later) :
    (write (path.child name) bytes).run later = (.error fault, later) ∧
      ∀ old, later.read (path.child name) ≠ .ok old := by
  have hlater : { disk with root := later.root } = later := by
    rw [← hgrows.2]
  rcases h.child_cases hname hlink with ⟨front, hway⟩ | ⟨fault', hfault⟩
  · have hway' := hlater ▸ hway.grows hgrows.1
    rw [write_run, hway.resolve_child] at hwrite
    cases hat : disk.root.at? (place ++ [name]) with
    | none =>
      rw [hat] at hwrite
      exact absurd (Prod.mk.inj hwrite).1 (by simp)
    | some node =>
      rw [hat] at hwrite
      cases node with
      | file old executable => exact absurd (Prod.mk.inj hwrite).1 (by simp)
      | link target => exact absurd hat (hlink target)
      | directory es =>
        -- Only a directory stops a write, and it stays.
        obtain ⟨es', hes'⟩ := hgrows.1.directory _ es hat
        obtain rfl := Except.error.inj (Prod.mk.inj hwrite).1
        apply write_run_of_directory
        rw [hway'.resolve_child, hes']
  · have hresolve : disk.resolve true (path.child name) = .error fault' := hfault disk.root true (.refl _)
    obtain ⟨heq, -⟩ := Prod.mk.inj (hwrite.symm.trans (write_run_of_resolve hresolve).1)
    obtain rfl := Except.error.inj heq
    exact write_run_of_resolve (hlater ▸ hfault later.root true hgrows.1)

/-- What has two dots for its name is never written. -/
theorem LeadsTo.write_up_again (h : disk.LeadsTo path links place) (bytes : Bytes) :
    ∃ fault, ∀ later : Disk, disk.Grows later →
      (write (path.child "..") bytes).run later = (.error fault, later) ∧
        ∀ old, later.read (path.child "..") ≠ .ok old := by
  have hresolve : ∀ later : Disk, disk.Grows later → later.resolve true (path.child "..") = _ :=
    fun later hgrows => (h.of_grows hgrows).resolve_join Path.isStep_parent.isAbsolute_eq true
  by_cases hnul : ((path.child "..").text.toList.any fun c => c.toNat == 0) = true
  · exact ⟨.nul, fun later hgrows => write_run_of_resolve ((hresolve later hgrows).trans (if_pos hnul))⟩
  by_cases hlong : maxPath < (path.child "..").text.utf8ByteSize
  · exact ⟨.nameTooLong, fun later hgrows =>
      write_run_of_resolve ((hresolve later hgrows).trans ((if_neg hnul).trans (if_pos hlong)))⟩
  -- The path can be resolved, and then it leads to the directory above.
  refine ⟨.isDirectory, fun later hgrows => ?_⟩
  obtain ⟨es, hes⟩ := exists_directory_dropLast (h.of_grows hgrows).directory
  apply write_run_of_directory
  refine (hresolve later hgrows).trans ((if_neg hnul).trans ((if_neg hlong).trans ?_))
  rw [Path.isStep_parent.segments_eq, List.map_singleton, String.ofList_toList, walkFrom_cons_up, walkFrom_nil,
    hes]
  rfl

/-- **A file of a directory that is written again** holds its bytes, or it fails as it has failed. -/
theorem LeadsTo.writeIfChanged_again (h : disk.LeadsTo path links place) (hcurrent : disk.HasCurrent)
    (hname : Path.IsOrdinary name)
    (hlink : ∀ target, disk.root.at? (place ++ [name]) ≠ some (.link target))
    (hrun : (writeIfChanged (path.child name) bytes).run disk = (outcome, after))
    (hadds : after.Adds places later) (hplace : ¬ places (place ++ [name])) :
    (writeIfChanged (path.child name) bytes).run later = (outcome.map fun _ => false, later) := by
  obtain ⟨hchanged, ⟨⟨changed, rfl⟩, hread⟩ | ⟨⟨fault, rfl⟩, rfl⟩⟩ :=
    h.writeIfChanged_child hcurrent hname hlink hrun
  · -- The file holds its bytes, so it is not written.
    have hafter := h.of_grows hchanged.grows
    have hlinkAfter : ∀ target, after.root.at? (place ++ [name]) ≠ some (.link target) :=
      fun target hat => hlink target ((hchanged.grows.1.link _ _).1 hat)
    have heq : { after with root := later.root } = later := by
      rw [← hadds.grows.2]
    rcases hafter.child_cases hname hlinkAfter with ⟨front, hway⟩ | ⟨fault, hfault⟩
    · obtain ⟨executable, hfile⟩ := hway.read_iff.1 hread
      have hway' := heq ▸ hway.grows hadds.grows.1
      apply writeIfChanged_run_of_read
      exact hway'.read_iff.2 ⟨executable, (hadds.aside _ hplace bytes executable).2 hfile⟩
    · rw [read, Disk.node, show after.resolve true (path.child name) = _ from hfault _ true (.refl _)] at hread
      exact absurd hread (by simp [bind, Except.bind])
  · -- The write has failed, and it fails again for the same reason.
    by_cases hread : after.read (path.child name) = .ok bytes
    · rw [writeIfChanged_run_of_read hread] at hrun
      exact absurd (Prod.mk.inj hrun).1 (by simp)
    rw [h.writeIfChanged_child_run hcurrent hname.isStep hread, run_bind] at hrun
    rcases hwrite : (write (path.child name) bytes).run after with ⟨fault' | ⟨⟩, between⟩
    · rw [hwrite] at hrun
      obtain ⟨hfault, -⟩ := Prod.mk.inj hrun
      obtain rfl := Except.error.inj hfault
      obtain ⟨hagain, hnever⟩ := h.write_again hname hlink hwrite hadds.grows
      rw [(h.of_grows hadds.grows).writeIfChanged_child_run (hcurrent.grows hadds.grows) hname.isStep
        (hnever bytes), run_bind, hagain]
      rfl
    · rw [hwrite] at hrun
      exact absurd (Prod.mk.inj hrun).1 (by simp)

theorem LeadsTo.writeIfChanged_up_again (h : disk.LeadsTo path links place) (hcurrent : disk.HasCurrent)
    (hrun : (writeIfChanged (path.child "..") bytes).run disk = (outcome, after)) (hgrows : disk.Grows later) :
    (writeIfChanged (path.child "..") bytes).run later = (outcome.map fun _ => false, later) := by
  obtain ⟨fault, hfault⟩ := h.write_up_again bytes
  have hall : ∀ later, disk.Grows later →
      (writeIfChanged (path.child "..") bytes).run later = (.error fault, later) := by
    intro later hgrows
    obtain ⟨hwrite, hnever⟩ := hfault later hgrows
    rw [(h.of_grows hgrows).writeIfChanged_child_run (hcurrent.grows hgrows) Path.isStep_parent (hnever bytes),
      run_bind, hwrite]
  obtain ⟨rfl, -⟩ := Prod.mk.inj (hrun.symm.trans (hall disk (.refl _)))
  exact hall later hgrows

/-! ## Files below a directory without links -/

namespace Plain

/-- A file is read after some additions as before, if none of them is at its place. -/
theorem read_iff_of_adds (h : disk.Plain path links here) (hinit : ∀ n ∈ init, Path.IsOrdinary n)
    (hname : Path.IsOrdinary name ∨ name = "..") (hadds : disk.Adds places after)
    (hproper : after.root.IsProper) (hplace : ¬ places (here ++ (init ++ [name]))) :
    after.read ((path.down init).child name) = .ok bytes ↔ disk.read ((path.down init).child name) = .ok bytes := by
  have hafter := h.of_grows hadds.grows hproper
  rcases hname with hname | rfl
  · have hnames := Path.forall_isOrdinary_concat hinit hname
    rw [← Path.down_concat]
    constructor
    · intro hread
      obtain ⟨hfault, executable, hat⟩ :=
        hafter.leads.at?_of_read hnames (by simp) (fun below _ => hafter.noLink below) hread
      exact h.leads.read_of_at? hnames (by simp) hfault ((hadds.aside _ hplace bytes executable).1 hat)
    · intro hread
      obtain ⟨hfault, executable, hat⟩ :=
        h.leads.at?_of_read hnames (by simp) (fun below _ => h.noLink below) hread
      exact hafter.leads.read_of_at? hnames (by simp) hfault ((hadds.aside _ hplace bytes executable).2 hat)
  · rw [← Path.join_ofNames_concat h.leads.text_ne hinit Path.isStep_parent]
    exact iff_of_false (hafter.read_up_ne hinit) (h.read_up_ne hinit)

/-- At most the file at the place of a name is written. -/
theorem adds_writeIfChanged (h : disk.Plain path links here) (hinit : ∀ n ∈ init, Path.IsOrdinary n)
    (hname : Path.IsOrdinary name ∨ name = "..")
    (hrun : (writeIfChanged ((path.down init).child name) bytes).run disk = (outcome, after)) :
    disk.Adds (· = here ++ (init ++ [name])) after := by
  rcases hname with hname | rfl
  · have hnames := Path.forall_isOrdinary_concat hinit hname
    rw [← Path.down_concat] at hrun
    exact (h.writeIfChanged_down hnames (by simp) hrun).1
  · rw [← Path.join_ofNames_concat h.leads.text_ne hinit Path.isStep_parent] at hrun
    exact (h.writeIfChanged_up hinit hrun).1.mono fun _ hfalse => hfalse.elim

/-- A file is written again in a directory that is there, as it was written when the directory was. -/
theorem writeIfChanged_child_again (h : disk.Plain path links here) (hinit : ∀ n ∈ init, Path.IsOrdinary n)
    (hname : Path.IsOrdinary name ∨ name = "..") (hleads : disk.LeadsTo (path.down init) links (here ++ init))
    (hrun : (writeIfChanged ((path.down init).child name) bytes).run disk = (outcome, after))
    (hadds : after.Adds places later) (hplace : ¬ places (here ++ (init ++ [name]))) :
    (writeIfChanged ((path.down init).child name) bytes).run later = (outcome.map fun _ => false, later) := by
  have hadded := h.adds_writeIfChanged hinit hname hrun
  rw [← List.append_assoc] at hplace
  rcases hname with hname | rfl
  · refine hleads.writeIfChanged_again h.current hname (fun target => ?_) hrun hadds hplace
    rw [List.append_assoc]
    exact h.noLink _ target
  · exact hleads.writeIfChanged_up_again h.current hrun (hadded.grows.trans hadds.grows)

/-- **Writing a file again** below a directory without links writes nothing: it holds its bytes, or the
directories on the way cannot be made, or the file cannot be written, for the reason that there was. -/
theorem writeIfChanged_again (h : disk.Plain path links here) (hinit : ∀ n ∈ init, Path.IsOrdinary n)
    (hlength : ∀ n ∈ init, n.utf8ByteSize ≤ maxName) (hname : Path.IsOrdinary name ∨ name = "..")
    (hrun : (writeIfChanged ((path.down init).child name) bytes).run disk = (outcome, after))
    (hadds : after.Adds places later) (hproper : later.root.IsProper)
    (hplace : ¬ places (here ++ (init ++ [name]))) :
    (writeIfChanged ((path.down init).child name) bytes).run later = (outcome.map fun _ => false, later) := by
  by_cases hne : init = []
  · subst hne
    refine h.writeIfChanged_child_again hinit hname ?_ hrun hadds hplace
    rw [List.append_nil]
    exact h.leads
  have hstep : Path.IsStep name := by
    rcases hname with hname | rfl
    · exact hname.isStep
    · exact Path.isStep_parent
  have hparent := Path.parent?_child_down h.leads.text_ne hinit hne hstep
  by_cases hread : disk.read ((path.down init).child name) = .ok bytes
  · rw [writeIfChanged_run_of_read hread] at hrun
    obtain ⟨rfl, rfl⟩ := Prod.mk.inj hrun
    exact writeIfChanged_run_of_read ((h.read_iff_of_adds hinit hname hadds hproper hplace).2 hread)
  rw [writeIfChanged_run_of_ne hread hparent, run_bind] at hrun
  rcases hmake : (makeDirectories (path.down init)).run disk with ⟨fault | ⟨⟩, made⟩
  · -- The directories cannot be made, and later they cannot either.
    rw [hmake] at hrun
    obtain ⟨rfl, rfl⟩ := Prod.mk.inj hrun
    have hmade : disk.Adds places made := (adds_makeDirectories h.current hmake).mono fun _ hfalse => hfalse.elim
    have hnot : later.read ((path.down init).child name) ≠ .ok bytes := fun hlater =>
      hread ((h.read_iff_of_adds hinit hname (hmade.trans hadds) hproper hplace).1 hlater)
    rw [writeIfChanged_run_of_ne hnot hparent, run_bind, h.makeDirectories_again hinit hne hlength hmake hadds]
    rfl
  · -- Once they are made, the write starts where the later one does.
    rw [hmake] at hrun
    dsimp only at hrun
    have hmade := adds_makeDirectories h.current hmake
    have hproper' := isProper_makeDirectories h.current h.proper hmake
    have hnot : made.read ((path.down init).child name) ≠ .ok bytes := fun hlater =>
      hread ((h.read_iff_of_adds hinit hname hmade hproper' not_false).1 hlater)
    obtain ⟨-, hleads⟩ := h.leads.madeDown h.current hinit hne hlength (fun below _ => h.noLink below) hmake
    have hstart := h.of_grows hmade.grows hproper'
    refine hstart.writeIfChanged_child_again hinit hname hleads ?_ hadds hplace
    rw [hleads.writeIfChanged_child_run hstart.current hstep hnot]
    exact hrun

end Plain

end Again

end Disk

end MailTemplate
