import MailTemplate.Proofs.DiskWays
import MailTemplate.Proofs.OutputClaims

/-!
# Building in another order

The templates of a plan are processed one by one, and what one of them writes is on the disk when the
next one is read.  If every template that claims a place has a source and a way to a place of its own,
and no place is on the way to another one or is the source of another template, then nothing depends on
the order: every order gives the same documents and the same disk, and every document is in the file it
was written to.

That the paths of a plan differ does not make their places apart.  A path can be on the way to another
one, and a link can lead two paths to one place.

## Main definitions

* `Build.Draft` — what a template comes to before anything is written.
* `Build.Site`, `Build.Apart` — where the templates of a plan are read and written.
* `Build.runInOrder` — a build that processes the templates in another order.

## Main results

* `Build.compileOne_run` — a template that has a way to its place writes there and nowhere else.
* `Build.compileOne_comm`, `Build.mapM_processNumbered_of_perm` — two templates at sites apart are
  processed in any order, and so are all templates of a plan.
* `Build.order_irrelevant_of_apart` — a build ends in the same way in every order.
* `Build.places_meet` — two projects whose paths differ and whose places do not.
-/

namespace MailTemplate

namespace Build

/-! ## Drafts -/

/-- What a template comes to when its source is read: what is to be written, if anything, and the
document, which depends on how the writing fails. -/
structure Draft where
  /-- The bytes of the document. -/
  bytes? : Option Bytes
  /-- What becomes of the template. -/
  document : Option Disk.Fault → Option CompiledDocument

/-- The draft of a template from what is read at its source. -/
def draft (root : Path) (compiler : Compiler) (planned : PlannedOutput) :
    Except Disk.Fault String → Draft
  | .error fault =>
    ⟨none, fun _ => some (failure planned [] ("cannot read source: " ++ fault.message))⟩
  | .ok text =>
    let file := root.join planned.source
    match compiler text file (file.parent?.getD root) with
    | .crashed => ⟨none, fun _ => none⟩
    | .failed fault => ⟨none, fun _ => some (failure planned [] fault.message)⟩
    | .compiled output =>
      ⟨some (Bytes.ofString output.html), fun fault? =>
        match fault? with
        | some fault =>
          some (failure planned output.warnings ("cannot write output: " ++ fault.message))
        | none => some ⟨planned.source, planned.output, output.warnings, .compiled output.html⟩⟩

/-- What becomes of a draft and of the tree it is written into. -/
def Draft.written (draft : Draft) (place : List String) (tree : Node) :
    Option CompiledDocument × Node :=
  match draft.bytes? with
  | none => (draft.document none, tree)
  | some bytes => (draft.document (tree.updated bytes place).2, (tree.updated bytes place).1)

section Written

variable {a b : Draft} {place place' names : List String} {tree : Node}

/-- A draft is not written, or the tree is updated. -/
theorem Draft.written_eq_or (a : Draft) (place : List String) (tree : Node) :
    (a.written place tree).2 = tree ∨
      ∃ bytes, (a.written place tree).2 = (tree.updated bytes place).1 := by
  unfold written
  split
  · exact .inl rfl
  · next bytes _ => exact .inr ⟨bytes, rfl⟩

theorem Draft.grows_written : tree.Grows (a.written place tree).2 := by
  rcases a.written_eq_or place tree with heq | ⟨bytes, heq⟩
  · rw [heq]
    exact .refl tree
  · rw [heq]
    exact Node.grows_updated

theorem Draft.at?_written_of_file {bytes : Bytes} {executable : Bool}
    (h : tree.at? names = some (.file bytes executable)) (hne : names ≠ place) :
    (a.written place tree).2.at? names = some (.file bytes executable) := by
  rcases a.written_eq_or place tree with heq | ⟨bytes', heq⟩
  · rw [heq, h]
  · rw [heq]
    exact Node.at?_updated_of_file h hne

/-- **Drafts are written in any order** at places apart. -/
theorem Draft.written_comm (h : ¬ place <+: place') (h' : ¬ place' <+: place) :
    (b.written place' (a.written place tree).2).1 = (b.written place' tree).1 ∧
      (b.written place' (a.written place tree).2).2 =
        (a.written place (b.written place' tree).2).2 := by
  cases ha : a.bytes? with
  | none => simp [written, ha]
  | some bytes =>
    cases hb : b.bytes? with
    | none => simp [written, ha, hb]
    | some bytes' =>
      obtain ⟨hfault, htree⟩ := @Node.updated_comm bytes bytes' place place' tree h h'
      simp only [written, ha, hb]
      exact ⟨congrArg b.document hfault, htree⟩

/-- A draft that becomes a compiled document is at its place then. -/
theorem holds_of_written_draft {root : Path} {compiler : Compiler} {planned : PlannedOutput}
    {read : Except Disk.Fault String} {document : CompiledDocument} {html : String}
    (hdocument : ((draft root compiler planned read).written place tree).1 = some document)
    (hcompiled : document.outcome = .compiled html) : document.output = planned.output ∧
      ((draft root compiler planned read).written place tree).2.holds (Bytes.ofString html) place =
        true := by
  have hfailed : ∀ warnings error, some (failure planned warnings error) ≠ some document := by
    rintro warnings error heq
    obtain rfl := Option.some.inj heq
    exact Outcome.noConfusion hcompiled
  cases read with
  | error fault => exact absurd hdocument (hfailed _ _)
  | ok text =>
    dsimp only [draft] at hdocument ⊢
    cases hcompiler : compiler text (root.join planned.source)
        ((root.join planned.source).parent?.getD root) with
    | crashed =>
      rw [hcompiler] at hdocument
      exact absurd hdocument (by simp [Draft.written])
    | failed fault =>
      rw [hcompiler] at hdocument
      exact absurd hdocument (hfailed _ _)
    | compiled output =>
      rw [hcompiler] at hdocument
      dsimp only [Draft.written] at hdocument ⊢
      cases hfault : (tree.updated (Bytes.ofString output.html) place).2 with
      | some fault =>
        rw [hfault] at hdocument
        exact absurd hdocument (hfailed _ _)
      | none =>
        rw [hfault] at hdocument
        obtain rfl := Option.some.inj hdocument
        obtain rfl := Outcome.compiled.inj hcompiled
        exact ⟨rfl, Node.holds_updated hfault⟩

end Written

/-! ## Sites -/

/-- Where a template is read and where its document is written. -/
structure Site where
  /-- The place of the template. -/
  source : List String
  /-- The place of its document. -/
  place : List String

/-- Neither template is read where the other one is written, and neither is written on the way to the
other one. -/
structure Site.Apart (s t : Site) : Prop where
  /-- The first place is not on the way to the second. -/
  below : ¬ s.place <+: t.place
  /-- The second place is not on the way to the first. -/
  above : ¬ t.place <+: s.place
  /-- The first template is not at the second place. -/
  source_ne : s.source ≠ t.place
  /-- The second template is not at the first place. -/
  ne_source : t.source ≠ s.place

theorem Site.Apart.symm {s t : Site} (h : s.Apart t) : t.Apart s :=
  ⟨h.above, h.below, h.ne_source, h.source_ne⟩

/-- The source of a template leads to a file, and the template has a way to the place of its
document. -/
structure Sited (disk : Disk) (root : Path) (planned : PlannedOutput) (site : Site) : Prop where
  /-- The file is there. -/
  source : ∃ bytes executable,
    disk.resolve true (root.join planned.source) = .ok (.found site.source (.file bytes executable))
  /-- The way leads to the place. -/
  output : disk.Way (root.join planned.output) site.place

/-- Every template that claims a place has a site, and the sites of any two of them are apart. -/
structure SitedApart (site : PlannedOutput → Site) (disk : Disk) (root : Path)
    (plan : List PlannedOutput) : Prop where
  /-- The templates are at their sites. -/
  sited : ∀ p ∈ plan, p.isClaimant = true → Sited disk root p (site p)
  /-- These are apart. -/
  apart : plan.Pairwise fun p q =>
    p.isClaimant = true → q.isClaimant = true → (site p).Apart (site q)

/-- The templates of a plan are read and written at sites apart. -/
def Apart (disk : Disk) (root : Path) (plan : List PlannedOutput) : Prop :=
  ∃ site, SitedApart site disk root plan

/-! ## One template -/

section Template

variable {disk : Disk} {root : Path} {planned p q : PlannedOutput}
  {place : List String}

/-- **A template that has a way to its place** writes its draft there and nowhere else. -/
theorem compileOne_run (compiler : Compiler) (hclaimant : planned.isClaimant = true)
    (hway : disk.Way (root.join planned.output) place) :
    (compileOne root compiler planned).run disk =
      let written := (draft root compiler planned (disk.readText (root.join planned.source))).written
        place disk.root
      (written.1, { disk with root := written.2 }) := by
  have hcollides : planned.collidesWith = none := Option.isNone_iff_eq_none.1 hclaimant
  have hrun : (compileOne root compiler planned).run disk =
      (complete root compiler (prepare disk root planned)).run disk := rfl
  rw [hrun, prepare, hcollides]
  dsimp only
  cases disk.readText (root.join planned.source) with
  | error fault => rfl
  | ok text =>
    dsimp only [complete, draft]
    cases compiler text (root.join planned.source) ((root.join planned.source).parent?.getD root) with
    | crashed => rfl
    | failed fault => rfl
    | compiled output =>
      obtain ⟨changed, hwrite⟩ := hway.writeIfChanged_run (Bytes.ofString output.html)
      simp only [Draft.written, StateT.run, bind, StateT.bind]
      rw [hwrite]
      cases (disk.root.updated (Bytes.ofString output.html) place).2 <;> rfl

variable {s t : Site}

/-- **What one template does to a disk:** the tree grows, and all other files stay. -/
theorem exists_compileOne_run (h : p.isClaimant = true → Sited disk root p s) (compiler : Compiler) :
    ∃ tree, ((compileOne root compiler p).run disk).2 = { disk with root := tree } ∧
      disk.root.Grows tree ∧ ∀ names bytes executable,
        disk.root.at? names = some (.file bytes executable) →
          (p.isClaimant = true → names ≠ s.place) → tree.at? names = some (.file bytes executable) := by
  cases hcollides : p.collidesWith with
  | some first =>
    rw [compileOne_collided hcollides]
    exact ⟨disk.root, rfl, .refl _, fun _ _ _ hfile _ => hfile⟩
  | none =>
    have hclaimant : p.isClaimant = true := Option.isNone_iff_eq_none.2 hcollides
    rw [compileOne_run compiler hclaimant (h hclaimant).output]
    exact ⟨_, rfl, Draft.grows_written, fun names bytes executable hfile hne =>
      Draft.at?_written_of_file hfile (hne hclaimant)⟩

/-- A template that is compiled has its document at its place. -/
theorem holds_of_compiled {compiler : Compiler} {document : CompiledDocument} {html : String}
    (h : p.isClaimant = true → Sited disk root p s)
    (hdocument : ((compileOne root compiler p).run disk).1 = some document)
    (hcompiled : document.outcome = .compiled html) :
    p.isClaimant = true ∧ document.output = p.output ∧
      ((compileOne root compiler p).run disk).2.root.holds (Bytes.ofString html) s.place = true := by
  cases hcollides : p.collidesWith with
  | some first =>
    rw [compileOne_collided hcollides] at hdocument
    obtain rfl := Option.some.inj hdocument
    exact Outcome.noConfusion hcompiled
  | none =>
    have hclaims : p.isClaimant = true := Option.isNone_iff_eq_none.2 hcollides
    rw [compileOne_run compiler hclaims (h hclaims).output] at hdocument ⊢
    exact ⟨hclaims, holds_of_written_draft hdocument hcompiled⟩

/-- **Another template stays at its site,** and is read as before. -/
theorem Sited.compileOne (compiler : Compiler) (hp : p.isClaimant = true → Sited disk root p s)
    (hq : Sited disk root q t) (hne : p.isClaimant = true → t.source ≠ s.place) :
    Sited ((compileOne root compiler p).run disk).2 root q t ∧
      ((compileOne root compiler p).run disk).2.readText (root.join q.source) =
        disk.readText (root.join q.source) := by
  obtain ⟨tree, hafter, hgrows, hstays⟩ := exists_compileOne_run hp compiler
  obtain ⟨⟨bytes, executable, hsource⟩, hway⟩ := hq
  have hsource' := Disk.resolve_of_grows hgrows
    (hstays _ _ _ (Disk.at?_of_resolve hsource) hne) hsource
  rw [hafter]
  refine ⟨⟨⟨bytes, executable, hsource'⟩, hway.grows hgrows⟩, ?_⟩
  rw [Disk.readText_of_resolve hsource', Disk.readText_of_resolve hsource]

/-- **Two templates are processed in any order** if their sites are apart. -/
theorem compileOne_comm (compiler : Compiler) (hp : p.isClaimant = true → Sited disk root p s)
    (hq : q.isClaimant = true → Sited disk root q t)
    (hapart : p.isClaimant = true → q.isClaimant = true → s.Apart t) :
    let first := (compileOne root compiler p).run disk
    ((compileOne root compiler q).run first.2).1 = ((compileOne root compiler q).run disk).1 ∧
      ((compileOne root compiler q).run first.2).2 =
        ((compileOne root compiler p).run ((compileOne root compiler q).run disk).2).2 := by
  dsimp only
  cases hcollides : p.collidesWith with
  | some first => simp only [compileOne_collided hcollides, true_and]
  | none =>
    have hclaims : p.isClaimant = true := Option.isNone_iff_eq_none.2 hcollides
    cases hcollides' : q.collidesWith with
    | some first => simp only [compileOne_collided hcollides', true_and]
    | none =>
      have hclaims' : q.isClaimant = true := Option.isNone_iff_eq_none.2 hcollides'
      have hsites := hapart hclaims hclaims'
      -- Each of them is read and written after the other one as it is before.
      obtain ⟨hq', hread⟩ := Sited.compileOne compiler hp (hq hclaims') fun _ => hsites.ne_source
      obtain ⟨hp', hread'⟩ := Sited.compileOne compiler hq (hp hclaims) fun _ => hsites.source_ne
      have hrun := compileOne_run compiler hclaims (hp hclaims).output
      have hrun' := compileOne_run compiler hclaims' (hq hclaims').output
      obtain ⟨hdocument, htree⟩ := @Draft.written_comm
        (draft root compiler p (disk.readText (root.join p.source)))
        (draft root compiler q (disk.readText (root.join q.source))) s.place t.place disk.root
        hsites.below hsites.above
      rw [compileOne_run compiler hclaims' hq'.output, compileOne_run compiler hclaims hp'.output,
        hread, hread', hrun, hrun']
      exact ⟨hdocument, congrArg (fun tree => ({ disk with root := tree } : Disk)) htree⟩

theorem SitedApart.compileOne {site : PlannedOutput → Site} {plan : List PlannedOutput}
    (h : SitedApart site disk root (p :: plan)) (compiler : Compiler) :
    SitedApart site ((compileOne root compiler p).run disk).2 root plan := by
  obtain ⟨hapart, hpairwise⟩ := List.pairwise_cons.1 h.apart
  refine ⟨fun q hq hclaims => ?_, hpairwise⟩
  have hq' := h.sited q (List.mem_cons_of_mem p hq) hclaims
  exact (Sited.compileOne compiler (h.sited p List.mem_cons_self) hq'
    fun hclaims' => (hapart q hq hclaims' hclaims).ne_source).1

theorem SitedApart.perm {site : PlannedOutput → Site} {plan plan' : List PlannedOutput}
    (h : SitedApart site disk root plan) (hperm : plan.Perm plan') :
    SitedApart site disk root plan' := by
  refine ⟨fun p hp => h.sited p (hperm.mem_iff.2 hp), h.apart.perm hperm fun hpq hq hp => ?_⟩
  exact (hpq hp hq).symm

end Template

/-! ## All templates -/

/-- Processes a template and keeps its number. -/
def processNumbered (root : Path) (compiler : Compiler) (numbered : PlannedOutput × Nat) :
    StateM Disk (Nat × Option CompiledDocument) := do
  return (numbered.2, ← compileOne root compiler numbered.1)

/-- Builds a project as `run` does, but processes the templates in another order.  The documents are put
in the order of the plan. -/
def runInOrder (arrange : List (PlannedOutput × Nat) → List (PlannedOutput × Nat)) (root : Path)
    (settings : Settings) (compiler : Compiler) (elapsed : Nat) : StateM Disk Result := do
  match ← start root settings with
  | .error fault => return .failed fault
  | .ok plan =>
    let done ← (arrange plan.zipIdx).mapM (processNumbered root compiler)
    return conclude elapsed ((List.range plan.length).map fun i => (done.lookup i).join)

section Order

variable {site : PlannedOutput → Site} {disk : Disk} {root : Path} {plan : List PlannedOutput}
  {entries entries' : List (PlannedOutput × Nat)}

theorem processNumbered_run (root : Path) (compiler : Compiler) (numbered : PlannedOutput × Nat)
    (disk : Disk) : (processNumbered root compiler numbered).run disk =
      ((numbered.2, ((compileOne root compiler numbered.1).run disk).1),
        ((compileOne root compiler numbered.1).run disk).2) := rfl

/-- **The order of the templates does not matter** if their sites are apart: the disk is the same, and
so is what becomes of every template. -/
theorem mapM_processNumbered_of_perm (compiler : Compiler) (hperm : entries.Perm entries')
    (h : SitedApart site disk root (entries.map Prod.fst)) :
    let ended := (entries.mapM (processNumbered root compiler)).run disk
    let ended' := (entries'.mapM (processNumbered root compiler)).run disk
    ended.1.Perm ended'.1 ∧ ended.2 = ended'.2 := by
  dsimp only
  -- The induction is on how the order changes: a template leaves those behind it at their sites, and two
  -- that change places commute.
  induction hperm generalizing disk with
  | nil => exact ⟨.refl _, rfl⟩
  | cons e hperm ih =>
    rw [run_mapM_cons, run_mapM_cons]
    obtain ⟨hdocuments, hdisk⟩ := ih (h.compileOne compiler)
    exact ⟨hdocuments.cons _, hdisk⟩
  | swap e e' entries =>
    obtain ⟨hpairs, -⟩ := List.pairwise_cons.1 h.apart
    have hapart := hpairs _ List.mem_cons_self
    have hp := h.sited e'.1 List.mem_cons_self
    have hq := h.sited e.1 (List.mem_cons_of_mem _ List.mem_cons_self)
    obtain ⟨hdocument, hdisk⟩ := compileOne_comm compiler hp hq hapart
    obtain ⟨hdocument', -⟩ := compileOne_comm compiler hq hp fun hclaims hclaims' =>
      (hapart hclaims' hclaims).symm
    simp only [run_mapM_cons, processNumbered_run]
    rw [hdocument, hdocument', hdisk]
    exact ⟨.swap _ _ _, rfl⟩
  | trans hfirst hmore ih ih' =>
    obtain ⟨hdocuments, hdisk⟩ := ih h
    obtain ⟨hdocuments', hdisk'⟩ := ih' (h.perm (hfirst.map Prod.fst))
    exact ⟨hdocuments.trans hdocuments', hdisk.trans hdisk'⟩

/-- The numbered templates in the order of the plan. -/
theorem mapM_processNumbered_zipIdx (root : Path) (compiler : Compiler) (plan : List PlannedOutput)
    (i : Nat) (disk : Disk) : ((plan.zipIdx i).mapM (processNumbered root compiler)).run disk =
      ((((plan.mapM (compileOne root compiler)).run disk).1.zipIdx i).map Prod.swap,
        ((plan.mapM (compileOne root compiler)).run disk).2) := by
  induction plan generalizing i disk with
  | nil => rfl
  | cons p plan ih =>
    rw [List.zipIdx_cons, run_mapM_cons, run_mapM_cons, processNumbered_run, ih]
    rfl

/-- What stands at its number, in any order, is found there. -/
theorem lookup_of_perm {α : Type} {documents : List α} {done : List (Nat × α)}
    (h : done.Perm (documents.zipIdx.map Prod.swap)) (i : Nat) : done.lookup i = documents[i]? := by
  have hmem : ∀ a, (i, a) ∈ done ↔ documents[i]? = some a := by
    intro a
    rw [h.mem_iff, List.mem_map]
    constructor
    · rintro ⟨⟨b, j⟩, hb, heq⟩
      obtain ⟨rfl, rfl⟩ := Prod.mk.inj heq
      exact List.mem_zipIdx_iff_getElem?.1 hb
    · intro ha
      exact ⟨(a, i), List.mem_zipIdx_iff_getElem?.2 ha, rfl⟩
  have hfound : ∀ a, done.lookup i = some a → documents[i]? = some a := by
    intro a hlookup
    obtain ⟨before, behind, rfl, -⟩ := List.lookup_eq_some_iff.1 hlookup
    exact (hmem a).1 (by simp)
  cases hlookup : done.lookup i with
  | some a => exact (hfound a hlookup).symm
  | none =>
    symm
    refine Option.eq_none_iff_forall_not_mem.2 fun a ha => ?_
    have hne := List.lookup_eq_none_iff.1 hlookup _ ((hmem a).2 ha)
    simp at hne

/-- **The documents are put in order again.** -/
theorem map_lookup_of_perm {documents : List (Option CompiledDocument)}
    {done : List (Nat × Option CompiledDocument)} (h : done.Perm (documents.zipIdx.map Prod.swap)) :
    ((List.range documents.length).map fun i => (done.lookup i).join) = documents := by
  refine List.ext_getElem (by simp) fun i _ hi => ?_
  rw [List.getElem_map, List.getElem_range, lookup_of_perm h, List.getElem?_eq_getElem hi]
  rfl

/-- A document stays in its file while other templates are processed. -/
theorem read_mapM_compileOne {path : Path} {place : List String} {bytes : Bytes} (compiler : Compiler)
    (h : SitedApart site disk root plan) (hway : disk.Way path place)
    (hholds : disk.root.holds bytes place = true)
    (hne : ∀ q ∈ plan, q.isClaimant = true → place ≠ (site q).place) :
    ((plan.mapM (compileOne root compiler)).run disk).2.read path = .ok bytes := by
  induction plan generalizing disk with
  | nil => exact hway.read_iff.2 hholds
  | cons q plan ih =>
    obtain ⟨hq, hplan⟩ := List.forall_mem_cons.1 hne
    obtain ⟨tree, hafter, hgrows, hstays⟩ :=
      exists_compileOne_run (h.sited q List.mem_cons_self) compiler
    obtain ⟨executable, hfile⟩ := Node.holds_iff.1 hholds
    have hready := h.compileOne compiler
    rw [run_mapM_cons, hafter]
    rw [hafter] at hready
    exact ih hready (hway.grows hgrows) (Node.holds_iff.2 ⟨executable, hstays _ _ _ hfile hq⟩) hplan

/-- **Every document is in the file it was written to.** -/
theorem read_of_compiled {html : String} {document : CompiledDocument} (compiler : Compiler)
    (h : SitedApart site disk root plan)
    (hmem : some document ∈ ((plan.mapM (compileOne root compiler)).run disk).1)
    (hcompiled : document.outcome = .compiled html) :
    ((plan.mapM (compileOne root compiler)).run disk).2.read (root.join document.output) =
      .ok (Bytes.ofString html) := by
  induction plan generalizing disk with
  | nil => exact absurd hmem List.not_mem_nil
  | cons p plan ih =>
    rw [run_mapM_cons] at hmem ⊢
    rcases List.mem_cons.1 hmem with hfirst | hmore
    · have hp := h.sited p List.mem_cons_self
      obtain ⟨hclaims, houtput, hholds⟩ := holds_of_compiled hp hfirst.symm hcompiled
      -- The document is at its place now, and no template behind this one writes there.
      obtain ⟨tree, hafter, hgrows, -⟩ := exists_compileOne_run hp compiler
      have hway := (hp hclaims).output.grows hgrows
      rw [← hafter, ← houtput] at hway
      have hmore := h.compileOne compiler
      refine read_mapM_compileOne compiler hmore hway hholds fun q hq hclaims' heq => ?_
      obtain ⟨hapart, -⟩ := List.pairwise_cons.1 h.apart
      exact (hapart q hq hclaims hclaims').below (heq ▸ List.prefix_refl _)
    · exact ih (h.compileOne compiler) hmore

theorem runInOrder_of_start_eq_ok {settings : Settings} {made : Disk}
    (h : (start root settings).run disk = (.ok plan, made))
    (arrange : List (PlannedOutput × Nat) → List (PlannedOutput × Nat)) (compiler : Compiler)
    (elapsed : Nat) : (runInOrder arrange root settings compiler elapsed).run disk =
      let done := ((arrange plan.zipIdx).mapM (processNumbered root compiler)).run made
      (conclude elapsed ((List.range plan.length).map fun i => (done.1.lookup i).join), done.2) := by
  have hstart : start root settings disk = (.ok plan, made) := h
  simp [runInOrder, StateT.run, bind, StateT.bind, hstart]
  rfl

theorem length_mapM_compileOne (root : Path) (compiler : Compiler) (plan : List PlannedOutput)
    (disk : Disk) : ((plan.mapM (compileOne root compiler)).run disk).1.length = plan.length := by
  induction plan generalizing disk with
  | nil => rfl
  | cons p plan ih => rw [run_mapM_cons, List.length_cons, ih, List.length_cons]

/-- **The order of the templates does not matter** if their sites are apart once the output directory is
made: a build that processes them in any order ends with the same documents and the same disk, and every
document is in the file it was written to. -/
theorem order_irrelevant_of_apart (arrange : List (PlannedOutput × Nat) → List (PlannedOutput × Nat))
    (harrange : ∀ entries, (arrange entries).Perm entries) (root : Path) (settings : Settings)
    (compiler : Compiler) (elapsed : Nat) (disk : Disk)
    (hapart : ∀ plan made, (start root settings).run disk = (.ok plan, made) → Apart made root plan) :
    (runInOrder arrange root settings compiler elapsed).run disk =
      (run root settings compiler elapsed).run disk ∧
    ∀ run final, (Build.run root settings compiler elapsed).run disk = (.done run, final) →
      ∀ document ∈ run.documents, ∀ html, document.outcome = .compiled html →
        final.read (root.join document.output) = .ok (Bytes.ofString html) := by
  cases hstart : (start root settings).run disk with
  | mk outcome made =>
    cases outcome with
    | error fault =>
      have hfailed : start root settings disk = (.error fault, made) := hstart
      have hrun : (Build.run root settings compiler elapsed).run disk = (.failed fault, made) := by
        simp [Build.run, StateT.run, bind, StateT.bind, hfailed]
        rfl
      have hrun' : (runInOrder arrange root settings compiler elapsed).run disk =
          (.failed fault, made) := by
        simp [runInOrder, StateT.run, bind, StateT.bind, hfailed]
        rfl
      rw [hrun, hrun']
      exact ⟨rfl, fun run final hdone => absurd (Prod.mk.inj hdone).1 (by simp)⟩
    | ok plan =>
      obtain ⟨site, hsites⟩ := hapart plan made hstart
      rw [run_of_start_eq_ok hstart, runInOrder_of_start_eq_ok hstart]
      constructor
      · -- The numbered templates of the plan give its documents with their numbers, in every order.
        have hentries : SitedApart site made root ((arrange plan.zipIdx).map Prod.fst) := by
          have hplan := ((harrange plan.zipIdx).map Prod.fst).symm
          rw [List.zipIdx_map_fst] at hplan
          exact hsites.perm hplan
        obtain ⟨hdone, hdisk⟩ := mapM_processNumbered_of_perm compiler (harrange plan.zipIdx) hentries
        rw [mapM_processNumbered_zipIdx] at hdone hdisk
        have hdocuments := map_lookup_of_perm hdone
        rw [length_mapM_compileOne] at hdocuments
        dsimp only
        rw [hdocuments, hdisk]
      · intro run final hrun document hdocument html hcompiled
        obtain ⟨hdone, rfl⟩ := Prod.mk.inj hrun
        refine read_of_compiled compiler hsites ?_ hcompiled
        rw [← map_some_of_conclude hdone]
        exact List.mem_map_of_mem hdocument

end Order

/-! ## Projects -/

/-- A compiler whose documents are the sources. -/
def echo : Compiler := fun source _ _ => .compiled ⟨source, []⟩

/-- The root of a project with two templates. -/
def twins (more : List (String × Node)) : Disk :=
  ⟨.directory ([("a.mjml", .file (Bytes.ofString "one") false),
    ("b.mjml", .file (Bytes.ofString "two") false)] ++ more), []⟩

theorem of_start_twins {plan : List PlannedOutput} {made : Disk}
    (h : (start ⟨"/"⟩ {}).run (twins []) = (.ok plan, made)) :
    plan = [⟨⟨"a.mjml"⟩, ⟨"dist/a.html"⟩, none⟩, ⟨⟨"b.mjml"⟩, ⟨"dist/b.html"⟩, none⟩] ∧
      made = twins [("dist", .directory [])] := by
  have hplan : ((start ⟨"/"⟩ {}).run (twins [])).1.toOption = some
      [⟨⟨"a.mjml"⟩, ⟨"dist/a.html"⟩, none⟩, ⟨⟨"b.mjml"⟩, ⟨"dist/b.html"⟩, none⟩] := by decide +kernel
  have hmake : (Disk.makeDirectories (Layout.ofSettings ⟨"/"⟩ ({} : Settings).paths).output).run
      (twins []) = (.ok (), twins [("dist", .directory [])]) := rfl
  obtain ⟨sources, -, -, hmade⟩ := of_start_eq_ok h
  rw [hmake] at hmade
  rw [h] at hplan
  exact ⟨Option.some.inj hplan, (Prod.mk.inj hmade).2.symm⟩

/-- A path into the output directory has a way to a place in it while the directory is empty. -/
theorem way_twins {path : Path} {name : String} (hname : Disk.IsName name)
    (hnul : (path.text.toList.any fun c => c.toNat == 0) = false)
    (hlength : path.text.utf8ByteSize ≤ Disk.maxPath) (habsolute : path.isAbsolute = true)
    (hsegments : path.segments.map String.ofList = [""] ++ ["dist", name]) :
    (twins [("dist", .directory [])]).Way path ["dist", name] := by
  have hdist : Disk.IsName "dist" := ⟨by decide, by decide, by decide, by decide⟩
  refine ⟨[""], ["dist", name], Disk.maxLinks, [], ⟨hnul, hlength, hsegments, by simp, by simp, ?_,
    ⟨_, rfl⟩, ?_, ?_⟩, rfl⟩
  · rw [if_pos habsolute]
    exact .skip (.inl rfl) (.done _ _)
  · intro s hs
    rcases List.mem_cons.1 hs with rfl | hs
    · exact hdist
    · rw [List.mem_singleton.1 hs]
      exact hname
  · intro below hbelow target hlink
    rcases below with - | ⟨first, below⟩
    · exact absurd hlink (by simp [twins, Node.at?])
    · obtain ⟨rfl, hbelow⟩ := List.cons_prefix_cons.1 hbelow
      rcases below with - | ⟨second, below⟩
      · exact absurd hlink (by simp [twins, Node.at?, Entries.find?])
      · exact absurd hlink (by simp [twins, Node.at?, Entries.find?])

/-- The twins are read and written at sites apart. -/
theorem apart_twins {plan : List PlannedOutput} {made : Disk}
    (h : (start ⟨"/"⟩ {}).run (twins []) = (.ok plan, made)) : Apart made ⟨"/"⟩ plan := by
  obtain ⟨rfl, rfl⟩ := of_start_twins h
  refine ⟨fun p => if p.source = ⟨"a.mjml"⟩ then ⟨["a.mjml"], ["dist", "a.html"]⟩
    else ⟨["b.mjml"], ["dist", "b.html"]⟩, ?_, ?_⟩
  · intro p hp _
    rcases List.mem_cons.1 hp with rfl | hp
    · exact ⟨⟨Bytes.ofString "one", false, rfl⟩, way_twins ⟨by decide, by decide, by decide, by decide⟩
        (by decide) (by decide) (by decide) (by decide)⟩
    · obtain rfl := List.mem_singleton.1 hp
      exact ⟨⟨Bytes.ofString "two", false, rfl⟩, way_twins ⟨by decide, by decide, by decide, by decide⟩
        (by decide) (by decide) (by decide) (by decide)⟩
  · refine List.pairwise_pair.2 fun _ _ => ⟨?_, ?_, ?_, ?_⟩ <;> decide

/-- The documents of the twins. -/
def twinDocuments : List CompiledDocument :=
  [⟨⟨"a.mjml"⟩, ⟨"dist/a.html"⟩, [], .compiled "one"⟩,
    ⟨⟨"b.mjml"⟩, ⟨"dist/b.html"⟩, [], .compiled "two"⟩]

/-- In a project with two templates the second one can be processed first. -/
theorem twins_reversed : ∃ final,
    (runInOrder List.reverse ⟨"/"⟩ {} echo 0).run (twins []) = (.done ⟨twinDocuments, 0⟩, final) ∧
    final.read ⟨"/dist/a.html"⟩ = .ok (Bytes.ofString "one") ∧
    final.read ⟨"/dist/b.html"⟩ = .ok (Bytes.ofString "two") := by
  have hdone : ((run ⟨"/"⟩ {} echo 0).run (twins [])).1 = .done ⟨twinDocuments, 0⟩ := by decide +kernel
  obtain ⟨horder, hread⟩ := order_irrelevant_of_apart List.reverse (fun _ => List.reverse_perm _)
    ⟨"/"⟩ {} echo 0 (twins []) fun _ _ => apart_twins
  rcases hrun : (run ⟨"/"⟩ {} echo 0).run (twins []) with ⟨result, final⟩
  rw [hrun] at hdone
  obtain rfl := hdone
  refine ⟨final, horder.trans hrun, ?_, ?_⟩
  · exact hread _ final hrun _ List.mem_cons_self "one" rfl
  · exact hread _ final hrun _ (List.mem_cons_of_mem _ List.mem_cons_self) "two" rfl

/-- Settings that select the templates of all directories. -/
def everywhere : Settings := { paths := { includes := ["**/*.mjml"] } }

/-- A project with a template in a directory that has the name of another template's document. -/
def nested : Disk :=
  ⟨.directory [("x.html", .directory [("a.mjml", .file (Bytes.ofString "one") false)]),
    ("x.mjml", .file (Bytes.ofString "two") false)], []⟩

/-- Two templates and a link that leads from the place of the first document to that of the second. -/
def linked : Disk := twins [("dist", .directory [("a.html", .link ⟨"b.html"⟩)])]

/-- **Different paths need not be different places.**  A place can be on the way to another one, and
then the template that is processed first is compiled and the other one fails.  And a link can lead to
the place of another template, and then both templates are compiled and one of the documents is lost. -/
theorem places_meet :
    ((runInOrder List.reverse ⟨"/"⟩ everywhere echo 0).run nested).1 ≠
      ((run ⟨"/"⟩ everywhere echo 0).run nested).1 ∧
    ((run ⟨"/"⟩ {} echo 0).run linked).1 = .done ⟨twinDocuments, 0⟩ ∧
    (((run ⟨"/"⟩ {} echo 0).run linked).2.read ⟨"/dist/a.html"⟩).toOption =
      some (Bytes.ofString "two") := by
  decide +kernel

end Build

end MailTemplate
