import MailTemplate.Build.Basic

/-!
# Who claims an output

A plan gives every template the place of its document.  The first template that leads to a place claims
it, and no other template of the plan is compiled for that place.  Places are compared by their
components, so two spellings of one path are one place.

## Main definitions

* `PlannedOutput.isClaimant` — a template that has its place for itself.
* `ClaimedOnce` — what a plan says about its sources.

## Main results

* `getElem?_planAfter` — the entry of every source, said without the claims made so far.
* `planOutputs_claimedOnce` — a plan claims every place once.
* `Build.compileOne_collided`, `Build.compileOne_congr` — a build passes over a collided template.
* `Build.outputs_claimed_once` — so every place has one claimant in a build.
-/

namespace MailTemplate

/-! ## Places -/

namespace Path

variable {p q : Path}

theorem alike_iff : p.alike q = true ↔ p.components = q.components := beq_iff_eq

theorem alike_refl (p : Path) : p.alike p = true := alike_iff.2 rfl

theorem alike_congr_left (h : p.alike q = true) (r : Path) : p.alike r = q.alike r := by
  rw [alike, alike, alike_iff.1 h]

theorem alike_congr_right (h : p.alike q = true) (r : Path) : r.alike p = r.alike q := by
  rw [alike, alike, alike_iff.1 h]

end Path

/-! ## Plans -/

/-- Whether a template has the place of its document for itself. -/
def PlannedOutput.isClaimant (planned : PlannedOutput) : Bool := planned.collidesWith.isNone

/-- The entry of a source behind other sources: it collides with the first of them that leads to the
same place. -/
def PlannedOutput.behind (outputOf : Path → Path) (earlier : List Path) (source : Path) :
    PlannedOutput :=
  ⟨source, outputOf source, earlier.find? fun s => (outputOf s).alike (outputOf source)⟩

/-- What a plan says about some sources. -/
structure ClaimedOnce (outputOf : Path → Path) (sources : List Path) (plan : List PlannedOutput) :
    Prop where
  /-- There is one entry for every source, in order. -/
  source_eq : plan.map PlannedOutput.source = sources
  /-- It has the place that the source leads to. -/
  output_eq : ∀ p ∈ plan, p.output = outputOf p.source
  /-- It collides with the first earlier source that leads to the same place, if there is one. -/
  collidesWith_eq : ∀ (i : Nat) (p : PlannedOutput), plan[i]? = some p →
    p.collidesWith = (sources.take i).find? fun s => (outputOf s).alike p.output
  /-- The places of claimants differ. -/
  pairwise : (plan.filter PlannedOutput.isClaimant).Pairwise fun p q =>
    p.output.alike q.output = false
  /-- Every place has exactly one claimant. -/
  claimant : ∀ p ∈ plan, plan.countP (fun c => c.isClaimant && c.output.alike p.output) = 1

section Plan

variable {outputOf : Path → Path} {sources : List Path} {p : PlannedOutput} {i : Nat}

/-- **The entry of every source,** if the claims made so far are the first ones for their places among
the earlier sources. -/
theorem getElem?_planAfter {claimed : List (Path × Path)} (earlier : List Path)
    (hclaimed : ∀ place, (claimed.find? fun (output, _) => output.alike place).map Prod.snd =
      earlier.find? fun s => (outputOf s).alike place) (sources : List Path) (i : Nat) :
    (planAfter claimed outputOf sources)[i]? =
      sources[i]?.map (.behind outputOf (earlier ++ sources.take i)) := by
  induction sources generalizing claimed earlier i with
  | nil => rfl
  | cons source sources ih =>
    have hsource := hclaimed (outputOf source)
    simp only [planAfter]
    split
    · next place first hfind =>
      rw [hfind] at hsource
      -- A source that collides adds no claim, and is never the first of its place.
      have hsame : ∀ place, (claimed.find? fun (output, _) => output.alike place).map Prod.snd =
          (earlier ++ [source]).find? fun s => (outputOf s).alike place := by
        intro place
        rw [hclaimed, List.find?_append, List.find?_singleton]
        split
        · next halike =>
          have hsome : earlier.find? (fun s => (outputOf s).alike place) = some first := by
            refine Eq.trans ?_ hsource.symm
            exact congrArg (earlier.find? ·)
              (funext fun s => (Path.alike_congr_right halike (outputOf s)).symm)
          rw [hsome, Option.some_or]
        · rw [Option.or_none]
      cases i with
      | zero => simp [PlannedOutput.behind, ← hsource]
      | succ i => simpa using ih _ hsame i
    · next hfind =>
      rw [hfind] at hsource
      have hmore : ∀ place, ((claimed ++ [(outputOf source, source)]).find?
          fun (output, _) => output.alike place).map Prod.snd =
            (earlier ++ [source]).find? fun s => (outputOf s).alike place := by
        intro place
        rw [List.find?_append, List.find?_append, ← hclaimed, List.find?_singleton,
          List.find?_singleton]
        cases claimed.find? fun (output, _) => output.alike place with
        | some claim => rfl
        | none =>
          dsimp only
          split
          · rfl
          · rfl
      cases i with
      | zero => simp [PlannedOutput.behind, ← hsource]
      | succ i => simpa using ih _ hmore i

theorem getElem?_planAfter_nil (sources : List Path) (i : Nat) :
    (planAfter [] outputOf sources)[i]? =
      sources[i]?.map (.behind outputOf (sources.take i)) :=
  getElem?_planAfter [] (fun _ => rfl) sources i

theorem eq_behind_of_getElem? (h : (planAfter [] outputOf sources)[i]? = some p) :
    ∃ source, sources[i]? = some source ∧ p = .behind outputOf (sources.take i) source := by
  rw [getElem?_planAfter_nil] at h
  obtain ⟨source, hsource, heq⟩ := Option.map_eq_some_iff.1 h
  exact ⟨source, hsource, heq.symm⟩

/-- No entry has the place of a claimant behind it. -/
theorem pairwise_planAfter : (planAfter [] outputOf sources).Pairwise fun p q =>
    q.isClaimant = true → p.output.alike q.output = false := by
  rw [List.pairwise_iff_getElem]
  intro i j hi hj hij hclaimant
  obtain ⟨source, hsource, hp⟩ := eq_behind_of_getElem? (List.getElem?_eq_getElem hi)
  obtain ⟨source', -, hq⟩ := eq_behind_of_getElem? (List.getElem?_eq_getElem hj)
  rw [hq, PlannedOutput.isClaimant, Option.isNone_iff_eq_none] at hclaimant
  have hmem : source ∈ sources.take j := by
    refine List.mem_of_getElem? (i := i) ?_
    rw [List.getElem?_take_of_lt hij, hsource]
  rw [hp, hq]
  exact Bool.eq_false_iff.2 (List.find?_eq_none.1 hclaimant source hmem)

/-- The first source of a place claims it. -/
theorem exists_claimant (hp : p ∈ planAfter [] outputOf sources) :
    ∃ c ∈ planAfter [] outputOf sources, c.isClaimant = true ∧ c.output.alike p.output = true := by
  obtain ⟨i, hi⟩ := List.mem_iff_getElem?.1 hp
  obtain ⟨source, hsource, rfl⟩ := eq_behind_of_getElem? hi
  have hsome : (sources.find? fun s => (outputOf s).alike (outputOf source)).isSome = true :=
    List.find?_isSome.2 ⟨source, List.mem_of_getElem? hsource, Path.alike_refl _⟩
  obtain ⟨first, hfirst⟩ := Option.isSome_iff_exists.1 hsome
  obtain ⟨halike, before, behind, rfl, hbefore⟩ := List.find?_eq_some_iff_append.1 hfirst
  have hentry : (planAfter [] outputOf (before ++ first :: behind))[before.length]? = _ :=
    getElem?_planAfter_nil _ _
  rw [List.getElem?_append_right (Nat.le_refl _), Nat.sub_self, List.take_left] at hentry
  refine ⟨_, List.mem_of_getElem? hentry, ?_, halike⟩
  refine Option.isNone_iff_eq_none.2 (List.find?_eq_none.2 fun s hs => ?_)
  rw [Path.alike_congr_right halike]
  simpa using hbefore s hs

/-- **Every place has exactly one claimant.** -/
theorem countP_claimant (hp : p ∈ planAfter [] outputOf sources) :
    (planAfter [] outputOf sources).countP (fun c => c.isClaimant && c.output.alike p.output) = 1 := by
  obtain ⟨c, hc, hclaimant, halike⟩ := exists_claimant hp
  have hpos : 0 < (planAfter [] outputOf sources).countP
      (fun c => c.isClaimant && c.output.alike p.output) :=
    List.countP_pos_iff.2 ⟨c, hc, Bool.and_eq_true_iff.2 ⟨hclaimant, halike⟩⟩
  rw [List.countP_eq_length_filter] at hpos ⊢
  -- Two claimants of the place would have different places.
  have hapart : ((planAfter [] outputOf sources).filter fun c =>
      c.isClaimant && c.output.alike p.output).Pairwise fun _ _ => False := by
    refine List.pairwise_filter.2 (pairwise_planAfter.imp fun {a b} hab ha hb => ?_)
    rw [Bool.and_eq_true_iff] at ha hb
    have hdiffers := hab hb.1
    rw [Path.alike_congr_left ha.2, Path.alike_congr_right hb.2, Path.alike_refl] at hdiffers
    exact Bool.noConfusion hdiffers
  generalize (planAfter [] outputOf sources).filter _ = claimants at hpos hapart
  match claimants with
  | [_] => rfl
  | _ :: _ :: _ => exact (List.rel_of_pairwise_cons hapart List.mem_cons_self).elim

end Plan

/-- **A plan claims every place once,** for the first source that leads to it. -/
theorem planOutputs_claimedOnce (sources : List Path) (sourceRoot outputRoot : Path) :
    ClaimedOnce (fun source => outputPath source sourceRoot outputRoot) sources
      (planOutputs sources sourceRoot outputRoot) := by
  refine ⟨?_, ?_, ?_, ?_, fun p hp => countP_claimant hp⟩
  · refine List.ext_getElem? fun i => ?_
    rw [List.getElem?_map, planOutputs, getElem?_planAfter_nil, Option.map_map]
    exact Option.map_id'
  · intro p hp
    obtain ⟨i, hi⟩ := List.mem_iff_getElem?.1 hp
    obtain ⟨source, -, rfl⟩ := eq_behind_of_getElem? hi
    rfl
  · intro i p hi
    obtain ⟨source, -, rfl⟩ := eq_behind_of_getElem? hi
    rfl
  · exact List.pairwise_filter.2 (pairwise_planAfter.imp fun hpq _ hq => hpq hq)

/-! ## Builds -/

namespace Build

variable {root : Path} {compiler other : Compiler} {planned : PlannedOutput} {first : Path}
  {plan : List PlannedOutput}

/-- The document of a template whose place another one has claimed. -/
def collided (planned : PlannedOutput) (first : Path) : CompiledDocument :=
  failure planned [] ("output " ++ planned.output.text ++ " is already produced by " ++ first.text)

/-- **A template that collides** fails and names the claimant, and the disk stays as it is. -/
theorem compileOne_collided (h : planned.collidesWith = some first) (disk : Disk) :
    (compileOne root compiler planned).run disk = (some (collided planned first), disk) := by
  simp only [compileOne, prepare, h]
  rfl

/-- What a template is that is ready to be compiled. -/
theorem of_prepare_eq_ready {disk : Disk} {p : PlannedOutput} {text : String}
    (h : prepare disk root planned = .ready p text) :
    p = planned ∧ planned.isClaimant = true ∧ disk.readText (root.join planned.source) = .ok text := by
  unfold prepare at h
  split at h
  · exact Pending.noConfusion h
  · next hcollides =>
    split at h
    · exact Pending.noConfusion h
    · next text' hread =>
      obtain ⟨rfl, rfl⟩ := Pending.ready.inj h
      exact ⟨rfl, Option.isNone_iff_eq_none.2 hcollides, hread⟩

/-- **The compiler is called for the template itself,** and only if the template is a claimant. -/
theorem compileOne_congr (h : planned.isClaimant = true → ∀ text base,
    other text (root.join planned.source) base = compiler text (root.join planned.source) base) :
    compileOne root other planned = compileOne root compiler planned := by
  funext disk
  show complete root other (prepare disk root planned) disk =
    complete root compiler (prepare disk root planned) disk
  cases hprepare : prepare disk root planned with
  | failed document => rfl
  | ready p text =>
    obtain ⟨rfl, hclaimant, -⟩ := of_prepare_eq_ready hprepare
    simp only [complete, h hclaimant]

/-- A template is processed before the ones behind it. -/
theorem run_mapM_cons {α β : Type} (f : α → StateM Disk β) (a : α) (as : List α) (disk : Disk) :
    ((a :: as).mapM f).run disk =
      (((f a).run disk).1 :: ((as.mapM f).run ((f a).run disk).2).1,
        ((as.mapM f).run ((f a).run disk).2).2) := by
  rw [List.mapM_cons]
  rfl

/-- The document of a template that collides, whatever became of the others. -/
theorem getElem?_mapM_compileOne {i : Nat} (root : Path) (compiler : Compiler)
    (hi : plan[i]? = some planned) (h : planned.collidesWith = some first) (disk : Disk) :
    ((plan.mapM (compileOne root compiler)).run disk).1[i]? = some (some (collided planned first)) := by
  induction plan generalizing i disk with
  | nil => exact absurd hi (by simp)
  | cons p plan ih =>
    rw [run_mapM_cons]
    cases i with
    | zero =>
      obtain rfl := Option.some.inj hi
      rw [compileOne_collided h]
      rfl
    | succ i => exact ih hi _

/-- Templates that collide write nothing. -/
theorem mapM_compileOne_filter (disk : Disk) :
    ((plan.mapM (compileOne root compiler)).run disk).2 =
      (((plan.filter PlannedOutput.isClaimant).mapM (compileOne root compiler)).run disk).2 := by
  induction plan generalizing disk with
  | nil => rfl
  | cons p plan ih =>
    rw [run_mapM_cons]
    cases hcollides : p.collidesWith with
    | some first =>
      rw [List.filter_cons_of_neg (by simp [PlannedOutput.isClaimant, hcollides]),
        compileOne_collided hcollides]
      exact ih disk
    | none =>
      rw [List.filter_cons_of_pos (by simp [PlannedOutput.isClaimant, hcollides]), run_mapM_cons]
      exact ih _

/-- Compilers that answer the same for all claimants process all templates in the same way. -/
theorem mapM_compileOne_congr (h : ∀ c ∈ plan, c.isClaimant = true → ∀ text base,
    other text (root.join c.source) base = compiler text (root.join c.source) base) :
    plan.mapM (compileOne root other) = plan.mapM (compileOne root compiler) := by
  induction plan with
  | nil => rfl
  | cons p plan ih =>
    obtain ⟨hp, hplan⟩ := List.forall_mem_cons.1 h
    rw [List.mapM_cons, List.mapM_cons, compileOne_congr hp, ih hplan]

/-- The documents of a build that ends with a run. -/
theorem map_some_of_conclude {elapsed : Nat} {documents : List (Option CompiledDocument)}
    {run : BuildRun} (h : conclude elapsed documents = .done run) :
    run.documents.map some = documents := by
  unfold conclude at h
  split at h
  · next hall =>
    obtain rfl := Result.done.inj h
    dsimp only
    clear h
    induction documents with
    | nil => rfl
    | cons document documents ih =>
      rw [List.all_cons, Bool.and_eq_true_iff] at hall
      obtain ⟨document, rfl⟩ := Option.isSome_iff_exists.1 hall.1
      exact congrArg (some document :: ·) (ih hall.2)
  · exact Result.noConfusion h

/-- What a start of a build has done that gives a plan. -/
theorem of_start_eq_ok {settings : Settings} {disk made : Disk}
    (h : (start root settings).run disk = (.ok plan, made)) :
    ∃ sources, discover disk root settings = .ok sources ∧
      plan = planOutputs sources ⟨settings.paths.sourceRoot⟩ ⟨settings.paths.output⟩ ∧
      (Disk.makeDirectories (Layout.ofSettings root settings.paths).output).run disk =
        (.ok (), made) := by
  change (start root settings) disk = _ at h
  simp only [start, bind, StateT.bind, get, getThe, MonadStateOf.get, StateT.get, pure] at h
  cases hdiscover : discover disk root settings with
  | error fault =>
    rw [hdiscover] at h
    exact absurd (Prod.mk.inj h).1 (by simp)
  | ok sources =>
    simp only [hdiscover, StateT.bind, bind] at h
    refine ⟨sources, rfl, ?_⟩
    cases hmake : (Disk.makeDirectories (Layout.ofSettings root settings.paths).output).run disk with
    | mk outcome after =>
      rw [hmake] at h
      cases outcome with
      | error fault => exact absurd (Prod.mk.inj h).1 (by simp)
      | ok =>
        obtain ⟨hplan, rfl⟩ := Prod.mk.inj h
        exact ⟨(Except.ok.inj hplan).symm, rfl⟩

/-- A build whose start has given a plan. -/
theorem run_of_start_eq_ok {settings : Settings} {disk made : Disk}
    (h : (start root settings).run disk = (.ok plan, made)) (compiler : Compiler) (elapsed : Nat) :
    (run root settings compiler elapsed).run disk =
      (conclude elapsed ((plan.mapM (compileOne root compiler)).run made).1,
        ((plan.mapM (compileOne root compiler)).run made).2) := by
  have hstart : start root settings disk = (.ok plan, made) := h
  simp [run, StateT.run, bind, StateT.bind, hstart]
  rfl

/-- **Every place of a plan is claimed once, and only claimants are compiled and written.**  A build of
the plan records every other template as failed and names the claimant; it leaves the disk that the
claimants alone leave, and the compiler could answer anything for the other templates. -/
theorem outputs_claimed_once (root : Path) (settings : Settings) :
    (∀ sources sourceRoot outputRoot, ClaimedOnce (fun s => outputPath s sourceRoot outputRoot)
      sources (planOutputs sources sourceRoot outputRoot)) ∧
    ∀ disk plan made, (start root settings).run disk = (.ok plan, made) →
      (∃ sources, discover disk root settings = .ok sources ∧
        ClaimedOnce settings.paths.outputOf sources plan) ∧
      ∀ compiler elapsed, let ended := (run root settings compiler elapsed).run disk
        (∀ run, ended.1 = .done run → ∀ (i : Nat) planned first, plan[i]? = some planned →
          planned.collidesWith = some first →
            run.documents[i]? = some (collided planned first)) ∧
        ended.2 =
          (((plan.filter PlannedOutput.isClaimant).mapM (compileOne root compiler)).run made).2 ∧
        ∀ other : Compiler, (∀ c ∈ plan, c.isClaimant = true → ∀ text base,
          other text (root.join c.source) base = compiler text (root.join c.source) base) →
            (run root settings other elapsed).run disk = ended := by
  refine ⟨planOutputs_claimedOnce, fun disk plan made hstart => ⟨?_, fun compiler elapsed => ?_⟩⟩
  · obtain ⟨sources, hsources, rfl, -⟩ := of_start_eq_ok hstart
    exact ⟨sources, hsources, planOutputs_claimedOnce sources _ _⟩
  · dsimp only
    rw [run_of_start_eq_ok hstart]
    refine ⟨fun run hrun i planned first hi hcollides => ?_, mapM_compileOne_filter made, ?_⟩
    · have hdocument := getElem?_mapM_compileOne root compiler hi hcollides made
      rw [← map_some_of_conclude hrun, List.getElem?_map] at hdocument
      obtain ⟨document, hdocument, heq⟩ := Option.map_eq_some_iff.1 hdocument
      rw [hdocument, heq]
    · intro other hother
      rw [run_of_start_eq_ok hstart, mapM_compileOne_congr hother]

/-- A project with two templates of one name below the source root. -/
def crowded : Disk :=
  ⟨.directory [("src", .directory [("a.mjml", .file [] false),
    ("x", .directory [("a.mjml", .file [] false)])])], []⟩

/-- In that project the second template fails because of the first one, whatever the compiler does. -/
theorem crowded_claimed_once :
    ∃ plan made, (start ⟨"/"⟩ {}).run crowded = (.ok plan, made) ∧
      plan = [⟨⟨"src/a.mjml"⟩, ⟨"dist/a.html"⟩, none⟩,
        ⟨⟨"src/x/a.mjml"⟩, ⟨"dist/a.html"⟩, some ⟨"src/a.mjml"⟩⟩] ∧
      ∀ compiler run, ((Build.run ⟨"/"⟩ {} compiler 0).run crowded).1 = .done run →
        run.documents[1]? = some ⟨⟨"src/x/a.mjml"⟩, ⟨"dist/a.html"⟩, [],
          .failed "output dist/a.html is already produced by src/a.mjml"⟩ := by
  have hplan : ((start ⟨"/"⟩ {}).run crowded).1.toOption = some
      [⟨⟨"src/a.mjml"⟩, ⟨"dist/a.html"⟩, none⟩,
        ⟨⟨"src/x/a.mjml"⟩, ⟨"dist/a.html"⟩, some ⟨"src/a.mjml"⟩⟩] := by decide +kernel
  rcases hstart : (start ⟨"/"⟩ {}).run crowded with ⟨outcome, made⟩
  rw [hstart] at hplan
  cases outcome with
  | error fault => exact absurd hplan (by simp [Except.toOption])
  | ok plan =>
    obtain rfl := Option.some.inj hplan
    obtain ⟨-, hbuild⟩ := (outputs_claimed_once ⟨"/"⟩ {}).2 crowded _ made hstart
    refine ⟨_, made, rfl, rfl, fun compiler run hrun => ?_⟩
    rw [(hbuild compiler 0).1 run hrun 1 _ ⟨"src/a.mjml"⟩ rfl rfl]
    decide +kernel

end Build

end MailTemplate
