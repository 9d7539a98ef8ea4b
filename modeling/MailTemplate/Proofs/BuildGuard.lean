import MailTemplate.Watch.Coordinator

/-!
# The guard of builds

Whoever sets the flag of a coordinator holds the guard until the flag is cleared.  A caller that starts
a worker hands the guard over to it.  So in every state that can be reached the flag is set exactly
while a thread holds the guard, and no two threads hold it.

Holding the guard and building are not the same, though.  A first build that does not get the guard goes
on without it, and then it runs beside the build that has the guard.  That takes two threads that call:
one thread alone has waited for every worker by the time it asks for the guard of a first build.

## Main definitions

* `Coordinator.Holds`, `Coordinator.IsInBuild` — a thread holds the guard, or is in a build.
* `Coordinator.GuardedBy` — the flag and the holder belong together.
* `Coordinator.Attended` — one thread alone calls, and looks after its workers.

## Main results

* `Coordinator.GuardedBy.step`, `Coordinator.Reaches.guardedBy` — every step keeps them together, and so
  does every run.
* `Coordinator.builds_share_no_guard` — two builds at once are not both guarded.
* `Coordinator.first_build_beside_worker` — there can be two builds at once.
* `Coordinator.alone_builds_once` — there is at most one build if one thread alone calls.
-/

namespace MailTemplate

namespace Coordinator

/-! ## Who holds the guard -/

/-- Whether a caller that does this next holds the guard. -/
def Caller.holds : Caller → Bool
  | .announcing _ | .spawning | .opening true | .building true | .releasing true _ => true
  | _ => false

/-- Whether a worker that does this next holds the guard. -/
def Worker.holds : Worker → Bool
  | .building | .releasing _ => true
  | _ => false

/-- A thread holds the guard. -/
def Holds (s : Coordinator) : Thread → Prop
  | .caller i => (s.callers i).holds = true
  | .worker k => ∃ worker, s.workers[k]? = some worker ∧ worker.holds = true

/-- A thread is in a build. -/
def IsInBuild (s : Coordinator) : Thread → Prop
  | .caller i => ∃ isHolder, s.callers i = .building isHolder
  | .worker k => s.workers[k]? = some .building

/-- The flag is set exactly if the guard has an owner, and the owner is the one that holds it. -/
structure GuardedBy (s : Coordinator) (owner : Option Thread) : Prop where
  /-- The flag tells whether there is an owner. -/
  flag : s.isBuilding = owner.isSome
  /-- Nobody else holds the guard. -/
  holds_iff : ∀ thread, s.Holds thread ↔ owner = some thread

/-! ## Steps -/

namespace GuardedBy

variable {s t : Coordinator} {owner : Option Thread} {i k : Nat} {before caller : Caller}
  {worker : Worker}

theorem of_init : GuardedBy {} none :=
  ⟨rfl, fun thread => by cases thread <;> simp [Holds, Caller.holds]⟩

/-- A caller that neither takes nor gives the guard. -/
theorem withCaller (h : s.GuardedBy owner) (hbefore : s.callers i = before)
    (hsame : caller.holds = before.holds) : (s.withCaller i caller).GuardedBy owner := by
  refine ⟨h.flag, fun thread => ?_⟩
  rw [← h.holds_iff]
  cases thread with
  | worker k => exact Iff.rfl
  | caller j =>
    simp only [Holds, Coordinator.withCaller]
    split
    · next hij => rw [hij, hbefore, hsame]
    · exact Iff.rfl

/-- A caller that takes the guard. -/
theorem take (h : s.GuardedBy owner) (hflag : s.isBuilding = false) (hholds : caller.holds = true) :
    ((s.withFlag true).withCaller i caller).GuardedBy (some (.caller i)) := by
  have hnone : owner = none := by
    have := h.flag
    rw [hflag] at this
    exact Option.isNone_iff_eq_none.1 (by rw [← Option.not_isSome, ← this]; rfl)
  refine ⟨rfl, fun thread => ?_⟩
  have hthread := h.holds_iff thread
  rw [hnone] at hthread
  cases thread with
  | worker k => simpa [Holds, Coordinator.withCaller, withFlag] using hthread
  | caller j =>
    simp only [Holds, Coordinator.withCaller, withFlag] at hthread ⊢
    split
    · next hij => simp [hij, hholds]
    · next hij => simpa [Ne.symm hij] using hthread

/-- A caller that gives the guard back. -/
theorem give (h : s.GuardedBy owner) (hbefore : s.callers i = before)
    (hholds : before.holds = true) (hgives : caller.holds = false) :
    ((s.withFlag false).withCaller i caller).GuardedBy none := by
  obtain rfl := (h.holds_iff (.caller i)).1 (by rw [Holds, hbefore, hholds])
  refine ⟨rfl, fun thread => ?_⟩
  have hthread := h.holds_iff thread
  cases thread with
  | worker k => simpa [Holds, Coordinator.withCaller, withFlag] using hthread
  | caller j =>
    simp only [Holds, Coordinator.withCaller, withFlag] at hthread ⊢
    split
    · next hij => simp [hgives]
    · next hij => simpa [Ne.symm hij] using hthread

/-- A caller that hands the guard over to a new worker. -/
theorem spawn (h : s.GuardedBy owner) (hbefore : s.callers i = before)
    (hholds : before.holds = true) (hgives : caller.holds = false) :
    ({ s with workers := s.workers ++ [Worker.building] }.withCaller i caller).GuardedBy
      (some (.worker s.workers.length)) := by
  obtain rfl := (h.holds_iff (.caller i)).1 (by rw [Holds, hbefore, hholds])
  refine ⟨h.flag, fun thread => ?_⟩
  have hthread := h.holds_iff thread
  cases thread with
  | caller j =>
    simp only [Holds, Coordinator.withCaller] at hthread ⊢
    split
    · next hij => simp [hgives]
    · next hij => simpa [Ne.symm hij] using hthread
  | worker k =>
    simp only [Holds, Coordinator.withCaller] at hthread ⊢
    -- No worker from before holds the guard, and the new one does.
    rcases Nat.lt_trichotomy k s.workers.length with hk | hk | hk
    · rw [List.getElem?_append_left hk]
      simp only [Option.some.injEq, reduceCtorEq, iff_false] at hthread
      simp [hthread, Nat.ne_of_gt hk]
    · simp [hk, Worker.holds]
    · rw [List.getElem?_eq_none (by simp; omega)]
      simp [Nat.ne_of_lt hk]

/-- A worker that neither takes nor gives the guard. -/
theorem withWorker {before : Worker} (h : s.GuardedBy owner) (hbefore : s.workers[k]? = some before)
    (hsame : worker.holds = before.holds) : (s.withWorker k worker).GuardedBy owner := by
  refine ⟨h.flag, fun thread => ?_⟩
  rw [← h.holds_iff]
  cases thread with
  | caller j => exact Iff.rfl
  | worker l =>
    simp only [Holds, Coordinator.withWorker, List.getElem?_set]
    split
    · next hkl =>
      subst hkl
      obtain ⟨hk, rfl⟩ := List.getElem?_eq_some_iff.1 hbefore
      simp [hk, hsame]
    · exact Iff.rfl

/-- A worker that gives the guard back. -/
theorem giveByWorker {before : Worker} (h : s.GuardedBy owner)
    (hbefore : s.workers[k]? = some before) (hholds : before.holds = true)
    (hgives : worker.holds = false) : ((s.withFlag false).withWorker k worker).GuardedBy none := by
  obtain rfl := (h.holds_iff (.worker k)).1 ⟨before, hbefore, hholds⟩
  refine ⟨rfl, fun thread => ?_⟩
  have hthread := h.holds_iff thread
  cases thread with
  | caller j => simpa [Holds, Coordinator.withWorker, withFlag] using hthread
  | worker l =>
    simp only [Holds, Coordinator.withWorker, withFlag, List.getElem?_set] at hthread ⊢
    split
    · next hkl => split <;> simp [hgives]
    · next hkl => simpa [hkl] using hthread

/-- **A step of a caller** leaves the guard where it is, takes it, gives it back or hands it over. -/
theorem advanceCaller (h : s.GuardedBy owner) (hstep : s.advanceCaller? i = some t) :
    ∃ owner', t.GuardedBy owner' := by
  -- What is sent, answered or kept does not matter to the guard.
  have hsame : ∀ (sent kept answers), GuardedBy { s with sent, kept, answers } owner :=
    fun _ _ _ => ⟨h.flag, h.holds_iff⟩
  unfold advanceCaller? at hstep
  dsimp only at hstep
  split at hstep
  · exact absurd hstep (by simp)
  · exact absurd hstep (by simp)
  · next hcaller =>
    obtain rfl := Option.some.inj hstep
    exact ⟨owner, withCaller (hsame _ _ _) hcaller rfl⟩
  · next hcaller =>
    split at hstep
    · obtain rfl := Option.some.inj hstep
      exact ⟨owner, h.withCaller hcaller rfl⟩
    · next hflag =>
      obtain rfl := Option.some.inj hstep
      exact ⟨_, h.take (Bool.eq_false_iff.2 hflag) rfl⟩
  · next hcaller =>
    obtain rfl := Option.some.inj hstep
    exact ⟨owner, withCaller (hsame _ _ _) hcaller rfl⟩
  · next hcaller =>
    obtain rfl := Option.some.inj hstep
    exact ⟨owner, withCaller (hsame _ _ _) hcaller rfl⟩
  · next hcaller =>
    obtain rfl := Option.some.inj hstep
    exact ⟨_, h.spawn hcaller rfl rfl⟩
  · next hcaller =>
    split at hstep <;> obtain rfl := Option.some.inj hstep
    · exact ⟨owner, withCaller (hsame _ _ _) hcaller rfl⟩
    · exact ⟨owner, withCaller (hsame _ _ _) hcaller rfl⟩
  · next hcaller =>
    split at hstep
    · obtain rfl := Option.some.inj hstep
      exact ⟨owner, withCaller (hsame _ _ _) hcaller rfl⟩
    · exact absurd hstep (by simp)
  · next isInitial hcaller =>
    split at hstep <;> obtain rfl := Option.some.inj hstep
    · exact ⟨owner, h.withCaller hcaller (by cases isInitial <;> rfl)⟩
    · exact ⟨owner, withCaller (hsame _ _ _) hcaller rfl⟩
  · next k isInitial hcaller =>
    split at hstep
    · obtain rfl := Option.some.inj hstep
      exact ⟨owner, h.withCaller hcaller (by cases isInitial <;> rfl)⟩
    · exact absurd hstep (by simp)
  · next hcaller =>
    split at hstep
    · obtain rfl := Option.some.inj hstep
      exact ⟨owner, h.withCaller hcaller rfl⟩
    · next hflag =>
      obtain rfl := Option.some.inj hstep
      exact ⟨_, h.take (Bool.eq_false_iff.2 hflag) rfl⟩
  · next isHolder hcaller =>
    obtain rfl := Option.some.inj hstep
    exact ⟨owner, withCaller (hsame _ _ _) hcaller (by cases isHolder <;> rfl)⟩
  · next isHolder result hcaller =>
    obtain rfl := Option.some.inj hstep
    cases isHolder with
    | false => exact ⟨owner, h.withCaller hcaller rfl⟩
    | true => exact ⟨none, h.give hcaller rfl rfl⟩
  · next result hcaller =>
    obtain rfl := Option.some.inj hstep
    unfold sendResult
    split
    · exact ⟨owner, withCaller (hsame _ _ _) hcaller rfl⟩
    · exact ⟨owner, h.withCaller hcaller rfl⟩

/-- **A step of a worker** leaves the guard where it is or gives it back. -/
theorem advanceWorker (h : s.GuardedBy owner) (hstep : s.advanceWorker? k = some t) :
    ∃ owner', t.GuardedBy owner' := by
  unfold advanceWorker? at hstep
  split at hstep
  · next result hworker =>
    obtain rfl := Option.some.inj hstep
    exact ⟨none, h.giveByWorker hworker rfl rfl⟩
  · next result hworker =>
    obtain rfl := Option.some.inj hstep
    unfold sendResult
    split
    · exact ⟨owner, withWorker ⟨h.flag, h.holds_iff⟩ hworker rfl⟩
    · exact ⟨owner, h.withWorker hworker rfl⟩
  · exact absurd hstep (by simp)

/-- **Every step keeps the flag and the holder of the guard together.** -/
theorem step {action : Action} (h : s.GuardedBy owner) (hstep : s.step? action = some t) :
    ∃ owner', t.GuardedBy owner' := by
  cases action with
  | call i call =>
    simp only [step?] at hstep
    split at hstep
    · next hcaller =>
      obtain rfl := Option.some.inj hstep
      refine ⟨owner, h.withCaller hcaller ?_⟩
      cases call with
      | change path change => cases change <;> rfl
      | initialBuild => rfl
      | waitIdle => rfl
    · exact absurd hstep (by simp)
  | endBuild thread result =>
    cases thread with
    | caller i =>
      simp only [step?, endBuild?] at hstep
      split at hstep
      · next isHolder hcaller =>
        obtain rfl := Option.some.inj hstep
        exact ⟨owner, h.withCaller hcaller (by cases isHolder <;> rfl)⟩
      · exact absurd hstep (by simp)
    | worker k =>
      simp only [step?, endBuild?] at hstep
      split at hstep
      · next hworker =>
        obtain rfl := Option.some.inj hstep
        exact ⟨owner, h.withWorker hworker rfl⟩
      · exact absurd hstep (by simp)
  | advance thread =>
    cases thread with
    | caller i => exact h.advanceCaller hstep
    | worker k => exact h.advanceWorker hstep

/-- The holder of the guard is one thread. -/
theorem eq_of_holds {t u : Thread} (h : s.GuardedBy owner) (ht : s.Holds t) (hu : s.Holds u) :
    t = u := by
  rw [h.holds_iff] at ht hu
  exact Option.some.inj (ht.symm.trans hu)

end GuardedBy

/-! ## Runs -/

theorem GuardedBy.steps {s t : Coordinator} {owner : Option Thread} {actions : List Action}
    (h : s.GuardedBy owner) (hsteps : s.steps? actions = some t) : ∃ owner', t.GuardedBy owner' := by
  induction actions generalizing s owner with
  | nil =>
    obtain rfl := Option.some.inj hsteps
    exact ⟨owner, h⟩
  | cons action actions ih =>
    obtain ⟨next, hnext, hrest⟩ := Option.bind_eq_some_iff.1 hsteps
    obtain ⟨owner', h'⟩ := h.step hnext
    exact ih h' hrest

/-- **In every state that can be reached** the flag and the holder of the guard belong together. -/
theorem Reaches.guardedBy {s : Coordinator} (h : Reaches {} s) : ∃ owner, s.GuardedBy owner := by
  obtain ⟨actions, hactions⟩ := h
  exact GuardedBy.of_init.steps hactions

/-- A thread in a build holds the guard, unless it is a caller whose first build did not get it. -/
theorem IsInBuild.holds_or {s : Coordinator} {thread : Thread} (h : s.IsInBuild thread) :
    s.Holds thread ∨ ∃ i, thread = .caller i ∧ s.callers i = .building false := by
  cases thread with
  | worker k => exact .inl ⟨.building, h, rfl⟩
  | caller i =>
    obtain ⟨isHolder, hcaller⟩ := h
    cases isHolder with
    | true => exact .inl (by rw [Holds, hcaller]; rfl)
    | false => exact .inr ⟨i, rfl, hcaller⟩

/-! ## Builds at once -/

/-- The flag is set exactly while a thread holds the guard, and that is one thread.  **Of two builds at
once one is a first build that has not got the guard.** -/
theorem builds_share_no_guard {s : Coordinator} (h : Reaches {} s) :
    (s.isBuilding = true ↔ ∃ thread, s.Holds thread) ∧
      (∀ t u, s.Holds t → s.Holds u → t = u) ∧
      ∀ t u, s.IsInBuild t → s.IsInBuild u → t ≠ u →
        ∃ i, (t = .caller i ∨ u = .caller i) ∧ s.callers i = .building false := by
  obtain ⟨owner, hguarded⟩ := h.guardedBy
  refine ⟨?_, fun t u => hguarded.eq_of_holds, fun t u ht hu hne => ?_⟩
  · rw [hguarded.flag, Option.isSome_iff_exists]
    exact exists_congr fun thread => (hguarded.holds_iff thread).symm
  · rcases ht.holds_or with ht | ⟨i, rfl, hi⟩
    · rcases hu.holds_or with hu | ⟨i, rfl, hi⟩
      · exact absurd (hguarded.eq_of_holds ht hu) hne
      · exact ⟨i, .inr rfl, hi⟩
    · exact ⟨i, .inl rfl, hi⟩

/-- A change is answered by a worker, and a first build begins before the worker is kept: it finds
nothing to wait for, does not get the guard, and builds. -/
def racingActions : List Action :=
  [.call 0 (.change ⟨"a.mjml"⟩ .changed), .advance (.caller 0), .advance (.caller 0),
    .advance (.caller 0), .call 1 .initialBuild, .advance (.caller 1), .advance (.caller 1),
    .advance (.caller 1)]

theorem builds_share_no_guard_racing :
    Reaches {} (({} : Coordinator).steps? racingActions |>.get rfl) ∧
      (({} : Coordinator).steps? racingActions |>.get rfl).isBuilding = true ∧
      ∀ t, (({} : Coordinator).steps? racingActions |>.get rfl).Holds t → t = .worker 0 :=
  have hreaches : Reaches {} (({} : Coordinator).steps? racingActions |>.get rfl) :=
    ⟨racingActions, rfl⟩
  have hshare := builds_share_no_guard hreaches
  ⟨hreaches, rfl, fun t ht => hshare.2.1 t (.worker 0) ht ⟨.building, rfl, rfl⟩⟩

/-- **There can be two builds at once**: one of a worker, and a first build. -/
theorem first_build_beside_worker :
    ∃ s, Reaches {} s ∧ s.IsInBuild (.worker 0) ∧ s.IsInBuild (.caller 1) :=
  ⟨_, ⟨racingActions, rfl⟩, rfl, false, rfl⟩

/-! ## One calling thread -/

/-- The worker that a caller that does this next looks after. -/
def Caller.tended? : Caller → Option Nat
  | .storing k | .reaping k | .waiting k _ => some k
  | _ => none

/-- Whether a caller that does this next has taken the kept worker away. -/
def Caller.hasTaken : Caller → Bool
  | .waiting .. | .claiming | .opening _ | .building _ => true
  | _ => false

/-- Whether a caller that does this next builds without the guard. -/
def Caller.lacks : Caller → Bool
  | .opening false | .building false => true
  | _ => false

/-- One thread alone calls.  It keeps or looks after every worker that has not ended, and does not
build without the guard. -/
structure Attended (s : Coordinator) (i : Nat) : Prop where
  /-- Nobody else calls. -/
  others : ∀ j, j ≠ i → s.callers j = .free
  /-- Every worker is kept or looked after until it ends. -/
  tended : ∀ k worker, s.workers[k]? = some worker → worker ≠ .ended →
    s.kept = some k ∨ (s.callers i).tended? = some k
  /-- No worker is kept when it was taken away. -/
  taken : (s.callers i).hasTaken = true → s.kept = none
  /-- The caller does not build without the guard. -/
  guarded : (s.callers i).lacks = false

namespace Attended

variable {s t : Coordinator} {owner : Option Thread} {i k : Nat} {caller : Caller}

theorem of_init (i : Nat) : Attended {} i :=
  ⟨fun _ _ => rfl, fun k worker h => by simp at h, fun h => by simp [Caller.hasTaken] at h, rfl⟩

theorem withCaller (hothers : ∀ j, j ≠ i → s.callers j = .free)
    (htended : ∀ k worker, s.workers[k]? = some worker → worker ≠ .ended →
      s.kept = some k ∨ caller.tended? = some k)
    (htaken : caller.hasTaken = true → s.kept = none) (hguarded : caller.lacks = false) :
    (s.withCaller i caller).Attended i := by
  refine ⟨fun j hj => ?_, ?_, ?_, ?_⟩
  · simpa [Coordinator.withCaller, hj] using hothers j hj
  · simpa [Coordinator.withCaller] using htended
  · simpa [Coordinator.withCaller] using htaken
  · simpa [Coordinator.withCaller] using hguarded

/-- A step to a caller that looks after no worker, from one that has none to look after either. -/
theorem untended (h : s.Attended i) (hbefore : (s.callers i).tended? = none)
    (htaken : caller.hasTaken = true → s.kept = none) (hguarded : caller.lacks = false) :
    (s.withCaller i caller).Attended i :=
  withCaller h.others (fun k worker hk hlive => by
    rcases h.tended k worker hk hlive with hkept | htended
    · exact .inl hkept
    · rw [hbefore] at htended; exact absurd htended (by simp)) htaken hguarded

/-- A step to a caller whose worker has ended. -/
theorem relieved (h : s.Attended i) (hbefore : (s.callers i).tended? = some k)
    (hended : s.hasEnded k = true) (htaken : caller.hasTaken = true → s.kept = none)
    (hguarded : caller.lacks = false) : (s.withCaller i caller).Attended i :=
  withCaller h.others (fun l worker hl hlive => by
    rcases h.tended l worker hl hlive with hkept | htended
    · exact .inl hkept
    · rw [hbefore] at htended
      obtain rfl := Option.some.inj htended
      rw [hasEnded, hl, beq_iff_eq] at hended
      exact absurd (Option.some.inj hended) hlive) htaken hguarded

/-- A worker goes on, which had not ended. -/
theorem withWorker {before worker : Worker} (h : s.Attended i)
    (hbefore : s.workers[k]? = some before) (hlive : before ≠ .ended) :
    (s.withWorker k worker).Attended i := by
  refine ⟨h.others, fun l other hl hother => ?_, h.taken, h.guarded⟩
  simp only [Coordinator.withWorker, List.getElem?_set] at hl
  split at hl
  · next hkl => exact hkl ▸ h.tended k before hbefore hlive
  · exact h.tended l other hl hother

/-- When the caller asks for the guard of a first build, nobody holds it: all workers have ended. -/
theorem isBuilding_of_claiming (h : s.Attended i) (hguarded : s.GuardedBy owner)
    (hcaller : s.callers i = .claiming) : s.isBuilding = false := by
  refine Bool.eq_false_iff.2 fun hflag => ?_
  obtain ⟨thread, hthread⟩ := Option.isSome_iff_exists.1 (hguarded.flag.symm.trans hflag)
  have hholds := (hguarded.holds_iff thread).2 hthread
  cases thread with
  | caller j =>
    by_cases hj : j = i
    · rw [Holds, hj, hcaller] at hholds
      exact absurd hholds (by simp [Caller.holds])
    · rw [Holds, h.others j hj] at hholds
      exact absurd hholds (by simp [Caller.holds])
  | worker k =>
    obtain ⟨worker, hworker, hholds⟩ := hholds
    rcases h.tended k worker hworker (by rintro rfl; simp [Worker.holds] at hholds) with hkept | hcalls
    · rw [h.taken (by rw [hcaller]; rfl)] at hkept
      exact absurd hkept (by simp)
    · rw [hcaller] at hcalls
      exact absurd hcalls (by simp [Caller.tended?])

/-- **A step of the calling thread** looks after the workers. -/
theorem advanceCaller (h : s.Attended i) (hguarded : s.GuardedBy owner)
    (hstep : s.advanceCaller? i = some t) : t.Attended i := by
  -- What is sent or answered, and whether the flag is set, does not matter to the workers.
  have hsame : ∀ sent answers flag, Attended { s with sent, answers, isBuilding := flag } i :=
    fun _ _ _ => ⟨h.others, h.tended, h.taken, h.guarded⟩
  unfold advanceCaller? at hstep
  dsimp only at hstep
  split at hstep
  · exact absurd hstep (by simp)
  · exact absurd hstep (by simp)
  · next hcaller =>
    obtain rfl := Option.some.inj hstep
    exact untended (hsame _ _ _) (by simp [send, hcaller, Caller.tended?]) (by simp [Caller.hasTaken]) rfl
  · next path hcaller =>
    split at hstep <;> obtain rfl := Option.some.inj hstep
    · exact h.untended (by simp [hcaller, Caller.tended?]) (by simp [Caller.hasTaken]) rfl
    · exact untended (hsame _ _ _) (by simp [withFlag, hcaller, Caller.tended?])
        (by simp [Caller.hasTaken]) rfl
  · next path hcaller =>
    obtain rfl := Option.some.inj hstep
    exact untended (hsame _ _ _) (by simp [send, hcaller, Caller.tended?]) (by simp [Caller.hasTaken]) rfl
  · next path hcaller =>
    obtain rfl := Option.some.inj hstep
    exact untended (hsame _ _ _) (by simp [send, hcaller, Caller.tended?]) (by simp [Caller.hasTaken]) rfl
  · next hcaller =>
    obtain rfl := Option.some.inj hstep
    refine withCaller h.others (fun k worker hk hlive => ?_) (by simp [Caller.hasTaken]) rfl
    rcases Nat.lt_or_ge k s.workers.length with hlt | hge
    · rw [List.getElem?_append_left hlt] at hk
      exact .inl (by simpa [hcaller, Caller.tended?] using h.tended k worker hk hlive)
    · have := (List.getElem?_eq_some_iff.1 hk).1
      refine .inr (congrArg some ?_)
      simp at this
      omega
  · next k hcaller =>
    split at hstep <;> next hkept =>
      obtain rfl := Option.some.inj hstep
      refine withCaller h.others (fun l worker hl hlive => ?_) (by simp [Caller.hasTaken]) rfl
      have := h.tended l worker hl hlive
      rw [hcaller, hkept] at this
      simpa [withKept, Caller.tended?, eq_comm, or_comm] using this
  · next k hcaller =>
    split at hstep
    · next hended =>
      obtain rfl := Option.some.inj hstep
      exact relieved (hsame _ _ _) (by simp [hcaller, Caller.tended?]) hended
        (by simp [Caller.hasTaken]) rfl
    · exact absurd hstep (by simp)
  · next isInitial hcaller =>
    split at hstep
    · next hkept =>
      obtain rfl := Option.some.inj hstep
      exact h.untended (by simp [hcaller, Caller.tended?]) (fun _ => hkept) (by cases isInitial <;> rfl)
    · next before hkept =>
      obtain rfl := Option.some.inj hstep
      refine withCaller h.others (fun l worker hl hlive => ?_) (fun _ => rfl) rfl
      have := h.tended l worker hl hlive
      rw [hcaller, hkept] at this
      simpa [withKept, Caller.tended?] using this
  · next k isInitial hcaller =>
    split at hstep
    · next hended =>
      obtain rfl := Option.some.inj hstep
      exact h.relieved (by simp [hcaller, Caller.tended?]) hended
        (fun _ => h.taken (by rw [hcaller]; rfl)) (by cases isInitial <;> rfl)
    · exact absurd hstep (by simp)
  · next hcaller =>
    have hfree := h.isBuilding_of_claiming hguarded hcaller
    rw [hfree] at hstep
    obtain rfl := Option.some.inj hstep
    exact untended (hsame _ _ _) (by simp [withFlag, hcaller, Caller.tended?])
      (fun _ => h.taken (by rw [hcaller]; rfl)) rfl
  · next isHolder hcaller =>
    obtain rfl := Option.some.inj hstep
    have hlacks := h.guarded
    rw [hcaller] at hlacks
    exact untended (hsame _ _ _) (by simp [send, hcaller, Caller.tended?])
      (fun _ => h.taken (by rw [hcaller]; rfl)) (by cases isHolder <;> simp_all [Caller.lacks])
  · next isHolder result hcaller =>
    obtain rfl := Option.some.inj hstep
    cases isHolder with
    | false => exact h.untended (by simp [hcaller, Caller.tended?]) (by simp [Caller.hasTaken]) rfl
    | true =>
      exact untended (hsame _ _ _) (by simp [withFlag, hcaller, Caller.tended?])
        (by simp [Caller.hasTaken]) rfl
  · next result hcaller =>
    obtain rfl := Option.some.inj hstep
    unfold sendResult
    split
    · exact untended (hsame _ _ _) (by simp [send, hcaller, Caller.tended?])
        (by simp [Caller.hasTaken]) rfl
    · exact h.untended (by simp [hcaller, Caller.tended?]) (by simp [Caller.hasTaken]) rfl

/-- A step of a worker, which goes on to be looked after until it ends. -/
theorem advanceWorker (h : s.Attended i) (hstep : s.advanceWorker? k = some t) : t.Attended i := by
  have hsame : ∀ sent flag, Attended { s with sent, isBuilding := flag } i :=
    fun _ _ => ⟨h.others, h.tended, h.taken, h.guarded⟩
  unfold advanceWorker? at hstep
  split at hstep
  · next result hworker =>
    obtain rfl := Option.some.inj hstep
    exact withWorker (hsame _ _) hworker (by simp)
  · next result hworker =>
    obtain rfl := Option.some.inj hstep
    unfold sendResult
    split
    · exact withWorker (hsame _ _) hworker (by simp)
    · exact h.withWorker hworker (by simp)
  · exact absurd hstep (by simp)

/-- **Every step in which nobody else begins a call** looks after the workers. -/
theorem step {action : Action} (h : s.Attended i) (hguarded : s.GuardedBy owner)
    (hcalls : ∀ j call, action = .call j call → j = i) (hstep : s.step? action = some t) :
    t.Attended i := by
  cases action with
  | call j call =>
    obtain rfl := hcalls j call rfl
    simp only [step?] at hstep
    split at hstep
    · next hcaller =>
      obtain rfl := Option.some.inj hstep
      refine h.untended (by simp [hcaller, Caller.tended?]) ?_ ?_
      all_goals cases call with
        | change path change => cases change <;> simp [Call.first, Caller.hasTaken, Caller.lacks]
        | initialBuild => simp [Call.first, Caller.hasTaken, Caller.lacks]
        | waitIdle => simp [Call.first, Caller.hasTaken, Caller.lacks]
    · exact absurd hstep (by simp)
  | endBuild thread result =>
    cases thread with
    | caller j =>
      simp only [step?, endBuild?] at hstep
      split at hstep
      · next isHolder hcaller =>
        obtain rfl := Option.some.inj hstep
        by_cases hj : j = i
        · subst hj
          exact h.untended (by simp [hcaller, Caller.tended?]) (by simp [Caller.hasTaken]) rfl
        · exact absurd (hcaller.symm.trans (h.others j hj)) (by simp)
      · exact absurd hstep (by simp)
    | worker k =>
      simp only [step?, endBuild?] at hstep
      split at hstep
      · next hworker =>
        obtain rfl := Option.some.inj hstep
        exact h.withWorker hworker (by simp)
      · exact absurd hstep (by simp)
  | advance thread =>
    cases thread with
    | caller j =>
      by_cases hj : j = i
      · subst hj
        exact h.advanceCaller hguarded hstep
      · simp [step?, advanceCaller?, h.others j hj] at hstep
    | worker k => exact h.advanceWorker hstep

theorem steps {actions : List Action} (h : s.Attended i) (hguarded : s.GuardedBy owner)
    (hcalls : ∀ j call, .call j call ∈ actions → j = i) (hsteps : s.steps? actions = some t) :
    t.Attended i := by
  induction actions generalizing s owner with
  | nil =>
    obtain rfl := Option.some.inj hsteps
    exact h
  | cons action actions ih =>
    obtain ⟨next, hnext, hrest⟩ := Option.bind_eq_some_iff.1 hsteps
    obtain ⟨owner', hguarded'⟩ := hguarded.step hnext
    have h' := h.step hguarded (fun j call hcall => hcalls j call (by simp [hcall])) hnext
    exact ih h' hguarded' (fun j call hcall => hcalls j call (by simp [hcall])) hrest

end Attended

/-- **If one thread alone calls, there is at most one build at a time.** -/
theorem alone_builds_once {s : Coordinator} {actions : List Action} {i : Nat}
    (hcalls : ∀ j call, .call j call ∈ actions → j = i)
    (hsteps : ({} : Coordinator).steps? actions = some s) {t u : Thread} (ht : s.IsInBuild t)
    (hu : s.IsInBuild u) : t = u := by
  have hattended := (Attended.of_init i).steps GuardedBy.of_init hcalls hsteps
  obtain ⟨owner, hguarded⟩ := Reaches.guardedBy ⟨actions, hsteps⟩
  -- The calling thread builds with the guard, and the other callers do nothing.
  have hholds : ∀ {thread}, s.IsInBuild thread → s.Holds thread := fun {thread} hbuild => by
    rcases hbuild.holds_or with h | ⟨j, rfl, hj⟩
    · exact h
    · by_cases hji : j = i
      · have hlacks := hattended.guarded
        rw [← hji, hj] at hlacks
        exact absurd hlacks (by simp [Caller.lacks])
      · exact absurd (hj.symm.trans (hattended.others j hji)) (by simp)
  exact hguarded.eq_of_holds (hholds ht) (hholds hu)

end Coordinator

end MailTemplate
