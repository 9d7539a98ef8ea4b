import MailTemplate.Proofs.BuildGuard
import MailTemplate.Proofs.RelatedLists
import Mathlib.Data.List.Induction

/-!
# Steps of a coordinator with one caller

Every atomic step of a coordinator is one of a few kinds, each with a condition and with what it does.  They
are told apart once here, so that an invariant is proved kind by kind.  When one thread alone calls, the
others make no steps, and a run is a list of steps of this thread and of its workers.

What a run has done is read off the list of its actions and off the channel of events: the calls, the ends of
the builds of a thread, and what a thread has sent.

## Main definitions

* `Coordinator.callsIn`, `Coordinator.endsIn` — the calls of a run, and the results of a thread's builds.
* `Coordinator.sentBy`, `Coordinator.startsIn` — what a thread has sent, and how many builds were announced
  because of a change.
* `Coordinator.CallerStep`, `Coordinator.WorkerStep`, `Coordinator.LoneStep` — the kinds of steps.
* `Coordinator.LoneRun` — a run of one caller.

## Main results

* `Coordinator.LoneRun.guarded`, `Coordinator.LoneRun.attended` — the guard and the workers of such a run.
* `Coordinator.LoneRun.induct` — an invariant that every kind of step keeps holds after every run.
-/

namespace MailTemplate

namespace Coordinator

/-! ## What has happened -/

/-- The calls of a run in order. -/
def callsIn (actions : List Action) : List Call :=
  actions.filterMap fun
    | .call _ call => some call
    | _ => none

/-- The results of the builds of a thread in the order in which they ended. -/
def endsIn (thread : Thread) (actions : List Action) : List Build.Result :=
  actions.filterMap fun
    | .endBuild other result => if other = thread then some result else none
    | _ => none

/-- What a thread has sent. -/
def sentBy (thread : Thread) (sent : List (Thread × WatchEvent)) : List WatchEvent :=
  sent.filterMap fun (other, event) => if other = thread then some event else none

/-- Whether an event announces a build because of a change. -/
def isStart : WatchEvent → Bool
  | .started (some _) => true
  | _ => false

/-- How many builds were announced because of a change. -/
def startsIn (sent : List (Thread × WatchEvent)) : Nat := sent.countP fun (_, event) => isStart event

/-- What is sent of a result: nothing after a crash. -/
def report (result : Build.Result) : List WatchEvent := (resultEvent? result).toList

section Histories

variable {actions : List Action} {thread other : Thread} {sent sent' : List (Thread × WatchEvent)}
  {event : WatchEvent} {result : Build.Result}

@[simp] theorem callsIn_append (actions more : List Action) :
    callsIn (actions ++ more) = callsIn actions ++ callsIn more := List.filterMap_append

@[simp] theorem endsIn_append (thread : Thread) (actions more : List Action) :
    endsIn thread (actions ++ more) = endsIn thread actions ++ endsIn thread more := List.filterMap_append

@[simp] theorem sentBy_append (thread : Thread) (sent sent' : List (Thread × WatchEvent)) :
    sentBy thread (sent ++ sent') = sentBy thread sent ++ sentBy thread sent' := List.filterMap_append

@[simp] theorem startsIn_append (sent sent' : List (Thread × WatchEvent)) :
    startsIn (sent ++ sent') = startsIn sent + startsIn sent' := List.countP_append

theorem mem_sentBy_iff : event ∈ sentBy thread sent ↔ (thread, event) ∈ sent := by
  rw [sentBy, List.mem_filterMap]
  constructor
  · rintro ⟨⟨other, event'⟩, hmem, h⟩
    simp only [Option.ite_none_right_eq_some, Option.some.injEq] at h
    obtain ⟨rfl, rfl⟩ := h
    exact hmem
  · exact fun hmem => ⟨_, hmem, by simp⟩

theorem isStart_of_mem_report (h : event ∈ report result) : isStart event = false := by
  cases result with
  | done => obtain rfl := List.mem_singleton.1 h; rfl
  | failed => obtain rfl := List.mem_singleton.1 h; rfl
  | crashed => exact absurd h List.not_mem_nil

@[simp] theorem sentBy_map (thread : Thread) (events : List WatchEvent) :
    sentBy thread (events.map (thread, ·)) = events := by
  simp [sentBy, List.filterMap_map, Function.comp_def]

theorem sentBy_map_of_ne (h : other ≠ thread) (events : List WatchEvent) :
    sentBy thread (events.map (other, ·)) = [] := by
  simp [sentBy, List.filterMap_map, Function.comp_def, h]

theorem sentBy_cons_of_ne (h : other ≠ thread) (event : WatchEvent) (sent : List (Thread × WatchEvent)) :
    sentBy thread ((other, event) :: sent) = sentBy thread sent :=
  List.filterMap_cons_none (if_neg h)

theorem startsIn_cons_of_isStart (h : isStart event = true) (thread : Thread)
    (sent : List (Thread × WatchEvent)) : startsIn ((thread, event) :: sent) = startsIn sent + 1 :=
  List.countP_cons_of_pos h

theorem startsIn_report (thread : Thread) (result : Build.Result) :
    startsIn ((report result).map (thread, ·)) = 0 := by
  rw [startsIn, List.countP_map, List.countP_eq_zero]
  exact fun event hevent => by simp [isStart_of_mem_report hevent]

end Histories

section Results

variable (s : Coordinator) (thread : Thread) (result : Build.Result)

theorem sendResult_eq :
    s.sendResult thread result = { s with sent := s.sent ++ (report result).map (thread, ·) } := by
  cases result <;> simp [sendResult, resultEvent?, send, report]

@[simp] theorem sendResult_sent :
    (s.sendResult thread result).sent = s.sent ++ (report result).map (thread, ·) := by rw [sendResult_eq]

@[simp] theorem sendResult_workers : (s.sendResult thread result).workers = s.workers := by rw [sendResult_eq]

@[simp] theorem sendResult_callers : (s.sendResult thread result).callers = s.callers := by rw [sendResult_eq]

@[simp] theorem sendResult_kept : (s.sendResult thread result).kept = s.kept := by rw [sendResult_eq]

@[simp] theorem sendResult_answers : (s.sendResult thread result).answers = s.answers := by rw [sendResult_eq]

end Results

/-! ## Kinds of steps -/

/-- The steps of a calling thread. -/
inductive CallerStep (s : Coordinator) (i : Nat) : Coordinator → Prop
  /-- It reports that a file is gone. -/
  | tell (path : Path) (hcaller : s.callers i = .reporting path) :
    CallerStep s i ((s.send (.caller i) (.removed path)).answer i .reported)
  /-- The guard is taken. -/
  | refuse (path : Path) (hcaller : s.callers i = .asking path) (hflag : s.isBuilding = true) :
    CallerStep s i (s.withCaller i (.dropping path))
  /-- It takes the guard for a change. -/
  | acquire (path : Path) (hcaller : s.callers i = .asking path) (hflag : s.isBuilding = false) :
    CallerStep s i ((s.withFlag true).withCaller i (.announcing path))
  /-- It reports that a change was dropped. -/
  | drop (path : Path) (hcaller : s.callers i = .dropping path) :
    CallerStep s i ((s.send (.caller i) (.dropped path)).answer i .ignored)
  /-- It announces a build. -/
  | announce (path : Path) (hcaller : s.callers i = .announcing path) :
    CallerStep s i ((s.send (.caller i) (.started (some path))).withCaller i .spawning)
  /-- It starts a worker. -/
  | spawn (hcaller : s.callers i = .spawning) :
    CallerStep s i
      ({ s with workers := s.workers ++ [Worker.building] }.withCaller i (.storing s.workers.length))
  /-- It keeps the worker, and none was kept. -/
  | keep (k : Nat) (hcaller : s.callers i = .storing k) (hkept : s.kept = none) :
    CallerStep s i ((s.withKept (some k)).answer i .started)
  /-- It keeps the worker instead of the one before. -/
  | replace (k before : Nat) (hcaller : s.callers i = .storing k) (hkept : s.kept = some before) :
    CallerStep s i ((s.withKept (some k)).withCaller i (.reaping before))
  /-- The worker before has ended. -/
  | reap (k : Nat) (hcaller : s.callers i = .reaping k) (hended : s.hasEnded k = true) :
    CallerStep s i (s.answer i .started)
  /-- No worker is kept to be waited for. -/
  | pass (isInitial : Bool) (hcaller : s.callers i = .taking isInitial) (hkept : s.kept = none) :
    CallerStep s i (s.withCaller i (afterWait isInitial))
  /-- It takes the kept worker away. -/
  | take (k : Nat) (isInitial : Bool) (hcaller : s.callers i = .taking isInitial) (hkept : s.kept = some k) :
    CallerStep s i ((s.withKept none).withCaller i (.waiting k isInitial))
  /-- The worker that it waits for has ended. -/
  | meet (k : Nat) (isInitial : Bool) (hcaller : s.callers i = .waiting k isInitial)
    (hended : s.hasEnded k = true) : CallerStep s i (s.withCaller i (afterWait isInitial))
  /-- The guard of a first build is taken. -/
  | miss (hcaller : s.callers i = .claiming) (hflag : s.isBuilding = true) :
    CallerStep s i (s.withCaller i (.opening false))
  /-- It takes the guard for a first build. -/
  | claim (hcaller : s.callers i = .claiming) (hflag : s.isBuilding = false) :
    CallerStep s i ((s.withFlag true).withCaller i (.opening true))
  /-- It announces a first build. -/
  | begin (isHolder : Bool) (hcaller : s.callers i = .opening isHolder) :
    CallerStep s i ((s.send (.caller i) (.started none)).withCaller i (.building isHolder))
  /-- It gives the guard of a first build back. -/
  | release (isHolder : Bool) (result : Build.Result) (hcaller : s.callers i = .releasing isHolder result) :
    CallerStep s i ((if isHolder then s.withFlag false else s).withCaller i (.closing result))
  /-- It reports the result of a first build. -/
  | close (result : Build.Result) (hcaller : s.callers i = .closing result) :
    CallerStep s i ((s.sendResult (.caller i) result).withCaller i .free)

/-- The steps of a worker. -/
inductive WorkerStep (s : Coordinator) (k : Nat) : Coordinator → Prop
  /-- It gives the guard back. -/
  | release (result : Build.Result) (hworker : s.workers[k]? = some (.releasing result)) :
    WorkerStep s k ((s.withFlag false).withWorker k (.closing result))
  /-- It reports its result. -/
  | close (result : Build.Result) (hworker : s.workers[k]? = some (.closing result)) :
    WorkerStep s k ((s.sendResult (.worker k) result).withWorker k .ended)

/-- The steps that are possible when one thread alone calls. -/
inductive LoneStep (s : Coordinator) (i : Nat) : Action → Coordinator → Prop
  /-- It begins a call. -/
  | call (call : Call) (hcaller : s.callers i = .free) :
    LoneStep s i (.call i call) (s.withCaller i call.first)
  /-- Its build ends. -/
  | built (isHolder : Bool) (result : Build.Result) (hcaller : s.callers i = .building isHolder) :
    LoneStep s i (.endBuild (.caller i) result) (s.withCaller i (.releasing isHolder result))
  /-- The build of a worker ends. -/
  | workerBuilt (k : Nat) (result : Build.Result) (hworker : s.workers[k]? = some .building) :
    LoneStep s i (.endBuild (.worker k) result) (s.withWorker k (.releasing result))
  /-- It makes its next step. -/
  | caller {t : Coordinator} (hstep : CallerStep s i t) : LoneStep s i (.advance (.caller i)) t
  /-- A worker makes its next step. -/
  | worker {t : Coordinator} (k : Nat) (hstep : WorkerStep s k t) : LoneStep s i (.advance (.worker k)) t

section Steps

variable {s t : Coordinator} {i k : Nat} {action : Action}

theorem callerStep_of_advanceCaller? (h : s.advanceCaller? i = some t) : CallerStep s i t := by
  unfold advanceCaller? at h
  dsimp only at h
  split at h
  · exact absurd h (by simp)
  · exact absurd h (by simp)
  · next path hcaller => exact Option.some.inj h ▸ .tell path hcaller
  · next path hcaller =>
    split at h
    · next hflag => exact Option.some.inj h ▸ .refuse path hcaller hflag
    · next hflag => exact Option.some.inj h ▸ .acquire path hcaller (Bool.eq_false_iff.2 hflag)
  · next path hcaller => exact Option.some.inj h ▸ .drop path hcaller
  · next path hcaller => exact Option.some.inj h ▸ .announce path hcaller
  · next hcaller => exact Option.some.inj h ▸ .spawn hcaller
  · next k hcaller =>
    split at h
    · next hkept => exact Option.some.inj h ▸ .keep k hcaller hkept
    · next before hkept => exact Option.some.inj h ▸ .replace k before hcaller hkept
  · next k hcaller =>
    split at h
    · next hended => exact Option.some.inj h ▸ .reap k hcaller hended
    · exact absurd h (by simp)
  · next isInitial hcaller =>
    split at h
    · next hkept => exact Option.some.inj h ▸ .pass isInitial hcaller hkept
    · next k hkept => exact Option.some.inj h ▸ .take k isInitial hcaller hkept
  · next k isInitial hcaller =>
    split at h
    · next hended => exact Option.some.inj h ▸ .meet k isInitial hcaller hended
    · exact absurd h (by simp)
  · next hcaller =>
    split at h
    · next hflag => exact Option.some.inj h ▸ .miss hcaller hflag
    · next hflag => exact Option.some.inj h ▸ .claim hcaller (Bool.eq_false_iff.2 hflag)
  · next isHolder hcaller => exact Option.some.inj h ▸ .begin isHolder hcaller
  · next isHolder result hcaller => exact Option.some.inj h ▸ .release isHolder result hcaller
  · next result hcaller => exact Option.some.inj h ▸ .close result hcaller

theorem workerStep_of_advanceWorker? (h : s.advanceWorker? k = some t) : WorkerStep s k t := by
  unfold advanceWorker? at h
  split at h
  · next result hworker => exact Option.some.inj h ▸ .release result hworker
  · next result hworker => exact Option.some.inj h ▸ .close result hworker
  · exact absurd h (by simp)

/-- **What a step of a caller sends** is sent by this caller. -/
theorem CallerStep.exists_sent (h : CallerStep s i t) :
    ∃ events : List WatchEvent, t.sent = s.sent ++ events.map (Thread.caller i, ·) := by
  cases h with
  | tell path => exact ⟨[.removed path], rfl⟩
  | drop path => exact ⟨[.dropped path], rfl⟩
  | announce path => exact ⟨[.started (some path)], rfl⟩
  | begin isHolder => exact ⟨[.started none], rfl⟩
  | close result => exact ⟨report result, sendResult_sent ..⟩
  | release isHolder => exact ⟨[], by cases isHolder <;> simp [withCaller, withFlag]⟩
  | _ => exact ⟨[], (List.append_nil _).symm⟩

theorem CallerStep.sentBy_worker (h : CallerStep s i t) (k : Nat) :
    sentBy (.worker k) t.sent = sentBy (.worker k) s.sent := by
  obtain ⟨events, hsent⟩ := h.exists_sent
  rw [hsent, sentBy_append, sentBy_map_of_ne (by simp), List.append_nil]

/-- A step of a caller starts a worker, or leaves the workers as they are. -/
theorem CallerStep.workers_cases (h : CallerStep s i t) :
    t.workers = s.workers ∨ t.workers = s.workers ++ [.building] := by
  cases h with
  | spawn => exact .inr rfl
  | release isHolder => exact .inl (by cases isHolder <;> rfl)
  | close result => exact .inl (sendResult_workers ..)
  | _ => exact .inl rfl

theorem withCaller_callers (s : Coordinator) (i : Nat) (caller : Caller) :
    (s.withCaller i caller).callers i = caller := if_pos rfl

theorem getElem?_withWorker {before : Worker} (hbefore : s.workers[k]? = some before) (worker : Worker)
    (l : Nat) : (s.withWorker k worker).workers[l]? = if k = l then some worker else s.workers[l]? := by
  obtain ⟨hk, -⟩ := List.getElem?_eq_some_iff.1 hbefore
  rw [withWorker, List.getElem?_set, if_pos hk]

theorem getElem?_withWorker_self {before : Worker} (hbefore : s.workers[k]? = some before) (worker : Worker) :
    (s.withWorker k worker).workers[k]? = some worker :=
  (getElem?_withWorker hbefore worker k).trans (if_pos rfl)

/-- **Every step** is of one of the kinds if the other threads are in no call. -/
theorem loneStep_of_step? (hothers : ∀ j, j ≠ i → s.callers j = .free)
    (hcalls : ∀ j call, action = .call j call → j = i) (h : s.step? action = some t) :
    LoneStep s i action t := by
  cases action with
  | call j call =>
    obtain rfl := hcalls j call rfl
    simp only [step?] at h
    split at h
    · next hcaller => exact Option.some.inj h ▸ .call call hcaller
    · exact absurd h (by simp)
  | endBuild thread result =>
    cases thread with
    | caller j =>
      simp only [step?, endBuild?] at h
      split at h
      · next isHolder hcaller =>
        by_cases hj : j = i
        · subst hj
          exact Option.some.inj h ▸ .built isHolder result hcaller
        · exact absurd (hcaller.symm.trans (hothers j hj)) (by simp)
      · exact absurd h (by simp)
    | worker k =>
      simp only [step?, endBuild?] at h
      split at h
      · next hworker => exact Option.some.inj h ▸ .workerBuilt k result hworker
      · exact absurd h (by simp)
  | advance thread =>
    cases thread with
    | caller j =>
      -- Another thread is in no call, so it has no next step.
      by_cases hj : j = i
      · subst hj
        exact .caller (callerStep_of_advanceCaller? h)
      · simp [step?, advanceCaller?, hothers j hj] at h
    | worker k => exact .worker k (workerStep_of_advanceWorker? h)

end Steps

/-! ## Runs of one caller -/

/-- A run from the start in which one thread makes all calls. -/
structure LoneRun (i : Nat) (actions : List Action) (s : Coordinator) : Prop where
  /-- Nobody else calls. -/
  calls : ∀ j call, .call j call ∈ actions → j = i
  /-- The actions lead to the state. -/
  steps : ({} : Coordinator).steps? actions = some s

namespace LoneRun

variable {i : Nat} {actions : List Action} {s t : Coordinator}

theorem guarded (h : LoneRun i actions s) : ∃ owner, s.GuardedBy owner :=
  GuardedBy.of_init.steps h.steps

theorem attended (h : LoneRun i actions s) : s.Attended i :=
  (Attended.of_init i).steps GuardedBy.of_init h.calls h.steps

/-- A run ends with a step, and what is before it is a run. -/
theorem exists_of_concat {action : Action} (h : LoneRun i (actions ++ [action]) t) :
    ∃ s, LoneRun i actions s ∧ LoneStep s i action t := by
  obtain ⟨hcalls, hsteps⟩ := h
  rw [steps?_append] at hsteps
  obtain ⟨s, hs, hlast⟩ := Option.bind_eq_some_iff.1 hsteps
  obtain ⟨t', ht', hend⟩ := Option.bind_eq_some_iff.1 hlast
  obtain rfl := Option.some.inj hend
  have hrun : LoneRun i actions s := ⟨fun j call hmem => hcalls j call (List.mem_append_left _ hmem), hs⟩
  refine ⟨s, hrun, loneStep_of_step? hrun.attended.others (fun j call heq => ?_) ht'⟩
  exact hcalls j call (by simp [heq])

theorem step_of_concat {action : Action} (h : LoneRun i actions s) (hnext : LoneRun i (actions ++ [action]) t) :
    LoneStep s i action t := by
  obtain ⟨s', hrun, hstep⟩ := hnext.exists_of_concat
  obtain rfl := Option.some.inj (hrun.steps.symm.trans h.steps)
  exact hstep

/-- **An invariant** that holds at the start and is kept by every kind of step holds after every run. -/
theorem induct {P : List Action → Coordinator → Prop} (hinit : P [] {})
    (hstep : ∀ actions action s t, LoneRun i actions s → P actions s → LoneStep s i action t →
      P (actions ++ [action]) t)
    (h : LoneRun i actions s) : P actions s := by
  -- The induction is on the run from its end, so that the step at its end meets the invariant before it.
  induction actions using List.reverseRecOn generalizing s with
  | nil =>
    obtain rfl := Option.some.inj h.steps
    exact hinit
  | append_singleton actions action ih =>
    obtain ⟨before, hrun, hlast⟩ := h.exists_of_concat
    exact hstep actions action before s hrun (ih hrun) hlast

end LoneRun

end Coordinator

end MailTemplate
