import MailTemplate.Proofs.CoordinatorSteps

/-!
# The order of reports

A worker gives the guard back before it reports its result, so that whoever reads the report can have the
next build started.  The next build can then be announced, carried out and even reported before the worker
gets to report.  No build comes in between, though: the call that started the next build answers only after
the worker before has ended, and there is no other call until then.  So when a build is reported, the next one
may have been announced, and the one after it has not.

## Main definitions

* `Coordinator.Recorded` — what belongs together: a worker, the end of its build and what it has sent.
* `Coordinator.Timely` — reports come before the build after the next one is announced.
* `Coordinator.Paced` — where the workers are that have not ended.

## Main results

* `Coordinator.LoneRun.recorded` — every worker reports the result of its build once, when it ends.
* `Coordinator.LoneRun.paced` — every run is timely.
* `Coordinator.reports_late_by_one` — reports are in order, but for those of neighbours.
* `Coordinator.neighbours_reported_out_of_order` — those of neighbours need not be.
-/

namespace MailTemplate

namespace Coordinator

/-! ## Workers and their reports -/

/-- A worker, how its build has ended, and what it has sent. -/
inductive Recorded : Option Worker → List Build.Result → List WatchEvent → Prop
  /-- There is no such worker yet. -/
  | absent : Recorded none [] []
  /-- Its build is going on. -/
  | building : Recorded (some .building) [] []
  /-- Its build is over. -/
  | releasing (result : Build.Result) : Recorded (some (.releasing result)) [result] []
  /-- It has given the guard back. -/
  | closing (result : Build.Result) : Recorded (some (.closing result)) [result] []
  /-- It has ended, and it has reported its result. -/
  | ended (result : Build.Result) : Recorded (some .ended) [result] (report result)

section Recorded

variable {s t : Coordinator} {i k : Nat} {actions : List Action} {results : List Build.Result}
  {events : List WatchEvent}

theorem Recorded.built (h : Recorded (some .building) results events) (result : Build.Result) :
    Recorded (some (.releasing result)) (results ++ [result]) events := by
  cases h with
  | building => exact .releasing result

theorem Recorded.released {result : Build.Result} (h : Recorded (some (.releasing result)) results events) :
    Recorded (some (.closing result)) results events := by
  cases h with
  | releasing => exact .closing result

theorem Recorded.closed {result : Build.Result} (h : Recorded (some (.closing result)) results events) :
    Recorded (some .ended) results (events ++ report result) := by
  cases h with
  | closing => exact .ended result

theorem Recorded.spawned (h : Recorded none results events) : Recorded (some .building) results events := by
  cases h with
  | absent => exact .building

theorem Recorded.of_ended (h : Recorded (some .ended) results events) :
    ∃ result, results = [result] ∧ events = report result := by
  cases h with
  | ended result => exact ⟨result, rfl, rfl⟩

/-- **Every worker reports the result of its build,** when it ends and not before. -/
theorem LoneRun.recorded (h : LoneRun i actions s) (k : Nat) :
    Recorded s.workers[k]? (endsIn (.worker k) actions) (sentBy (.worker k) s.sent) := by
  refine LoneRun.induct (P := fun actions s =>
    Recorded s.workers[k]? (endsIn (.worker k) actions) (sentBy (.worker k) s.sent)) .absent ?_ h
  clear h
  intro actions action s t _ hbefore hstep
  rw [endsIn_append]
  cases hstep with
  | call call => simpa [endsIn, withCaller] using hbefore
  | built isHolder result => simpa [endsIn, withCaller] using hbefore
  | workerBuilt l result hworker =>
    rw [getElem?_withWorker hworker]
    split
    · next hlk =>
      subst hlk
      rw [hworker] at hbefore
      simpa [endsIn, withWorker] using hbefore.built result
    · next hlk => simpa [endsIn, withWorker, hlk] using hbefore
  | caller hcaller =>
    rw [hcaller.sentBy_worker, show endsIn (.worker k) [.advance (.caller i)] = [] from rfl, List.append_nil]
    -- A new worker stands behind all others, where nothing was recorded before.
    rcases hcaller.workers_cases with hsame | hmore
    · rwa [hsame]
    · rw [hmore, List.getElem?_append]
      split
      · exact hbefore
      · next hk =>
        rw [List.getElem?_eq_none (Nat.le_of_not_lt hk)] at hbefore
        rcases Nat.eq_zero_or_pos (k - s.workers.length) with hzero | hpos
        · rw [hzero]
          exact hbefore.spawned
        · rwa [List.getElem?_eq_none (by simpa using Nat.succ_le_of_lt hpos)]
  | worker l hstep =>
    rw [show endsIn (.worker k) [.advance (.worker l)] = [] from rfl, List.append_nil]
    cases hstep with
    | release result hworker =>
      rw [getElem?_withWorker (s := s.withFlag false) hworker]
      split
      · next hlk =>
        subst hlk
        rw [hworker] at hbefore
        exact hbefore.released
      · exact hbefore
    | close result hworker =>
      rw [getElem?_withWorker (s := s.sendResult _ result) (by simpa using hworker)]
      simp only [withWorker, sendResult_sent, sendResult_workers, sentBy_append]
      split
      · next hlk =>
        subst hlk
        rw [hworker] at hbefore
        rw [sentBy_map]
        exact hbefore.closed
      · next hlk => rwa [sentBy_map_of_ne (by simpa using hlk), List.append_nil]

end Recorded

/-! ## Where the workers are -/

/-- How many builds a caller that does this next has announced without starting a worker. -/
def Caller.ahead : Caller → Nat
  | .spawning => 1
  | _ => 0

/-- How far the kept worker is from the end of the workers when the caller does this next. -/
def Caller.keptLag : Caller → Nat
  | .storing _ => 2
  | _ => 1

/-- How far the worker that a caller looks after is from the end of the workers when it does this next. -/
def Caller.tendedLag : Caller → Nat
  | .reaping _ => 2
  | _ => 1

/-- Whether a caller that does this next has no worker at hand that it was to start or to look after. -/
def Caller.isPlain : Caller → Bool
  | .spawning | .storing _ | .reaping _ | .waiting .. => false
  | _ => true

/-- Every report of a worker comes after its build was announced, and before the build after the next one
is announced. -/
def Timely (sent : List (Thread × WatchEvent)) : Prop :=
  ∀ front k event back, sent = front ++ (.worker k, event) :: back →
    k < startsIn front ∧ startsIn front ≤ k + 2

/-- The worker that is kept and the one that is looked after are among the last two. -/
structure Paced (s : Coordinator) (i : Nat) : Prop where
  /-- Every build that was announced has a worker, or gets one next. -/
  announced : startsIn s.sent = s.workers.length + (s.callers i).ahead
  /-- Where the kept worker is. -/
  kept : ∀ k, s.kept = some k → k + (s.callers i).keptLag = s.workers.length
  /-- Where the worker is that is looked after. -/
  tended : ∀ k, (s.callers i).tended? = some k → k + (s.callers i).tendedLag = s.workers.length
  /-- Reports were timely. -/
  timely : Timely s.sent

section Paced

variable {s t : Coordinator} {i k : Nat} {actions : List Action} {sent : List (Thread × WatchEvent)}
  {before after : Caller} {event : WatchEvent}

theorem Timely.append_caller (h : Timely sent) (events : List WatchEvent) :
    Timely (sent ++ events.map (Thread.caller i, ·)) := by
  intro front k event back heq
  rcases exists_split_of_append_eq heq with ⟨between, hsent, -⟩ | ⟨between, -, hevents⟩
  · exact h front k event between hsent
  · have hmem : (Thread.worker k, event) ∈ events.map (Thread.caller i, ·) := by simp [hevents]
    obtain ⟨event', -, heq⟩ := List.mem_map.1 hmem
    exact absurd (Prod.mk.inj heq).1 (by simp)

theorem Timely.append_report (h : Timely sent) (result : Build.Result) (hafter : k < startsIn sent)
    (hbefore : startsIn sent ≤ k + 2) : Timely (sent ++ (report result).map (Thread.worker k, ·)) := by
  intro front l event back heq
  rcases exists_split_of_append_eq heq with ⟨between, hsent, -⟩ | ⟨between, rfl, hevents⟩
  · exact h front l event between hsent
  · have hmem : (Thread.worker l, event) ∈ (report result).map (Thread.worker k, ·) := by simp [hevents]
    obtain ⟨event', -, heq⟩ := List.mem_map.1 hmem
    obtain rfl : k = l := by simpa using (Prod.mk.inj heq).1
    -- A report announces nothing, so all announcements before the event are in `sent`.
    have hnone := startsIn_report (.worker k) result
    rw [hevents, startsIn_append] at hnone
    rw [startsIn_append]
    omega

theorem Paced.of_init (i : Nat) : Paced {} i :=
  ⟨rfl, fun k h => by simp at h, fun k h => by simp [Caller.tended?] at h, fun front k event back h => by
    simp at h⟩

/-- **A worker that has not ended** is one of the last two whose builds were announced. -/
theorem Paced.startsIn_of_unended (h : s.Paced i) (hattended : s.Attended i) {worker : Worker}
    (hworker : s.workers[k]? = some worker) (hlive : worker ≠ .ended) :
    k < startsIn s.sent ∧ startsIn s.sent ≤ k + 2 := by
  have hlength := (List.getElem?_eq_some_iff.1 hworker).1
  have hannounced := h.announced
  -- No caller has a build ahead while its worker is far from the end, so the two never add up to three.
  rcases hattended.tended k worker hworker hlive with hkept | htended
  · have hlag := h.kept k hkept
    have hsum : (s.callers i).ahead + (s.callers i).keptLag ≤ 2 := by
      cases s.callers i <;> simp [Caller.ahead, Caller.keptLag]
    omega
  · have hlag := h.tended k htended
    have hsum : (s.callers i).ahead + (s.callers i).tendedLag ≤ 2 := by
      cases s.callers i <;> simp [Caller.ahead, Caller.tendedLag]
    omega

theorem Paced.of_caller (hafter : t.callers i = after)
    (hannounced : startsIn t.sent = t.workers.length + after.ahead)
    (hkept : ∀ k, t.kept = some k → k + after.keptLag = t.workers.length)
    (htended : ∀ k, after.tended? = some k → k + after.tendedLag = t.workers.length)
    (htimely : Timely t.sent) : t.Paced i := by
  subst hafter
  exact ⟨hannounced, hkept, htended, htimely⟩

/-- A step that starts no worker and keeps none, to a caller that has none at hand. -/
theorem Paced.turn (h : s.Paced i) (hbefore : s.callers i = before) (hahead : before.ahead = 0)
    (hlag : before.keptLag = 1) (hafter : t.callers i = after) (hplain : after.isPlain = true)
    (hworkers : t.workers = s.workers) (hkept : t.kept = s.kept)
    (hstarts : startsIn t.sent = startsIn s.sent) (htimely : Timely t.sent) : t.Paced i := by
  have hannounced := h.announced
  have hkept' := h.kept
  rw [hbefore] at hannounced hkept'
  rw [hahead] at hannounced
  rw [hlag] at hkept'
  refine .of_caller hafter ?_ (fun k hk => ?_) (fun k hk => ?_) htimely
  · rw [hstarts, hworkers, hannounced]
    cases after <;> simp_all [Caller.ahead, Caller.isPlain]
  · rw [hworkers, ← hkept' k (hkept ▸ hk)]
    cases after <;> simp_all [Caller.keptLag, Caller.isPlain]
  · cases after <;> simp_all [Caller.tended?, Caller.isPlain]

/-- **A step of the calling thread** keeps its workers in their places. -/
theorem Paced.callerStep (h : s.Paced i) (hstep : CallerStep s i t) : t.Paced i := by
  have htimely : Timely t.sent := by
    obtain ⟨events, hsent⟩ := hstep.exists_sent
    exact hsent ▸ h.timely.append_caller events
  have hannounced := h.announced
  have hkept := h.kept
  have htended := h.tended
  cases hstep with
  | tell path hcaller =>
    exact h.turn hcaller rfl rfl (if_pos rfl) rfl rfl rfl (startsIn_append ..) htimely
  | refuse path hcaller => exact h.turn hcaller rfl rfl (if_pos rfl) rfl rfl rfl rfl htimely
  | acquire path hcaller => exact h.turn hcaller rfl rfl (if_pos rfl) rfl rfl rfl rfl htimely
  | drop path hcaller =>
    exact h.turn hcaller rfl rfl (if_pos rfl) rfl rfl rfl (startsIn_append ..) htimely
  | announce path hcaller =>
    rw [hcaller] at hannounced hkept
    refine .of_caller (if_pos rfl) ?_ hkept (fun k hk => ?_) htimely
    · exact (startsIn_append ..).trans (congrArg (· + 1) hannounced)
    · exact absurd hk (by simp [Caller.tended?])
  | spawn hcaller =>
    rw [hcaller] at hannounced hkept
    refine .of_caller (if_pos rfl) ?_ (fun k hk => ?_) (fun k hk => ?_) htimely
    · simpa [withCaller, Caller.ahead] using hannounced
    · simp [← hkept k hk, withCaller, Caller.keptLag]
    · obtain rfl := Option.some.inj hk
      simp [withCaller, Caller.tendedLag]
  | keep k hcaller =>
    rw [hcaller] at hannounced htended
    refine .of_caller (if_pos rfl) hannounced (fun l hl => ?_) (fun l hl => ?_) htimely
    · obtain rfl := Option.some.inj hl
      exact htended k rfl
    · exact absurd hl (by simp [Caller.tended?])
  | replace k before hcaller hbefore =>
    rw [hcaller] at hannounced hkept htended
    refine .of_caller (if_pos rfl) hannounced (fun l hl => ?_) (fun l hl => ?_) htimely
    · obtain rfl := Option.some.inj hl
      exact htended k rfl
    · obtain rfl := Option.some.inj hl
      exact hkept before hbefore
  | reap k hcaller => exact h.turn hcaller rfl rfl (if_pos rfl) rfl rfl rfl rfl htimely
  | pass isInitial hcaller =>
    exact h.turn hcaller rfl rfl (if_pos rfl) (by cases isInitial <;> rfl) rfl rfl rfl htimely
  | take k isInitial hcaller hbefore =>
    rw [hcaller] at hannounced hkept
    refine .of_caller (if_pos rfl) hannounced (fun l hl => ?_) (fun l hl => ?_) htimely
    · exact absurd hl (by simp [withCaller, withKept])
    · obtain rfl := Option.some.inj hl
      exact hkept k hbefore
  | meet k isInitial hcaller =>
    exact h.turn hcaller rfl rfl (if_pos rfl) (by cases isInitial <;> rfl) rfl rfl rfl htimely
  | miss hcaller => exact h.turn hcaller rfl rfl (if_pos rfl) rfl rfl rfl rfl htimely
  | claim hcaller => exact h.turn hcaller rfl rfl (if_pos rfl) rfl rfl rfl rfl htimely
  | begin isHolder hcaller =>
    exact h.turn hcaller rfl rfl (if_pos rfl) rfl rfl rfl (startsIn_append ..) htimely
  | release isHolder result hcaller =>
    cases isHolder <;> exact h.turn hcaller rfl rfl (if_pos rfl) rfl rfl rfl rfl htimely
  | close result hcaller =>
    refine h.turn hcaller rfl rfl (if_pos rfl) rfl (sendResult_workers ..) (sendResult_kept ..) ?_ htimely
    exact (congrArg startsIn (sendResult_sent ..)).trans (by rw [startsIn_append, startsIn_report]; rfl)

/-- A step after which the calling thread and the places of the workers are as before. -/
theorem Paced.of_same (h : s.Paced i) (hcaller : t.callers i = s.callers i)
    (hlength : t.workers.length = s.workers.length) (hkept : t.kept = s.kept)
    (hstarts : startsIn t.sent = startsIn s.sent) (htimely : Timely t.sent) : t.Paced i :=
  .of_caller hcaller (by rw [hstarts, hlength, h.announced]) (by rw [hkept, hlength]; exact h.kept)
    (by rw [hlength]; exact h.tended) htimely

/-- **A step of a worker,** which is one of the last two until it ends. -/
theorem Paced.workerStep (h : s.Paced i) (hattended : s.Attended i) (hstep : WorkerStep s k t) :
    t.Paced i := by
  cases hstep with
  | release result hworker => exact h.of_same rfl (by simp [withWorker, withFlag]) rfl rfl h.timely
  | close result hworker =>
    obtain ⟨hafter, hbefore⟩ := h.startsIn_of_unended hattended hworker (by simp)
    have hsent : ((s.sendResult (.worker k) result).withWorker k .ended).sent
        = s.sent ++ (report result).map (Thread.worker k, ·) := sendResult_sent ..
    refine h.of_same (congrFun (sendResult_callers ..) i) (by simp [withWorker]) (sendResult_kept ..) ?_ ?_
    · rw [hsent, startsIn_append, startsIn_report, Nat.add_zero]
    · rw [hsent]
      exact h.timely.append_report result hafter hbefore

/-- **Every run** is timely, and its last two workers are the ones that need not have ended. -/
theorem LoneRun.paced (h : LoneRun i actions s) : s.Paced i := by
  refine LoneRun.induct (P := fun _ s => s.Paced i) (.of_init i) ?_ h
  intro actions action s t hrun hpaced hstep
  cases hstep with
  | call call hcaller =>
    refine hpaced.turn hcaller rfl rfl (if_pos rfl) ?_ rfl rfl rfl hpaced.timely
    cases call with
    | change path change => cases change <;> rfl
    | initialBuild => rfl
    | waitIdle => rfl
  | built isHolder result hcaller =>
    exact hpaced.turn hcaller rfl rfl (if_pos rfl) rfl rfl rfl rfl hpaced.timely
  | workerBuilt k result hworker => exact hpaced.of_same rfl (by simp [withWorker]) rfl rfl hpaced.timely
  | caller hstep => exact hpaced.callerStep hstep
  | worker k hstep => exact hpaced.workerStep hrun.attended hstep

end Paced

/-! ## The order of reports -/

section Order

variable {s : Coordinator} {i k : Nat} {actions : List Action}

/-- A worker that has ended has reported the result of its build. -/
theorem LoneRun.reported (h : LoneRun i actions s) (hended : s.workers[k]? = some .ended) :
    ∃ result, endsIn (.worker k) actions = [result] ∧ sentBy (.worker k) s.sent = report result := by
  have hrecorded := h.recorded k
  rw [hended] at hrecorded
  exact hrecorded.of_ended

theorem ended_of_not_unended (hk : k < s.workers.length)
    (hunended : ∀ worker, s.workers[k]? = some worker → worker ≠ .ended → False) :
    s.workers[k]? = some .ended := by
  have hworker := List.getElem?_eq_getElem hk
  by_cases hended : s.workers[k] = .ended
  · rw [hworker, hended]
  · exact (hunended _ hworker hended).elim

/-- When the build after the next one is announced, a worker has ended. -/
theorem LoneRun.ended_of_startsIn (h : LoneRun i actions s) (hk : k + 2 < startsIn s.sent) :
    s.workers[k]? = some .ended := by
  have hpaced := h.paced
  have hahead : (s.callers i).ahead ≤ 1 := by cases s.callers i <;> simp [Caller.ahead]
  have hlength : k < s.workers.length := by
    have := hpaced.announced
    omega
  refine ended_of_not_unended hlength fun worker hworker hlive => ?_
  have := (hpaced.startsIn_of_unended h.attended hworker hlive).2
  omega

/-- Between calls all workers but the last one have ended. -/
theorem LoneRun.ended_of_free (h : LoneRun i actions s) (hfree : s.callers i = .free)
    (hk : k + 1 < s.workers.length) : s.workers[k]? = some .ended := by
  refine ended_of_not_unended (Nat.lt_of_succ_lt hk) fun worker hworker hlive => ?_
  rcases h.attended.tended k worker hworker hlive with hkept | htended
  · have hplace := h.paced.kept k hkept
    rw [hfree] at hplace
    exact absurd hplace (Nat.ne_of_lt hk)
  · rw [hfree] at htended
    exact absurd htended (by simp [Caller.tended?])

/-- Of two reports, the one that comes first is of an earlier build or of the next build after the other's. -/
theorem Timely.le_succ {sent front between back : List (Thread × WatchEvent)} {l : Nat}
    {first second : WatchEvent} (h : Timely sent)
    (hsent : sent = front ++ (.worker l, first) :: between ++ (.worker k, second) :: back) : l ≤ k + 1 := by
  have hfirst := (h front l first (between ++ (.worker k, second) :: back) (by simpa using hsent)).1
  have hsecond := (h (front ++ (.worker l, first) :: between) k second back hsent).2
  rw [startsIn_append] at hsecond
  omega

/-- **Reports come late by one build at most.**  The result of a build is reported before the build after the
next one is announced, and at the latest before the call that started the next build answers.  So two results
are out of order only if they are of neighbours, and the last one that was reported is of one of the last two
builds. -/
theorem reports_late_by_one (hcalls : ∀ j call, .call j call ∈ actions → j = i)
    (hsteps : ({} : Coordinator).steps? actions = some s) :
    (∀ front path back k, s.sent = front ++ (.caller i, .started (some path)) :: back →
      k + 2 ≤ startsIn front →
        ∃ result, endsIn (.worker k) actions = [result] ∧
          sentBy (.worker k) front = report result ∧ sentBy (.worker k) back = []) ∧
    (s.callers i = .free → ∀ k, k + 1 < s.workers.length →
      ∃ result, endsIn (.worker k) actions = [result] ∧ sentBy (.worker k) s.sent = report result) ∧
    (∀ front l first between k second back,
      s.sent = front ++ (.worker l, first) :: between ++ (.worker k, second) :: back →
        k < l → l = k + 1) ∧
    ∀ front l last back, s.sent = front ++ (.worker l, last) :: back →
      (∀ k event, (.worker k, event) ∉ back) → ∀ k event, (.worker k, event) ∈ s.sent → k ≤ l + 1 := by
  have h : LoneRun i actions s := ⟨hcalls, hsteps⟩
  have htimely := h.paced.timely
  refine ⟨?beforeStart, ?betweenCalls, ?neighbours, ?last⟩
  case beforeStart =>
    intro front path back k hsent hk
    have hstarts : startsIn s.sent = startsIn front + (startsIn back + 1) := by
      rw [hsent, startsIn_append, startsIn_cons_of_isStart rfl]
    obtain ⟨result, hends, hreported⟩ := h.reported (h.ended_of_startsIn (k := k) (by omega))
    -- A report of the worker after this announcement would not be timely.
    have hback : sentBy (.worker k) back = [] := by
      refine List.eq_nil_iff_forall_not_mem.2 fun event hmem => ?_
      obtain ⟨between, rest, rfl⟩ := List.append_of_mem (mem_sentBy_iff.1 hmem)
      have hlate := (htimely (front ++ (.caller i, .started (some path)) :: between) k event rest
        (by simpa using hsent)).2
      rw [startsIn_append, startsIn_cons_of_isStart rfl] at hlate
      omega
    rw [hsent, sentBy_append, sentBy_cons_of_ne (by simp), hback, List.append_nil] at hreported
    exact ⟨result, hends, hreported, hback⟩
  case betweenCalls =>
    exact fun hfree k hk => h.reported (h.ended_of_free hfree hk)
  case neighbours =>
    intro front l first between k second back hsent hkl
    have := htimely.le_succ hsent
    omega
  case last =>
    intro front l last back hsent hlast k event hmem
    rw [hsent] at hmem
    rcases List.mem_append.1 hmem with hfront | hrest
    · obtain ⟨before, between, rfl⟩ := List.append_of_mem hfront
      exact htimely.le_succ (by simpa using hsent)
    · -- Behind the last report there is none, so this one is the last report itself.
      rcases List.mem_cons.1 hrest with heq | hback
      · obtain rfl : k = l := by simpa using (Prod.mk.inj heq).1
        exact Nat.le_succ k
      · exact absurd hback (hlast k event)

/-- The first worker gives the guard back and pauses before its report.  The thread has the next build
started meanwhile, which is over and reported before the first worker goes on. -/
def pausedActions : List Action :=
  [.call 0 (.change ⟨"a.mjml"⟩ .changed), .advance (.caller 0), .advance (.caller 0), .advance (.caller 0),
    .advance (.caller 0), .endBuild (.worker 0) (.done ⟨[], 1⟩), .advance (.worker 0),
    .call 0 (.change ⟨"b.mjml"⟩ .changed), .advance (.caller 0), .advance (.caller 0), .advance (.caller 0),
    .advance (.caller 0), .endBuild (.worker 1) (.done ⟨[], 2⟩), .advance (.worker 1), .advance (.worker 1),
    .advance (.worker 0), .advance (.caller 0)]

theorem calls_paused (j : Nat) (call : Call) (h : .call j call ∈ pausedActions) : j = 0 := by
  simp only [pausedActions, List.mem_cons, Action.call.injEq, reduceCtorEq, false_or, or_false,
    List.not_mem_nil] at h
  obtain ⟨rfl, -⟩ | ⟨rfl, -⟩ := h <;> rfl

theorem reports_late_by_one_of_paused :
    ∃ s, ({} : Coordinator).steps? pausedActions = some s ∧ s.callers 0 = .free ∧
      ∃ result, endsIn (.worker 0) pausedActions = [result] ∧ sentBy (.worker 0) s.sent = report result :=
  ⟨_, rfl, rfl, (reports_late_by_one calls_paused rfl).2.1 rfl 0 Nat.one_lt_two⟩

/-- **Results of neighbours can be reported out of order.**  One thread alone calls, no build crashes, and the
first one is over before the second one begins; still its result comes last. -/
theorem neighbours_reported_out_of_order :
    (∀ j call, .call j call ∈ pausedActions → j = 0) ∧
      ∃ s, ({} : Coordinator).steps? pausedActions = some s ∧
        s.sent =
          [(.caller 0, .started (some ⟨"a.mjml"⟩)), (.caller 0, .started (some ⟨"b.mjml"⟩)),
            (.worker 1, .finished ⟨[], 2⟩), (.worker 0, .finished ⟨[], 1⟩)] :=
  ⟨calls_paused, _, rfl, rfl⟩

end Order

end Coordinator

end MailTemplate
