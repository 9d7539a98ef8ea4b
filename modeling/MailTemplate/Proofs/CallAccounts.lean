import MailTemplate.Proofs.BuildReports

/-!
# Accounts of calls

When one thread alone calls, everything that it does can be booked to its calls: each finished call has sent
what belongs to it, was answered as it had to be, and has carried out its own build if it is a first build; and
the call that is not finished has done a part of this.  The builds of workers are booked to the changes that
started them: the one that was announced as the `k`-th is that of the `k`-th worker, which reports its result
once, after the announcement, unless it crashes.

Two things are about moments of a run.  A change is refused only while the build of a worker holds the guard;
the flag is never left behind.  And when a wait is over, there is nothing left to wait for.

## Main definitions

* `Coordinator.Account`, `Coordinator.accountOf` — what was called, sent, answered and built.
* `Coordinator.Entry`, `Coordinator.Midway` — the accounts of finished calls, and of an unfinished one.
* `Coordinator.Accounted` — all that is accounted for in a run.

## Main results

* `Coordinator.LoneRun.booked` — a run is the sum of its calls.
* `Coordinator.LoneRun.idle_of_waited` — after a wait every build is over and reported.
* `Coordinator.calls_accounted` — every run is accounted for.
-/

namespace MailTemplate

namespace Coordinator

/-! ## Accounts -/

/-- What a calling thread was about. -/
structure Account where
  /-- Its calls. -/
  calls : List Call := []
  /-- What it has sent. -/
  events : List WatchEvent := []
  /-- How its changes were answered. -/
  answers : List Dispatch := []
  /-- How its first builds have ended. -/
  results : List Build.Result := []

namespace Account

/-- One account after the other. -/
instance : Append Account where
  append a b := ⟨a.calls ++ b.calls, a.events ++ b.events, a.answers ++ b.answers, a.results ++ b.results⟩

theorem append_eq (a b : Account) :
    a ++ b = ⟨a.calls ++ b.calls, a.events ++ b.events, a.answers ++ b.answers, a.results ++ b.results⟩ := rfl

theorem append_assoc (a b c : Account) : a ++ b ++ c = a ++ (b ++ c) := by
  simp [append_eq, List.append_assoc]

theorem append_empty (a : Account) : a ++ {} = a := by simp [append_eq]

end Account

/-- A call that is over, with what it has come to. -/
inductive Entry where
  /-- A file is gone, which was reported. -/
  | reported (path : Path)
  /-- A change has started a build. -/
  | started (path : Path) (change : Change) (hchange : change ≠ .removed)
  /-- A change was dropped. -/
  | ignored (path : Path) (change : Change) (hchange : change ≠ .removed)
  /-- A first build, with its result. -/
  | built (result : Build.Result)
  /-- A wait. -/
  | waited

/-- **What belongs to a call**: a change sends one event, which says the same as its answer, and a first build
sends that it starts and what comes of it. -/
def Entry.account : Entry → Account
  | .reported path => ⟨[.change path .removed], [.removed path], [.reported], []⟩
  | .started path change _ => ⟨[.change path change], [.started (some path)], [.started], []⟩
  | .ignored path change _ => ⟨[.change path change], [.dropped path], [.ignored], []⟩
  | .built result => ⟨[.initialBuild], .started none :: report result, [], [result]⟩
  | .waited => ⟨[.waitIdle], [], [], []⟩

/-- The accounts of some calls together. -/
def total : List Entry → Account
  | [] => {}
  | entry :: log => entry.account ++ total log

theorem total_concat (log : List Entry) (entry : Entry) :
    total (log ++ [entry]) = total log ++ entry.account := by
  induction log with
  | nil => simp [total, Account.append_eq]
  | cons first log ih => rw [List.cons_append, total, total, ih, Account.append_assoc]

/-- The call of a thread that waits, perhaps with a build to come. -/
def waitCall (isInitial : Bool) : Call := if isInitial then .initialBuild else .waitIdle

/-- What belongs to a call that is not over, by what the caller does next. -/
inductive Midway : Caller → Account → Prop
  /-- There is no call. -/
  | free : Midway .free {}
  /-- A file is gone. -/
  | reporting (path : Path) : Midway (.reporting path) ⟨[.change path .removed], [], [], []⟩
  /-- A change asks for the guard. -/
  | asking (path : Path) (change : Change) (hchange : change ≠ .removed) :
    Midway (.asking path) ⟨[.change path change], [], [], []⟩
  /-- A change has not got the guard. -/
  | dropping (path : Path) (change : Change) (hchange : change ≠ .removed) :
    Midway (.dropping path) ⟨[.change path change], [], [], []⟩
  /-- A change has got the guard. -/
  | announcing (path : Path) (change : Change) (hchange : change ≠ .removed) :
    Midway (.announcing path) ⟨[.change path change], [], [], []⟩
  /-- A build was announced. -/
  | spawning (path : Path) (change : Change) (hchange : change ≠ .removed) :
    Midway .spawning ⟨[.change path change], [.started (some path)], [], []⟩
  /-- A worker was started. -/
  | storing (k : Nat) (path : Path) (change : Change) (hchange : change ≠ .removed) :
    Midway (.storing k) ⟨[.change path change], [.started (some path)], [], []⟩
  /-- A worker was started and kept. -/
  | reaping (k : Nat) (path : Path) (change : Change) (hchange : change ≠ .removed) :
    Midway (.reaping k) ⟨[.change path change], [.started (some path)], [], []⟩
  /-- It is going to wait. -/
  | taking (isInitial : Bool) : Midway (.taking isInitial) ⟨[waitCall isInitial], [], [], []⟩
  /-- It waits. -/
  | waiting (k : Nat) (isInitial : Bool) : Midway (.waiting k isInitial) ⟨[waitCall isInitial], [], [], []⟩
  /-- A first build asks for the guard. -/
  | claiming : Midway .claiming ⟨[.initialBuild], [], [], []⟩
  /-- A first build is about to begin. -/
  | opening (isHolder : Bool) : Midway (.opening isHolder) ⟨[.initialBuild], [], [], []⟩
  /-- A first build has begun. -/
  | building (isHolder : Bool) : Midway (.building isHolder) ⟨[.initialBuild], [.started none], [], []⟩
  /-- A first build is over. -/
  | releasing (isHolder : Bool) (result : Build.Result) :
    Midway (.releasing isHolder result) ⟨[.initialBuild], [.started none], [], [result]⟩
  /-- A first build is over and has given the guard back. -/
  | closing (result : Build.Result) : Midway (.closing result) ⟨[.initialBuild], [.started none], [], [result]⟩

/-- The answers to a thread. -/
def answersTo (i : Nat) (answers : List (Nat × Dispatch)) : List Dispatch :=
  answers.filterMap fun (j, dispatch) => if j = i then some dispatch else none

@[simp] theorem answersTo_append (i : Nat) (answers more : List (Nat × Dispatch)) :
    answersTo i (answers ++ more) = answersTo i answers ++ answersTo i more := List.filterMap_append

@[simp] theorem answersTo_map (i : Nat) (dispatches : List Dispatch) :
    answersTo i (dispatches.map (i, ·)) = dispatches := by
  simp [answersTo, List.filterMap_map, Function.comp_def]

/-- What a calling thread was about in a run. -/
def accountOf (i : Nat) (actions : List Action) (s : Coordinator) : Account :=
  ⟨callsIn actions, sentBy (.caller i) s.sent, answersTo i s.answers, endsIn (.caller i) actions⟩

/-- **A run is the sum of its calls,** of which the last one may be unfinished. -/
def Booked (i : Nat) (actions : List Action) (s : Coordinator) : Prop :=
  ∃ log draft, Midway (s.callers i) draft ∧ accountOf i actions s = total log ++ draft

section Booked

variable {s t : Coordinator} {i k : Nat} {actions : List Action} {action : Action} {draft more : Account}

/-- A step of a caller adds to its account what it sends and how it answers. -/
theorem accountOf_advance {events : List WatchEvent} {dispatches : List Dispatch} (actions : List Action)
    (thread : Thread) (hsent : t.sent = s.sent ++ events.map (Thread.caller i, ·))
    (hanswers : t.answers = s.answers ++ dispatches.map (i, ·)) :
    accountOf i (actions ++ [.advance thread]) t = accountOf i actions s ++ ⟨[], events, dispatches, []⟩ := by
  simp [accountOf, Account.append_eq, hsent, hanswers, callsIn, endsIn]

/-- What has been done in a call goes on, or it is all that belongs to the call. -/
def GoesOn (caller : Caller) (draft : Account) : Prop :=
  Midway caller draft ∨ caller = .free ∧ ∃ entry : Entry, entry.account = draft

theorem Booked.of_goesOn {log : List Entry} (hlog : accountOf i actions s = total log ++ draft)
    (hmore : accountOf i (actions ++ [action]) t = accountOf i actions s ++ more)
    (hgoes : GoesOn (t.callers i) (draft ++ more)) : Booked i (actions ++ [action]) t := by
  have haccount : accountOf i (actions ++ [action]) t = total log ++ (draft ++ more) := by
    rw [hmore, hlog, Account.append_assoc]
  rcases hgoes with hmidway | ⟨hfree, entry, hentry⟩
  · exact ⟨log, draft ++ more, hmidway, haccount⟩
  · refine ⟨log ++ [entry], {}, hfree ▸ .free, ?_⟩
    rw [haccount, total_concat, hentry, Account.append_empty]

/-- A step sends and answers what the call goes on with. -/
def Adds (draft : Account) (i : Nat) (s t : Coordinator) : Prop :=
  ∃ events dispatches, t.sent = s.sent ++ events.map (Thread.caller i, ·) ∧
    t.answers = s.answers ++ dispatches.map (i, ·) ∧
    GoesOn (t.callers i) (draft ++ ⟨[], events, dispatches, []⟩)

theorem Adds.of_withCaller {caller : Caller} (events : List WatchEvent)
    (hsent : t.sent = s.sent ++ events.map (Thread.caller i, ·)) (hanswers : t.answers = s.answers)
    (hgoes : GoesOn caller (draft ++ ⟨[], events, [], []⟩)) : Adds draft i s (t.withCaller i caller) := by
  refine ⟨events, [], hsent, hanswers.trans (List.append_nil _).symm, ?_⟩
  rwa [withCaller_callers]

/-- A step that sends nothing and does not answer. -/
theorem Adds.of_silent {caller : Caller} (hsent : t.sent = s.sent) (hanswers : t.answers = s.answers)
    (hmidway : Midway caller draft) : Adds draft i s (t.withCaller i caller) :=
  .of_withCaller [] (hsent.trans (List.append_nil _).symm) hanswers
    (.inl ((Account.append_empty draft).symm ▸ hmidway))

/-- A step that answers, which is the last one of a call. -/
theorem Adds.of_answer {dispatch : Dispatch} (events : List WatchEvent) (entry : Entry)
    (hsent : t.sent = s.sent ++ events.map (Thread.caller i, ·)) (hanswers : t.answers = s.answers)
    (hentry : entry.account = draft ++ ⟨[], events, [dispatch], []⟩) : Adds draft i s (t.answer i dispatch) :=
  ⟨events, [dispatch], hsent, congrArg (· ++ [(i, dispatch)]) hanswers, .inr ⟨if_pos rfl, entry, hentry⟩⟩

/-- When a wait is over, the call is over or goes on with a first build. -/
theorem Adds.of_afterWait (isInitial : Bool) (hdraft : draft = ⟨[waitCall isInitial], [], [], []⟩) :
    Adds draft i s (s.withCaller i (afterWait isInitial)) := by
  subst hdraft
  refine .of_withCaller [] (List.append_nil _).symm rfl ?_
  cases isInitial with
  | true => exact .inl .claiming
  | false => exact .inr ⟨rfl, .waited, rfl⟩

/-- **A step of the caller** does the next thing that belongs to its call. -/
theorem CallerStep.adds (hstep : CallerStep s i t) (hmidway : Midway (s.callers i) draft) :
    Adds draft i s t := by
  cases hstep with
  | tell path hcaller =>
    rw [hcaller] at hmidway
    cases hmidway
    exact .of_answer [.removed path] (.reported path) rfl rfl rfl
  | refuse path hcaller =>
    rw [hcaller] at hmidway
    cases hmidway with
    | asking _ change hchange => exact .of_silent rfl rfl (.dropping path change hchange)
  | acquire path hcaller =>
    rw [hcaller] at hmidway
    cases hmidway with
    | asking _ change hchange => exact .of_silent rfl rfl (.announcing path change hchange)
  | drop path hcaller =>
    rw [hcaller] at hmidway
    cases hmidway with
    | dropping _ change hchange =>
      exact .of_answer [.dropped path] (.ignored path change hchange) rfl rfl rfl
  | announce path hcaller =>
    rw [hcaller] at hmidway
    cases hmidway with
    | announcing _ change hchange =>
      exact .of_withCaller [.started (some path)] rfl rfl (.inl (.spawning path change hchange))
  | spawn hcaller =>
    rw [hcaller] at hmidway
    cases hmidway with
    | spawning path change hchange => exact .of_silent rfl rfl (.storing s.workers.length path change hchange)
  | keep k hcaller =>
    rw [hcaller] at hmidway
    cases hmidway with
    | storing _ path change hchange =>
      exact .of_answer [] (.started path change hchange) (List.append_nil _).symm rfl rfl
  | replace k before hcaller =>
    rw [hcaller] at hmidway
    cases hmidway with
    | storing _ path change hchange => exact .of_silent rfl rfl (.reaping before path change hchange)
  | reap k hcaller =>
    rw [hcaller] at hmidway
    cases hmidway with
    | reaping _ path change hchange =>
      exact .of_answer [] (.started path change hchange) (List.append_nil _).symm rfl rfl
  | pass isInitial hcaller =>
    rw [hcaller] at hmidway
    cases hmidway
    exact .of_afterWait isInitial rfl
  | take k isInitial hcaller =>
    rw [hcaller] at hmidway
    cases hmidway
    exact .of_silent rfl rfl (.waiting k isInitial)
  | meet k isInitial hcaller =>
    rw [hcaller] at hmidway
    cases hmidway
    exact .of_afterWait isInitial rfl
  | miss hcaller =>
    rw [hcaller] at hmidway
    cases hmidway
    exact .of_silent rfl rfl (.opening false)
  | claim hcaller =>
    rw [hcaller] at hmidway
    cases hmidway
    exact .of_silent rfl rfl (.opening true)
  | begin isHolder hcaller =>
    rw [hcaller] at hmidway
    cases hmidway
    exact .of_withCaller [.started none] rfl rfl (.inl (.building isHolder))
  | release isHolder result hcaller =>
    rw [hcaller] at hmidway
    cases hmidway
    cases isHolder <;> exact .of_silent rfl rfl (.closing result)
  | close result hcaller =>
    rw [hcaller] at hmidway
    cases hmidway
    exact .of_withCaller (report result) (sendResult_sent ..) (sendResult_answers ..)
      (.inr ⟨rfl, .built result, rfl⟩)

theorem Call.midway_first (call : Call) : Midway call.first ⟨[call], [], [], []⟩ := by
  cases call with
  | change path change =>
    cases change with
    | removed => exact .reporting path
    | added => exact .asking path .added (by simp)
    | changed => exact .asking path .changed (by simp)
  | initialBuild => exact .taking true
  | waitIdle => exact .taking false

/-- **Every run is the sum of its calls.** -/
theorem LoneRun.booked (h : LoneRun i actions s) : Booked i actions s := by
  refine LoneRun.induct (P := Booked i) ⟨[], {}, .free, rfl⟩ ?_ h
  intro actions action s t hrun hbooked hstep
  obtain ⟨log, draft, hmidway, hlog⟩ := hbooked
  -- The steps of workers leave the log and the draft alone; those of the caller add to the draft.
  cases hstep with
  | call call hcaller =>
    rw [hcaller] at hmidway
    cases hmidway
    have hmore : accountOf i (actions ++ [.call i call]) (s.withCaller i call.first) =
        accountOf i actions s ++ ⟨[call], [], [], []⟩ := by
      simp [accountOf, Account.append_eq, callsIn, endsIn, withCaller]
    refine .of_goesOn hlog hmore (.inl ?_)
    rw [withCaller_callers]
    exact call.midway_first
  | built isHolder result hcaller =>
    rw [hcaller] at hmidway
    cases hmidway
    have hmore : accountOf i (actions ++ [.endBuild (.caller i) result])
        (s.withCaller i (.releasing isHolder result)) = accountOf i actions s ++ ⟨[], [], [], [result]⟩ := by
      simp [accountOf, Account.append_eq, callsIn, endsIn, withCaller]
    refine .of_goesOn hlog hmore (.inl ?_)
    rw [withCaller_callers]
    exact .releasing isHolder result
  | workerBuilt k result hworker =>
    refine ⟨log, draft, hmidway, Eq.trans ?_ hlog⟩
    simp [accountOf, callsIn, endsIn, withWorker]
  | caller hstep =>
    obtain ⟨events, dispatches, hsent, hanswers, hgoes⟩ := hstep.adds hmidway
    exact .of_goesOn hlog (accountOf_advance actions _ hsent hanswers) hgoes
  | worker k hstep =>
    cases hstep with
    | release result =>
      refine ⟨log, draft, hmidway, Eq.trans ?_ hlog⟩
      simp [accountOf, callsIn, endsIn, withWorker, withFlag]
    | close result =>
      refine ⟨log, draft, by simpa [withWorker] using hmidway, Eq.trans ?_ hlog⟩
      simp [accountOf, callsIn, endsIn, withWorker, sentBy_map_of_ne]

end Booked

/-! ## Builds of workers -/

section Builds

variable {s t : Coordinator} {i k : Nat} {actions : List Action} {action : Action}

/-- Nobody sends but the caller and the workers whose builds were announced. -/
theorem LoneRun.senders (h : LoneRun i actions s) {thread : Thread} {event : WatchEvent}
    (hmem : (thread, event) ∈ s.sent) : thread = .caller i ∨ ∃ k < startsIn s.sent, thread = .worker k := by
  have hthread : thread = .caller i ∨ ∃ k, thread = .worker k := by
    revert hmem
    refine LoneRun.induct (P := fun _ s => (thread, event) ∈ s.sent →
      thread = .caller i ∨ ∃ k, thread = .worker k) (by simp) ?_ h
    intro actions action s t _ hbefore hstep hmem
    cases hstep with
    | call => exact hbefore hmem
    | built => exact hbefore hmem
    | workerBuilt => exact hbefore hmem
    | caller hstep =>
      obtain ⟨events, hsent⟩ := hstep.exists_sent
      rw [hsent] at hmem
      rcases List.mem_append.1 hmem with hmem | hmem
      · exact hbefore hmem
      · obtain ⟨event', -, heq⟩ := List.mem_map.1 hmem
        exact .inl (Prod.mk.inj heq).1.symm
    | worker k hstep =>
      cases hstep with
      | release => exact hbefore hmem
      | close result =>
        rcases List.mem_append.1 ((sendResult_sent ..) ▸ hmem) with hmem | hmem
        · exact hbefore hmem
        · obtain ⟨event', -, heq⟩ := List.mem_map.1 hmem
          exact .inr ⟨k, (Prod.mk.inj heq).1.symm⟩
  -- What a worker sends comes after the announcement of its build, since every run is timely.
  refine hthread.imp_right fun ⟨k, hk⟩ => ⟨k, ?_, hk⟩
  obtain ⟨front, back, hsent⟩ := List.append_of_mem (hk ▸ hmem)
  have hafter := (h.paced.timely front k event back hsent).1
  rw [hsent, startsIn_append]
  omega

/-- **The build that is announced** after some others is that of the worker with this number, which has
reported nothing before. -/
theorem LoneRun.recorded_after (h : LoneRun i actions s) {front back : List (Thread × WatchEvent)}
    {path : Path} (hsent : s.sent = front ++ (.caller i, .started (some path)) :: back) :
    sentBy (.worker (startsIn front)) front = [] ∧
      Recorded s.workers[startsIn front]? (endsIn (.worker (startsIn front)) actions)
        (sentBy (.worker (startsIn front)) back) := by
  obtain ⟨k, hk⟩ : ∃ k, startsIn front = k := ⟨_, rfl⟩
  rw [hk]
  have hfront : sentBy (.worker k) front = [] := by
    refine List.eq_nil_iff_forall_not_mem.2 fun event hmem => ?_
    obtain ⟨before, after, rfl⟩ := List.append_of_mem (mem_sentBy_iff.1 hmem)
    have hlate := (h.paced.timely before k event (after ++ (.caller i, .started (some path)) :: back)
      (by simpa using hsent)).1
    rw [startsIn_append] at hk
    omega
  have hrecorded := h.recorded k
  rw [hsent, sentBy_append, hfront, sentBy_cons_of_ne (by simp), List.nil_append] at hrecorded
  exact ⟨hfront, hrecorded⟩

theorem exists_ended_of_closing {result : Build.Result} (hworker : s.workers[k]? = some (.closing result)) :
    ∃ t, s.steps? [.advance (.worker k)] = some t ∧ t.workers[k]? = some .ended := by
  refine ⟨(s.sendResult (.worker k) result).withWorker k .ended, ?_, ?_⟩
  · simp [steps?, step?, advanceWorker?, hworker]
  · exact getElem?_withWorker_self ((sendResult_workers ..).symm ▸ hworker) .ended

theorem exists_ended_of_releasing {result : Build.Result}
    (hworker : s.workers[k]? = some (.releasing result)) :
    ∃ t, s.steps? [.advance (.worker k), .advance (.worker k)] = some t ∧ t.workers[k]? = some .ended := by
  have hstep : s.step? (.advance (.worker k)) = some ((s.withFlag false).withWorker k (.closing result)) := by
    simp [step?, advanceWorker?, hworker]
  obtain ⟨t, ht, hended⟩ := exists_ended_of_closing
    (getElem?_withWorker_self (s := s.withFlag false) hworker (.closing result))
  exact ⟨t, by rw [steps?, hstep]; exact ht, hended⟩

/-- **A worker gets to its end** by steps of its own, however its build ends. -/
theorem exists_ended {worker : Worker} (hworker : s.workers[k]? = some worker) (result : Build.Result) :
    ∃ more t, more <:+ [.endBuild (.worker k) result, .advance (.worker k), .advance (.worker k)] ∧
      s.steps? more = some t ∧ t.workers[k]? = some .ended := by
  cases worker with
  | building =>
    have hstep : s.step? (.endBuild (.worker k) result) = some (s.withWorker k (.releasing result)) := by
      simp [step?, endBuild?, hworker]
    obtain ⟨t, ht, hended⟩ := exists_ended_of_releasing (getElem?_withWorker_self hworker (.releasing result))
    exact ⟨_, t, List.suffix_refl _, by rw [steps?, hstep]; exact ht, hended⟩
  | releasing =>
    obtain ⟨t, ht, hended⟩ := exists_ended_of_releasing hworker
    exact ⟨_, t, List.suffix_cons .., ht, hended⟩
  | closing =>
    obtain ⟨t, ht, hended⟩ := exists_ended_of_closing hworker
    exact ⟨_, t, (List.suffix_cons ..).trans (List.suffix_cons ..), ht, hended⟩
  | ended => exact ⟨[], s, List.nil_suffix, rfl, hworker⟩

end Builds

/-! ## Refusals and waits -/

section Moments

variable {s t : Coordinator} {i k : Nat} {actions : List Action} {action : Action} {path : Path}

/-- While the flag is set and the caller does not hold the guard, a worker holds it. -/
theorem LoneRun.exists_holds (h : LoneRun i actions s) (hflag : s.isBuilding = true)
    (hcaller : (s.callers i).holds = false) : ∃ k, s.Holds (.worker k) := by
  obtain ⟨owner, hguarded⟩ := h.guarded
  obtain ⟨thread, hthread⟩ := Option.isSome_iff_exists.1 (hguarded.flag.symm.trans hflag)
  have hholds := (hguarded.holds_iff thread).2 hthread
  cases thread with
  | worker k => exact ⟨k, hholds⟩
  | caller j =>
    -- Other threads are in no call, and this one does not hold the guard.
    have hnot : (s.callers j).holds = false := by
      by_cases hj : j = i
      · rw [hj, hcaller]
      · rw [h.attended.others j hj]
        rfl
    exact absurd (hholds.symm.trans hnot) (by simp)

/-- **A change is refused** only while a worker holds the guard. -/
theorem LoneRun.holds_of_refused (h : LoneRun i actions s) (hstep : LoneStep s i action t)
    (hdropping : t.callers i = .dropping path) :
    s.callers i = .dropping path ∨ s.callers i = .asking path ∧ ∃ k, s.Holds (.worker k) := by
  cases hstep with
  | call call =>
    rw [withCaller_callers] at hdropping
    cases call with
    | change path change => cases change <;> exact absurd hdropping (by simp [Call.first])
    | initialBuild => exact absurd hdropping (by simp [Call.first])
    | waitIdle => exact absurd hdropping (by simp [Call.first])
  | built => exact absurd (withCaller_callers .. ▸ hdropping) (by simp)
  | workerBuilt => exact .inl hdropping
  | worker k hstep =>
    cases hstep with
    | release => exact .inl hdropping
    | close => exact .inl (by simpa [withWorker] using hdropping)
  | caller hstep =>
    cases hstep with
    | refuse path' hcaller hflag =>
      -- The caller asks for the guard, so the flag that it meets was set by a worker.
      rw [withCaller_callers] at hdropping
      obtain rfl : path' = path := by simpa using hdropping
      exact .inr ⟨hcaller, h.exists_holds hflag (by rw [hcaller]; rfl)⟩
    | pass isInitial =>
      rw [withCaller_callers] at hdropping
      cases isInitial <;> exact absurd hdropping (by simp [afterWait])
    | meet k isInitial =>
      rw [withCaller_callers] at hdropping
      cases isInitial <;> exact absurd hdropping (by simp [afterWait])
    | _ => exact absurd hdropping (by simp [withCaller_callers, answer])

/-- The result of a build is no report of a dropped change. -/
theorem sent_report_ne {thread other : Thread} (result : Build.Result)
    (hsent : s.sent ++ (report result).map (other, ·) = s.sent ++ [(thread, .dropped path)]) : False := by
  have hmem : (thread, WatchEvent.dropped path) ∈ (report result).map (other, ·) := by
    rw [List.append_cancel_left hsent]
    exact List.mem_singleton_self _
  cases result <;> simp [report, resultEvent?] at hmem

/-- Only a change that was refused is reported as dropped. -/
theorem LoneStep.of_dropped {thread : Thread} (hstep : LoneStep s i action t)
    (hsent : t.sent = s.sent ++ [(thread, .dropped path)]) :
    thread = .caller i ∧ s.callers i = .dropping path := by
  cases hstep with
  | caller hstep =>
    cases hstep with
    | drop path' hcaller =>
      obtain ⟨rfl, rfl⟩ : Thread.caller i = thread ∧ path' = path := by
        simpa [send, answer, withCaller] using hsent
      exact ⟨rfl, hcaller⟩
    | close result => exact (sent_report_ne result ((sendResult_sent ..).symm.trans hsent)).elim
    | release isHolder =>
      cases isHolder <;> exact absurd hsent (by simp [withCaller, withFlag])
    | _ => exact absurd hsent (by simp [send, answer, withCaller, withFlag, withKept])
  | worker k hstep =>
    cases hstep with
    | release => exact absurd hsent (by simp [withWorker, withFlag])
    | close result => exact (sent_report_ne result ((sendResult_sent ..).symm.trans hsent)).elim
  | _ => exact absurd hsent (by simp [withCaller, withWorker])

/-- Nothing is going on: no worker runs, the flag is clear, and every build of a worker is reported. -/
structure IsIdle (actions : List Action) (s : Coordinator) : Prop where
  /-- The flag is clear. -/
  flag : s.isBuilding = false
  /-- All workers have ended. -/
  ended : ∀ worker ∈ s.workers, worker = .ended
  /-- Every announced build has ended and, unless it has crashed, was reported once. -/
  reported : ∀ k < startsIn s.sent, ∃ result,
    endsIn (.worker k) actions = [result] ∧ sentBy (.worker k) s.sent = report result

theorem LoneRun.isIdle (h : LoneRun i actions s) {isInitial : Bool} (hcaller : s.callers i = afterWait isInitial)
    (hkept : s.kept = none) : IsIdle actions s := by
  -- A worker that had not ended would be kept or looked after, and after a wait there is none of these.
  have hended : ∀ k < s.workers.length, s.workers[k]? = some .ended := by
    refine fun k hk => ended_of_not_unended hk fun worker hworker hlive => ?_
    rcases h.attended.tended k worker hworker hlive with hkept' | htended
    · rw [hkept] at hkept'
      exact absurd hkept' (by simp)
    · rw [hcaller] at htended
      cases isInitial <;> exact absurd htended (by simp [afterWait, Caller.tended?])
  refine ⟨?_, fun worker hmem => ?_, fun k hk => ?_⟩
  · refine Bool.eq_false_iff.2 fun hflag => ?_
    have hholds : (s.callers i).holds = false := by
      rw [hcaller]
      cases isInitial <;> rfl
    obtain ⟨k, worker, hworker, hholds⟩ := h.exists_holds hflag hholds
    rw [hended k (List.getElem?_eq_some_iff.1 hworker).1] at hworker
    obtain rfl := Option.some.inj hworker
    exact absurd hholds (by simp [Worker.holds])
  · obtain ⟨k, hk⟩ := List.mem_iff_getElem?.1 hmem
    rw [hended k (List.getElem?_eq_some_iff.1 hk).1] at hk
    exact (Option.some.inj hk).symm
  · have hannounced := h.paced.announced
    have hahead : (s.callers i).ahead = 0 := by
      rw [hcaller]
      cases isInitial <;> rfl
    exact h.reported (hended k (by omega))

/-- Whether a caller that does this next waits for a worker. -/
def Caller.waits : Caller → Bool
  | .taking _ | .waiting .. => true
  | _ => false

theorem CallerStep.kept_of_waited (hstep : CallerStep s i t) (hattended : s.Attended i)
    (hwait : (s.callers i).waits = true) (hover : (t.callers i).waits = false) : t.kept = none := by
  have htaken := hattended.taken
  cases hstep with
  | pass isInitial hcaller hkept => exact hkept
  | meet k isInitial hcaller => exact htaken (by rw [hcaller]; rfl)
  | take => exact absurd hover (by simp [withCaller_callers, Caller.waits])
  | _ => simp_all [Caller.waits]

/-- **When a wait is over,** there is nothing left to wait for. -/
theorem LoneRun.idle_of_waited (h : LoneRun i actions s) (hnext : LoneRun i (actions ++ [action]) t)
    {isInitial : Bool} (hwait : (s.callers i).waits = true) (hover : t.callers i = afterWait isInitial) :
    IsIdle (actions ++ [action]) t := by
  have hnot : (t.callers i).waits = false := by
    rw [hover]
    cases isInitial <;> rfl
  refine hnext.isIdle hover ?_
  cases h.step_of_concat hnext with
  | call call hcaller => exact absurd hwait (by simp [hcaller, Caller.waits])
  | built isHolder result hcaller => exact absurd hwait (by simp [hcaller, Caller.waits])
  | workerBuilt => exact absurd (hwait.symm.trans hnot) (by simp)
  | caller hstep => exact hstep.kept_of_waited h.attended hwait hnot
  | worker k hstep =>
    cases hstep with
    | release => exact absurd (hwait.symm.trans hnot) (by simp)
    | close => exact absurd (hwait.symm.trans (by simpa [withWorker] using hnot)) (by simp)

end Moments

/-! ## Runs are accounted for -/

/-- All that is accounted for in a run in which one thread makes the calls. -/
structure Accounted (i : Nat) (actions : List Action) (s : Coordinator) : Prop where
  /-- What was called, sent, answered and built by the caller is what belongs to its finished calls, and to
  the call that is not finished. -/
  calls : Booked i actions s
  /-- Nobody else sends but the workers whose builds were announced. -/
  senders : ∀ thread event, (thread, event) ∈ s.sent →
    thread = .caller i ∨ ∃ k < startsIn s.sent, thread = .worker k
  /-- The build that is announced after `k` others is that of worker `k`, which reports its result once,
  afterwards, unless it crashes. -/
  builds : ∀ front path back, s.sent = front ++ (.caller i, .started (some path)) :: back →
    sentBy (.worker (startsIn front)) front = [] ∧
      Recorded s.workers[startsIn front]? (endsIn (.worker (startsIn front)) actions)
        (sentBy (.worker (startsIn front)) back)
  /-- However its build ends, a worker gets to its end by its own steps. -/
  ends : ∀ k worker result, s.workers[k]? = some worker → ∃ more t,
    more <:+ [.endBuild (.worker k) result, .advance (.worker k), .advance (.worker k)] ∧
      s.steps? more = some t ∧ t.workers[k]? = some .ended
  /-- A change is refused only while a worker holds the guard. -/
  refusals : ∀ action t path, LoneRun i (actions ++ [action]) t → t.callers i = .dropping path →
    s.callers i = .dropping path ∨ s.callers i = .asking path ∧ ∃ k, s.Holds (.worker k)
  /-- Only a change that was refused is reported as dropped. -/
  drops : ∀ action t thread path, LoneRun i (actions ++ [action]) t →
    t.sent = s.sent ++ [(thread, .dropped path)] → thread = .caller i ∧ s.callers i = .dropping path
  /-- When a wait is over, nothing is going on and everything is reported. -/
  waits : ∀ action t isInitial, LoneRun i (actions ++ [action]) t → (s.callers i).waits = true →
    t.callers i = afterWait isInitial → IsIdle (actions ++ [action]) t

/-- **Every run of one caller is accounted for.** -/
theorem calls_accounted {i : Nat} {actions : List Action} {s : Coordinator}
    (hcalls : ∀ j call, .call j call ∈ actions → j = i)
    (hsteps : ({} : Coordinator).steps? actions = some s) : Accounted i actions s where
  calls := LoneRun.booked ⟨hcalls, hsteps⟩
  senders _ _ hmem := LoneRun.senders ⟨hcalls, hsteps⟩ hmem
  builds _ _ _ hsent := LoneRun.recorded_after ⟨hcalls, hsteps⟩ hsent
  ends _ _ result hworker := exists_ended hworker result
  refusals _ _ _ hnext hdropping :=
    have h : LoneRun i actions s := ⟨hcalls, hsteps⟩
    h.holds_of_refused (h.step_of_concat hnext) hdropping
  drops _ _ _ _ hnext hsent :=
    have h : LoneRun i actions s := ⟨hcalls, hsteps⟩
    (h.step_of_concat hnext).of_dropped hsent
  waits _ _ _ hnext hwait hover := LoneRun.idle_of_waited ⟨hcalls, hsteps⟩ hnext hwait hover

/-- One thread starts a build, has a change dropped, reports that a file is gone, and waits.  The build
crashes meanwhile. -/
def variedActions : List Action :=
  [.call 0 (.change ⟨"a.mjml"⟩ .changed), .advance (.caller 0), .advance (.caller 0), .advance (.caller 0),
    .advance (.caller 0), .call 0 (.change ⟨"b.mjml"⟩ .added), .advance (.caller 0), .advance (.caller 0),
    .call 0 (.change ⟨"c.mjml"⟩ .removed), .advance (.caller 0), .endBuild (.worker 0) .crashed,
    .advance (.worker 0), .advance (.worker 0), .call 0 .waitIdle, .advance (.caller 0), .advance (.caller 0)]

theorem calls_accounted_of_varied :
    ∃ s, ({} : Coordinator).steps? variedActions = some s ∧ Accounted 0 variedActions s ∧
      s.answers = [(0, .started), (0, .ignored), (0, .reported)] ∧
      s.sent = [(.caller 0, .started (some ⟨"a.mjml"⟩)), (.caller 0, .dropped ⟨"b.mjml"⟩),
        (.caller 0, .removed ⟨"c.mjml"⟩)] := by
  have hcalls : ∀ j call, .call j call ∈ variedActions → j = 0 := by
    intro j call h
    simp only [variedActions, List.mem_cons, Action.call.injEq, reduceCtorEq, false_or, or_false,
      List.not_mem_nil] at h
    obtain ⟨rfl, -⟩ | ⟨rfl, -⟩ | ⟨rfl, -⟩ | ⟨rfl, -⟩ := h <;> rfl
  exact ⟨_, rfl, calls_accounted hcalls rfl, rfl, rfl⟩

end Coordinator

end MailTemplate
