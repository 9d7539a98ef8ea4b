import MailTemplate.Build.Basic
import MailTemplate.Watch.Event

/-!
# Coordinating builds

Any number of threads call a coordinator, which starts builds in workers.  A flag tells that a build
is running, and whoever sets it holds the guard until the build is over.  A change that comes while the
flag is set is dropped.  The coordinator keeps the worker that was started last, so that somebody can
wait for it.

Every thread works in atomic steps, and the steps of different threads come in any order.  A state of
the coordinator tells which step every thread makes next, what was sent to the channel of events and
what the calls have answered.

## Main definitions

* `Coordinator` — a state.
* `Coordinator.Call`, `Coordinator.Caller`, `Coordinator.Worker` — calls, and what threads do next.
* `Coordinator.step?` — one atomic step.
* `Coordinator.Reaches` — some steps one after the other.

## Main results

* `Coordinator.Reaches.trans`, `Coordinator.Reaches.single` — steps go on from steps.
-/

namespace MailTemplate

namespace Coordinator

/-- A call of the coordinator. -/
inductive Call where
  /-- A file has changed. -/
  | change (path : Path) (change : Change)
  /-- Build once before watching. -/
  | initialBuild
  /-- Wait until the build that was started last is over. -/
  | waitIdle
  deriving DecidableEq, Repr

/-- What a calling thread does next. -/
inductive Caller where
  /-- It is in no call. -/
  | free
  /-- It sends that a file is gone, and answers. -/
  | reporting (path : Path)
  /-- It tries to take the guard for a change. -/
  | asking (path : Path)
  /-- It sends that a change was dropped, and answers. -/
  | dropping (path : Path)
  /-- It holds the guard and sends that a build starts. -/
  | announcing (path : Path)
  /-- It holds the guard, and starts a worker that takes the guard over. -/
  | spawning
  /-- It keeps the worker that it has started instead of the one before. -/
  | storing (worker : Nat)
  /-- It waits for the worker before the one that it has started, and answers. -/
  | reaping (worker : Nat)
  /-- It takes the kept worker away to wait for it, perhaps with a build to come. -/
  | taking (isInitial : Bool)
  /-- It waits for a worker, perhaps with a build to come. -/
  | waiting (worker : Nat) (isInitial : Bool)
  /-- It tries to take the guard for the first build. -/
  | claiming
  /-- It sends that the first build starts. -/
  | opening (isHolder : Bool)
  /-- It is in the first build. -/
  | building (isHolder : Bool)
  /-- The first build is over, and it gives the guard back. -/
  | releasing (isHolder : Bool) (result : Build.Result)
  /-- It sends the result of the first build. -/
  | closing (result : Build.Result)
  deriving DecidableEq, Repr

/-- What a worker does next. -/
inductive Worker where
  /-- It holds the guard and is in its build. -/
  | building
  /-- Its build is over, and it gives the guard back. -/
  | releasing (result : Build.Result)
  /-- It sends its result. -/
  | closing (result : Build.Result)
  /-- It has ended. -/
  | ended
  deriving DecidableEq, Repr

/-- A thread. -/
inductive Thread where
  /-- One that calls. -/
  | caller (i : Nat)
  /-- A worker, by the order in which workers were started. -/
  | worker (k : Nat)
  deriving DecidableEq, Repr

end Coordinator

/-- A state of the coordinator and of all threads. -/
structure Coordinator where
  /-- Whether a build is running. -/
  isBuilding : Bool := false
  /-- The worker that is kept to be waited for. -/
  kept : Option Nat := none
  /-- The workers in the order in which they were started. -/
  workers : List Coordinator.Worker := []
  /-- The threads that call. -/
  callers : Nat → Coordinator.Caller := fun _ => .free
  /-- The events that were sent, each with the thread that sent it. -/
  sent : List (Coordinator.Thread × WatchEvent) := []
  /-- The answers to changes, each with the thread that called. -/
  answers : List (Nat × Dispatch) := []

namespace Coordinator

/-! ## Parts of steps -/

/-- A state with a caller that does something else next. -/
def withCaller (s : Coordinator) (i : Nat) (caller : Caller) : Coordinator :=
  { s with callers := fun j => if j = i then caller else s.callers j }

/-- A state with a worker that does something else next. -/
def withWorker (s : Coordinator) (k : Nat) (worker : Worker) : Coordinator :=
  { s with workers := s.workers.set k worker }

/-- A state with the flag set or cleared. -/
def withFlag (s : Coordinator) (isBuilding : Bool) : Coordinator := { s with isBuilding }

/-- A state with another worker kept, or none. -/
def withKept (s : Coordinator) (kept : Option Nat) : Coordinator := { s with kept }

/-- A state after an event was sent. -/
def send (s : Coordinator) (thread : Thread) (event : WatchEvent) : Coordinator :=
  { s with sent := s.sent ++ [(thread, event)] }

/-- The event that tells of a result.  There is none after a crash. -/
def resultEvent? : Build.Result → Option WatchEvent
  | .done run => some (.finished run)
  | .failed fault => some (.failed fault.message)
  | .crashed => none

/-- A state after a result was sent. -/
def sendResult (s : Coordinator) (thread : Thread) (result : Build.Result) : Coordinator :=
  match resultEvent? result with
  | some event => s.send thread event
  | none => s

/-- A state after the call of a thread was answered. -/
def answer (s : Coordinator) (i : Nat) (dispatch : Dispatch) : Coordinator :=
  { s with answers := s.answers ++ [(i, dispatch)] }.withCaller i .free

/-- Whether a worker has ended. -/
def hasEnded (s : Coordinator) (k : Nat) : Bool := s.workers[k]? == some .ended

/-- What a caller does next when nothing is left to wait for. -/
def afterWait (isInitial : Bool) : Caller := if isInitial then .claiming else .free

/-- What a thread does first in a call. -/
def Call.first : Call → Caller
  | .change path .removed => .reporting path
  | .change path _ => .asking path
  | .initialBuild => .taking true
  | .waitIdle => .taking false

/-! ## Steps -/

/-- The next step of a calling thread.  There is none outside of calls, in a build, and while the
worker that the thread waits for has not ended. -/
def advanceCaller? (s : Coordinator) (i : Nat) : Option Coordinator :=
  let thread := Thread.caller i
  match s.callers i with
  | .free | .building _ => none
  | .reporting path => some ((s.send thread (.removed path)).answer i .reported)
  | .asking path =>
    if s.isBuilding then some (s.withCaller i (.dropping path))
    else some ((s.withFlag true).withCaller i (.announcing path))
  | .dropping path => some ((s.send thread (.dropped path)).answer i .ignored)
  | .announcing path => some ((s.send thread (.started (some path))).withCaller i .spawning)
  | .spawning =>
    some ({ s with workers := s.workers ++ [Worker.building] }.withCaller i (.storing s.workers.length))
  | .storing k =>
    match s.kept with
    | none => some ((s.withKept (some k)).answer i .started)
    | some before => some ((s.withKept (some k)).withCaller i (.reaping before))
  | .reaping k => if s.hasEnded k then some (s.answer i .started) else none
  | .taking isInitial =>
    match s.kept with
    | none => some (s.withCaller i (afterWait isInitial))
    | some k => some ((s.withKept none).withCaller i (.waiting k isInitial))
  | .waiting k isInitial =>
    if s.hasEnded k then some (s.withCaller i (afterWait isInitial)) else none
  | .claiming =>
    if s.isBuilding then some (s.withCaller i (.opening false))
    else some ((s.withFlag true).withCaller i (.opening true))
  | .opening isHolder => some ((s.send thread (.started none)).withCaller i (.building isHolder))
  | .releasing isHolder result =>
    some ((if isHolder then s.withFlag false else s).withCaller i (.closing result))
  | .closing result => some ((s.sendResult thread result).withCaller i .free)

/-- The next step of a worker.  There is none in a build and after the end. -/
def advanceWorker? (s : Coordinator) (k : Nat) : Option Coordinator :=
  match s.workers[k]? with
  | some (.releasing result) => some ((s.withFlag false).withWorker k (.closing result))
  | some (.closing result) => some ((s.sendResult (.worker k) result).withWorker k .ended)
  | _ => none

/-- The end of the build that a thread is in. -/
def endBuild? (s : Coordinator) (result : Build.Result) : Thread → Option Coordinator
  | .caller i =>
    match s.callers i with
    | .building isHolder => some (s.withCaller i (.releasing isHolder result))
    | _ => none
  | .worker k =>
    match s.workers[k]? with
    | some .building => some (s.withWorker k (.releasing result))
    | _ => none

/-- What happens in an atomic step. -/
inductive Action where
  /-- A free thread begins a call. -/
  | call (i : Nat) (call : Call)
  /-- The build that a thread is in ends. -/
  | endBuild (thread : Thread) (result : Build.Result)
  /-- A thread makes its next step. -/
  | advance (thread : Thread)

/-- The state after an atomic step, if the step is possible. -/
def step? (s : Coordinator) : Action → Option Coordinator
  | .call i call =>
    match s.callers i with
    | .free => some (s.withCaller i call.first)
    | _ => none
  | .endBuild thread result => s.endBuild? result thread
  | .advance (.caller i) => s.advanceCaller? i
  | .advance (.worker k) => s.advanceWorker? k

/-- The state after some steps one after the other, if they are possible. -/
def steps? (s : Coordinator) : List Action → Option Coordinator
  | [] => some s
  | action :: rest => (s.step? action).bind (·.steps? rest)

/-- Whether some steps lead from one state to another. -/
def Reaches (s t : Coordinator) : Prop := ∃ actions, s.steps? actions = some t

theorem steps?_append (s : Coordinator) (first rest : List Action) :
    s.steps? (first ++ rest) = (s.steps? first).bind (·.steps? rest) := by
  induction first generalizing s with
  | nil => rfl
  | cons action first ih =>
    simp only [List.cons_append, steps?]
    cases s.step? action with
    | none => rfl
    | some t => exact ih t

theorem Reaches.trans {s t u : Coordinator} (hst : Reaches s t) (htu : Reaches t u) :
    Reaches s u := by
  obtain ⟨first, hfirst⟩ := hst
  obtain ⟨rest, hrest⟩ := htu
  exact ⟨first ++ rest, by rw [steps?_append, hfirst]; exact hrest⟩

theorem Reaches.single {s t : Coordinator} {action : Action} (h : s.step? action = some t) :
    Reaches s t := ⟨[action], by simp [steps?, h]⟩

/-! ## One thread after the other -/

/-- The state after a thread has made as many steps as it can, up to a number. -/
def drive : Nat → Thread → Coordinator → Coordinator
  | 0, _, s => s
  | n + 1, thread, s =>
    match s.step? (.advance thread) with
    | none => s
    | some t => drive n thread t

theorem reaches_drive (n : Nat) (thread : Thread) (s : Coordinator) :
    Reaches s (drive n thread s) := by
  induction n generalizing s with
  | zero => exact ⟨[], rfl⟩
  | succ n ih =>
    simp only [drive]
    split
    · exact ⟨[], rfl⟩
    · next t h => exact (Reaches.single h).trans (ih t)

/-- No call has more steps than this. -/
def longestCall : Nat := 8

/-- The state after an action of a thread and all the steps that the thread can make then. -/
def follow (s : Coordinator) (action : Action) (thread : Thread) : Coordinator :=
  match s.step? action with
  | none => s
  | some t => drive longestCall thread t

theorem reaches_follow (s : Coordinator) (action : Action) (thread : Thread) :
    Reaches s (s.follow action thread) := by
  simp only [follow]
  split
  · exact ⟨[], rfl⟩
  · next t h => exact (Reaches.single h).trans (reaches_drive ..)

/-- The events that were sent, in order. -/
def events (s : Coordinator) : List WatchEvent := s.sent.map Prod.snd

end Coordinator

end MailTemplate
