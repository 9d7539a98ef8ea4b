import MailTemplate.Watch.Coordinator

/-!
# Watching a project

A session watches one project with one calling thread.  Its coordinator tells what happens, and the
builds of its workers are carried out on a disk.  A build begins with the change that starts it, and
is over when the session settles.

## Main definitions

* `WatchSession` — a session.
* `WatchSession.change`, `WatchSession.settle`, `WatchSession.initialBuild` — its operations.

## Main results

* `WatchSession.reaches_change` — a change makes steps of the coordinator only.
-/

namespace MailTemplate

/-- A session that watches a project. -/
structure WatchSession where
  /-- The project root. -/
  root : Path
  /-- The settings. -/
  settings : Settings
  /-- The state of the coordinator. -/
  coordinator : Coordinator := {}
  /-- The build that is in progress. -/
  inFlight : Option Build.Begun := none

namespace WatchSession

open Coordinator (Action Call Thread)

/-- The thread that calls. -/
def caller : Nat := 0

/-- A session after a call of its thread. -/
def after (session : WatchSession) (call : Call) : WatchSession :=
  { session with
    coordinator := session.coordinator.follow (.call caller call) (.caller caller) }

/-- A session after a build of a thread has ended. -/
def ended (session : WatchSession) (thread : Thread) (result : Build.Result) : WatchSession :=
  { session with coordinator := session.coordinator.follow (.endBuild thread result) thread }

/-- Whether a build is running. -/
def isBuilding (session : WatchSession) : Bool := session.coordinator.isBuilding

/-- Reacts to a change of a file, and tells what it led to. -/
def change (session : WatchSession) (path : Path) (kind : Change) :
    StateM Disk (WatchSession × Dispatch) := do
  let next := session.after (.change path kind)
  let dispatch := (next.coordinator.answers.getLast?.map Prod.snd).getD .ignored
  if dispatch = .started then
    let begun ← Build.begin session.root session.settings
    return ({ next with inFlight := some begun }, dispatch)
  else return (next, dispatch)

/-- Lets the build in progress come to its end, and waits for it. -/
def settle (session : WatchSession) (compiler : Compiler) (elapsed : Nat) :
    StateM Disk WatchSession := do
  match session.inFlight with
  | none => return session.after .waitIdle
  | some begun =>
    let result ← Build.finish session.root compiler elapsed begun
    let worker := session.coordinator.workers.length - 1
    return { (session.ended (.worker worker) result).after .waitIdle with inFlight := none }

/-- Builds once before watching. -/
def initialBuild (session : WatchSession) (compiler : Compiler) (elapsed : Nat) :
    StateM Disk (WatchSession × Build.Result) := do
  let settled ← session.settle compiler elapsed
  let opened := settled.after .initialBuild
  let result ← Build.run session.root session.settings compiler elapsed
  return (opened.ended (.caller caller) result, result)

/-- Whether the root of a project can be watched. -/
def canWatch (disk : Disk) (root : Path) : Bool := disk.contains root

theorem reaches_change (session : WatchSession) (path : Path) (kind : Change) (disk : Disk) :
    Coordinator.Reaches session.coordinator
      ((session.change path kind).run disk).1.1.coordinator := by
  have h := Coordinator.reaches_follow session.coordinator (.call caller (.change path kind))
    (.caller caller)
  simp only [change]
  split
  · exact h
  · exact h

end WatchSession

end MailTemplate
