import MailTemplate.Build.Run

/-!
# Events of watching

While a project is watched, changes of its files are reported and lead to builds.

## Main definitions

* `Change` — what happened to a file.
* `WatchEvent` — what is reported.
* `Dispatch` — what a change led to.
-/

namespace MailTemplate

/-- What happened to a file. -/
inductive Change where
  /-- It is new. -/
  | added
  /-- It differs from before. -/
  | changed
  /-- It is gone. -/
  | removed
  deriving DecidableEq, Repr

/-- What a change led to. -/
inductive Dispatch where
  /-- A build. -/
  | started
  /-- Nothing, since a build was running. -/
  | ignored
  /-- A report only. -/
  | reported
  deriving DecidableEq, Repr

/-- What is reported while a project is watched. -/
inductive WatchEvent where
  /-- A build starts because of a change, or as the first one. -/
  | started (trigger : Option Path)
  /-- A build has ended. -/
  | finished (run : BuildRun)
  /-- A build could not be made. -/
  | failed (error : String)
  /-- A change was dropped since a build is running. -/
  | dropped (path : Path)
  /-- A file is gone. -/
  | removed (path : Path)
  /-- Watching itself failed. -/
  | watcherError (error : String)
  deriving DecidableEq, Repr

end MailTemplate
