import MailTemplate.Watch.Event

/-!
# Notifications of the file system

The file system notifies of what happened to some paths.  A notification is read as changes of
single files.  A renaming that names both paths removes the first and adds the second.

## Main definitions

* `NotificationKind` — what a notification says.
* `NotificationKind.change?` — the change that all its paths underwent.
* `changesOf` — the changes of single files.
-/

namespace MailTemplate

/-- Which paths a notification of a renaming names. -/
inductive RenamePaths where
  /-- It is not known. -/
  | unknown
  /-- Old paths. -/
  | old
  /-- New paths. -/
  | new
  /-- An old path and a new one. -/
  | both
  /-- Others. -/
  | other
  deriving DecidableEq, Repr

/-- What a notification says. -/
inductive NotificationKind where
  /-- It is not known. -/
  | unknown
  /-- Files were read. -/
  | access
  /-- Files were made. -/
  | create
  /-- Contents were changed, or something that is not known. -/
  | content
  /-- Only facts about files were changed. -/
  | metadata
  /-- Files were renamed. -/
  | rename (paths : RenamePaths)
  /-- Files were removed. -/
  | remove
  /-- Something else happened. -/
  | other
  deriving DecidableEq, Repr

/-- The change that all paths of a notification underwent, if it is the same for all. -/
def NotificationKind.change? : NotificationKind → Option Change
  | unknown | access | other | metadata | rename .both => none
  | create | rename .new => some .added
  | content | rename .unknown | rename .other => some .changed
  | remove | rename .old => some .removed

/-- The changes that a notification about some paths brings. -/
def changesOf (kind : NotificationKind) (paths : List Path) : List (Path × Change) :=
  if kind = .rename .both then paths.zip [.removed, .added]
  else
    match kind.change? with
    | none => []
    | some change => paths.map (·, change)

end MailTemplate
