import MailTemplate.Project.Layout

/-!
# Changes that matter

A change matters if the file is a template or a fragment, lies neither in the output nor in the
exports, and no directory on the way to it is hidden or ignored.

## Main definitions

* `ChangeFilter` — what is left out.
* `ChangeFilter.isRelevant` — whether a change of a path matters.
-/

namespace MailTemplate

/-- What decides which changes matter. -/
structure ChangeFilter where
  /-- The project root. -/
  root : Path
  /-- Directories relative to it that are left out. -/
  pruned : List Path
  /-- Names of directories that are left out. -/
  ignored : List String
  deriving DecidableEq, Repr

namespace ChangeFilter

/-- The filter of a project. -/
def ofSettings (root : Path) (settings : PathSettings) : ChangeFilter :=
  let layout := Layout.ofSettings ⟨""⟩ settings
  ⟨root, [layout.output, layout.exports], settings.ignoredDirectories⟩

/-- Whether a name is that of a hidden entry. -/
def isHidden (name : String) : Bool := name.toList.head? == some '.' && name ≠ "." && name ≠ ".."

/-- Whether a change of a path matters. -/
def isRelevant (filter : ChangeFilter) (path : Path) : Bool :=
  let relative := path.strip filter.root
  let directories := (relative.parent?.map Path.components).getD []
  relative.extension? == some "mjml" && !filter.pruned.any relative.startsWith &&
    !directories.any fun c => isHidden c.text || filter.ignored.contains c.text

end ChangeFilter

end MailTemplate
