import MailTemplate.Client.Basic
import MailTemplate.File.Path
import MailTemplate.Settings.Basic

/-!
# Where things live

The layout of a project says where its sources are and where every result goes.

## Main definitions

* `Layout` — the directories of a project.
* `outputPath` — where the compiled form of a template goes.
* `baseName` — the name that a document is exported under.
-/

namespace MailTemplate

/-- The directories of a project. -/
structure Layout where
  /-- The project root. -/
  root : Path
  /-- Templates below it lose their directories. -/
  sourceRoot : Path
  /-- Compiled documents. -/
  output : Path
  /-- Exports and archives. -/
  exports : Path
  /-- Shared fragments. -/
  components : Path
  deriving DecidableEq, Repr

namespace Layout

/-- The layout of a project at a root. -/
def ofSettings (root : Path) (settings : PathSettings) : Layout where
  root
  sourceRoot := root.child settings.sourceRoot
  output := root.child settings.output
  exports := root.child settings.exports
  components := root.child settings.components

/-- The directory of the exports for a client. -/
def clientDirectory (layout : Layout) (client : String) : Path := layout.exports.child client

/-- The directory of the archives. -/
def archives (layout : Layout) : Path := layout.exports.child "archives"

end Layout

/-- Where the compiled form of a template goes: a template below the source root into the output
root by its stem, any other one to its own place below the output root. -/
def outputPath (source sourceRoot outputRoot : Path) : Path :=
  if source.startsWith sourceRoot then outputRoot.child (source.stem ++ ".html")
  else outputRoot.join (source.withExtension "html")

/-- Where the compiled form of a template goes under some settings. -/
def PathSettings.outputOf (settings : PathSettings) (source : Path) : Path :=
  outputPath source ⟨settings.sourceRoot⟩ ⟨settings.output⟩

/-- The name that a document is exported under. -/
def baseName (document : Path) : String := document.stem

end MailTemplate
