/-!
# Settings of a project

The settings say where a project keeps its templates and its results, which compiler it uses, and
how compiled documents are adapted and bundled.  Every field has a stock default.

## Main definitions

* `Settings` — all settings of a project, with `Settings.stock` as their defaults.
* `CellSignature` — styles by which a table cell is recognised, and the class it then receives.
-/

namespace MailTemplate

/-- Where sources live and where results go, relative to the project root. -/
structure PathSettings where
  /-- Templates below this directory lose their directories in the output. -/
  sourceRoot : String := "src"
  /-- The directory of compiled documents. -/
  output : String := "dist"
  /-- The directory of exports and archives. -/
  exports : String := "exports"
  /-- The directory of shared fragments. -/
  components : String := "components"
  /-- Globs that select templates. -/
  includes : List String := ["src/**/*.mjml", "*.mjml"]
  /-- Globs that remove templates from the selection. -/
  excludes : List String := ["**/components/**", "node_modules/**"]
  /-- Names of directories that are never entered. -/
  ignoredDirectories : List String := ["node_modules"]
  deriving DecidableEq, Repr

/-- The external compiler. -/
structure CompilerSettings where
  /-- The program to run. -/
  command : String := "mjml"
  /-- Arguments that come before those that every call has. -/
  arguments : List String := []
  deriving DecidableEq, Repr

/-- Settings of the export for clients that read plain HTML. -/
structure HtmlSettings where
  /-- The title of documents that have none. -/
  title : String := "Newsletter"
  deriving DecidableEq, Repr

/-- Styles by which a table cell is recognised, and the class that it then receives. -/
structure CellSignature where
  /-- The class. -/
  className : String
  /-- Properties with the values they must have, a star standing for any value, in the order of the
  properties. -/
  styles : List (String × String)
  deriving DecidableEq, Repr

/-- Settings of the export for Outlook. -/
structure OutlookSettings where
  /-- Fonts that are replaced. -/
  webFonts : List String := ["Montserrat"]
  /-- The font list that replaces them. -/
  fallbackFonts : String := "Arial, sans-serif"
  /-- The width of a background when a table has none in pixels. -/
  backgroundWidth : String := "600px"
  /-- Classes of columns whose tables are stretched. -/
  columnClasses : List String := ["mj-column-per-60", "mj-column-per-40"]
  /-- Cells that receive a class. -/
  cellClasses : List CellSignature :=
    [⟨"article-inner", [("background-color", "#E4E7DB")]⟩,
      ⟨"article-frame", [("border", "*"), ("padding", "*")]⟩]
  deriving DecidableEq, Repr

/-- Settings of the archives. -/
structure ArchiveSettings where
  /-- The level of compression, from none at 0 to the best at 9. -/
  compression : Nat := 9
  /-- Globs for files of the root that go into the source and the complete bundle. -/
  sourceFiles : List String := ["*.mjml", "package.json"]
  /-- Globs for files of the root that go into the complete bundle only. -/
  extraFiles : List String := ["README.md"]
  deriving DecidableEq, Repr

/-- Settings of parallel compilation. -/
structure ProcessingSettings where
  /-- The greatest number of templates compiled at once; without it, as many as there are cores. -/
  maxProcesses : Option Nat := none
  deriving DecidableEq, Repr

/-- All settings of a project. -/
structure Settings where
  /-- The name that archives begin with. -/
  projectName : String := "newsletter"
  /-- Where things live. -/
  paths : PathSettings := {}
  /-- The compiler. -/
  compiler : CompilerSettings := {}
  /-- The HTML export. -/
  html : HtmlSettings := {}
  /-- The Outlook export. -/
  outlook : OutlookSettings := {}
  /-- The archives. -/
  archive : ArchiveSettings := {}
  /-- Parallel compilation. -/
  processing : ProcessingSettings := {}
  deriving DecidableEq, Repr

namespace Settings

/-- The settings of a project that says nothing. -/
def stock : Settings := {}

/-- How many templates are compiled at once on a machine with some cores: as many as there are
cores, or fewer if the settings say so, but at least one. -/
def threads (processing : ProcessingSettings) (cores : Nat) : Nat :=
  match processing.maxProcesses with
  | none => cores
  | some n => min (max 1 n) cores

end Settings

end MailTemplate
