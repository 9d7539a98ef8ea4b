import MailTemplate.Settings.Decode
import MailTemplate.Settings.Encode

/-!
# Configuration files

A project's configuration file is laid over the stock settings and then read and validated.  The
stock configuration file says what the stock settings say, with an explanation of every setting.

## Main definitions

* `Settings.stockFile` — the stock configuration file.
* `Settings.ofText` — the settings that a configuration file gives.
-/

namespace MailTemplate

namespace Settings

/-- The lines of the stock configuration file. -/
def stockLines : List String :=
  ["# mailpress configuration",
    "# =======================",
    "# All settings are optional. Remove or comment out any you don't need.",
    "# Values shown below are the defaults. Unknown keys cause an error.",
    "",
    "# Prefix for archive bundle names: <project_name>-<YYYY-MM-DD>-<group>.tar.gz",
    "project_name = \"newsletter\"",
    "",
    "# ---------------------------------------------------------------------------",
    "# Project layout (relative to the project root)",
    "# ---------------------------------------------------------------------------",
    "[paths]",
    "# Templates under this directory are written straight into the output root",
    "# (src/campaigns/spring.mjml -> dist/spring.html). Templates elsewhere keep",
    "# their directory structure (promo/launch.mjml -> dist/promo/launch.html).",
    "source_root = \"src\"",
    "output = \"dist\"",
    "exports = \"exports\"",
    "",
    "# Shared fragments pulled in with <mj-include>. Never compiled on their own,",
    "# but edits to them still trigger a rebuild in watch mode.",
    "components = \"components\"",
    "",
    "# Globs selecting templates. \"*.mjml\" only matches files in the project root.",
    "include = [\"src/**/*.mjml\", \"*.mjml\"]",
    "",
    "# Globs removing templates from the selection. Exclusion always wins.",
    "exclude = [\"**/components/**\", \"node_modules/**\"]",
    "",
    "# Directory names never descended into.",
    "ignored_dirs = [\"node_modules\"]",
    "",
    "# ---------------------------------------------------------------------------",
    "# Markup compiler",
    "# ---------------------------------------------------------------------------",
    "[compiler]",
    "# Invoked as: <command> <args...> -i -s --config.filePath <template>",
    "command = \"mjml\"",
    "args = []",
    "",
    "# ---------------------------------------------------------------------------",
    "# Generic HTML export (exports/html/)",
    "# ---------------------------------------------------------------------------",
    "[html]",
    "# Injected when a document has no <title>.",
    "title = \"Newsletter\"",
    "",
    "# ---------------------------------------------------------------------------",
    "# Outlook export (exports/outlook/)",
    "# ---------------------------------------------------------------------------",
    "[outlook]",
    "# font-family declarations naming any of these are replaced.",
    "web_fonts = [\"Montserrat\"]",
    "fallback_fonts = \"Arial, sans-serif\"",
    "",
    "# Width of the VML rectangle behind tables without a pixel width.",
    "vml_width = \"600px\"",
    "",
    "# Column classes whose presentation tables get height: 100%.",
    "column_classes = [\"mj-column-per-60\", \"mj-column-per-40\"]",
    "",
    "# Table cells matching every style below receive the class.",
    "# A value of \"*\" matches any value.",
    "[[outlook.cell_classes]]",
    "class = \"article-inner\"",
    "styles = \x7b \"background-color\" = \"#E4E7DB\" \x7d",
    "",
    "[[outlook.cell_classes]]",
    "class = \"article-frame\"",
    "styles = \x7b \"border\" = \"*\", \"padding\" = \"*\" \x7d",
    "",
    "# ---------------------------------------------------------------------------",
    "# Archives (exports/archives/)",
    "# ---------------------------------------------------------------------------",
    "[archive]",
    "# Gzip level, 0-9.",
    "compression = 9",
    "",
    "# Root-level files added to the source and complete bundles.",
    "source_files = [\"*.mjml\", \"package.json\"]",
    "",
    "# Root-level files added to the complete bundle only.",
    "extra_files = [\"README.md\"]",
    "",
    "# ---------------------------------------------------------------------------",
    "# Processing",
    "# ---------------------------------------------------------------------------",
    "[processing]",
    "# Maximum templates compiled in parallel.",
    "# Omit or comment out to auto-detect (= number of CPU cores).",
    "# max_processes = 4"]

/-- The stock configuration file. -/
def stockFile : String := String.join (stockLines.map (· ++ "\n"))

/-- What can be wrong with a configuration file. -/
inductive TextFault where
  /-- It is no configuration file. -/
  | malformed
  /-- A field is wrong. -/
  | field (fault : FieldFault)
  /-- The settings are not valid. -/
  | invalid (reason : Invalid)
  deriving DecidableEq, Repr

/-- The text of what is wrong. -/
def TextFault.message : TextFault → String
  | malformed => "TOML parse error"
  | field fault => "TOML parse error: " ++ fault.message
  | invalid reason => "Config validation error: " ++ reason.message

/-- The settings that a table gives when it is laid over the stock settings. -/
def ofTable (entries : List (String × Toml.Value)) : Except TextFault Settings := do
  let settings ← (decode (Toml.Value.mergeEntries stock.encode entries)).mapError .field
  settings.validate.mapError .invalid
  return settings

/-- The settings that a configuration file gives. -/
def ofText (text : String) : Except TextFault Settings :=
  match Toml.parse? text with
  | none => .error .malformed
  | some entries => ofTable entries

end Settings

end MailTemplate
