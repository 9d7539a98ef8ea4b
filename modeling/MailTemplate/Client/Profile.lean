import MailTemplate.Client.Basic
import MailTemplate.Adaptation.CellClasses
import MailTemplate.Adaptation.EmojiEntities
import MailTemplate.Adaptation.FontFallback
import MailTemplate.Adaptation.HeadMeta
import MailTemplate.Adaptation.OfficeSettings
import MailTemplate.Adaptation.OutlookStyles
import MailTemplate.Adaptation.VmlBackground
import MailTemplate.Adaptation.ZeroFontSpacer

/-!
# Client profiles

The profile of a client lists the rules that adapt a document for it, in order, and the containers
that it needs.

## Main definitions

* `Profile` — rules and containers.
* `Client.profile` — the profile of a client under some settings.
* `Profile.adapt` — a document adapted for a client.
-/

namespace MailTemplate

/-- The rules and containers of a client. -/
structure Profile where
  /-- The client. -/
  client : Client
  /-- Its rules in order. -/
  rules : List Rule
  /-- Its containers in order. -/
  containers : List Container

namespace Profile

/-- The rules for Outlook. -/
def outlookRules (settings : OutlookSettings) : List Rule :=
  [CellClasses.rule settings.cellClasses, OfficeSettings.rule,
    OutlookStyles.rule settings.columnClasses, ZeroFontSpacer.rule,
    FontFallback.rule settings.webFonts settings.fallbackFonts,
    VmlBackground.rule settings.backgroundWidth, EmojiEntities.rule]

/-- The profile of clients that read plain HTML. -/
def html (settings : HtmlSettings) : Profile :=
  ⟨.html, [HeadMeta.rule settings.title], [.html]⟩

/-- The profile of Outlook. -/
def outlook (settings : OutlookSettings) : Profile :=
  ⟨.outlook, outlookRules settings, [.single, .nested, .html]⟩

/-- The names of the rules. -/
def ruleNames (profile : Profile) : List String := profile.rules.map Rule.name

/-- A document adapted for a client. -/
def adapt (profile : Profile) (html : String) : Adapted := applyRules profile.rules html

/-- A profile in one line, for diagnostics. -/
def describe (profile : Profile) : String :=
  let client := match profile.client with
    | .html => "Html"
    | .outlook => "Outlook"
  let container (c : Container) : String := match c with
    | .single => "SinglePart"
    | .nested => "NestedMultipart"
    | .html => "Html"
  let quoted := profile.ruleNames.map fun n => "\"" ++ n ++ "\""
  "ClientProfile \x7b client: " ++ client ++ ", rules: [" ++ String.intercalate ", " quoted ++
    "], containers: [" ++ String.intercalate ", " (profile.containers.map container) ++ "] \x7d"

end Profile

/-- The profile of a client under some settings. -/
def Client.profile (client : Client) (settings : Settings) : Profile :=
  match client with
  | .html => .html settings.html
  | .outlook => .outlook settings.outlook

end MailTemplate
