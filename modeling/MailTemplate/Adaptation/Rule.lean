import MailTemplate.Markup.Document
import MailTemplate.Text.Edit

/-!
# Rules of adaptation

A rule looks at a document and proposes edits of its source; a rule that proposes none is skipped.
Rules run one after the other, each on the result of the one before, which is read anew.

## Main definitions

* `Rule` — a named function from documents to edits.
* `Rule.applyTo` — one rule on one source.
* `applyRules` — a list of rules on a source, with the names of those that did something.

## Main results

* `applyRules_nil`, `applyRules_cons_of_edits_eq_nil`, `applyRules_cons_of_edits_ne_nil` — how a list of
  rules runs.
* `html_applyRules_cons`, `html_applyRules_append` — what it makes of a source.
-/

namespace MailTemplate

/-- A named rule. -/
structure Rule where
  /-- Its name. -/
  name : String
  /-- The edits that it proposes for a document. -/
  edits : Document → List Edit

namespace Rule

/-- The edits of a rule for a source. -/
def editsOf (rule : Rule) (source : String) : List Edit := rule.edits (Document.read source)

/-- A source with the edits of a rule.  Edits that do not fit the source would leave it as it is. -/
def applyTo (rule : Rule) (source : String) : String :=
  (Edit.applyTo? (rule.editsOf source) source).getD source

theorem applyTo_of_editsOf_eq_nil {rule : Rule} {source : String} (h : rule.editsOf source = []) :
    rule.applyTo source = source := by
  rw [applyTo, h, Edit.applyTo?_nil, Option.getD_some]

end Rule

/-- The result of a list of rules. -/
structure Adapted where
  /-- The adapted source. -/
  html : String
  /-- The rules that proposed edits, in order. -/
  applied : List String
  /-- The other rules, in order. -/
  skipped : List String
  deriving DecidableEq, Repr

/-- A source adapted by rules, one after the other. -/
def applyRules : List Rule → String → Adapted
  | [], source => ⟨source, [], []⟩
  | rule :: rules, source =>
    if rule.editsOf source = [] then
      let rest := applyRules rules source
      { rest with skipped := rule.name :: rest.skipped }
    else
      let rest := applyRules rules (rule.applyTo source)
      { rest with applied := rule.name :: rest.applied }

theorem applyRules_nil (source : String) : applyRules [] source = ⟨source, [], []⟩ := rfl

theorem applyRules_cons_of_edits_eq_nil {rule : Rule} {source : String} (rules : List Rule)
    (h : rule.editsOf source = []) :
    applyRules (rule :: rules) source =
      { applyRules rules source with skipped := rule.name :: (applyRules rules source).skipped } := by
  simp [applyRules, h]

theorem applyRules_cons_of_edits_ne_nil {rule : Rule} {source : String} (rules : List Rule)
    (h : rule.editsOf source ≠ []) :
    applyRules (rule :: rules) source =
      { applyRules rules (rule.applyTo source) with
        applied := rule.name :: (applyRules rules (rule.applyTo source)).applied } := by
  simp [applyRules, h]

theorem html_applyRules_cons (rule : Rule) (rules : List Rule) (source : String) :
    (applyRules (rule :: rules) source).html = (applyRules rules (rule.applyTo source)).html := by
  by_cases h : rule.editsOf source = []
  · rw [applyRules_cons_of_edits_eq_nil rules h, Rule.applyTo_of_editsOf_eq_nil h]
  · rw [applyRules_cons_of_edits_ne_nil rules h]

theorem html_applyRules_append (rules more : List Rule) (source : String) :
    (applyRules (rules ++ more) source).html =
      (applyRules more (applyRules rules source).html).html := by
  induction rules generalizing source with
  | nil => rfl
  | cons rule rules ih => rw [List.cons_append, html_applyRules_cons, html_applyRules_cons, ih]

end MailTemplate
