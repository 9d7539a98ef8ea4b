import MailTemplate.Project.Layout

/-!
# Planning a build

Every template is given the place of its document before anything is compiled.  The first template
that leads to a place claims it; the later ones collide.

## Main definitions

* `PlannedOutput` — a template with the place of its document.
* `planOutputs` — the places for a list of templates.

## Main results

* `length_planOutputs` — there is one place for every template.
-/

namespace MailTemplate

/-- A template with the place of its document. -/
structure PlannedOutput where
  /-- The template. -/
  source : Path
  /-- The place. -/
  output : Path
  /-- The template that has claimed the place. -/
  collidesWith : Option Path
  deriving DecidableEq, Repr

/-- The places for templates behind others that have claimed some places. -/
def planAfter (claimed : List (Path × Path)) (outputOf : Path → Path) :
    List Path → List PlannedOutput
  | [] => []
  | source :: sources =>
    let output := outputOf source
    match claimed.find? fun (place, _) => place.alike output with
    | some (_, first) => ⟨source, output, some first⟩ :: planAfter claimed outputOf sources
    | none => ⟨source, output, none⟩ :: planAfter (claimed ++ [(output, source)]) outputOf sources

/-- The places for a list of templates. -/
def planOutputs (sources : List Path) (sourceRoot outputRoot : Path) : List PlannedOutput :=
  planAfter [] (fun source => outputPath source sourceRoot outputRoot) sources

theorem length_planAfter (claimed : List (Path × Path)) (outputOf : Path → Path)
    (sources : List Path) : (planAfter claimed outputOf sources).length = sources.length := by
  induction sources generalizing claimed with
  | nil => rfl
  | cons source sources ih =>
    simp only [planAfter]
    split <;> simp [ih]

theorem length_planOutputs (sources : List Path) (sourceRoot outputRoot : Path) :
    (planOutputs sources sourceRoot outputRoot).length = sources.length :=
  length_planAfter ..

end MailTemplate
