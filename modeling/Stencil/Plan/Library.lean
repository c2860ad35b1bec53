import Stencil.Plan.Failure
import Stencil.Template
import Stencil.Warning

/-!
# Loading the templates of a run

Every markup file below the template root becomes a template under its name. Other
files are passed over with a warning. Two files of one name end the loading, and the
warnings up to there are kept.
-/

namespace Stencil.Templates

/-- The warning on a file that cannot be a template. -/
def ignoredWarning (rel : Path) : Warning :=
  ⟨none, "ignoring non-markup file in template directory: " ++ rel.text⟩

/-- Adds the templates in the given files to `sofar`. The warnings are returned whether
or not the loading comes to an end. -/
def loadFrom (t : FileTree) :
    (files : List Source) → (sofar : Templates) → List Warning × Except PlanFailure Templates
  | [], sofar => ([], .ok sofar)
  | file :: files, sofar =>
    if file.isMarkup then
      match file.text t with
      | .error e => ([], .error (.ofRead e))
      | .ok content =>
        let template := Template.ofSource file content
        match sofar[template.name]? with
        | some first => ([], .error (.duplicateTemplate template.name first.path template.path))
        | none => loadFrom t files (sofar.insert template.name template)
    else
      let (warnings, result) := loadFrom t files sofar
      (ignoredWarning file.rel :: warnings, result)

/-- The templates in the given files. -/
def load (t : FileTree) (files : List Source) : List Warning × Except PlanFailure Templates :=
  loadFrom t files ∅

end Stencil.Templates
