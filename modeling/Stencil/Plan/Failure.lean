import Stencil.Defect
import Stencil.Inventory

/-!
# Failures before writing

What stops a run before it has written anything: a file that cannot be read, a defect
of a document, or two templates of one name.
-/

namespace Stencil

/-- Why a run stopped before it wrote anything. -/
inductive PlanFailure
  | scan (failure : ScanFailure)
  /-- The document at the path has a defect. -/
  | document (path : Path) (defect : Defect)
  /-- Two files hold templates of one name. -/
  | duplicateTemplate (name : String) (first second : Path)
  deriving DecidableEq, Repr

/-- The wording of a failure. -/
def PlanFailure.message : PlanFailure → String
  | scan failure => failure.message
  | document path defect => "[ " ++ path.text ++ " ] " ++ defect.message
  | duplicateTemplate name first second =>
    "templates " ++ first.text ++ " and " ++ second.text ++ " are both named `" ++ name ++ "`"

/-- A file that could not be read stops the run. -/
def PlanFailure.ofRead (e : ReadFailure) : PlanFailure := .scan (.read e)

end Stencil
