import Stencil.FileTree.Edit
import Stencil.Plan

/-!
# Outputs of planned documents

`process` turns a planned document into its output: the expanded text, or a copy where
expansion would change nothing. `save` puts an output below the output root. It refuses
when the place is not as planning saw it: a new document must find nothing there, a
replacing one must find its file.
-/

namespace Stencil

/-- What to put at the place of a document in the output. -/
inductive Output
  | text (content : String)
  /-- The bytes of the source. -/
  | copy
  deriving DecidableEq, Repr

/-- Why an output could not be written. -/
inductive WriteFailure
  | io (path : Path) (cause : IoFailure)
  | alreadyExists (path : Path)
  | missingTarget (path : Path)
  deriving DecidableEq, Repr

/-- The wording of a failure to write. -/
def WriteFailure.message : WriteFailure → String
  | io path cause => "failed to write " ++ path.text ++ ": " ++ cause.message
  | alreadyExists path => "refusing to create " ++ path.text ++ ": a file already exists there"
  | missingTarget path => "refusing to replace " ++ path.text ++ ": the file is gone"

namespace PlannedUnit

/-- The output of a planned document and the warnings of its expansion, which carry its
relative path. -/
def process (u : PlannedUnit) (t : FileTree) (templates : Templates) (limit : Nat) :
    Except PlanFailure (Output × List Warning) := do
  if !u.needsExpansion then return (.copy, [])
  let text ← (u.source.text t).mapError .ofRead
  let expansion ← (expand templates limit text).mapError (.document u.source.path)
  return (.text expansion.text, expansion.warnings.map fun w => ⟨some u.source.rel.text, w⟩)

/-- Where the output of a document goes. -/
def target (u : PlannedUnit) (root : Path) : Path := root.join u.source.rel

/-- Why the place of the output is not as planning saw it, if it is not. -/
def conflict? (u : PlannedUnit) (t : FileTree) (root : Path) : Option WriteFailure :=
  let path := u.target root
  match u.existing with
  | none => if t.pathExists path then some (.alreadyExists path) else none
  | some _ => if t.isFile path then none else some (.missingTarget path)

/-- The tree with an output in the file at a path. -/
def write (u : PlannedUnit) (output : Output) (path : Path) (time : Int) (t : FileTree) :
    Except IoFailure FileTree :=
  match output with
  | .text content => t.writeFile path content.toUTF8 time
  | .copy => t.copyFile u.source.path path time

/-- Saves the output of a document below `root` at the given time. Directories made on
the way stay even when the writing fails. -/
def save (u : PlannedUnit) (output : Output) (root : Path) (time : Int) (t : FileTree) :
    FileTree × Except WriteFailure Unit :=
  match u.conflict? t root with
  | some failure => (t, .error failure)
  | none =>
    let path := u.target root
    match t.makeParents time path with
    | (t, .error cause) => (t, .error (.io path cause))
    | (t, .ok ()) =>
      match u.write output path time t with
      | .error cause => (t, .error (.io path cause))
      | .ok t => (t, .ok ())

end PlannedUnit

/-- The outputs of all planned documents with the warnings in their order. The first
document that fails decides the failure. -/
def Plan.processAll (p : Plan) (t : FileTree) (limit : Nat) :
    Except PlanFailure (List Output × List Warning) := do
  let results ← p.units.mapM fun u => u.process t p.templates limit
  return (results.map Prod.fst, (results.map Prod.snd).flatten)

end Stencil
