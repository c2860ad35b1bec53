import Stencil.Expansion
import Stencil.Plan.Library

/-!
# Planning a run

A plan says which documents have to be built. A document is built when there is no
output for it, when it or one of the templates it uses is newer than its output, or
when the run is told to build everything; equal times do not count as newer. Every
markup document is checked for its templates even when it need not be built. Output
without a document is reported and left alone.
-/

namespace Stencil

/-- A document that has to be built. -/
structure PlannedUnit where
  source : Source
  /-- The output that is there already. -/
  existing : Option Source
  /-- The names of the templates the document uses. -/
  templates : Std.ExtTreeSet String

namespace PlannedUnit

/-- Whether there is no output for the document yet. -/
def isNew (u : PlannedUnit) : Bool := u.existing.isNone

/-- Whether the output differs from the source: only markup that uses templates does. -/
def needsExpansion (u : PlannedUnit) : Bool := u.source.isMarkup && !u.templates.isEmpty

end PlannedUnit

/-- What a run has to do. -/
structure Plan where
  templates : Templates
  /-- The documents to build, in the order they were found. -/
  units : List PlannedUnit
  /-- The number of documents looked at. -/
  considered : Nat
  warnings : List Warning

namespace Plan

/-! ## Templates of a document -/

/-- The document with its text read, if it is markup, and the templates it uses, all of
which exist. The missing name reported is the first in order. -/
def templatesUsed (t : FileTree) (templates : Templates) (doc : Source) :
    Except PlanFailure (Source × Std.ExtTreeSet String) := do
  if !doc.isMarkup then return (doc, ∅)
  let text ← (doc.text t).mapError .ofRead
  let names ← (templateNames text).mapError (.document doc.path)
  match names.toList.find? fun name => !templates.contains name with
  | some missing => .error (.document doc.path (.unknownTemplate missing))
  | none => return ({ doc with text? := some text }, names)

/-! ## Freshness -/

/-- Whether an output has to be built again, given the time of the newest thing it is
made from. -/
def needsRebuild (newest : Int) (output : Option Int) : Bool :=
  match output with
  | none => true
  | some output => decide (output < newest)

/-- The later of a time and the time of a template, as the template keeps it. -/
def later (t : FileTree) (templates : Templates) (time : Int) (name : String) :
    Except ReadFailure Int :=
  match templates[name]? with
  | none => .ok time
  | some template => (template.source.time t).map (max time)

/-- The time of the newest of a document and the templates it uses. -/
def newest (t : FileTree) (templates : Templates) (u : PlannedUnit) : Except ReadFailure Int := do
  u.templates.toList.foldlM (later t templates) (← u.source.time t)

/-- Whether the document has to be built. No time is read where none is needed. -/
def isRequired (t : FileTree) (templates : Templates) (force : Bool) (u : PlannedUnit) :
    Except ReadFailure Bool :=
  match u.existing with
  | none => return true
  | some existing =>
    if force then return true
    else do
      let newest ← newest t templates u
      return needsRebuild newest (some (← existing.time t))

/-! ## Output of earlier runs -/

/-- The output at a relative path and the outputs that are left for other documents. Of
several at one path the last counts, and none of them is left. -/
def claimOutput (rel : Path) (built : List Source) : Option Source × List Source :=
  ((built.filter fun b => decide (b.rel.Same rel)).getLast?,
    built.filter fun b => !decide (b.rel.Same rel))

/-- The outputs that no document stands for. -/
def strays (built docs : List Source) : List Source :=
  built.filter fun b => !docs.any fun d => decide (b.rel.Same d.rel)

/-- The warning on outputs that no document stands for. -/
def strayWarning? (built docs : List Source) : Option Warning :=
  match strays built docs with
  | [] => none
  | stray => some ⟨none, "stray files in build directory\n" ++
      "\n".intercalate (stray.map fun s => "  - " ++ s.rel.text)⟩

/-! ## The plan -/

/-- The documents that have to be built, given the outputs no earlier document took. -/
def selectUnits (t : FileTree) (templates : Templates) (force : Bool) :
    (docs built : List Source) → Except PlanFailure (List PlannedUnit)
  | [], _ => .ok []
  | doc :: docs, built => do
    let (source, names) ← templatesUsed t templates doc
    let (existing, built) := claimOutput doc.rel built
    let u : PlannedUnit := ⟨source, existing, names⟩
    let required ← (isRequired t templates force u).mapError .ofRead
    let rest ← selectUnits t templates force docs built
    return if required then u :: rest else rest

/-- Works out what has to be built of the files in an inventory. -/
def make (t : FileTree) (inventory : Inventory) (force : Bool) : Except PlanFailure Plan := do
  let (warnings, loaded) := Templates.load t inventory.templates
  let templates ← loaded
  let units ← selectUnits t templates force inventory.docs inventory.built
  return {
    templates, units
    considered := inventory.docs.length
    warnings := warnings ++ (strayWarning? inventory.built inventory.docs).toList }

end Plan

end Stencil
