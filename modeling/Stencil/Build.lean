import Stencil.Build.Output

/-!
# Running a build

A run plans, expands every planned document, and only then writes. A failure before the
writing leaves the tree as it was. A failure while writing stops the run; what has been
saved stays, and the outcome says how many documents that were.
-/

namespace Stencil

/-- The directories and switches of a run. -/
structure BuildOptions where
  docs : Path
  templates : Path
  output : Path
  /-- Usages that may be resolved in one document. -/
  limit : Nat
  /-- Write nothing. -/
  dryRun : Bool
  /-- Build every document. -/
  force : Bool
  deriving DecidableEq, Repr

/-- What a run reports on its way. -/
inductive BuildEvent
  /-- The document will be built; `replaces` is the output that is there already. -/
  | planned (rel : Path) (replaces : Option Path) (templates : List String)
  /-- The output of the document was written. -/
  | saved (rel : Path)
  deriving DecidableEq, Repr

/-- How a run ended. -/
inductive BuildStatus
  /-- Nothing had to be built. -/
  | upToDate
  /-- Everything planned was written. -/
  | built
  /-- Everything planned could be written. -/
  | dryRun
  /-- The run stopped before writing. -/
  | expansionFailed (failure : PlanFailure)
  /-- The run stopped while writing. -/
  | writeFailed (failure : WriteFailure)
  deriving DecidableEq, Repr

/-- The exit code that reports how a run ended. -/
def BuildStatus.exitCode : BuildStatus → Nat
  | upToDate | built | dryRun => 0
  | expansionFailed _ => 1
  | writeFailed _ => 2

/-- What a run reports once it is over. -/
structure BuildOutcome where
  status : BuildStatus
  /-- The number of documents planned. -/
  planned : Nat
  /-- The number of documents written. -/
  saved : Nat
  warnings : List Warning
  deriving DecidableEq, Repr

/-- A run: its outcome, its events and the tree it left behind. -/
structure BuildRun where
  outcome : BuildOutcome
  events : List BuildEvent
  tree : FileTree

namespace PlannedUnit

/-- The report that the document will be built. -/
def plannedEvent (u : PlannedUnit) : BuildEvent :=
  .planned u.source.rel (u.existing.map Source.path) u.templates.toList

/-- The report that the document was written. -/
def savedEvent (u : PlannedUnit) : BuildEvent := .saved u.source.rel

end PlannedUnit

/-- How far the writing came. -/
structure Writing where
  tree : FileTree
  /-- The number of documents written. -/
  saved : Nat
  failure : Option WriteFailure

/-- Saves documents one after the other and stops at the first failure. -/
def writeAll (root : Path) (time : Int) : List (PlannedUnit × Output) → FileTree → Writing
  | [], t => ⟨t, 0, none⟩
  | (u, output) :: rest, t =>
    match u.save output root time t with
    | (t, .error failure) => ⟨t, 0, some failure⟩
    | (t, .ok ()) =>
      let writing := writeAll root time rest t
      { writing with saved := writing.saved + 1 }

/-- A run that saves its files at the given time. -/
def build (t : FileTree) (options : BuildOptions) (time : Int) : BuildRun :=
  let planning := do
    let inventory ← (Inventory.scan t options.docs options.templates options.output).mapError
      fun e => PlanFailure.scan (.walk e)
    Plan.make t inventory options.force
  match planning with
  | .error failure => ⟨⟨.expansionFailed failure, 0, 0, []⟩, [], t⟩
  | .ok plan =>
    let count := plan.units.length
    let planned := plan.units.map PlannedUnit.plannedEvent
    if plan.units.isEmpty then ⟨⟨.upToDate, 0, 0, plan.warnings⟩, [], t⟩
    else match plan.processAll t options.limit with
      | .error failure => ⟨⟨.expansionFailed failure, count, 0, plan.warnings⟩, planned, t⟩
      | .ok (outputs, found) =>
        let warnings := plan.warnings ++ found
        if options.dryRun then ⟨⟨.dryRun, count, 0, warnings⟩, planned, t⟩
        else
          let writing := writeAll options.output time (plan.units.zip outputs) t
          let status := match writing.failure with
            | none => .built
            | some failure => .writeFailed failure
          ⟨⟨status, count, writing.saved, warnings⟩,
            planned ++ (plan.units.take writing.saved).map PlannedUnit.savedEvent, writing.tree⟩

end Stencil
