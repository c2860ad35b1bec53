import Stencil.Proofs.Build.Atomic

/-!
# What a run reports

The events of a run are one for each planned document and then one for each saved document,
and its counters, its warnings and its status agree with them whichever way it goes
(`build_reports`).
-/

namespace Stencil

variable {t : FileTree} {options : BuildOptions} {plan : Plan} {outputs : List Output}
  {found : List Warning}

/-- The event says that a document will be built. -/
def BuildEvent.isPlanned : BuildEvent → Bool
  | .planned .. => true
  | .saved _ => false

/-! ## Processing the documents of a plan -/

/-- The warnings of the expansion of a planned document, under its relative path. -/
def PlannedUnit.notes (t : FileTree) (templates : Templates) (limit : Nat) (u : PlannedUnit) :
    List Warning :=
  if u.needsExpansion then
    match u.source.text t with
    | .error _ => []
    | .ok text =>
      match expand templates limit text with
      | .error _ => []
      | .ok expansion => expansion.warnings.map fun w => ⟨some u.source.rel.text, w⟩
  else []

theorem PlannedUnit.warnings_of_process {u : PlannedUnit} {templates : Templates} {limit : Nat}
    {result : Output × List Warning} (h : u.process t templates limit = .ok result) :
    result.2 = u.notes t templates limit := by
  unfold process at h
  unfold notes
  cases hneeds : u.needsExpansion with
  | false =>
    rw [hneeds] at h
    cases h
    rfl
  | true =>
    rw [hneeds] at h
    obtain ⟨text, htext, h⟩ := Stages.bind_eq_ok.1 h
    obtain ⟨expansion, hexpansion, h⟩ := Stages.bind_eq_ok.1 h
    cases h
    simp [Stages.mapError_eq_ok.1 htext, Stages.mapError_eq_ok.1 hexpansion]

namespace Plan

/-- The failure of the first document of the plan that cannot be processed. -/
def FailsWith (p : Plan) (t : FileTree) (limit : Nat) (failure : PlanFailure) : Prop :=
  ∃ before u behind, p.units = before ++ u :: behind ∧
    u.process t p.templates limit = .error failure ∧
    ∀ v ∈ before, ∃ result, v.process t p.templates limit = .ok result

theorem processAll_eq_error {p : Plan} {limit : Nat} {failure : PlanFailure} :
    p.processAll t limit = .error failure ↔ p.FailsWith t limit failure := by
  unfold FailsWith
  rw [processAll, Stages.bind_eq_error, ← Stages.mapM_eq_error]
  constructor
  · rintro (h | ⟨results, -, h⟩)
    · exact h
    · cases h
  · exact .inl

theorem not_failsWith {p : Plan} {limit : Nat} (h : p.processAll t limit = .ok (outputs, found))
    (failure : PlanFailure) : ¬ p.FailsWith t limit failure := by
  intro hfails
  rw [← processAll_eq_error, h] at hfails
  cases hfails

/-- Either a document of the plan fails first or each of them can be processed. -/
theorem forall_not_failsWith_iff {p : Plan} {limit : Nat} :
    (∀ failure, ¬ p.FailsWith t limit failure) ↔
      ∀ u ∈ p.units, ∃ result, u.process t p.templates limit = .ok result := by
  constructor
  · intro h u hu
    cases hprocess : p.processAll t limit with
    | error failure => exact absurd (processAll_eq_error.1 hprocess) (h failure)
    | ok result =>
      obtain ⟨results, hresults, -⟩ := Stages.bind_eq_ok.1 hprocess
      obtain ⟨output, -, houtput⟩ := Stages.exists_of_mem_mapM hresults hu
      exact ⟨output, houtput⟩
  · rintro h failure ⟨before, u, behind, happend, herror, -⟩
    obtain ⟨result, hresult⟩ := h u (by simp [happend])
    rw [herror] at hresult
    cases hresult

theorem warnings_of_processAll {p : Plan} {limit : Nat}
    (h : p.processAll t limit = .ok (outputs, found)) :
    found = p.units.flatMap (PlannedUnit.notes t p.templates limit) := by
  rw [processAll] at h
  obtain ⟨results, hresults, h⟩ := Stages.bind_eq_ok.1 h
  rw [Stages.pure_eq_ok, Prod.mk.injEq] at h
  rw [← h.2, List.flatMap_def]
  congr 1
  exact Stages.map_eq_map_of_mapM hresults fun u result => PlannedUnit.warnings_of_process

end Plan

/-! ## The report of a run -/

/-- What a run with this plan reports. -/
structure Reports (t : FileTree) (options : BuildOptions) (plan : Plan) (run : BuildRun) :
    Prop where
  events : run.events = plan.units.map PlannedUnit.plannedEvent ++
    (plan.units.take run.outcome.saved).map PlannedUnit.savedEvent
  planned : run.outcome.planned = plan.units.length
  countP_events : run.outcome.planned = run.events.countP BuildEvent.isPlanned
  saved : match run.outcome.status with
    | .upToDate | .dryRun | .expansionFailed _ => run.outcome.saved = 0
    | .built => run.outcome.saved = run.outcome.planned ∧ 0 < run.outcome.planned
    | .writeFailed _ => run.outcome.saved < run.outcome.planned
  upToDate_iff : run.outcome.status = .upToDate ↔ plan.units = []
  failed_iff : ∀ failure, run.outcome.status = .expansionFailed failure ↔
    plan.FailsWith t options.limit failure
  /-- A document that cannot be processed leaves the run with the warnings of its plan. -/
  warnings : run.outcome.warnings = match run.outcome.status with
    | .expansionFailed _ => plan.warnings
    | .upToDate | .dryRun | .built | .writeFailed _ => plan.warnings ++
        plan.units.flatMap (PlannedUnit.notes t plan.templates options.limit)

theorem countP_isPlanned (units saved : List PlannedUnit) :
    (units.map PlannedUnit.plannedEvent ++ saved.map PlannedUnit.savedEvent).countP
      BuildEvent.isPlanned = units.length := by
  have hplanned : (units.map PlannedUnit.plannedEvent).countP BuildEvent.isPlanned =
      units.length := by
    rw [List.countP_map]
    exact List.countP_eq_length.2 fun u _ => rfl
  have hsaved : (saved.map PlannedUnit.savedEvent).countP BuildEvent.isPlanned = 0 := by
    rw [List.countP_map]
    exact List.countP_eq_zero.2 fun u _ => Bool.false_ne_true
  rw [List.countP_append, hplanned, hsaved, Nat.add_zero]

theorem reports_of_units_nil (hplan : planOf t options = .ok plan) (hunits : plan.units = [])
    (time : Int) : Reports t options plan (build t options time) := by
  have hrun := build_of_units_nil hplan hunits time
  have hfails : ∀ failure, ¬ plan.FailsWith t options.limit failure := by
    rintro failure ⟨before, u, behind, happend, -⟩
    simp [hunits] at happend
  constructor <;> simp [hrun, hunits, hfails]

theorem reports_of_processAll_error {failure : PlanFailure} (hplan : planOf t options = .ok plan)
    (hunits : plan.units ≠ []) (hprocess : plan.processAll t options.limit = .error failure)
    (time : Int) : Reports t options plan (build t options time) := by
  have hrun := build_of_processAll_error hplan hunits hprocess time
  constructor
  case failed_iff =>
    intro failure'
    rw [hrun, ← Plan.processAll_eq_error, hprocess]
    simp
  case countP_events =>
    rw [hrun]
    simpa using (countP_isPlanned plan.units []).symm
  all_goals simp [hrun, hunits]

theorem reports_of_dryRun (hplan : planOf t options = .ok plan) (hunits : plan.units ≠ [])
    (hprocess : plan.processAll t options.limit = .ok (outputs, found))
    (hdry : options.dryRun = true) (time : Int) :
    Reports t options plan (build t options time) := by
  have hrun := build_of_dryRun hplan hunits hprocess hdry time
  constructor
  case countP_events =>
    rw [hrun]
    simpa using (countP_isPlanned plan.units []).symm
  all_goals simp [hrun, hunits, Plan.not_failsWith hprocess, Plan.warnings_of_processAll hprocess]

theorem reports_of_write (hplan : planOf t options = .ok plan) (hunits : plan.units ≠ [])
    (hprocess : plan.processAll t options.limit = .ok (outputs, found))
    (hdry : options.dryRun = false) (time : Int) :
    Reports t options plan (build t options time) := by
  have hzip : (plan.units.zip outputs).length = plan.units.length := by
    rw [List.length_zip, length_of_processAll hprocess, Nat.min_self]
  have hle : (writeAll options.output time (plan.units.zip outputs) t).saved ≤
      (plan.units.zip outputs).length := saved_writeAll_le
  have hall : (writeAll options.output time (plan.units.zip outputs) t).failure = none ↔
      (writeAll options.output time (plan.units.zip outputs) t).saved =
        (plan.units.zip outputs).length := failure_writeAll_eq_none_iff
  have hpos : 0 < plan.units.length := List.length_pos_iff.2 hunits
  have hnotes := Plan.warnings_of_processAll hprocess
  have hnever := Plan.not_failsWith hprocess
  rw [build_of_write hplan hunits hprocess hdry time]
  rw [hzip] at hle hall
  generalize writeAll options.output time (plan.units.zip outputs) t = writing at hle hall
  -- writing either comes to the end of the plan or stops before it
  rcases hfailure : writing.failure with _ | failure
  · have hstatus : writing.status = .built := by rw [Writing.status, hfailure]
    have hsaved := hall.1 hfailure
    refine ⟨rfl, rfl, (countP_isPlanned ..).symm, ?_, ?_, ?_, ?_⟩
    all_goals simp [hstatus, hsaved, hpos, hunits, hnever, hnotes]
  · have hstatus : writing.status = .writeFailed failure := by rw [Writing.status, hfailure]
    have hsaved : writing.saved < plan.units.length := by
      refine Nat.lt_of_le_of_ne hle fun heq => ?_
      rw [hall.2 heq] at hfailure
      cases hfailure
    refine ⟨rfl, rfl, (countP_isPlanned ..).symm, ?_, ?_, ?_, ?_⟩
    all_goals simp [hstatus, hsaved, hunits, hnever, hnotes]

theorem reports_of_planOf (hplan : planOf t options = .ok plan) (time : Int) :
    Reports t options plan (build t options time) := by
  by_cases hunits : plan.units = []
  · exact reports_of_units_nil hplan hunits time
  cases hprocess : plan.processAll t options.limit with
  | error failure => exact reports_of_processAll_error hplan hunits hprocess time
  | ok result =>
  obtain ⟨outputs, found⟩ := result
  cases hdry : options.dryRun with
  | true => exact reports_of_dryRun hplan hunits hprocess hdry time
  | false => exact reports_of_write hplan hunits hprocess hdry time

/-- A run whose planning fails reports that alone. Any other run announces every document of
its plan in order and then those it has saved, and its counters, warnings and status say how
far it came. -/
theorem build_reports (t : FileTree) (options : BuildOptions) (time : Int) :
    match planOf t options with
    | .error failure => (build t options time).outcome = ⟨.expansionFailed failure, 0, 0, []⟩ ∧
        (build t options time).events = []
    | .ok plan => Reports t options plan (build t options time) := by
  cases hplan : planOf t options with
  | error failure =>
    rw [build_of_planOf_error hplan time]
    exact ⟨rfl, rfl⟩
  | ok plan => exact reports_of_planOf hplan time

-- Both documents are announced; the second cannot be written.
example :
    (build blockedSite ⟨⟨"docs"⟩, ⟨"templates"⟩, ⟨"site"⟩, 10, false, false⟩ 5).events =
      [.planned ⟨"a.txt"⟩ none [], .planned ⟨"b/c.txt"⟩ none [], .saved ⟨"a.txt"⟩] := by
  decide +kernel

end Stencil
