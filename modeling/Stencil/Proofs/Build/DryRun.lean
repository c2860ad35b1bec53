import Stencil.Proofs.Build.Reported
import Stencil.Proofs.Plan.Forced

/-!
# What a dry run foretells

A dry run writes nothing and reports what the run proper reports up to its writing. A forced
one that ends well also says that no run over the same directories fails before it comes to
writing, whichever documents that run selects (`build_foretold`).
-/

namespace Stencil

variable {t : FileTree} {options : BuildOptions} {plan : Plan} {outputs : List Output}
  {found : List Warning}

/-! ## One plan, dry and in earnest -/

/-- The dry run reports what the other one reports up to its writing. -/
structure Foretells (dry real : BuildRun) : Prop where
  planned : dry.outcome.planned = real.outcome.planned
  events : dry.events = real.events.filter BuildEvent.isPlanned
  warnings : dry.outcome.warnings = real.outcome.warnings
  upToDate_iff : dry.outcome.status = .upToDate ↔ real.outcome.status = .upToDate
  failed_iff : ∀ failure, dry.outcome.status = .expansionFailed failure ↔
    real.outcome.status = .expansionFailed failure
  dryRun_iff : dry.outcome.status = .dryRun ↔
    real.outcome.status = .built ∨ ∃ failure, real.outcome.status = .writeFailed failure

theorem filter_isPlanned (units saved : List PlannedUnit) :
    (units.map PlannedUnit.plannedEvent ++ saved.map PlannedUnit.savedEvent).filter
      BuildEvent.isPlanned = units.map PlannedUnit.plannedEvent := by
  have hplanned : (units.map PlannedUnit.plannedEvent).filter BuildEvent.isPlanned =
      units.map PlannedUnit.plannedEvent := by
    refine List.filter_eq_self.2 fun event hevent => ?_
    obtain ⟨u, -, rfl⟩ := List.mem_map.1 hevent
    rfl
  have hsaved : (saved.map PlannedUnit.savedEvent).filter BuildEvent.isPlanned = [] := by
    refine List.filter_eq_nil_iff.2 fun event hevent => ?_
    obtain ⟨u, -, rfl⟩ := List.mem_map.1 hevent
    exact Bool.false_ne_true
  rw [List.filter_append, hplanned, hsaved, List.append_nil]

/-- A run that has come as far as writing has either written everything or failed at it. -/
theorem Writing.status_cases (writing : Writing) :
    writing.status = .built ∨ ∃ failure, writing.status = .writeFailed failure := by
  unfold status
  cases writing.failure with
  | none => exact .inl rfl
  | some failure => exact .inr ⟨failure, rfl⟩

theorem foretells_build (t : FileTree) (options : BuildOptions) (time time' : Int) :
    Foretells (build t { options with dryRun := true } time)
      (build t { options with dryRun := false } time') := by
  have hagain : ∀ dry, planOf t { options with dryRun := dry } = planOf t options := fun dry => rfl
  cases hplan : planOf t options with
  | error failure =>
    rw [build_of_planOf_error ((hagain true).trans hplan),
      build_of_planOf_error ((hagain false).trans hplan)]
    exact ⟨rfl, rfl, rfl, .rfl, fun _ => .rfl, by simp⟩
  | ok plan =>
  by_cases hunits : plan.units = []
  · rw [build_of_units_nil ((hagain true).trans hplan) hunits,
      build_of_units_nil ((hagain false).trans hplan) hunits]
    exact ⟨rfl, rfl, rfl, .rfl, fun _ => .rfl, by simp⟩
  cases hprocess : plan.processAll t options.limit with
  | error failure =>
    rw [build_of_processAll_error ((hagain true).trans hplan) hunits hprocess,
      build_of_processAll_error ((hagain false).trans hplan) hunits hprocess]
    refine ⟨rfl, ?_, rfl, .rfl, fun _ => .rfl, by simp⟩
    simpa using (filter_isPlanned plan.units []).symm
  | ok result =>
  obtain ⟨outputs, found⟩ := result
  rw [build_of_dryRun ((hagain true).trans hplan) hunits hprocess rfl,
    build_of_write ((hagain false).trans hplan) hunits hprocess rfl]
  generalize writeAll options.output time' (plan.units.zip outputs) t = writing
  refine ⟨rfl, (filter_isPlanned ..).symm, rfl, ?_, ?_, ?_⟩
  all_goals rcases writing.status_cases with hstatus | ⟨failure, hstatus⟩ <;> simp [hstatus]

theorem tree_of_dryRun (t : FileTree) (options : BuildOptions) (time : Int) :
    (build t { options with dryRun := true } time).tree = t := by
  rcases build_cases t { options with dryRun := true } time with h | ⟨plan, outputs, h⟩
  · exact h.tree
  · cases h.wet

/-! ## Runs that are not forced -/

/-- The times of all files below the roots can be read. -/
def Timed (t : FileTree) (options : BuildOptions) : Prop :=
  ∀ root ∈ [options.docs, options.templates, options.output],
    ∀ files, findFiles t root = .ok files → t.Timed files

/-- In a tree without links the time of every file can be read. -/
theorem timed_of_linkFree (ht : t.LinkFree) (options : BuildOptions) : Timed t options := by
  intro root _ files hfiles file hfile
  obtain ⟨hroot, names, hne, hsome, rfl⟩ := (mem_findFiles ht hfiles).1 hfile
  obtain ⟨⟨content, time⟩, hsome⟩ := Option.isSome_iff_exists.1 hsome
  have hlocate := FileTree.locate_found ht hroot hsome hne
  exact ⟨time, FileTree.time_of_file? hlocate hsome⟩

/-- A run does not end before it comes to writing exactly when there is a plan and each of its
documents can be processed. -/
theorem not_expansionFailed_iff {time : Int} :
    (∀ failure, (build t options time).outcome.status ≠ .expansionFailed failure) ↔
      ∃ plan, planOf t options = .ok plan ∧
        ∀ u ∈ plan.units, ∃ result, u.process t plan.templates options.limit = .ok result := by
  cases hplan : planOf t options with
  | error failure =>
    rw [build_of_planOf_error hplan time]
    simp
  | ok plan =>
    have hfailed := (reports_of_planOf hplan time).failed_iff
    simp only [ne_eq, hfailed, Plan.forall_not_failsWith_iff, Except.ok.injEq, exists_eq_left']

/-- When a forced run does not end before it comes to writing, no run does. -/
theorem not_expansionFailed_of_forced (htimed : Timed t options) {dryRun : Bool} {time : Int}
    (h : ∀ failure, (build t { options with force := true, dryRun } time).outcome.status ≠
      .expansionFailed failure) (force dryRun' : Bool) (time' : Int) :
    ∀ failure, (build t { options with force, dryRun := dryRun' } time').outcome.status ≠
      .expansionFailed failure := by
  obtain ⟨plan, hplan, hprocess⟩ := not_expansionFailed_iff.1 h
  obtain ⟨inventory, hscan, hmake⟩ := planOf_eq_ok.1 hplan
  obtain ⟨hdocs, htemplates, hbuilt⟩ := scan_eq_ok hscan
  obtain ⟨plan', hmake', hlibrary, hsublist⟩ := Plan.exists_make_of_forced hmake
    (htimed options.docs (by simp) _ hdocs) (htimed options.templates (by simp) _ htemplates)
    (htimed options.output (by simp) _ hbuilt) force
  refine not_expansionFailed_iff.2 ⟨plan', planOf_eq_ok.2 ⟨inventory, hscan, hmake'⟩, ?_⟩
  intro u hu
  rw [hlibrary]
  exact hprocess u (hsublist.subset hu)

/-- A dry run leaves the tree alone and reports what the run proper reports up to its writing.
When a forced dry run does not end in a failure and times can be read, no run over the same
directories ends before it comes to writing. -/
theorem build_foretold (t : FileTree) (options : BuildOptions) (time time' : Int) :
    (build t { options with dryRun := true } time).tree = t ∧
    Foretells (build t { options with dryRun := true } time)
      (build t { options with dryRun := false } time') ∧
    (Timed t options →
      (∀ failure, (build t { options with force := true, dryRun := true } time).outcome.status ≠
        .expansionFailed failure) →
      ∀ force dryRun failure,
        (build t { options with force, dryRun } time').outcome.status ≠
          .expansionFailed failure) := by
  refine ⟨tree_of_dryRun t options time, foretells_build t options time time', ?_⟩
  intro htimed hforced force dryRun
  exact not_expansionFailed_of_forced htimed hforced force dryRun time'

/-- A forced dry run over a page and its templates ends well, so no run over them fails
before it comes to writing. -/
theorem build_foretold_siteWith :
    let t := Plan.siteWith "A" "B"
    let options : BuildOptions := ⟨⟨"docs"⟩, ⟨"templates"⟩, ⟨"site"⟩, 10, false, false⟩
    Timed t options ∧
      (build t { options with force := true, dryRun := true } 5).outcome.status = .dryRun ∧
      Foretells (build t { options with dryRun := true } 5)
        (build t { options with dryRun := false } 6) ∧
      ∀ force dryRun failure,
        (build t { options with force, dryRun } 6).outcome.status ≠ .expansionFailed failure := by
  intro t options
  have hfree : t.LinkFree := FileTree.linkFree_store (FileTree.linkFree_store
    (FileTree.linkFree_store FileTree.linkFree_empty _ _ _) _ _ _) _ _ _
  have htimed : Timed t options := timed_of_linkFree hfree options
  have hstatus : (build t { options with force := true, dryRun := true } 5).outcome.status =
      .dryRun := by decide +kernel
  obtain ⟨-, hforetells, hnever⟩ := build_foretold t options 5 6
  exact ⟨htimed, hstatus, hforetells, hnever htimed (by simp [hstatus])⟩

end Stencil
