import Stencil.Proofs.Build.Save
import Stencil.Proofs.Inventory.Order
import Stencil.Proofs.Plan.Units

/-!
# What a run saves

`savedOutputs` lists the documents that a run saves with their outputs. The files a run
leaves are those it found with these saved into them one after the other
(`files_build`), and each comes from a document below the document root, processed as the
planner found it (`of_mem_savedOutputs`).
-/

namespace Stencil

/-- What a run plans. -/
def planOf (t : FileTree) (options : BuildOptions) : Except PlanFailure Plan := do
  let inventory ← (Inventory.scan t options.docs options.templates options.output).mapError
    fun e => PlanFailure.scan (.walk e)
  Plan.make t inventory options.force

/-- The documents that a run saves at the given time, each with its output. -/
def savedOutputs (t : FileTree) (options : BuildOptions) (time : Int) :
    List (PlannedUnit × Output) :=
  match planOf t options with
  | .error _ => []
  | .ok plan =>
    match plan.processAll t options.limit with
    | .error _ => []
    | .ok (outputs, _) =>
      if options.dryRun then []
      else
        let pairs := plan.units.zip outputs
        pairs.take (writeAll options.output time pairs t).saved

variable {t : FileTree} {options : BuildOptions} {time : Int}

/-- What a run has done that came as far as writing: it planned, it processed every planned
document, and it was told to write. -/
structure Wrote (t : FileTree) (options : BuildOptions) (time : Int) (plan : Plan)
    (outputs : List Output) : Prop where
  planned : planOf t options = .ok plan
  processed : ∃ found, plan.processAll t options.limit = .ok (outputs, found)
  wet : options.dryRun = false
  tree : (build t options time).tree =
    (writeAll options.output time (plan.units.zip outputs) t).tree
  saved : savedOutputs t options time = (plan.units.zip outputs).take
    (writeAll options.output time (plan.units.zip outputs) t).saved
  built : (build t options time).outcome.status = .built →
    (writeAll options.output time (plan.units.zip outputs) t).failure = none
  notUpToDate : (build t options time).outcome.status ≠ .upToDate

/-- What a run has done that did not come as far as writing. -/
structure Untouched (t : FileTree) (options : BuildOptions) (time : Int) : Prop where
  tree : (build t options time).tree = t
  saved : savedOutputs t options time = []
  notBuilt : (build t options time).outcome.status ≠ .built
  upToDate : (build t options time).outcome.status = .upToDate →
    ∃ plan, planOf t options = .ok plan ∧ plan.units = []

variable {plan : Plan} {failure : PlanFailure} {outputs : List Output} {found : List Warning}

/-! ## The ways a run can go -/

theorem build_of_planOf_error (h : planOf t options = .error failure) (time : Int) :
    build t options time = ⟨⟨.expansionFailed failure, 0, 0, []⟩, [], t⟩ := by
  unfold planOf at h
  simp only [build, h]

theorem build_of_units_nil (h : planOf t options = .ok plan) (hunits : plan.units = [])
    (time : Int) :
    build t options time = ⟨⟨.upToDate, 0, 0, plan.warnings⟩, [], t⟩ := by
  unfold planOf at h
  simp only [build, h, hunits, List.isEmpty_nil, if_pos]

theorem build_of_processAll_error (h : planOf t options = .ok plan) (hunits : plan.units ≠ [])
    (hprocess : plan.processAll t options.limit = .error failure) (time : Int) :
    build t options time = ⟨⟨.expansionFailed failure, plan.units.length, 0, plan.warnings⟩,
      plan.units.map PlannedUnit.plannedEvent, t⟩ := by
  unfold planOf at h
  have hsome : ¬ plan.units.isEmpty = true := fun hempty => hunits (List.isEmpty_iff.1 hempty)
  simp only [build, h, if_neg hsome, hprocess]

theorem build_of_dryRun (h : planOf t options = .ok plan) (hunits : plan.units ≠ [])
    (hprocess : plan.processAll t options.limit = .ok (outputs, found))
    (hdry : options.dryRun = true) (time : Int) :
    build t options time = ⟨⟨.dryRun, plan.units.length, 0, plan.warnings ++ found⟩,
      plan.units.map PlannedUnit.plannedEvent, t⟩ := by
  unfold planOf at h
  have hsome : ¬ plan.units.isEmpty = true := fun hempty => hunits (List.isEmpty_iff.1 hempty)
  simp only [build, h, if_neg hsome, hprocess, if_pos hdry]

/-- How a run ends that has come to its end of writing. -/
def Writing.status (writing : Writing) : BuildStatus :=
  match writing.failure with
  | none => .built
  | some failure => .writeFailed failure

theorem build_of_write (h : planOf t options = .ok plan) (hunits : plan.units ≠ [])
    (hprocess : plan.processAll t options.limit = .ok (outputs, found))
    (hdry : options.dryRun = false) (time : Int) :
    build t options time =
      let writing := writeAll options.output time (plan.units.zip outputs) t
      ⟨⟨writing.status, plan.units.length, writing.saved, plan.warnings ++ found⟩,
        plan.units.map PlannedUnit.plannedEvent ++
          (plan.units.take writing.saved).map PlannedUnit.savedEvent, writing.tree⟩ := by
  unfold planOf at h
  have hsome : ¬ plan.units.isEmpty = true := fun hempty => hunits (List.isEmpty_iff.1 hempty)
  have hwet : ¬ options.dryRun = true := by simp [hdry]
  simp only [build, h, if_neg hsome, hprocess, if_neg hwet]
  rfl

/-- A run either leaves the tree alone or comes as far as writing. -/
theorem build_cases (t : FileTree) (options : BuildOptions) (time : Int) :
    Untouched t options time ∨ ∃ plan outputs, Wrote t options time plan outputs := by
  cases hplan : planOf t options with
  | error failure =>
    have hbuild := build_of_planOf_error hplan time
    left
    refine ⟨by rw [hbuild], by rw [savedOutputs, hplan], by rw [hbuild]; nofun, ?_⟩
    rw [hbuild]
    nofun
  | ok plan =>
  by_cases hunits : plan.units = []
  · have hbuild := build_of_units_nil hplan hunits time
    left
    refine ⟨by rw [hbuild], ?_, by rw [hbuild]; nofun, fun _ => ⟨plan, hplan, hunits⟩⟩
    rw [savedOutputs, hplan]
    cases hprocess : plan.processAll t options.limit <;> simp [hprocess, hunits]
  cases hprocess : plan.processAll t options.limit with
  | error failure =>
    have hbuild := build_of_processAll_error hplan hunits hprocess time
    left
    refine ⟨by rw [hbuild], by rw [savedOutputs, hplan]; simp only [hprocess],
      by rw [hbuild]; nofun, ?_⟩
    rw [hbuild]
    nofun
  | ok result =>
  obtain ⟨outputs, found⟩ := result
  cases hdry : options.dryRun with
  | true =>
    have hbuild := build_of_dryRun hplan hunits hprocess hdry time
    left
    refine ⟨by rw [hbuild], by rw [savedOutputs, hplan]; simp only [hprocess, hdry, if_true],
      by rw [hbuild]; nofun, ?_⟩
    rw [hbuild]
    nofun
  | false =>
    have hbuild := build_of_write hplan hunits hprocess hdry time
    right
    refine ⟨plan, outputs, hplan, ⟨found, hprocess⟩, hdry, by rw [hbuild],
      by rw [savedOutputs, hplan]; simp only [hprocess, hdry]; rfl, ?_, ?_⟩
    · rw [hbuild]
      show Writing.status _ = _ → _
      rw [Writing.status]
      split
      · next hnone => exact fun _ => hnone
      · nofun
    · rw [hbuild]
      show Writing.status _ ≠ _
      rw [Writing.status]
      split <;> nofun

/-! ## The files after a run -/

/-- The files a run leaves are those it found with the saved documents saved into them. -/
theorem files_build (ht : t.LinkFree) :
    (build t options time).tree.file? = (savedOutputs t options time).foldl
      (PlannedUnit.saveFiles options.output t.home time) t.file? := by
  rcases build_cases t options time with h | ⟨plan, outputs, h⟩
  · rw [h.tree, h.saved]
    rfl
  · rw [h.tree, h.saved]
    exact files_writeAll ht

theorem extends_build (ht : t.LinkFree) :
    t.Extends (build t options time).tree ∧ (build t options time).tree.LinkFree := by
  rcases build_cases t options time with h | ⟨plan, outputs, h⟩
  · rw [h.tree]
    exact ⟨.refl t, ht⟩
  · rw [h.tree]
    exact extends_writeAll ht

theorem locate_target_of_build (ht : t.LinkFree) {p : PlannedUnit × Output}
    (hp : p ∈ savedOutputs t options time) :
    (build t options time).tree.locate (p.1.target options.output) =
      .ok (p.1.targetPlace options.output t.home) := by
  rcases build_cases t options time with h | ⟨plan, outputs, h⟩
  · rw [h.saved] at hp
    cases hp
  · rw [h.saved] at hp
    rw [h.tree]
    exact locate_target_of_writeAll ht hp

/-! ## Where saved outputs come from -/

/-- A planned run has scanned the roots and planned what it found. -/
theorem planOf_eq_ok {plan : Plan} :
    planOf t options = .ok plan ↔
      ∃ inventory, Inventory.scan t options.docs options.templates options.output = .ok inventory ∧
        Plan.make t inventory options.force = .ok plan := by
  rw [planOf, Stages.bind_eq_ok]
  constructor
  · rintro ⟨inventory, hscan, h⟩
    exact ⟨inventory, Stages.mapError_eq_ok.1 hscan, h⟩
  · rintro ⟨inventory, hscan, h⟩
    exact ⟨inventory, Stages.mapError_eq_ok.2 hscan, h⟩

theorem scan_eq_ok {docs templates output : Path} {inventory : Inventory}
    (h : Inventory.scan t docs templates output = .ok inventory) :
    findFiles t docs = .ok inventory.docs ∧ findFiles t templates = .ok inventory.templates ∧
      findFiles t output = .ok inventory.built := by
  obtain ⟨found, hdocs, h⟩ := Stages.bind_eq_ok.1 h
  obtain ⟨found', htemplates, h⟩ := Stages.bind_eq_ok.1 h
  obtain ⟨found'', hbuilt, h⟩ := Stages.bind_eq_ok.1 h
  cases h
  exact ⟨hdocs, htemplates, hbuilt⟩

/-- The outputs of a plan are what processing makes of its units. -/
theorem process_of_mem_zip {plan : Plan} {limit : Nat} {outputs : List Output}
    {found : List Warning} (h : plan.processAll t limit = .ok (outputs, found))
    {p : PlannedUnit × Output} (hp : p ∈ plan.units.zip outputs) :
    ∃ warnings, p.1.process t plan.templates limit = .ok (p.2, warnings) := by
  rw [Plan.processAll] at h
  obtain ⟨results, hresults, h⟩ := Stages.bind_eq_ok.1 h
  rw [Stages.pure_eq_ok, Prod.mk.injEq] at h
  rw [← h.1, List.zip_map_right] at hp
  obtain ⟨q, hmem, rfl⟩ := List.mem_map.1 hp
  have hresult := Stages.eq_ok_of_mem_zip hresults hmem
  exact ⟨q.2.2, hresult⟩

theorem length_of_processAll {plan : Plan} {limit : Nat} {outputs : List Output}
    {found : List Warning} (h : plan.processAll t limit = .ok (outputs, found)) :
    outputs.length = plan.units.length := by
  rw [Plan.processAll] at h
  obtain ⟨results, hresults, h⟩ := Stages.bind_eq_ok.1 h
  rw [Stages.pure_eq_ok, Prod.mk.injEq] at h
  rw [← h.1, List.length_map, Stages.length_of_mapM hresults]

/-- A saved output is what processing made of a planned document. -/
theorem of_mem_savedOutputs {p : PlannedUnit × Output} (hp : p ∈ savedOutputs t options time) :
    ∃ plan warnings, planOf t options = .ok plan ∧ p.1 ∈ plan.units ∧
      p.1.process t plan.templates options.limit = .ok (p.2, warnings) := by
  rcases build_cases t options time with h | ⟨plan, outputs, h⟩
  · rw [h.saved] at hp
    cases hp
  rw [h.saved] at hp
  have hzip := List.mem_of_mem_take hp
  obtain ⟨found, hprocess⟩ := h.processed
  obtain ⟨warnings, hresult⟩ := process_of_mem_zip hprocess hzip
  have hunit : p.1 ∈ plan.units := (List.of_mem_zip hzip).1
  exact ⟨plan, warnings, h.planned, hunit, hresult⟩

/-- A document that was considered is a file below the document root, its templates are
known, and its output goes to the same names below the output root. -/
structure ConsideredAt (t : FileTree) (options : BuildOptions) (templates : Templates)
    (names : List String) (u : PlannedUnit) : Prop where
  ne_nil : names ≠ []
  valid : ∀ n ∈ names, isFileName n = true
  file : (t.file? (options.docs.place t.home ++ names)).isSome
  used : Plan.templatesUsed t templates (FileTree.found (options.docs.below names) names) =
    .ok (u.source, u.templates)
  path : u.source.path = options.docs.below names
  rel : u.source.rel = .ofNames names
  source : t.locate (options.docs.below names) = .ok (options.docs.place t.home ++ names)
  target : u.targetPlace options.output t.home = options.output.place t.home ++ names

/-- A document that the walk found and the planner accepted is considered at its names. -/
theorem exists_consideredAt (ht : t.LinkFree) {templates : Templates} {docs : List Source}
    (hdocs : findFiles t options.docs = .ok docs) {doc : Source} (hdoc : doc ∈ docs)
    {u : PlannedUnit} (hused : Plan.templatesUsed t templates doc = .ok (u.source, u.templates)) :
    ∃ names, doc = FileTree.found (options.docs.below names) names ∧
      ConsideredAt t options templates names u := by
  obtain ⟨hpath, hrel⟩ := Plan.path_of_templatesUsed hused
  obtain ⟨hroot, names, hne, hfile, rfl⟩ := (mem_findFiles ht hdocs).1 hdoc
  obtain ⟨file, hsome⟩ := Option.isSome_iff_exists.1 hfile
  have hmem := FileTree.mem_nodes_of_file? hsome
  have hvalid := FileTree.isFileName_of_mem hmem
  refine ⟨names, rfl, hne, hvalid, hfile, hused, hpath, hrel, ?_, ?_⟩
  · exact FileTree.locate_found ht hroot hsome hne
  · rw [PlannedUnit.targetPlace, PlannedUnit.target, hrel]
    exact Path.place_join_ofNames _ _ hvalid

/-- Every unit of a plan was considered at the names that lead to its document. -/
theorem exists_consideredAt_of_mem_units (ht : t.LinkFree) {plan : Plan}
    (hplan : planOf t options = .ok plan) {u : PlannedUnit} (hu : u ∈ plan.units) :
    ∃ names, ConsideredAt t options plan.templates names u := by
  obtain ⟨inventory, hscan, hmake⟩ := planOf_eq_ok.1 hplan
  obtain ⟨-, hunits⟩ := Plan.of_make hmake
  obtain ⟨doc, hdoc, left, hconsiders, -⟩ := Plan.exists_of_mem_selectUnits hunits hu
  obtain ⟨names, -, hat⟩ := exists_consideredAt ht (scan_eq_ok hscan).1 hdoc hconsiders.used
  exact ⟨names, hat⟩

theorem ConsideredAt.sourcePlace (ht : t.LinkFree) {templates : Templates} {names : List String}
    {u : PlannedUnit} (h : ConsideredAt t options templates names u) :
    u.sourcePlace t.home = options.docs.place t.home ++ names := by
  rw [PlannedUnit.sourcePlace, h.path]
  exact ((FileTree.locate_eq_ok_iff ht).1 h.source).2.2.symm

/-- No two units of a plan have the same path. -/
theorem pairwise_units (ht : t.LinkFree) {plan : Plan} (hplan : planOf t options = .ok plan) :
    plan.units.Pairwise fun u v => ¬ u.source.rel.Same v.source.rel := by
  obtain ⟨inventory, hscan, hmake⟩ := planOf_eq_ok.1 hplan
  obtain ⟨-, hunits⟩ := Plan.of_make hmake
  have hdocs : (inventory.docs.map Source.rel).Pairwise fun a b => ¬ a.Same b :=
    List.pairwise_map.2 (pairwise_findFiles ht (scan_eq_ok hscan).1)
  exact List.pairwise_map.1 (hdocs.sublist (Plan.sublist_of_selectUnits hunits))

/-- No two units of a plan go to the same place. -/
theorem pairwise_target_units (ht : t.LinkFree) {plan : Plan}
    (hplan : planOf t options = .ok plan) :
    plan.units.Pairwise fun u v =>
      u.targetPlace options.output t.home ≠ v.targetPlace options.output t.home := by
  refine (pairwise_units ht hplan).imp_of_mem ?_
  intro u v hu hv hne htarget
  obtain ⟨names, hat⟩ := exists_consideredAt_of_mem_units ht hplan hu
  obtain ⟨names', hat'⟩ := exists_consideredAt_of_mem_units ht hplan hv
  rw [hat.target, hat'.target] at htarget
  have hnames : names = names' := List.append_cancel_left htarget
  rw [hat.rel, hat'.rel, hnames] at hne
  exact hne (.refl _)

/-- There is an output for every unit, so the pairs have the order of the units. -/
theorem map_fst_zip_of_processAll {plan : Plan} {limit : Nat} {outputs : List Output}
    {found : List Warning} (h : plan.processAll t limit = .ok (outputs, found)) :
    (plan.units.zip outputs).map Prod.fst = plan.units :=
  List.map_fst_zip (Nat.le_of_eq (length_of_processAll h).symm)

theorem pairwise_target_zip (ht : t.LinkFree) {plan : Plan} {limit : Nat} {outputs : List Output}
    {found : List Warning} (hplan : planOf t options = .ok plan)
    (hprocess : plan.processAll t limit = .ok (outputs, found)) :
    (plan.units.zip outputs).Pairwise fun p q =>
      p.1.targetPlace options.output t.home ≠ q.1.targetPlace options.output t.home := by
  have hunits := pairwise_target_units ht hplan
  rw [← map_fst_zip_of_processAll hprocess, List.pairwise_map] at hunits
  exact hunits

/-- Two documents that are saved go to two places. -/
theorem pairwise_targetPlace (ht : t.LinkFree) :
    (savedOutputs t options time).Pairwise fun p q =>
      p.1.targetPlace options.output t.home ≠ q.1.targetPlace options.output t.home := by
  rcases build_cases t options time with h | ⟨plan, outputs, h⟩
  · rw [h.saved]
    exact .nil
  · obtain ⟨found, hprocess⟩ := h.processed
    rw [h.saved]
    exact (pairwise_target_zip ht h.planned hprocess).sublist (List.take_sublist ..)

/-- A run that ends well has planned, and it has saved every document it planned. -/
theorem exists_plan_of_status (h : (build t options time).outcome.status = .built ∨
    (build t options time).outcome.status = .upToDate) :
    ∃ plan, planOf t options = .ok plan ∧
      ∀ u ∈ plan.units, ∃ p ∈ savedOutputs t options time, p.1 = u := by
  rcases build_cases t options time with hrun | ⟨plan, outputs, hrun⟩
  · rcases h with hbuilt | hupToDate
    · exact absurd hbuilt hrun.notBuilt
    · obtain ⟨plan, hplan, hunits⟩ := hrun.upToDate hupToDate
      exact ⟨plan, hplan, by simp [hunits]⟩
  · rcases h with hbuilt | hupToDate
    · refine ⟨plan, hrun.planned, fun u hu => ?_⟩
      obtain ⟨found, hprocess⟩ := hrun.processed
      rw [hrun.saved, saved_of_writeAll (hrun.built hbuilt), List.take_length]
      rw [← map_fst_zip_of_processAll hprocess] at hu
      exact List.mem_map.1 hu
    · exact absurd hupToDate hrun.notUpToDate

end Stencil
