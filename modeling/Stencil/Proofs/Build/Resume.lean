import Stencil.Proofs.Build.Atomic
import Stencil.Proofs.Build.Refusal
import Stencil.Proofs.Build.Resaved

/-!
# Going on after a run

A second run on the tree that a run has left plans what the first has not saved
(`build_resumes`). So it has nothing to do after a run that ended well, and after one that
failed it fails at the same document.
-/

namespace Stencil

variable {t u : FileTree} {options : BuildOptions} {time time' : Int} {plan : Plan}
  {outputs : List Output} {found : List Warning}

/-! ## The tree between two runs -/

/-- `u` is the tree that a run has left, where the files that the run saved may have other
times, but none earlier than a document or a template. -/
structure Restamped (t : FileTree) (options : BuildOptions) (time : Int) (u : FileTree) : Prop where
  alike : (build t options time).tree.Alike u
  saved : ∀ p ∈ savedOutputs t options time, ∃ content written,
    u.file? (p.1.targetPlace options.output t.home) = some (content, written) ∧
    ∀ place source changed, IsSource options t.home place →
      t.file? place = some (source, changed) → changed ≤ written
  others : ∀ q, (∀ p ∈ savedOutputs t options time, p.1.targetPlace options.output t.home ≠ q) →
    u.file? q = (build t options time).tree.file? q

/-- A run whose time is not earlier than any file leaves such a tree. -/
theorem restamped_build (ht : t.LinkFree)
    (hdocs : Apart (options.docs.place t.home) (options.output.place t.home))
    (htemplates : Apart (options.templates.place t.home) (options.output.place t.home))
    (htimes : ∀ file ∈ t.fileList, file.2.2 ≤ time) :
    Restamped t options time (build t options time).tree := by
  refine ⟨.refl _, ?_, fun _ _ => rfl⟩
  intro p hp
  obtain ⟨plan, names, source, changed, content, -, hat, -, -, hfile⟩ :=
    saved_yields ht hdocs htemplates hp
  refine ⟨content, time, by rw [hat.target]; exact hfile, ?_⟩
  intro place source changed _ hsource
  exact htimes _ (FileTree.mem_fileList.2 hsource)

/-- A run that ends in writing has planned something and processed it. -/
theorem exists_processed_of_status (h : (build t options time).outcome.status = .built ∨
    ∃ failure, (build t options time).outcome.status = .writeFailed failure) :
    ∃ plan outputs found, planOf t options = .ok plan ∧ plan.units ≠ [] ∧
      plan.processAll t options.limit = .ok (outputs, found) ∧ options.dryRun = false := by
  have hstatus : ∀ {run : BuildRun}, build t options time = run →
      run.outcome.status = .built ∨ ∃ failure, run.outcome.status = .writeFailed failure := by
    rintro run rfl
    exact h
  cases hplan : planOf t options with
  | error failure => simpa using hstatus (build_of_planOf_error hplan time)
  | ok plan =>
  by_cases hunits : plan.units = []
  · simpa using hstatus (build_of_units_nil hplan hunits time)
  cases hprocess : plan.processAll t options.limit with
  | error failure => simpa using hstatus (build_of_processAll_error hplan hunits hprocess time)
  | ok result =>
  obtain ⟨outputs, found⟩ := result
  cases hdry : options.dryRun with
  | true => simpa using hstatus (build_of_dryRun hplan hunits hprocess hdry time)
  | false => exact ⟨plan, outputs, found, rfl, hunits, hprocess, rfl⟩

/-- A run that has planned something has found its documents. -/
theorem docs_of_planOf (ht : t.LinkFree) (hplan : planOf t options = .ok plan)
    (hunits : plan.units ≠ []) :
    t.locate options.docs = .ok (options.docs.place t.home) ∧
      t.IsDirectory (options.docs.place t.home) ∧ t.IsDirectory t.home := by
  obtain ⟨v, hv⟩ := List.exists_mem_of_ne_nil _ hunits
  obtain ⟨inventory, hscan, hmake⟩ := planOf_eq_ok.1 hplan
  obtain ⟨doc, hdoc, -⟩ := Plan.exists_of_mem_selectUnits (Plan.of_make hmake).2 hv
  obtain ⟨hroot, names, hne, hfile, -⟩ := (mem_findFiles ht (scan_eq_ok hscan).1).1 hdoc
  obtain ⟨file, hsome⟩ := Option.isSome_iff_exists.1 hfile
  have hdir := FileTree.isDirectory_of_mem_append (FileTree.mem_nodes_of_file? hsome) hne
  exact ⟨hroot, hdir,
    FileTree.isDirectory_of_passable ((FileTree.locate_eq_ok_iff ht).1 hroot).2.1 hdir⟩

theorem sited_of_planOf (ht : t.LinkFree)
    (hdocs : Apart (options.docs.place t.home) (options.output.place t.home))
    (htemplates : Apart (options.templates.place t.home) (options.output.place t.home))
    (hnamed : options.output.text ≠ "") (hrooted : t.Rooted options.templates)
    (hrooted' : t.Rooted options.output) (hplan : planOf t options = .ok plan)
    (hunits : plan.units ≠ []) : Sited t options := by
  obtain ⟨hroot, hdir, hhome⟩ := docs_of_planOf ht hplan hunits
  exact ⟨ht, hhome, hroot, hdir, hrooted, hrooted', hnamed, hdocs, htemplates⟩

/-- A run saves nothing below an output root that goes up from a file. -/
theorem Sited.grounded_of_mem_savedOutputs (h : Sited t options) {p : PlannedUnit × Output}
    (hp : p ∈ savedOutputs t options time) : t.Grounded options.output := by
  rcases build_cases t options time with hnone | ⟨plan, outputs, hsome⟩
  · rw [hnone.saved] at hp
    cases hp
  rw [hsome.saved] at hp
  obtain ⟨first, hfirst, t', hsave⟩ := exists_save_of_mem_take hp
  obtain ⟨names, hat⟩ :=
    exists_consideredAt_of_mem_units h.linkFree hsome.planned (List.of_mem_zip hfirst).1
  cases PlannedUnit.save_eq_iff.1 hsave with
  | saved _ parents =>
    rw [PlannedUnit.target, hat.rel] at parents
    exact h.output.grounded_of_makeParents h.linkFree h.home hat.valid hat.ne_nil parents

/-- The names of the documents that a run has saved. -/
def SavedAt (t : FileTree) (options : BuildOptions) (time : Int) (names : List String) : Prop :=
  ∃ p ∈ savedOutputs t options time,
    p.1.targetPlace options.output t.home = options.output.place t.home ++ names

theorem Restamped.resaved (h : Restamped t options time u) (hsited : Sited t options) :
    Resaved t options (SavedAt t options time) u := by
  have ht := hsited.linkFree
  have hrun : t.Extends (build t options time).tree ∧ (build t options time).tree.LinkFree :=
    extends_build ht
  obtain ⟨hextends, hfree⟩ := hrun
  have hconsidered : ∀ p ∈ savedOutputs t options time, ∃ templates names,
      ConsideredAt t options templates names p.1 := by
    intro p hp
    obtain ⟨plan, -, hplan, hunit, -⟩ := of_mem_savedOutputs hp
    exact ⟨plan.templates, exists_consideredAt_of_mem_units ht hplan hunit⟩
  refine ⟨hsited, hextends.trans h.alike.toExtends, h.alike.linkFree hfree, ?_, ?_, ?_, ?_⟩
  · rintro names ⟨p, hp, htarget⟩
    obtain ⟨templates, names', hat⟩ := hconsidered p hp
    rw [hat.target] at htarget
    obtain rfl := List.append_cancel_left htarget
    exact ⟨hat.ne_nil, hat.file⟩
  · rintro names ⟨p, hp, -⟩
    exact hsited.grounded_of_mem_savedOutputs hp
  · rintro names ⟨p, hp, htarget⟩
    rw [← htarget]
    exact h.saved p hp
  · intro q hq
    have hne : ∀ p ∈ savedOutputs t options time,
        p.1.targetPlace options.output t.home ≠ q := by
      intro p hp heq
      obtain ⟨templates, names, hat⟩ := hconsidered p hp
      refine hq names ⟨p, hp, hat.target⟩ ?_
      rw [← hat.target]
      exact heq
    rw [h.others q hne, file?_build_of_ne ht hne]

/-! ## What is left to do -/

theorem savedOutputs_eq (hplan : planOf t options = .ok plan)
    (hprocess : plan.processAll t options.limit = .ok (outputs, found))
    (hdry : options.dryRun = false) :
    savedOutputs t options time = (plan.units.zip outputs).take
      (writeAll options.output time (plan.units.zip outputs) t).saved := by
  unfold savedOutputs
  simp only [hplan, hprocess, hdry]
  rfl

theorem filter_eq_drop {α : Type} {keep : α → Prop} [DecidablePred keep] {as : List α} {count : Nat}
    (hbefore : ∀ a ∈ as.take count, ¬ keep a) (hafter : ∀ a ∈ as.drop count, keep a) :
    as.filter (fun a => decide (keep a)) = as.drop count := by
  have hsplit : as.filter (fun a => decide (keep a)) =
      (as.take count ++ as.drop count).filter fun a => decide (keep a) := by
    rw [List.take_append_drop]
  have hnone : (as.take count).filter (fun a => decide (keep a)) = [] :=
    List.filter_eq_nil_iff.2 fun a ha => by simpa using hbefore a ha
  have hall : (as.drop count).filter (fun a => decide (keep a)) = as.drop count :=
    List.filter_eq_self.2 fun a ha => decide_eq_true (hafter a ha)
  rw [hsplit, List.filter_append, hnone, hall, List.nil_append]

open scoped Classical in
/-- The planned documents that were not saved are those behind the last that was. -/
theorem filter_unsaved (ht : t.LinkFree) (hplan : planOf t options = .ok plan)
    (hprocess : plan.processAll t options.limit = .ok (outputs, found)) {count : Nat}
    (hsaved : savedOutputs t options time = (plan.units.zip outputs).take count) :
    plan.units.filter (fun v => decide (¬ Resaved.IsSaved (SavedAt t options time) v)) =
      plan.units.drop count := by
  have hunits : plan.units.take count = (savedOutputs t options time).map Prod.fst := by
    rw [hsaved, List.map_take, map_fst_zip_of_processAll hprocess]
  have hpairwise := pairwise_target_units ht hplan
  rw [← List.take_append_drop count plan.units, List.pairwise_append] at hpairwise
  apply filter_eq_drop
  · intro v hv hnot
    obtain ⟨names, hat⟩ := exists_consideredAt_of_mem_units ht hplan (List.mem_of_mem_take hv)
    rw [hunits] at hv
    obtain ⟨p, hp, rfl⟩ := List.mem_map.1 hv
    exact hnot ⟨names, ⟨p, hp, hat.target⟩, hat.rel⟩
  · rintro v hv ⟨names, ⟨p, hp, htarget⟩, hrel⟩
    have hp' : p.1 ∈ plan.units.take count := hunits ▸ List.mem_map_of_mem hp
    obtain ⟨names', hat⟩ := exists_consideredAt_of_mem_units ht hplan (List.mem_of_mem_drop hv)
    obtain ⟨names'', hat'⟩ := exists_consideredAt_of_mem_units ht hplan (List.mem_of_mem_take hp')
    -- the document would go where one goes that was saved
    rw [hat'.target] at htarget
    obtain rfl := List.append_cancel_left htarget
    have hpath : Path.ofNames names' = .ofNames names'' := hat.rel.symm.trans hrel
    obtain rfl := (Path.same_ofNames hat.valid hat'.valid).1 (congrArg Path.components hpath)
    exact hpairwise.2.2 _ hp' _ hv (hat'.target.trans hat.target.symm)

/-- A planned document carries the text that its processing needs. -/
theorem ConsideredAt.process_congr {templates : Templates} {names : List String} {v : PlannedUnit}
    (h : ConsideredAt t options templates names v) (u : FileTree) (limit : Nat) :
    v.process u templates limit = v.process t templates limit := by
  unfold PlannedUnit.process
  by_cases hneeds : v.needsExpansion = true
  · have hmarkup : (FileTree.found (options.docs.below names) names).isMarkup = true := by
      have hsource : v.source.isMarkup = true := (Bool.and_eq_true_iff.1 hneeds).1
      exact (Source.isMarkup_congr h.rel).symm.trans hsource
    obtain ⟨text, -, hsource, -⟩ := Plan.templatesUsed_markup h.used hmarkup
    have htext : v.source.text u = v.source.text t := by
      rw [hsource]
      rfl
    rw [htext]
  · simp [hneeds]

/-- What is left of a plan is processed on any tree as it was before. -/
theorem exists_processAll_drop (ht : t.LinkFree) (hplan : planOf t options = .ok plan)
    {limit : Nat} (hprocess : plan.processAll t limit = .ok (outputs, found)) (u : FileTree)
    (count : Nat) :
    ∃ found', ({ plan with units := plan.units.drop count } : Plan).processAll u limit =
      .ok (outputs.drop count, found') := by
  obtain ⟨results, hresults, h⟩ := Stages.bind_eq_ok.1 hprocess
  rw [Stages.pure_eq_ok, Prod.mk.injEq] at h
  have hagain : (plan.units.drop count).mapM (fun v => v.process u plan.templates limit) =
      .ok (results.drop count) := by
    rw [← Stages.mapM_drop hresults count]
    refine Stages.mapM_congr fun v hv => ?_
    obtain ⟨names, hat⟩ := exists_consideredAt_of_mem_units ht hplan (List.mem_of_mem_drop hv)
    exact hat.process_congr u limit
  refine ⟨((results.drop count).map Prod.snd).flatten, Stages.bind_eq_ok.2 ⟨_, hagain, ?_⟩⟩
  rw [Stages.pure_eq_ok, ← h.1, List.map_drop]

/-! ## The second run -/

/-- The second run, on `u`, goes on where the first has stopped. -/
structure Resumes (t : FileTree) (options : BuildOptions) (time : Int) (u : FileTree)
    (time' : Int) (plan : Plan) : Prop where
  planned : planOf t options = .ok plan
  /-- It plans what the first has not saved, and has the same warnings about the plan. -/
  replanned : planOf u options =
    .ok { plan with units := plan.units.drop (build t options time).outcome.saved }
  events : (build u options time').events =
    (plan.units.drop (build t options time).outcome.saved).map PlannedUnit.plannedEvent
  /-- It writes nothing. -/
  tree : (build u options time').tree = u
  upToDate_iff : (build u options time').outcome.status = .upToDate ↔
    (build t options time).outcome.status = .built
  /-- It fails as the first did, before it has saved anything. -/
  writeFailed : ∀ failure, (build t options time).outcome.status = .writeFailed failure →
    (build u options time').outcome.status = .writeFailed failure ∧
      (build u options time').outcome.saved = 0

/-- A second run plans what the first has not saved. -/
theorem Restamped.planOf_eq (h : Restamped t options time u) (hsited : Sited t options)
    (hforce : options.force = false) (hplan : planOf t options = .ok plan)
    (hprocess : plan.processAll t options.limit = .ok (outputs, found)) {count : Nat}
    (hsaved : savedOutputs t options time = (plan.units.zip outputs).take count) :
    planOf u options = .ok { plan with units := plan.units.drop count } := by
  rw [(h.resaved hsited).planOf_eq hforce hplan, filter_unsaved hsited.linkFree hplan hprocess hsaved]

/-- When the first run has saved everything, the second has nothing to do. -/
theorem resumes_of_built (hplan : planOf t options = .ok plan)
    (hreplanned : planOf u options =
      .ok { plan with units := plan.units.drop (build t options time).outcome.saved })
    (hbuilt : (build t options time).outcome.status = .built)
    (hall : (build t options time).outcome.saved = plan.units.length) :
    Resumes t options time u time' plan := by
  have hnil : plan.units.drop (build t options time).outcome.saved = [] := by
    rw [hall, List.drop_length]
  have hagain := build_of_units_nil hreplanned hnil time'
  refine ⟨hplan, hreplanned, ?_, ?_, ?_, ?_⟩
  · rw [hagain, hnil]
    rfl
  · rw [hagain]
  · rw [hagain, hbuilt]
    simp
  · intro failure hfailed
    rw [hbuilt] at hfailed
    cases hfailed

/-- When the first run has stopped at a document, the second stops at once. -/
theorem resumes_of_writeFailed {failure : WriteFailure} (hplan : planOf t options = .ok plan)
    (hreplanned : planOf u options =
      .ok { plan with units := plan.units.drop (build t options time).outcome.saved })
    (hfailed : (build t options time).outcome.status = .writeFailed failure)
    (hleft : plan.units.drop (build t options time).outcome.saved ≠ [])
    (hprocess : ({ plan with units := plan.units.drop (build t options time).outcome.saved } :
      Plan).processAll u options.limit = .ok (outputs, found))
    (hdry : options.dryRun = false)
    (hstop : writeAll options.output time'
      ((plan.units.drop (build t options time).outcome.saved).zip outputs) u =
        ⟨u, 0, some failure⟩) : Resumes t options time u time' plan := by
  have hagain := build_of_write hreplanned hleft hprocess hdry time'
  simp only [hstop] at hagain
  refine ⟨hplan, hreplanned, ?_, ?_, ?_, ?_⟩
  · rw [hagain]
    simp
  · rw [hagain]
  · rw [hagain, hfailed]
    simp [Writing.status]
  · intro failure' hfailed'
    rw [hfailed] at hfailed'
    cases hfailed'
    rw [hagain]
    exact ⟨rfl, rfl⟩

/-- The documents of a run can be found and read in the tree it leaves. -/
theorem exists_source_of_mem_zip_build (ht : t.LinkFree)
    (hdocs : Apart (options.docs.place t.home) (options.output.place t.home))
    (htemplates : Apart (options.templates.place t.home) (options.output.place t.home))
    (hplan : planOf t options = .ok plan) {p : PlannedUnit × Output}
    (hp : p ∈ plan.units.zip outputs) :
    ∃ names, p.1.source.rel = .ofNames names ∧ names ≠ [] ∧
      (∀ n ∈ names, isFileName n = true) ∧ ∃ place file, t.locate p.1.source.path = .ok place ∧
      (build t options time).tree.file? place = some file := by
  obtain ⟨names, hat⟩ := exists_consideredAt_of_mem_units ht hplan (List.of_mem_zip hp).1
  obtain ⟨file, hfile⟩ := Option.isSome_iff_exists.1 hat.file
  refine ⟨names, hat.rel, hat.ne_nil, hat.valid, options.docs.place t.home ++ names, file, ?_, ?_⟩
  · rw [hat.path]
    exact hat.source
  · rw [file?_build_of_ne ht
      (target_ne_of_isSource ht hdocs htemplates (.inl (List.prefix_append ..)))]
    exact hfile

/-- What is left to write after a run that has failed fails at once. -/
theorem writeAll_drop_of_writeFailed (hsited : Sited t options)
    (hplan : planOf t options = .ok plan) (hunits : plan.units ≠ [])
    (hprocess : plan.processAll t options.limit = .ok (outputs, found))
    (hdry : options.dryRun = false) {failure : WriteFailure}
    (hfailed : (build t options time).outcome.status = .writeFailed failure)
    (halike : (build t options time).tree.Alike u) (time' : Int) :
    writeAll options.output time'
      ((plan.units.drop (build t options time).outcome.saved).zip
        (outputs.drop (build t options time).outcome.saved)) u = ⟨u, 0, some failure⟩ := by
  let writing := writeAll options.output time (plan.units.zip outputs) t
  have hrun := build_of_write hplan hunits hprocess hdry time
  have hcount : (build t options time).outcome.saved = writing.saved := by rw [hrun]
  have htree : (build t options time).tree = writing.tree := by rw [hrun]
  have hfailure : writing.failure = some failure := by
    have hstatus : writing.status = .writeFailed failure := by rw [← hfailed, hrun]
    unfold Writing.status at hstatus
    cases hwriting : writing.failure with
    | none => simp [hwriting] at hstatus
    | some failure' => simpa [hwriting] using hstatus
  rw [htree] at halike
  rw [List.zip_eq_zipWith, ← List.drop_zipWith, ← List.zip_eq_zipWith, hcount]
  refine writeAll_drop_of_alike hsited.linkFree hsited.home hsited.output ?_ hfailure halike time'
  intro p hp
  rw [← htree]
  exact exists_source_of_mem_zip_build hsited.linkFree hsited.docsApart hsited.templatesApart
    hplan hp

/-- After a run that was told to write and came to it, a second run on the tree it left plans
the documents that are left and goes no further than the first. -/
theorem build_resumes (ht : t.LinkFree)
    (hdocs : Apart (options.docs.place t.home) (options.output.place t.home))
    (htemplates : Apart (options.templates.place t.home) (options.output.place t.home))
    (hnamed : options.output.text ≠ "") (hrooted : t.Rooted options.templates)
    (hrooted' : t.Rooted options.output) (hforce : options.force = false)
    (hended : (build t options time).outcome.status = .built ∨
      ∃ failure, (build t options time).outcome.status = .writeFailed failure)
    (hu : Restamped t options time u) (time' : Int) :
    ∃ plan, Resumes t options time u time' plan := by
  obtain ⟨plan, outputs, found, hplan, hunits, hprocess, hdry⟩ := exists_processed_of_status hended
  have hsited : Sited t options :=
    sited_of_planOf ht hdocs htemplates hnamed hrooted hrooted' hplan hunits
  obtain ⟨-, hfirst⟩ := savedPlan_build time ht hdocs hplan hunits hprocess hdry
  have hsaved : savedOutputs t options time =
      (plan.units.zip outputs).take (build t options time).outcome.saved := by
    rw [build_of_write hplan hunits hprocess hdry time]
    exact savedOutputs_eq hplan hprocess hdry
  have hreplanned := hu.planOf_eq hsited hforce hplan hprocess hsaved
  refine ⟨plan, ?_⟩
  rcases hended with hbuilt | ⟨failure, hfailed⟩
  · exact resumes_of_built hplan hreplanned hbuilt (hfirst.built_iff.1 hbuilt)
  · have hleft : plan.units.drop (build t options time).outcome.saved ≠ [] := by
      intro hnil
      have hall := Nat.le_antisymm hfirst.saved_le (List.drop_eq_nil_iff.1 hnil)
      rw [hfirst.built_iff.2 hall] at hfailed
      cases hfailed
    obtain ⟨found', hprocess'⟩ :=
      exists_processAll_drop ht hplan hprocess u (build t options time).outcome.saved
    exact resumes_of_writeFailed hplan hreplanned hfailed hleft hprocess' hdry
      (writeAll_drop_of_writeFailed hsited hplan hunits hprocess hdry hfailed hu.alike time')

/-- A run that a file has stopped is stopped by it again. -/
theorem build_resumes_blockedSite :
    let options : BuildOptions := ⟨⟨"docs"⟩, ⟨"templates"⟩, ⟨"site"⟩, 10, false, false⟩
    let run := build blockedSite options 5
    blockedSite.LinkFree ∧
      Apart (options.docs.place blockedSite.home) (options.output.place blockedSite.home) ∧
      Apart (options.templates.place blockedSite.home) (options.output.place blockedSite.home) ∧
      blockedSite.Rooted options.templates ∧ blockedSite.Rooted options.output ∧
      run.outcome.status = .writeFailed (.io ⟨"site/b/c.txt"⟩ .alreadyExists) ∧
      run.outcome.saved = 1 ∧ Restamped blockedSite options 5 run.tree ∧
      ∃ plan, Resumes blockedSite options 5 run.tree 6 plan := by
  intro options run
  have hfree : blockedSite.LinkFree :=
    FileTree.linkFree_store (FileTree.linkFree_store
      (FileTree.linkFree_store FileTree.linkFree_empty _ _ _) _ _ _) _ _ _
  have hdocs : Apart (options.docs.place blockedSite.home)
      (options.output.place blockedSite.home) := by decide +kernel
  have htemplates : Apart (options.templates.place blockedSite.home)
      (options.output.place blockedSite.home) := by decide +kernel
  have hrooted : blockedSite.Rooted options.templates := by decide +kernel
  have hrooted' : blockedSite.Rooted options.output := by decide +kernel
  have hstatus : run.outcome.status = .writeFailed (.io ⟨"site/b/c.txt"⟩ .alreadyExists) := by
    decide +kernel
  have hstamped : Restamped blockedSite options 5 run.tree :=
    restamped_build hfree hdocs htemplates (by decide +kernel)
  have hresumes := build_resumes hfree hdocs htemplates (by decide) hrooted hrooted' rfl
    (.inr ⟨_, hstatus⟩) hstamped 6
  exact ⟨hfree, hdocs, htemplates, hrooted, hrooted', hstatus, by decide +kernel, hstamped,
    hresumes⟩

/-- Two documents, the second with an output that is newer. -/
def detourSite : FileTree :=
  let docs := (FileTree.empty.store ⟨"docs/a.txt"⟩ "A".toUTF8 10).store ⟨"docs/b.txt"⟩ "B".toUTF8 10
  docs.store ⟨"site/b.txt"⟩ "old".toUTF8 20

/-- An output root that goes up from a directory that is missing is not found until the first
run has made that directory on its way. So the first run takes the second document for a new
one and fails, and the second run has nothing to do. -/
theorem upToDate_after_writeFailed :
    let options : BuildOptions := ⟨⟨"docs"⟩, ⟨"templates"⟩, ⟨"tmp/../site"⟩, 100, false, false⟩
    let run := build detourSite options 30
    detourSite.LinkFree ∧
      Apart (options.docs.place detourSite.home) (options.templates.place detourSite.home) ∧
      Apart (options.docs.place detourSite.home) (options.output.place detourSite.home) ∧
      Apart (options.templates.place detourSite.home) (options.output.place detourSite.home) ∧
      run.outcome.status = .writeFailed (.alreadyExists ⟨"tmp/../site/b.txt"⟩) ∧
      run.outcome.saved = 1 ∧ Restamped detourSite options 30 run.tree ∧
      (build run.tree options 30).outcome.status = .upToDate := by
  intro options run
  have hfree : detourSite.LinkFree :=
    FileTree.linkFree_store (FileTree.linkFree_store
      (FileTree.linkFree_store FileTree.linkFree_empty _ _ _) _ _ _) _ _ _
  have hdocs : Apart (options.docs.place detourSite.home)
      (options.output.place detourSite.home) := by decide +kernel
  have htemplates : Apart (options.templates.place detourSite.home)
      (options.output.place detourSite.home) := by decide +kernel
  exact ⟨hfree, by decide +kernel, hdocs, htemplates, by decide +kernel, by decide +kernel,
    restamped_build hfree hdocs htemplates (by decide +kernel), by decide +kernel⟩

-- The empty path is never found, so with it as output root nothing that was saved is seen again.
example :
    let t : FileTree := { detourSite with home := ["site"] }
    let options : BuildOptions := ⟨⟨"../docs"⟩, ⟨"../templates"⟩, ⟨""⟩, 100, false, false⟩
    let run := build t options 30
    run.outcome.status = .writeFailed (.alreadyExists ⟨"b.txt"⟩) ∧ run.outcome.saved = 1 ∧
      (build run.tree options 30).outcome.status = .writeFailed (.alreadyExists ⟨"a.txt"⟩) := by
  decide +kernel

end Stencil
