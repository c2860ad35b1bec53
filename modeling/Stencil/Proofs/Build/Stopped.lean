import Stencil.Proofs.Build.Blocked
import Stencil.Proofs.Build.Resume

/-!
# How writing ends

A run that comes to writing saves its whole plan unless a document is blocked, and otherwise
stops at the first document that is (`build_stopped`). Which documents are blocked depends on
the tree before the run alone.
-/

namespace Stencil

variable {t : FileTree} {options : BuildOptions} {time : Int} {plan : Plan}
  {outputs : List Output} {found : List Warning} {w : PlannedUnit}

/-! ## What a plan expects -/

/-- A planned document was considered, and its output is the one that is found at its names. -/
theorem exists_existing_of_mem_units (ht : t.LinkFree) (hplan : planOf t options = .ok plan)
    (hnamed : options.output.text ≠ "") (hw : w ∈ plan.units) :
    ∃ names, ConsideredAt t options plan.templates names w ∧
      w.existing = outputAt t options.output names := by
  obtain ⟨-, -, hhome⟩ := docs_of_planOf ht hplan (List.ne_nil_of_mem hw)
  obtain ⟨names, hat⟩ := exists_consideredAt_of_mem_units ht hplan hw
  obtain ⟨inventory, hscan, hmake⟩ := planOf_eq_ok.1 hplan
  obtain ⟨hdocs, -, hbuilt⟩ := scan_eq_ok hscan
  obtain ⟨-, hselect⟩ := Plan.of_make hmake
  obtain ⟨i, doc, hdoc, hexamined⟩ := Plan.exists_examined_of_mem hselect hw
  have hrel : doc.rel = .ofNames names := hexamined.rel.symm.trans hat.rel
  have hexisting := hexamined.existing
  have hearlier := not_same_of_mem_take ht hdocs hdoc
  rw [hrel] at hexisting hearlier
  refine ⟨names, hat, hexisting.trans ?_⟩
  exact matchedOutput_eq ht hhome hnamed hbuilt hat.ne_nil hat.valid hearlier

/-- Below a grounded output root every document is planned for what stands at its place. -/
theorem exists_expected_of_mem_units (ht : t.LinkFree) (hplan : planOf t options = .ok plan)
    (hnamed : options.output.text ≠ "") (hgrounded : t.Grounded options.output)
    (hw : w ∈ plan.units) : ∃ names, w.Expected t options.output names := by
  obtain ⟨-, -, hhome⟩ := docs_of_planOf ht hplan (List.ne_nil_of_mem hw)
  obtain ⟨names, hat, hexisting⟩ := exists_existing_of_mem_units ht hplan hnamed hw
  obtain ⟨file, hfile⟩ := Option.isSome_iff_exists.1 hat.file
  refine ⟨names, ⟨ht, hhome, hgrounded.rooted, hat.rel, hat.ne_nil, hat.valid, _, file, ?_,
    hfile⟩, hgrounded, hnamed, ?_⟩
  · rw [hat.path]
    exact hat.source
  · rw [hexisting]
    unfold outputAt
    split <;> simp_all

/-- Below a root that goes up from a file every document has that file in its way. -/
theorem obstructed_of_not_grounded (ht : t.LinkFree) (hhome : t.IsDirectory t.home) {root : Path}
    (hrooted : t.Rooted root) (hgrounded : ¬ t.Grounded root) {names : List String}
    (hrel : w.source.rel = .ofNames names) (hnames : ∀ n ∈ names, isFileName n = true) :
    t.Obstructed (w.target root) := by
  unfold FileTree.Grounded at hgrounded
  push Not at hgrounded
  obtain ⟨lead, rest, hsplit, hdir⟩ := hgrounded
  have hfile := (FileTree.isDirectory_or_file? ht (hrooted lead rest hsplit)).resolve_left hdir
  refine ⟨_, ⟨lead, ?_, ?_, ?_, rfl⟩, hfile⟩
  · rintro rfl
    exact hdir hhome
  all_goals rw [PlannedUnit.target, hrel, Path.components_join_ofNames root hnames, hsplit]
  · simp
  · simp

/-- No planned output goes below another. -/
theorem pairwise_apart_units (ht : t.LinkFree) (hplan : planOf t options = .ok plan) :
    plan.units.Pairwise fun u v =>
      Apart (u.targetPlace options.output t.home) (v.targetPlace options.output t.home) := by
  have hbelow : ∀ {u v : PlannedUnit} {names names' : List String},
      ConsideredAt t options plan.templates names u → ConsideredAt t options plan.templates names' v →
      u.targetPlace options.output t.home ≠ v.targetPlace options.output t.home →
      ¬ u.targetPlace options.output t.home <+: v.targetPlace options.output t.home := by
    intro u v names names' hat hat' hne hprefix
    rw [hat.target, hat'.target] at hne hprefix
    obtain ⟨rest, rfl⟩ := (List.prefix_append_right_inj _).1 hprefix
    -- the document of the one would be a directory above that of the other
    obtain ⟨file, hfile⟩ := Option.isSome_iff_exists.1 hat'.file
    have hmem := FileTree.mem_nodes_of_file? hfile
    rw [← List.append_assoc] at hmem
    refine FileTree.not_isDirectory_of_file? hat.file (FileTree.isDirectory_of_mem_append hmem ?_)
    rintro rfl
    simp at hne
  refine (pairwise_target_units ht hplan).imp_of_mem ?_
  intro u v hu hv hne
  obtain ⟨names, hat⟩ := exists_consideredAt_of_mem_units ht hplan hu
  obtain ⟨names', hat'⟩ := exists_consideredAt_of_mem_units ht hplan hv
  exact ⟨hbelow hat hat' hne, hbelow hat' hat hne.symm⟩

/-! ## The end of a run -/

/-- The writing of a plan comes to its end or stops at the first document that is blocked. -/
theorem writeAll_units (time : Int) (ht : t.LinkFree) (hnamed : options.output.text ≠ "")
    (hrooted : t.Rooted options.output) (hplan : planOf t options = .ok plan)
    (hunits : plan.units ≠ []) (hprocess : plan.processAll t options.limit = .ok (outputs, found)) :
    let writing := writeAll options.output time (plan.units.zip outputs) t
    (writing.failure = none ∧ ∀ u ∈ plan.units, ¬ u.Blocked t options.output) ∨
      ∃ failure, writing.failure = some failure ∧
        StopsAt t options.output plan.units writing.saved failure := by
  intro writing
  have hfst := map_fst_zip_of_processAll hprocess
  by_cases hgrounded : t.Grounded options.output
  · have hpairs : ∀ p ∈ plan.units.zip outputs, ∃ names, p.1.Expected t options.output names :=
      fun p hp => exists_expected_of_mem_units ht hplan hnamed hgrounded (List.of_mem_zip hp).1
    have hapart := pairwise_apart_units ht hplan
    rw [← hfst, List.pairwise_map] at hapart
    have hends := writeAll_of_expected time hpairs hapart
    rw [hfst] at hends
    refine hends.imp_left (And.imp_right fun hall u hu => ?_)
    rw [← hfst] at hu
    obtain ⟨p, hp, rfl⟩ := List.mem_map.1 hu
    exact hall p hp
  · -- the first document is stopped by a file that the root goes up from
    right
    obtain ⟨u, units, hcons⟩ := List.exists_cons_of_ne_nil hunits
    have hu : u ∈ plan.units := by simp [hcons]
    obtain ⟨-, -, hhome⟩ := docs_of_planOf ht hplan hunits
    obtain ⟨names, hat, hexisting⟩ := exists_existing_of_mem_units ht hplan hnamed hu
    have hway := obstructed_of_not_grounded ht hhome hrooted hgrounded hat.rel hat.valid
    have hnew : u.existing = none := by
      rw [hexisting, outputAt, if_neg]
      exact fun hfound => hgrounded hfound.1
    obtain ⟨output, rest, hout⟩ : ∃ output rest, outputs = output :: rest := by
      refine List.exists_cons_of_length_pos ?_
      rw [length_of_processAll hprocess, hcons]
      exact Nat.succ_pos _
    obtain ⟨t', cause, hsave⟩ := PlannedUnit.save_of_obstructed ht hhome hat.rel hat.valid
      hat.ne_nil hnew hway output time
    have hwriting : writing = ⟨t', 0, some (.io (u.target options.output) cause)⟩ := by
      show writeAll options.output time (plan.units.zip outputs) t = _
      rw [hcons, hout, List.zip_cons_cons, writeAll, hsave]
    rw [hwriting]
    exact ⟨_, rfl, u, by simp [hcons], .file cause hway, by simp⟩

/-- A run has written its plan as far as the first document that is blocked. -/
structure Stopped (t : FileTree) (options : BuildOptions) (plan : Plan) (run : BuildRun) :
    Prop where
  built_iff : run.outcome.status = .built ↔ ∀ u ∈ plan.units, ¬ u.Blocked t options.output
  saved_of_built : run.outcome.status = .built → run.outcome.saved = plan.units.length
  blocked : ∀ i u, plan.units[i]? = some u → u.Blocked t options.output →
    (∀ v ∈ plan.units.take i, ¬ v.Blocked t options.output) →
    run.outcome.saved = i ∧
      (t.isDirectory (u.target options.output) = true →
        run.outcome.status = .writeFailed (.alreadyExists (u.target options.output))) ∧
      (t.Obstructed (u.target options.output) →
        ∃ cause, run.outcome.status = .writeFailed (.io (u.target options.output) cause))
  /-- No output that was there when the run was planned is missed. -/
  not_missing : ∀ path, run.outcome.status ≠ .writeFailed (.missingTarget path)

/-- The document at which writing stops is the only one that is blocked and has none before it
that is. -/
theorem StopsAt.eq {root : Path} {units : List PlannedUnit} {i j : Nat} {failure : WriteFailure}
    (h : StopsAt t root units i failure) (hw : units[j]? = some w) (hblocked : w.Blocked t root)
    (hbefore : ∀ v ∈ units.take j, ¬ v.Blocked t root) : i = j ∧ w.BlockedBy t root failure := by
  obtain ⟨u, hu, hby, hfirst⟩ := h
  have hmem : ∀ {i j : Nat} {u : PlannedUnit}, units[i]? = some u → i < j → u ∈ units.take j := by
    intro i j u hu hlt
    refine List.mem_of_getElem? (i := i) ?_
    rw [List.getElem?_take_of_lt hlt]
    exact hu
  rcases Nat.lt_trichotomy i j with hlt | rfl | hlt
  · exact absurd hby.blocked (hbefore u (hmem hu hlt))
  · rw [hw, Option.some.injEq] at hu
    exact ⟨rfl, hu ▸ hby⟩
  · exact absurd hblocked (hfirst w (hmem hw hlt))

variable {run : BuildRun} {failure : WriteFailure}

/-- A run that comes to its end has met no document that is blocked. -/
theorem stopped_of_built (hstatus : run.outcome.status = .built)
    (hsaved : run.outcome.saved = plan.units.length)
    (hfree : ∀ u ∈ plan.units, ¬ u.Blocked t options.output) : Stopped t options plan run := by
  refine ⟨iff_of_true hstatus hfree, fun _ => hsaved, ?_, ?_⟩
  · intro i u hu hblocked _
    exact absurd hblocked (hfree u (List.mem_of_getElem? hu))
  · intro path hmissing
    rw [hmissing] at hstatus
    cases hstatus

/-- A run that fails has the failure of the document that it stops at. -/
theorem stopped_of_stopsAt (ht : t.LinkFree) (hplan : planOf t options = .ok plan)
    (hstatus : run.outcome.status = .writeFailed failure)
    (hstops : StopsAt t options.output plan.units run.outcome.saved failure) :
    Stopped t options plan run := by
  have hstopped := hstops
  obtain ⟨u, hu, hby, -⟩ := hstops
  refine ⟨?_, by simp [hstatus], ?_, ?_⟩
  · refine iff_of_false ?_ fun hfree => hfree u (List.mem_of_getElem? hu) hby.blocked
    simp [hstatus]
  · intro i v hv hblocked hbefore
    obtain ⟨hsaved, hby⟩ := hstopped.eq hv hblocked hbefore
    obtain ⟨names, hat⟩ := exists_consideredAt_of_mem_units ht hplan (List.mem_of_getElem? hv)
    -- the way to a directory is not blocked, so only one of the two failures can be meant
    have hnot : t.isDirectory (v.target options.output) = true →
        ¬ t.Obstructed (v.target options.output) :=
      PlannedUnit.not_obstructed_of_isDirectory ht hat.rel hat.valid hat.ne_nil
    cases hby with
    | directory hdir => exact ⟨hsaved, fun _ => hstatus, fun hway => absurd hway (hnot hdir)⟩
    | file cause hway =>
      exact ⟨hsaved, fun hdir => absurd hway (hnot hdir), fun _ => ⟨cause, hstatus⟩⟩
  · intro path hmissing
    rw [hmissing] at hstatus
    cases hstatus
    cases hby

/-- A run stops at the first document that is blocked and nowhere else. -/
theorem build_stopped (time : Int) (ht : t.LinkFree) (hnamed : options.output.text ≠ "")
    (hrooted : t.Rooted options.output) (hplan : planOf t options = .ok plan)
    (hunits : plan.units ≠ []) (hprocess : plan.processAll t options.limit = .ok (outputs, found))
    (hdry : options.dryRun = false) :
    Stopped t options plan (build t options time) := by
  have hzip : (plan.units.zip outputs).length = plan.units.length := by
    rw [List.length_zip, length_of_processAll hprocess, Nat.min_self]
  have hends := writeAll_units time ht hnamed hrooted hplan hunits hprocess
  rw [build_of_write hplan hunits hprocess hdry time]
  generalize hwriting : writeAll options.output time (plan.units.zip outputs) t = writing at hends
  rcases hends with ⟨hnone, hfree⟩ | ⟨failure, hfailure, hstops⟩
  · have hstatus : writing.status = .built := by rw [Writing.status, hnone]
    have hsaved : writing.saved = plan.units.length := by
      rw [← hwriting] at hnone ⊢
      exact hzip ▸ saved_of_writeAll hnone
    exact stopped_of_built hstatus hsaved hfree
  · have hstatus : writing.status = .writeFailed failure := by rw [Writing.status, hfailure]
    exact stopped_of_stopsAt ht hplan hstatus hstops

/-- The file `site/b` is in the way of the second document, so the run stops there. -/
theorem build_stopped_blockedSite :
    let options : BuildOptions := ⟨⟨"docs"⟩, ⟨"templates"⟩, ⟨"site"⟩, 10, false, false⟩
    let run := build blockedSite options 5
    blockedSite.LinkFree ∧ blockedSite.Rooted options.output ∧
      run.outcome.status = .writeFailed (.io ⟨"site/b/c.txt"⟩ .alreadyExists) ∧
      run.outcome.saved = 1 ∧ ∃ plan, planOf blockedSite options = .ok plan ∧
        Stopped blockedSite options plan run := by
  intro options run
  have hfree : blockedSite.LinkFree :=
    FileTree.linkFree_store (FileTree.linkFree_store
      (FileTree.linkFree_store FileTree.linkFree_empty _ _ _) _ _ _) _ _ _
  have hrooted : blockedSite.Rooted options.output := by decide +kernel
  have hstatus : run.outcome.status = .writeFailed (.io ⟨"site/b/c.txt"⟩ .alreadyExists) := by
    decide +kernel
  obtain ⟨plan, outputs, found, hplan, hunits, hprocess, hdry⟩ :=
    exists_processed_of_status (.inr ⟨_, hstatus⟩)
  have hstopped := build_stopped 5 hfree (by decide) hrooted hplan hunits hprocess hdry
  exact ⟨hfree, hrooted, hstatus, by decide +kernel, plan, hplan, hstopped⟩

/-- An output root that goes up from a directory that is missing is not found when the run is
planned. So the second document is taken for a new one, and writing stops at the file that is
there though nothing blocks it. -/
theorem writeFailed_of_detour :
    let options : BuildOptions := ⟨⟨"docs"⟩, ⟨"templates"⟩, ⟨"tmp/../site"⟩, 100, false, false⟩
    let run := build detourSite options 30
    detourSite.LinkFree ∧
      Apart (options.docs.place detourSite.home) (options.templates.place detourSite.home) ∧
      Apart (options.docs.place detourSite.home) (options.output.place detourSite.home) ∧
      Apart (options.templates.place detourSite.home) (options.output.place detourSite.home) ∧
      run.outcome.status = .writeFailed (.alreadyExists ⟨"tmp/../site/b.txt"⟩) ∧
      ∃ plan, planOf detourSite options = .ok plan ∧
        ∀ u ∈ plan.units, ¬ u.Blocked detourSite options.output := by
  intro options run
  have hfree : detourSite.LinkFree :=
    FileTree.linkFree_store (FileTree.linkFree_store
      (FileTree.linkFree_store FileTree.linkFree_empty _ _ _) _ _ _) _ _ _
  obtain ⟨plan, hplan, hcheck⟩ : ∃ plan, planOf detourSite options = .ok plan ∧
      decide (∀ u ∈ plan.units, ¬ u.Blocked detourSite options.output) = true :=
    Stages.exists_of_any (by decide +kernel)
  exact ⟨hfree, by decide +kernel, by decide +kernel, by decide +kernel, by decide +kernel, plan,
    hplan, of_decide_eq_true hcheck⟩

-- The empty path is never found, so with it as output root no file that is there is expected.
example :
    let t : FileTree := { detourSite with home := ["site"] }
    let options : BuildOptions := ⟨⟨"../docs"⟩, ⟨"../templates"⟩, ⟨""⟩, 100, false, false⟩
    (build t options 30).outcome.status = .writeFailed (.alreadyExists ⟨"b.txt"⟩) ∧
      t.isDirectory ⟨"b.txt"⟩ = false ∧ ¬ t.Obstructed ⟨"b.txt"⟩ := by
  decide +kernel

end Stencil
