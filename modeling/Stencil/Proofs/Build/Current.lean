import Stencil.Proofs.Build.History

/-!
# Outputs that are current

After any history, a run that ends well leaves for every document the bytes that the
document yields with the templates there are now (`History.outputs_current`), though it
builds only what it has to. The condition is that expansion asks for no template that the
planner does not see in the document.
-/

namespace Stencil

variable {options : BuildOptions} {t : FileTree} {clock time : Int} {plan : Plan}
  {names : List String} {u : PlannedUnit}

/-- The expansion of every markup document asks only for templates that the planner finds in
the document. -/
def Confined (options : BuildOptions) (t : FileTree) : Prop :=
  ∀ inventory templates,
    Inventory.scan t options.docs options.templates options.output = .ok inventory →
    (Templates.load t inventory.templates).2 = .ok templates →
    ∀ doc ∈ inventory.docs, doc.isMarkup = true → ∀ text used, doc.text t = .ok text →
      templateNames text = .ok used →
      ∀ name ∈ consultedNames templates options.limit text, name ∈ used

instance (options : BuildOptions) (t : FileTree) : Decidable (Confined options t) :=
  match hscan : Inventory.scan t options.docs options.templates options.output with
  | .error _ => isTrue fun inventory templates h => by
      rw [hscan] at h
      cases h
  | .ok inventory =>
    match hload : (Templates.load t inventory.templates).2 with
    | .error _ => isTrue fun inventory' templates h h' => by
        rw [hscan] at h
        cases h
        rw [hload] at h'
        cases h'
    | .ok templates =>
      decidable_of_iff (∀ doc ∈ inventory.docs, doc.isMarkup = true →
          ∀ text ∈ (doc.text t).toOption, ∀ used ∈ (templateNames text).toOption,
          ∀ name ∈ consultedNames templates options.limit text, name ∈ used) (by
        constructor
        · intro hall inventory' templates' h h' doc hdoc hmarkup text used htext hused
          rw [hscan] at h
          cases h
          rw [hload] at h'
          cases h'
          exact hall doc hdoc hmarkup text (Stages.mem_toOption.2 htext) used
            (Stages.mem_toOption.2 hused)
        · intro hall doc hdoc hmarkup text htext used hused
          exact hall inventory templates hscan hload doc hdoc hmarkup text used
            (Stages.mem_toOption.1 htext) (Stages.mem_toOption.1 hused))

/-- The output that a document takes stands at the names of the document. -/
theorem of_claimOutput_ofNames (ht : t.LinkFree) {root : Path} {built left : List Source}
    (hbuilt : findFiles t root = .ok built) (hleft : left.Sublist built)
    (hvalid : ∀ n ∈ names, isFileName n = true) {output : Source}
    (h : (Plan.claimOutput (.ofNames names) left).1 = some output) :
    output = FileTree.found (root.below names) names ∧
      t.locate root = .ok (root.place t.home) ∧
      (t.file? (root.place t.home ++ names)).isSome := by
  obtain ⟨hmem, hsame⟩ := Plan.of_claimOutput h
  obtain ⟨hroot, others, -, hfile, rfl⟩ := (mem_findFiles ht hbuilt).1 (hleft.subset hmem)
  obtain ⟨file, hsome⟩ := Option.isSome_iff_exists.1 hfile
  have hothers := FileTree.isFileName_of_mem (FileTree.mem_nodes_of_file? hsome)
  obtain rfl := (Path.same_ofNames hothers hvalid).1 hsame
  exact ⟨rfl, hroot, hfile⟩

/-- The document at `names` has an output, and neither the document nor a template that it
uses is newer. -/
structure Fresh (t : FileTree) (options : BuildOptions) (plan : Plan) (names : List String)
    (source content : ByteArray) : Prop where
  located : t.locate (options.output.join (.ofNames names)) =
    .ok (options.output.place t.home ++ names)
  times : ∃ time changed,
    t.file? (options.output.place t.home ++ names) = some (content, time) ∧
    t.file? (options.docs.place t.home ++ names) = some (source, changed) ∧ changed ≤ time ∧
    ∀ name template, Uses (.ofNames names) source name →
      plan.templates[name]? = some template →
      ∃ stamp, template.source.time t = .ok stamp ∧ stamp ≤ time

/-- A document that need not be built again is fresh. -/
theorem ConsideredAt.fresh (ht : t.LinkFree)
    (hat : ConsideredAt t options plan.templates names u) {built left : List Source}
    (hbuilt : findFiles t options.output = .ok built) (hleft : left.Sublist built)
    (hclaim : u.existing = (Plan.claimOutput (.ofNames names) left).1)
    (hrequired : Plan.isRequired t plan.templates options.force u = .ok false) :
    ∃ source content, Fresh t options plan names source content := by
  -- the times that the planner compared are those of the files
  obtain ⟨output, time, hexisting, htime, ⟨changed, hchanged, hle⟩, htemplates⟩ :=
    Plan.of_isRequired_eq_false hrequired
  obtain ⟨rfl, hroot, hfile⟩ :=
    of_claimOutput_ofNames ht hbuilt hleft hat.valid (hclaim.symm.trans hexisting)
  obtain ⟨⟨content, stamp⟩, hcontent⟩ := Option.isSome_iff_exists.1 hfile
  obtain ⟨⟨source, stamp'⟩, hsource⟩ := Option.isSome_iff_exists.1 hat.file
  have hstamp : t.time (options.output.below names) = .ok stamp :=
    FileTree.time_of_file? (FileTree.locate_found ht hroot hcontent hat.ne_nil) hcontent
  have hstamp' : t.time (options.docs.below names) = .ok stamp' :=
    FileTree.time_of_file? hat.source hsource
  rw [Plan.time_of_templatesUsed hat.used] at hchanged
  obtain rfl := Except.ok.inj (hstamp.symm.trans (Stages.mapError_eq_ok.1 htime))
  obtain rfl := Except.ok.inj (hstamp'.symm.trans (Stages.mapError_eq_ok.1 hchanged))
  refine ⟨source, content, ?_, stamp, stamp', hcontent, hsource, hle, ?_⟩
  · exact FileTree.locate_below ht hroot (FileTree.mem_nodes_of_file? hcontent) hat.ne_nil rfl
  · intro name template huses htemplate
    exact htemplates name (hat.of_uses hsource huses).1 template htemplate

/-- An output of a history that need not be built again holds what its document yields now:
nothing that its expansion asks for has been changed since. -/
theorem Sound.yieldBytes_eq (h : Sound options t clock) (hconfined : Confined options t)
    {inventory : Inventory}
    (hscan : Inventory.scan t options.docs options.templates options.output = .ok inventory)
    (hmake : Plan.make t inventory options.force = .ok plan)
    (hdoc : FileTree.found (options.docs.below names) names ∈ inventory.docs)
    (hat : ConsideredAt t options plan.templates names u) {source content : ByteArray}
    (hfresh : Fresh t options plan names source content) :
    yieldBytes plan.templates options.limit (.ofNames names) source = some content := by
  obtain ⟨time, changed, hcontent, hsource, hle, htemplates⟩ := hfresh.times
  obtain ⟨source', snapshot, hyield, hdocument, hsnapshot⟩ :=
    h.traced names content time hat.ne_nil hcontent
  obtain rfl := hdocument source changed hsource hle
  rw [← hyield]
  refine (yieldBytes_congr ?_).symm
  intro text used hmarkup htext hused name hname
  have hread : (FileTree.found (options.docs.below names) names).text t = .ok text := by
    obtain ⟨text', htext', -⟩ := Plan.templatesUsed_markup hat.used (beq_iff_eq.2 hmarkup)
    have hsame := text_of_readBytes (readBytes_of_locate hat.source hsource) rfl htext'
    rw [htext] at hsame
    rw [htext', Option.some.inj hsame]
  -- the planner has seen the name, so it has compared the time of its template
  have hmem : name ∈ used := hconfined inventory plan.templates hscan (Plan.of_make hmake).1 _ hdoc
    (beq_iff_eq.2 hmarkup) text used hread hused name hname
  have huses : Uses (.ofNames names) source name := ⟨hmarkup, text, used, htext, hused, hmem⟩
  obtain ⟨template, htemplate⟩ := Option.isSome_iff_exists.1
    (Std.ExtTreeMap.mem_iff_isSome_getElem?.1 (hat.of_uses hsource huses).2)
  obtain ⟨stamp, hstamp, hearlier⟩ := htemplates name template huses htemplate
  obtain ⟨below, current, stamp', body, hne, hkind, rfl, rfl, hfile, hbody, hstamp'⟩ :=
    exists_file_of_getElem? h.linkFree (planOf_eq_ok.2 ⟨inventory, hscan, hmake⟩) htemplate
  obtain rfl := Except.ok.inj (hstamp.symm.trans hstamp')
  rw [htemplate]
  exact hsnapshot below current stamp body hne hkind huses hfile hearlier hbody

theorem locate_build (ht : t.LinkFree) {path : Path} {place : Place}
    (h : t.locate path = .ok place) : (build t options time).tree.locate path = .ok place := by
  obtain ⟨hextends, hfree⟩ := extends_build ht
  exact hextends.locate ht hfree h

/-- After a run that ends well on a tree of a history, the output of every document holds
what the document yields. -/
theorem Sound.readBytes_build (h : Sound options t clock) (hconfined : Confined options t)
    (hstatus : (build t options time).outcome.status = .built ∨
      (build t options time).outcome.status = .upToDate) :
    ∃ inventory templates,
      Inventory.scan t options.docs options.templates options.output = .ok inventory ∧
      (Templates.load t inventory.templates).2 = .ok templates ∧
      ∀ doc ∈ inventory.docs, ∃ bytes, yieldOf t templates options.limit doc = .ok bytes ∧
        (build t options time).tree.readBytes (options.output.join doc.rel) = .ok bytes := by
  have ht := h.linkFree
  obtain ⟨plan, hplan, hunits⟩ := exists_plan_of_status hstatus
  obtain ⟨inventory, hscan, hmake⟩ := planOf_eq_ok.1 hplan
  obtain ⟨hload, hselect⟩ := Plan.of_make hmake
  refine ⟨inventory, plan.templates, hscan, hload, ?_⟩
  intro doc hdoc
  obtain ⟨u, left, hleft, hconsiders, hcase⟩ := Plan.exists_of_mem_docs hselect hdoc
  obtain ⟨names, rfl, hat⟩ := exists_consideredAt ht (scan_eq_ok hscan).1 hdoc hconsiders.used
  suffices hnow : ∃ source changed content written,
      t.file? (options.docs.place t.home ++ names) = some (source, changed) ∧
      yieldBytes plan.templates options.limit (.ofNames names) source = some content ∧
      (build t options time).tree.locate (options.output.join (.ofNames names)) =
        .ok (options.output.place t.home ++ names) ∧
      (build t options time).tree.file? (options.output.place t.home ++ names) =
        some (content, written) by
    obtain ⟨source, changed, content, written, hsource, hyield, hplace, hfile⟩ := hnow
    have hread := readBytes_of_locate hat.source hsource
    exact ⟨content, (yieldOf_eq_ok_iff hat.used hread rfl).2 hyield,
      readBytes_of_locate hplace hfile⟩
  rcases file?_build_cases ht h.docs h.templates names with
    ⟨p, hp, plan', source, changed, content, hplan', hat', hsource, hyield, hfile⟩ | hnot
  · -- the run has saved the output
    obtain rfl := Except.ok.inj (hplan.symm.trans hplan')
    have hplace := locate_target_of_build ht hp
    rw [hat'.target, PlannedUnit.target, hat'.rel] at hplace
    exact ⟨source, changed, content, time, hsource, hyield, hplace, hfile⟩
  · -- the run has left the output alone, since the document was not planned
    have hrequired : Plan.isRequired t plan.templates options.force u = .ok false := by
      rcases hcase with hmem | hrequired
      · obtain ⟨p, hp, rfl⟩ := hunits u hmem
        exact absurd hat.target (hnot p hp)
      · exact hrequired
    obtain ⟨source, content, hfresh⟩ :=
      hat.fresh ht (scan_eq_ok hscan).2.2 hleft hconsiders.existing hrequired
    have hyield := h.yieldBytes_eq hconfined hscan hmake hdoc hat hfresh
    obtain ⟨written, changed, hcontent, hsource, -⟩ := hfresh.times
    rw [← file?_build_of_ne ht hnot] at hcontent
    exact ⟨source, changed, content, written, hsource, hyield, locate_build ht hfresh.located,
      hcontent⟩

/-- After any history, a run that is told to write and ends well leaves the sources alone,
and the output of every document holds what the document yields. -/
theorem History.outputs_current (h : History options t clock) (force : Bool) (time : Int)
    (hconfined : Confined options t)
    (hstatus : (build t (options.withSwitches false force) time).outcome.status = .built ∨
      (build t (options.withSwitches false force) time).outcome.status = .upToDate) :
    (∀ place, IsSource options t.home place →
      (build t (options.withSwitches false force) time).tree.file? place = t.file? place) ∧
    ∃ inventory templates,
      Inventory.scan t options.docs options.templates options.output = .ok inventory ∧
      (Templates.load t inventory.templates).2 = .ok templates ∧
      ∀ doc ∈ inventory.docs, ∃ bytes, yieldOf t templates options.limit doc = .ok bytes ∧
        (build t (options.withSwitches false force) time).tree.readBytes
          (options.output.join doc.rel) = .ok bytes := by
  have hsound := h.sound.withSwitches false force
  refine ⟨?_, hsound.readBytes_build hconfined hstatus⟩
  intro place hsource
  exact file?_build_of_ne hsound.linkFree (hsound.target_ne hsource time)

def siteOptions : BuildOptions := ⟨⟨"docs"⟩, ⟨"templates"⟩, ⟨"site"⟩, 10, false, false⟩

/-- A site that is built, whose template is then changed, is current once it is built again. -/
theorem outputs_current_changedTemplate :
    ∃ t, History siteOptions t 3 ∧ Confined siteOptions t ∧
      (build t (siteOptions.withSwitches false false) 4).outcome.status = .built ∧
      ∃ inventory, Inventory.scan t ⟨"docs"⟩ ⟨"templates"⟩ ⟨"site"⟩ = .ok inventory ∧
        inventory.docs.length = 1 ∧ ∀ doc ∈ inventory.docs,
          (build t (siteOptions.withSwitches false false) 4).tree.readBytes
            ((⟨"site"⟩ : Path).join doc.rel) = .ok "C".toUTF8 := by
  let before := Plan.siteWith "A" "B"
  let built := (build before (siteOptions.withSwitches false false) 2).tree
  have hfree : before.LinkFree :=
    FileTree.linkFree_store (FileTree.linkFree_store
      (FileTree.linkFree_store FileTree.linkFree_empty _ _ _) _ _ _) _ _ _
  -- a first run, then a change of the template, then the run in question
  have hstart : Starts siteOptions before 1 :=
    starts_iff.2 ⟨hfree, by decide +kernel, by decide +kernel, by decide +kernel⟩
  have hrun : History siteOptions built 2 :=
    .run false false (.start hstart) (by decide)
      (leaves_build hfree hstart.docs hstart.templates (by decide) (by decide))
  obtain ⟨t, hwrite, hcheck⟩ : ∃ t, built.writeFile ⟨"templates/a.html"⟩ "C".toUTF8 3 = .ok t ∧
      decide (Confined siteOptions t ∧
        (build t (siteOptions.withSwitches false false) 4).outcome.status = .built ∧
        ((Inventory.scan t ⟨"docs"⟩ ⟨"templates"⟩ ⟨"site"⟩).toOption.any fun inventory =>
          (Templates.load t inventory.templates).2.toOption.any fun templates =>
            decide (inventory.docs.length = 1 ∧ ∀ doc ∈ inventory.docs,
              yieldOf t templates siteOptions.limit doc = .ok "C".toUTF8)) = true) = true :=
    Stages.exists_of_any (by decide +kernel)
  obtain ⟨hconfined, hbuilt, hscanned⟩ := of_decide_eq_true hcheck
  have hbuiltFree : built.LinkFree := (extends_build hfree).2
  have hedit := Edits.of_stores (FileTree.stores_of_writeFile hbuiltFree hwrite).1 hbuiltFree
  have h : History siteOptions t 3 :=
    .write hrun (.inr (by decide +kernel)) (by decide) hedit
  obtain ⟨-, inventory, templates, hscan, hload, hall⟩ :=
    h.outputs_current false 4 hconfined (.inl hbuilt)
  obtain ⟨inventory', hscan', hloaded⟩ := Stages.exists_of_any hscanned
  obtain rfl : inventory = inventory' := Except.ok.inj (hscan.symm.trans hscan')
  obtain ⟨templates', hload', hyields⟩ := Stages.exists_of_any hloaded
  obtain rfl : templates = templates' := Except.ok.inj (hload.symm.trans hload')
  obtain ⟨hlength, hyields⟩ := of_decide_eq_true hyields
  refine ⟨t, h, hconfined, hbuilt, inventory, hscan, hlength, ?_⟩
  intro doc hdoc
  obtain ⟨bytes, hyield, hread⟩ := hall doc hdoc
  obtain rfl : bytes = "C".toUTF8 := Except.ok.inj (hyield.symm.trans (hyields doc hdoc))
  exact hread

end Stencil
