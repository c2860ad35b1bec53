import Stencil.Proofs.Build.Sources
import Stencil.Proofs.FileTree.Rooted
import Stencil.Proofs.Plan.Library
import Stencil.Proofs.Plan.Replan

/-!
# Planning after outputs were saved

A tree in which the outputs of some documents were saved, none earlier than a source was
changed, gives the plan without these documents (`Resaved.planOf_eq`): they are fresh, and
for every other document the planner sees what it saw before.
-/

namespace Stencil

variable {t u : FileTree} {root : Path} {files : List Source} {names : List String}

/-! ## Walks below grounded roots -/

/-- A walk finds something only below a grounded root, and there it finds every file. -/
theorem mem_findFiles_iff_grounded (ht : t.LinkFree) (hhome : t.IsDirectory t.home)
    (htext : root.text ≠ "") (h : findFiles t root = .ok files) {s : Source} :
    s ∈ files ↔ t.Grounded root ∧ ∃ names, names ≠ [] ∧
      (t.file? (root.place t.home ++ names)).isSome ∧
      s = FileTree.found (root.below names) names := by
  rw [mem_findFiles ht h]
  refine and_congr_left ?_
  rintro ⟨names, hne, hfile, rfl⟩
  obtain ⟨file, hsome⟩ := Option.isSome_iff_exists.1 hfile
  have hdir := FileTree.isDirectory_of_mem_append (FileTree.mem_nodes_of_file? hsome) hne
  constructor
  · intro hlocate
    exact FileTree.grounded_of_locate ht hlocate hdir
  · intro hroot
    exact hroot.locate ht hhome htext hdir

/-- Where the files below a rooted path are the same and no file is gone, the walk is the same. -/
theorem findFiles_congr (ht : t.LinkFree) (hu : u.LinkFree) (hhome : t.IsDirectory t.home)
    (hextends : t.Extends u) (hkept : ∀ q, (t.file? q).isSome → (u.file? q).isSome)
    (hroot : t.Rooted root)
    (hfiles : ∀ names, u.file? (root.place t.home ++ names) = t.file? (root.place t.home ++ names)) :
    findFiles u root = findFiles t root := by
  by_cases htext : root.text = ""
  · simp [findFiles, FileTree.locate, htext]
  obtain ⟨before, hbefore⟩ := exists_findFiles ht root
  obtain ⟨after, hafter⟩ := exists_findFiles hu root
  have hhome' : u.IsDirectory u.home := by
    rw [hextends.home]
    exact hextends.directory _ hhome
  rw [hbefore, hafter]
  refine congrArg Except.ok (eq_of_mem_iff (ordered_findFiles hu hafter)
    (ordered_findFiles ht hbefore) fun s => ?_)
  rw [mem_findFiles_iff_grounded hu hhome' htext hafter,
    mem_findFiles_iff_grounded ht hhome htext hbefore, hroot.grounded_iff ht hextends hkept,
    hextends.home]
  simp only [hfiles]

/-- The output that is found at `names` below a root. -/
def outputAt (t : FileTree) (root : Path) (names : List String) : Option Source :=
  if t.Grounded root ∧ (t.file? (root.place t.home ++ names)).isSome then
    some (FileTree.found (root.below names) names)
  else none

/-- The output of a document is the one at its names, unless an earlier document has them. -/
theorem matchedOutput_eq (ht : t.LinkFree) (hhome : t.IsDirectory t.home)
    (htext : root.text ≠ "") {built earlier : List Source} (hbuilt : findFiles t root = .ok built)
    (hne : names ≠ []) (hvalid : ∀ n ∈ names, isFileName n = true)
    (hearlier : ∀ d ∈ earlier, ¬ d.rel.Same (.ofNames names)) :
    Plan.matchedOutput earlier (.ofNames names) built = outputAt t root names := by
  have hmem : ∀ {s : Source}, s ∈ built ↔ _ := mem_findFiles_iff_grounded ht hhome htext hbuilt
  unfold Plan.matchedOutput outputAt
  rw [if_neg (by simpa using hearlier)]
  cases hfind : built.reverse.find? fun b => decide (b.rel.Same (.ofNames names)) with
  | none =>
    rw [if_neg]
    rintro ⟨hroot, hfile⟩
    rw [List.find?_eq_none] at hfind
    have hnot := hfind _ (List.mem_reverse.2 (hmem.2 ⟨hroot, names, hne, hfile, rfl⟩))
    exact hnot (decide_eq_true (Path.Same.refl _))
  | some output =>
    have hpath := List.find?_some hfind
    have hsame : output.rel.Same (.ofNames names) := of_decide_eq_true hpath
    obtain ⟨hroot, others, -, hfile, rfl⟩ :=
      hmem.1 (List.mem_reverse.1 (List.mem_of_find?_eq_some hfind))
    obtain ⟨file, hsome⟩ := Option.isSome_iff_exists.1 hfile
    have hothers := FileTree.isFileName_of_mem (FileTree.mem_nodes_of_file? hsome)
    obtain rfl := (Path.same_ofNames hothers hvalid).1 hsame
    rw [if_pos ⟨hroot, hfile⟩]

/-- An output has the time of its file. -/
theorem time_of_outputAt (ht : t.LinkFree) (hhome : t.IsDirectory t.home) (htext : root.text ≠ "")
    (hne : names ≠ []) {output : Source} (h : outputAt t root names = some output) :
    ∃ content written, t.file? (root.place t.home ++ names) = some (content, written) ∧
      output.time t = .ok written := by
  unfold outputAt at h
  split at h
  · next hfound =>
    cases h
    obtain ⟨hroot, hsome⟩ := hfound
    obtain ⟨⟨content, written⟩, hfile⟩ := Option.isSome_iff_exists.1 hsome
    have hdir := FileTree.isDirectory_of_mem_append (FileTree.mem_nodes_of_file? hfile) hne
    have hplace := FileTree.locate_found ht (hroot.locate ht hhome htext hdir) hfile hne
    exact ⟨content, written, hfile, Source.time_of_node? rfl (FileTree.node?_of_file? hplace hfile)⟩
  · cases h

/-! ## A tree with outputs saved -/

variable {options : BuildOptions} {saved : List String → Prop} {place : Place}

/-- Roots that a run can find again: each path that goes up does so from something that exists,
and the output root lies apart from the others. -/
structure Sited (t : FileTree) (options : BuildOptions) : Prop where
  linkFree : t.LinkFree
  home : t.IsDirectory t.home
  docs : t.locate options.docs = .ok (options.docs.place t.home)
  docsDirectory : t.IsDirectory (options.docs.place t.home)
  templates : t.Rooted options.templates
  output : t.Rooted options.output
  named : options.output.text ≠ ""
  docsApart : Apart (options.docs.place t.home) (options.output.place t.home)
  templatesApart : Apart (options.templates.place t.home) (options.output.place t.home)

/-- `u` is `t` with the outputs of the documents at `saved` names, which are no earlier than
any source. -/
structure Resaved (t : FileTree) (options : BuildOptions) (saved : List String → Prop)
    (u : FileTree) : Prop where
  sited : Sited t options
  toExtends : t.Extends u
  linkFree : u.LinkFree
  document : ∀ names, saved names →
    names ≠ [] ∧ (t.file? (options.docs.place t.home ++ names)).isSome
  grounded : ∀ names, saved names → t.Grounded options.output
  written : ∀ names, saved names → ∃ content written,
    u.file? (options.output.place t.home ++ names) = some (content, written) ∧
    ∀ place source changed, IsSource options t.home place →
      t.file? place = some (source, changed) → changed ≤ written
  files : ∀ q, (∀ names, saved names → options.output.place t.home ++ names ≠ q) →
    u.file? q = t.file? q

namespace Resaved

theorem home (h : Resaved t options saved u) : u.IsDirectory u.home := by
  rw [h.toExtends.home]
  exact h.toExtends.directory _ h.sited.home

/-- No file is gone. -/
theorem kept (h : Resaved t options saved u) (q : Place) (hfile : (t.file? q).isSome) :
    (u.file? q).isSome := by
  by_cases hq : ∃ names, saved names ∧ options.output.place t.home ++ names = q
  · obtain ⟨names, hsaved, rfl⟩ := hq
    obtain ⟨content, written, hfile', -⟩ := h.written names hsaved
    rw [hfile']
    rfl
  · rw [h.files q fun names hsaved heq => hq ⟨names, hsaved, heq⟩]
    exact hfile

/-- Whether the output root goes up from directories only is as before. -/
theorem grounded_iff (h : Resaved t options saved u) :
    u.Grounded options.output ↔ t.Grounded options.output :=
  h.sited.output.grounded_iff h.sited.linkFree h.toExtends h.kept

theorem file?_source (h : Resaved t options saved u) (hplace : IsSource options t.home place) :
    u.file? place = t.file? place :=
  h.files place fun names _ =>
    ne_of_isSource h.sited.docsApart h.sited.templatesApart hplace names

/-- A source is found and read as before. -/
theorem node?_source (h : Resaved t options saved u)
    (hbelow : ∀ names, IsSource options t.home (root.place t.home ++ names))
    (hfiles : findFiles t root = .ok files) {s : Source} (hs : s ∈ files) :
    ∃ place content changed, IsSource options t.home place ∧
      t.file? place = some (content, changed) ∧ t.node? s.path = .ok (.file content changed) ∧
      u.node? s.path = .ok (.file content changed) := by
  have ht := h.sited.linkFree
  obtain ⟨hroot, names, hne, hfile, rfl⟩ := (mem_findFiles ht hfiles).1 hs
  obtain ⟨⟨content, changed⟩, hsome⟩ := Option.isSome_iff_exists.1 hfile
  have hplace := FileTree.locate_found ht hroot hsome hne
  refine ⟨_, content, changed, hbelow names, hsome, FileTree.node?_of_file? hplace hsome, ?_⟩
  refine FileTree.node?_of_file? (h.toExtends.locate ht h.linkFree hplace) ?_
  rw [h.file?_source (hbelow names)]
  exact hsome

theorem isSource_docs (names : List String) :
    IsSource options t.home (options.docs.place t.home ++ names) :=
  .inl (List.prefix_append ..)

theorem isSource_templates (names : List String) :
    IsSource options t.home (options.templates.place t.home ++ names) :=
  .inr (List.prefix_append ..)

/-- The walks below the document root and the template root find the same files. -/
theorem findFiles_docs (h : Resaved t options saved u) :
    findFiles u options.docs = findFiles t options.docs :=
  findFiles_congr h.sited.linkFree h.linkFree h.sited.home h.toExtends h.kept
    (FileTree.grounded_of_locate h.sited.linkFree h.sited.docs h.sited.docsDirectory).rooted
    fun names => h.file?_source (isSource_docs names)

theorem findFiles_templates (h : Resaved t options saved u) :
    findFiles u options.templates = findFiles t options.templates :=
  findFiles_congr h.sited.linkFree h.linkFree h.sited.home h.toExtends h.kept h.sited.templates
    fun names => h.file?_source (isSource_templates names)

variable {docs built built' : List Source}

theorem mem_built' (h : Resaved t options saved u) (hbuilt' : findFiles u options.output = .ok built')
    {s : Source} :
    s ∈ built' ↔ t.Grounded options.output ∧ ∃ names, names ≠ [] ∧
      (u.file? (options.output.place t.home ++ names)).isSome ∧
      s = FileTree.found (options.output.below names) names := by
  rw [mem_findFiles_iff_grounded h.linkFree h.home h.sited.named hbuilt', h.grounded_iff,
    h.toExtends.home]

/-- An output that was not saved is what it was. -/
theorem file?_unsaved (h : Resaved t options saved u) (hnot : ¬ saved names) :
    u.file? (options.output.place t.home ++ names) =
      t.file? (options.output.place t.home ++ names) := by
  refine h.files _ fun names' hsaved heq => ?_
  obtain rfl := List.append_cancel_left heq
  exact hnot hsaved

/-- What was saved belongs to documents, so nothing new stands for no document. -/
theorem strays_eq (h : Resaved t options saved u) (hdocs : findFiles t options.docs = .ok docs)
    (hbuilt : findFiles t options.output = .ok built)
    (hbuilt' : findFiles u options.output = .ok built') :
    Plan.strays built' docs = Plan.strays built docs := by
  have ht := h.sited.linkFree
  have hmem : ∀ {s : Source}, s ∈ built ↔ _ :=
    mem_findFiles_iff_grounded ht h.sited.home h.sited.named hbuilt
  refine eq_of_mem_iff ((ordered_findFiles h.linkFree hbuilt').filter _)
    ((ordered_findFiles ht hbuilt).filter _) fun s => ?_
  unfold Plan.strays
  rw [List.mem_filter, List.mem_filter, h.mem_built' hbuilt', hmem]
  refine and_congr_left fun hstray => and_congr_right fun _ => exists_congr fun names =>
    and_congr_right fun _ => and_congr_left ?_
  rintro rfl
  rw [h.file?_unsaved]
  intro hsaved
  obtain ⟨hne, hfile⟩ := h.document names hsaved
  have hdoc : FileTree.found (options.docs.below names) names ∈ docs :=
    (mem_findFiles ht hdocs).2 ⟨h.sited.docs, names, hne, hfile, rfl⟩
  rw [Bool.not_eq_true', List.any_eq_false] at hstray
  exact hstray _ hdoc (decide_eq_true (Path.Same.refl _))

/-- A document whose output was saved. -/
def IsSaved (saved : List String → Prop) (v : PlannedUnit) : Prop :=
  ∃ names, saved names ∧ v.source.rel = .ofNames names

/-- The times of templates are read as before. -/
theorem time_template (h : Resaved t options saved u) {templates : Templates}
    (hfiles : findFiles t options.templates = .ok files)
    (hload : (Templates.load t files).2 = .ok templates) {name : String} {template : Template}
    (htemplate : templates[name]? = some template) :
    ∃ place content changed, IsSource options t.home place ∧
      t.file? place = some (content, changed) ∧ template.source.time t = .ok changed ∧
      template.source.time u = .ok changed := by
  obtain ⟨file, hfile, text, -, -, rfl, -⟩ := Templates.exists_of_getElem?_load hload htemplate
  obtain ⟨place, content, changed, hsource, hsome, hnode, hnode'⟩ :=
    h.node?_source isSource_templates hfiles hfile
  obtain ⟨-, names, -, -, rfl⟩ := (mem_findFiles h.sited.linkFree hfiles).1 hfile
  exact ⟨place, content, changed, hsource, hsome, Source.time_of_node? rfl hnode,
    Source.time_of_node? rfl hnode'⟩

/-- What is seen of the document at `names` before and after: it is read as it was, and its
output is the one that stands there. -/
structure Reexamined (t u : FileTree) (options : BuildOptions) (names : List String)
    (v w : PlannedUnit) : Prop where
  ne_nil : names ≠ []
  valid : ∀ n ∈ names, isFileName n = true
  rel : v.source.rel = .ofNames names
  source : w.source = v.source
  templates : w.templates = v.templates
  read : ∃ place content changed, IsSource options t.home place ∧
    t.file? place = some (content, changed) ∧ v.source.time t = .ok changed ∧
    w.source.time u = .ok changed
  before : v.existing = outputAt t options.output names
  after : w.existing = outputAt u options.output names

variable {templates : Templates} {v w : PlannedUnit}

theorem exists_reexamined (h : Resaved t options saved u)
    (hdocs : findFiles t options.docs = .ok docs)
    (hbuilt : findFiles t options.output = .ok built)
    (hbuilt' : findFiles u options.output = .ok built') {i : Nat} {doc : Source}
    (hdoc : docs[i]? = some doc) (hv : Plan.Examined t templates (docs.take i) built doc v)
    (hw : Plan.Examined u templates (docs.take i) built' doc w) :
    ∃ names, Reexamined t u options names v w := by
  have ht := h.sited.linkFree
  have hmem := List.mem_of_getElem? hdoc
  obtain ⟨place, content, changed, hsource, hfile, hnode, hnode'⟩ :=
    h.node?_source isSource_docs hdocs hmem
  obtain ⟨hsame, hnames⟩ := hv.source_eq hw (Source.text_congr (hnode'.trans hnode.symm))
  obtain ⟨-, names, hne, hsome, rfl⟩ := (mem_findFiles ht hdocs).1 hmem
  have hvalid : ∀ n ∈ names, isFileName n = true := by
    obtain ⟨file, hsome⟩ := Option.isSome_iff_exists.1 hsome
    exact FileTree.isFileName_of_mem (FileTree.mem_nodes_of_file? hsome)
  have hearlier : ∀ d ∈ docs.take i, ¬ d.rel.Same (.ofNames names) :=
    not_same_of_mem_take ht hdocs hdoc
  refine ⟨names, hne, hvalid, hv.rel, hsame, hnames, ⟨place, content, changed, hsource, hfile,
    hv.time.trans (Source.time_of_node? rfl hnode), hw.time.trans (Source.time_of_node? rfl hnode')⟩,
    hv.existing.trans ?_, hw.existing.trans ?_⟩
  · exact matchedOutput_eq ht h.sited.home h.sited.named hbuilt hne hvalid hearlier
  · exact matchedOutput_eq h.linkFree h.home h.sited.named hbuilt' hne hvalid hearlier

/-- The time of an output can be read. -/
theorem exists_time_output (h : Resaved t options saved u) (hne : names ≠ []) {output : Source}
    (houtput : outputAt u options.output names = some output) :
    ∃ content written, u.file? (options.output.place t.home ++ names) = some (content, written) ∧
      output.time u = .ok written := by
  rw [← h.toExtends.home]
  exact time_of_outputAt h.linkFree h.home h.sited.named hne houtput

/-- The times that the planner may ask for can be read. -/
theorem not_untimed (h : Resaved t options saved u) (hat : Reexamined t u options names v w)
    (hfiles : findFiles t options.templates = .ok files)
    (hload : (Templates.load t files).2 = .ok templates) (force : Bool) :
    ¬ Plan.Untimed u templates force w := by
  obtain ⟨-, -, changed, -, -, -, htime⟩ := hat.read
  refine Plan.not_untimed ⟨changed, htime⟩ ?_ ?_
  · intro name template htemplate
    obtain ⟨-, -, stamp, -, -, -, hstamp⟩ := h.time_template hfiles hload htemplate
    exact ⟨stamp, hstamp⟩
  · intro output hexists
    rw [hat.after] at hexists
    obtain ⟨-, written, -, hwritten⟩ := h.exists_time_output hat.ne_nil hexists
    exact ⟨written, hwritten⟩

/-- A document whose output was saved need not be built. -/
theorem not_needsBuild (h : Resaved t options saved u) (hat : Reexamined t u options names v w)
    (hfiles : findFiles t options.templates = .ok files)
    (hload : (Templates.load t files).2 = .ok templates) (hsaved : saved names) :
    ¬ Plan.NeedsBuild u templates false w := by
  obtain ⟨content, written, hfile, hbound⟩ := h.written names hsaved
  have hexists : outputAt u options.output names =
      some (FileTree.found (options.output.below names) names) := by
    unfold outputAt
    rw [h.toExtends.home, hfile, if_pos ⟨h.grounded_iff.2 (h.grounded names hsaved), rfl⟩]
  obtain ⟨bytes, written', hfile', hwritten⟩ := h.exists_time_output hat.ne_nil hexists
  obtain rfl : written = written' := (Prod.mk.inj (Option.some.inj (hfile.symm.trans hfile'))).2
  refine Plan.not_needsBuild (hat.after.trans hexists) hwritten ?_
  obtain ⟨place, source, changed, hsource, hchanged, -, htime⟩ := hat.read
  rintro time (hself | ⟨name, -, template, htemplate, hstamp⟩)
  · obtain rfl := Except.ok.inj (htime.symm.trans hself)
    exact hbound _ _ _ hsource hchanged
  · obtain ⟨place', body, stamp, hsource', hfile', -, hstamp'⟩ :=
      h.time_template hfiles hload htemplate
    obtain rfl := Except.ok.inj (hstamp'.symm.trans hstamp)
    exact hbound _ _ _ hsource' hfile'

/-- A document whose output was not saved is what it was. -/
theorem eq_of_unsaved (h : Resaved t options saved u) (hat : Reexamined t u options names v w)
    (hnot : ¬ saved names) : w = v := by
  have hexisting : w.existing = v.existing := by
    rw [hat.after, hat.before]
    simp only [outputAt, h.grounded_iff, h.toExtends.home, h.file?_unsaved hnot]
  obtain ⟨source, existing, names⟩ := v
  obtain ⟨source', existing', names'⟩ := w
  obtain rfl : source' = source := hat.source
  obtain rfl : names' = names := hat.templates
  obtain rfl : existing' = existing := hexisting
  rfl

/-- A document whose output was not saved has to be built when it had to be. -/
theorem needsBuild_iff (h : Resaved t options saved u) (hat : Reexamined t u options names v v)
    (hfiles : findFiles t options.templates = .ok files)
    (hload : (Templates.load t files).2 = .ok templates) (hnot : ¬ saved names) (force : Bool) :
    Plan.NeedsBuild u templates force v ↔ Plan.NeedsBuild t templates force v := by
  obtain ⟨-, -, changed, -, -, htime, htime'⟩ := hat.read
  refine Plan.needsBuild_congr (htime'.trans htime.symm) ?_ ?_
  · intro name template htemplate
    obtain ⟨-, -, stamp, -, -, hstamp, hstamp'⟩ := h.time_template hfiles hload htemplate
    rw [hstamp, hstamp']
  · intro output hexists
    obtain ⟨content, written, hfile, hwritten⟩ :=
      h.exists_time_output hat.ne_nil (hat.after.symm.trans hexists)
    obtain ⟨content', written', hfile', hwritten'⟩ := time_of_outputAt h.sited.linkFree h.sited.home
      h.sited.named hat.ne_nil (hat.before.symm.trans hexists)
    rw [h.file?_unsaved hnot, hfile', Option.some.injEq, Prod.mk.injEq] at hfile
    rw [hwritten, hwritten', hfile.2]

/-- The document at `names` is saved when its names are. -/
theorem isSaved_iff (h : Resaved t options saved u) (hat : Reexamined t u options names v w) :
    IsSaved saved v ↔ saved names := by
  constructor
  · rintro ⟨others, hothers, hrel⟩
    obtain ⟨-, hfile⟩ := h.document others hothers
    obtain ⟨file, hsome⟩ := Option.isSome_iff_exists.1 hfile
    have hvalid := FileTree.isFileName_of_mem (FileTree.mem_nodes_of_file? hsome)
    have hpath : Path.ofNames names = .ofNames others := hat.rel.symm.trans hrel
    obtain rfl := (Path.same_ofNames hat.valid hvalid).1 (congrArg Path.components hpath)
    exact hothers
  · intro hsaved
    exact ⟨names, hsaved, hat.rel⟩

/-- A document is examined again with the same verdict, unless its output was saved: then it
need not be built. -/
theorem examined_again (h : Resaved t options saved u)
    (hdocs : findFiles t options.docs = .ok docs)
    (hfiles : findFiles t options.templates = .ok files)
    (hload : (Templates.load t files).2 = .ok templates)
    (hbuilt : findFiles t options.output = .ok built)
    (hbuilt' : findFiles u options.output = .ok built') {i : Nat} {doc : Source}
    (hdoc : docs[i]? = some doc) (hv : Plan.Examined t templates (docs.take i) built doc v)
    (hw : Plan.Examined u templates (docs.take i) built' doc w) :
    ¬ Plan.Untimed u templates false w ∧ (¬ IsSaved saved v → w = v) ∧
      (Plan.NeedsBuild u templates false w ↔
        Plan.NeedsBuild t templates false v ∧ ¬ IsSaved saved v) := by
  obtain ⟨names, hat⟩ := h.exists_reexamined hdocs hbuilt hbuilt' hdoc hv hw
  refine ⟨h.not_untimed hat hfiles hload false, ?_⟩
  rw [h.isSaved_iff hat]
  by_cases hsaved : saved names
  · have hfresh := h.not_needsBuild hat hfiles hload hsaved
    simp [hsaved, hfresh]
  · obtain rfl := h.eq_of_unsaved hat hsaved
    have hverdict := h.needsBuild_iff hat hfiles hload hsaved false
    simp [hsaved, hverdict]

open scoped Classical in
/-- The plan for the tree is the one from before without the documents that were saved. -/
theorem planOf_eq (h : Resaved t options saved u) (hforce : options.force = false) {plan : Plan}
    (hplan : planOf t options = .ok plan) :
    planOf u options = .ok
      { plan with units := plan.units.filter fun v => decide (¬ IsSaved saved v) } := by
  obtain ⟨inventory, hscan, hmake⟩ := planOf_eq_ok.1 hplan
  obtain ⟨hdocs, hfiles, hbuilt⟩ := scan_eq_ok hscan
  obtain ⟨built', hbuilt'⟩ := exists_findFiles h.linkFree options.output
  rw [hforce, Plan.make_eq_ok_iff] at hmake
  obtain ⟨hload, hselect, hconsidered, hwarnings⟩ := hmake
  have hloaded : Templates.load u inventory.templates = Templates.load t inventory.templates := by
    refine Templates.load_congr fun s hs => Source.text_congr ?_
    obtain ⟨place, content, changed, -, -, hnode, hnode'⟩ :=
      h.node?_source isSource_templates hfiles hs
    exact hnode'.trans hnode.symm
  refine planOf_eq_ok.2 ⟨⟨inventory.docs, inventory.templates, built'⟩, ?_, ?_⟩
  · unfold Inventory.scan
    rw [h.findFiles_docs, h.findFiles_templates, hdocs, hfiles, hbuilt']
    rfl
  · rw [hforce, Plan.make_eq_ok_iff]
    refine ⟨by rw [hloaded]; exact hload, ?_, hconsidered, ?_⟩
    · refine Plan.selectUnits_filter (fun v => ¬ IsSaved saved v) hselect ?_ ?_
      · intro doc hdoc
        obtain ⟨place, content, changed, -, -, hnode, hnode'⟩ :=
          h.node?_source isSource_docs hdocs hdoc
        exact Source.text_congr (hnode'.trans hnode.symm)
      · intro i doc v w hdoc hv hw
        exact h.examined_again hdocs hfiles hload hbuilt hbuilt' hdoc hv hw
    · rw [hwarnings, hloaded, Plan.strayWarning?, Plan.strayWarning?,
        h.strays_eq hdocs hbuilt hbuilt']

end Resaved

end Stencil
