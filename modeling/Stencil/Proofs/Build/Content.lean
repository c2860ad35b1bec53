import Stencil.Proofs.Build.Sources
import Stencil.Proofs.Build.Yield
import Stencil.Proofs.Plan.Library

/-!
# What a run puts into its outputs

With the output root apart from the sources every saved output holds what its document
yields with the templates of the plan (`saved_yields`). The plan has every template file
that a planned document uses (`getElem?_of_used`).
-/

namespace Stencil

variable {options : BuildOptions} {home : Place} {files : Files} {time : Int} {root : Path}
  {p : PlannedUnit × Output} {ps : List (PlannedUnit × Output)} {t : FileTree}

/-- What is saved depends on the files through the document only. -/
theorem PlannedUnit.savedBytes_saveFiles {q : PlannedUnit × Output}
    (h : q.1.targetPlace root home ≠ p.1.sourcePlace home) :
    p.1.savedBytes p.2 root home (PlannedUnit.saveFiles root home time files q) =
      p.1.savedBytes p.2 root home files := by
  obtain ⟨u, output⟩ := p
  cases output with
  | text content => rfl
  | copy =>
    simp only [PlannedUnit.savedBytes]
    rw [PlannedUnit.saveFiles, if_neg h]

/-- Outputs that go to different places, none of them a document's, hold what was saved for
their documents. -/
theorem foldl_saveFiles_target
    (hne : ps.Pairwise fun p q => p.1.targetPlace root home ≠ q.1.targetPlace root home)
    (hsource : ∀ p ∈ ps, ∀ q ∈ ps, q.1.targetPlace root home ≠ p.1.sourcePlace home)
    (hp : p ∈ ps) :
    ps.foldl (PlannedUnit.saveFiles root home time) files (p.1.targetPlace root home) =
      (p.1.savedBytes p.2 root home files).map fun content => (content, time) := by
  induction ps generalizing files with
  | nil => cases hp
  | cons q ps ih =>
    obtain ⟨hfirst, hne⟩ := List.pairwise_cons.1 hne
    rw [List.foldl_cons]
    rcases List.mem_cons.1 hp with rfl | hmem
    · rw [foldl_saveFiles_of_ne fun r hr => (hfirst r hr).symm, PlannedUnit.saveFiles, if_pos rfl]
    · have hrest : ∀ p ∈ ps, ∀ q ∈ ps, q.1.targetPlace root home ≠ p.1.sourcePlace home :=
        fun p hp q hq => hsource p (List.mem_cons_of_mem _ hp) q (List.mem_cons_of_mem _ hq)
      rw [ih hne hrest hmem,
        PlannedUnit.savedBytes_saveFiles (hsource p hp q List.mem_cons_self)]

theorem readBytes_of_locate {path : Path} {place : Place} {content : ByteArray} {changed : Int}
    (hplace : t.locate path = .ok place) (hfile : t.file? place = some (content, changed)) :
    t.readBytes path = .ok content :=
  FileTree.readBytes_eq_ok_iff.2 ⟨place, changed, hplace, hfile⟩

/-- Processing a considered document gives what the document yields. -/
theorem ConsideredAt.yieldBytes_eq {templates : Templates} {limit : Nat} {names : List String}
    {u : PlannedUnit} (h : ConsideredAt t options templates names u) {output : Output}
    {warnings : List Warning} (hprocess : u.process t templates limit = .ok (output, warnings))
    {source : ByteArray} {changed : Int}
    (hfile : t.file? (options.docs.place t.home ++ names) = some (source, changed)) :
    yieldBytes templates limit (.ofNames names) source = some (output.bytes source) := by
  have hread := readBytes_of_locate h.source hfile
  have hyield : ((u.process t templates limit).toOption.map fun result => result.1.bytes source) =
      yieldBytes templates limit (.ofNames names) source :=
    process_toOption h.used hread rfl u.existing
  rw [← hyield, hprocess]
  rfl

/-- Apart from its source, a considered document is saved with the bytes of its output. -/
theorem ConsideredAt.savedBytes_eq (ht : t.LinkFree) {templates : Templates}
    {names : List String} {u : PlannedUnit} (h : ConsideredAt t options templates names u)
    (hdocs : Apart (options.docs.place t.home) (options.output.place t.home)) (output : Output)
    {source : ByteArray} {changed : Int}
    (hfile : t.file? (options.docs.place t.home ++ names) = some (source, changed)) :
    u.savedBytes output options.output t.home t.file? = some (output.bytes source) := by
  cases output with
  | text content => rfl
  | copy =>
    have hne : u.sourcePlace t.home ≠ u.targetPlace options.output t.home := by
      rw [h.sourcePlace ht, h.target]
      intro heq
      exact hdocs.not_prefix_append names (heq ▸ List.prefix_append ..)
    rw [PlannedUnit.savedBytes, if_neg hne, h.sourcePlace ht, hfile]
    rfl

/-- A saved output holds what its document yields with the templates of the plan. -/
theorem saved_yields (ht : t.LinkFree)
    (hdocs : Apart (options.docs.place t.home) (options.output.place t.home))
    (htemplates : Apart (options.templates.place t.home) (options.output.place t.home))
    (hp : p ∈ savedOutputs t options time) :
    ∃ plan names source changed content, planOf t options = .ok plan ∧
      ConsideredAt t options plan.templates names p.1 ∧
      t.file? (options.docs.place t.home ++ names) = some (source, changed) ∧
      yieldBytes plan.templates options.limit (.ofNames names) source = some content ∧
      (build t options time).tree.file? (options.output.place t.home ++ names) =
        some (content, time) := by
  obtain ⟨plan, warnings, hplan, hu, hprocess⟩ := of_mem_savedOutputs hp
  obtain ⟨names, hat⟩ := exists_consideredAt_of_mem_units ht hplan hu
  obtain ⟨⟨source, changed⟩, hfile⟩ := Option.isSome_iff_exists.1 hat.file
  have hapart : ∀ p ∈ savedOutputs t options time, ∀ q ∈ savedOutputs t options time,
      q.1.targetPlace options.output t.home ≠ p.1.sourcePlace t.home := by
    intro p hp
    exact target_ne_of_isSource ht hdocs htemplates (fromSource_of_mem_savedOutputs ht hp).1
  refine ⟨plan, names, source, changed, p.2.bytes source, hplan, hat, hfile,
    hat.yieldBytes_eq hprocess hfile, ?_⟩
  rw [← hat.target, files_build ht, foldl_saveFiles_target (pairwise_targetPlace ht) hapart hp,
    hat.savedBytes_eq ht hdocs p.2 hfile]
  rfl

/-- A run changes no file that it does not save. -/
theorem file?_build_of_ne (ht : t.LinkFree) {place : Place}
    (h : ∀ p ∈ savedOutputs t options time, p.1.targetPlace options.output t.home ≠ place) :
    (build t options time).tree.file? place = t.file? place := by
  rw [files_build ht]
  exact foldl_saveFiles_of_ne h

/-- The place of an output was saved with what its document yields, or was left alone. -/
theorem file?_build_cases (ht : t.LinkFree)
    (hdocs : Apart (options.docs.place t.home) (options.output.place t.home))
    (htemplates : Apart (options.templates.place t.home) (options.output.place t.home))
    (names : List String) :
    (∃ p ∈ savedOutputs t options time, ∃ plan source changed content,
      planOf t options = .ok plan ∧ ConsideredAt t options plan.templates names p.1 ∧
      t.file? (options.docs.place t.home ++ names) = some (source, changed) ∧
      yieldBytes plan.templates options.limit (.ofNames names) source = some content ∧
      (build t options time).tree.file? (options.output.place t.home ++ names) =
        some (content, time)) ∨
    (∀ p ∈ savedOutputs t options time,
      p.1.targetPlace options.output t.home ≠ options.output.place t.home ++ names) := by
  by_cases hsaved : ∃ p ∈ savedOutputs t options time,
      p.1.targetPlace options.output t.home = options.output.place t.home ++ names
  · obtain ⟨p, hp, htarget⟩ := hsaved
    obtain ⟨plan, names', source, changed, content, hplan, hat, hrest⟩ :=
      saved_yields ht hdocs htemplates hp
    rw [hat.target] at htarget
    obtain rfl := List.append_cancel_left htarget
    exact .inl ⟨p, hp, plan, source, changed, content, hplan, hat, hrest⟩
  · exact .inr fun p hp htarget => hsaved ⟨p, hp, htarget⟩

/-! ## Templates of a plan -/

/-- A template file that a considered document uses is in the plan. -/
theorem getElem?_of_used (ht : t.LinkFree) {plan : Plan} (hplan : planOf t options = .ok plan)
    {below : List String} (hne : below ≠ [])
    (hmarkup : FileKind.ofPath (.ofNames below) = .markup)
    (hmem : Template.nameOf (.ofNames below) ∈ plan.templates) {current : ByteArray}
    {changed : Int} (hfile : t.file? (options.templates.place t.home ++ below) =
      some (current, changed)) {text : String} (htext : String.fromUTF8? current = some text) :
    plan.templates[Template.nameOf (.ofNames below)]? =
      some (Template.ofFile (options.templates.below below) (.ofNames below) text) := by
  obtain ⟨inventory, hscan, hmake⟩ := planOf_eq_ok.1 hplan
  obtain ⟨hload, -⟩ := Plan.of_make hmake
  have hfiles := (scan_eq_ok hscan).2.1
  -- some template was loaded, so the template root was found
  obtain ⟨template, htemplate⟩ :=
    Option.isSome_iff_exists.1 (Std.ExtTreeMap.mem_iff_isSome_getElem?.1 hmem)
  obtain ⟨first, hfirst, -⟩ := Templates.exists_of_getElem?_load hload htemplate
  obtain ⟨hroot, -⟩ := (mem_findFiles ht hfiles).1 hfirst
  have hfound : FileTree.found (options.templates.below below) below ∈ inventory.templates :=
    (mem_findFiles ht hfiles).2 ⟨hroot, below, hne, by rw [hfile]; rfl, rfl⟩
  obtain ⟨content, hcontent, hentry⟩ :=
    Templates.of_mem_load hload hfound (beq_iff_eq.2 hmarkup)
  have hread := readBytes_of_locate (FileTree.locate_found ht hroot hfile hne) hfile
  have hsame := text_of_readBytes hread rfl hcontent
  rw [htext] at hsame
  obtain rfl := Option.some.inj hsame
  exact hentry

/-- A template of a plan was read from a file below the template root. -/
theorem exists_file_of_getElem? (ht : t.LinkFree) {plan : Plan}
    (hplan : planOf t options = .ok plan) {name : String} {template : Template}
    (htemplate : plan.templates[name]? = some template) :
    ∃ below current changed text, below ≠ [] ∧
      FileKind.ofPath (.ofNames below) = .markup ∧ name = Template.nameOf (.ofNames below) ∧
      template = Template.ofFile (options.templates.below below) (.ofNames below) text ∧
      t.file? (options.templates.place t.home ++ below) = some (current, changed) ∧
      String.fromUTF8? current = some text ∧ template.source.time t = .ok changed := by
  obtain ⟨inventory, hscan, hmake⟩ := planOf_eq_ok.1 hplan
  obtain ⟨hload, -⟩ := Plan.of_make hmake
  obtain ⟨file, hmem, text, hmarkup, htext, rfl, rfl⟩ :=
    Templates.exists_of_getElem?_load hload htemplate
  obtain ⟨hroot, below, hne, hsome, rfl⟩ := (mem_findFiles ht (scan_eq_ok hscan).2.1).1 hmem
  obtain ⟨⟨current, changed⟩, hfile⟩ := Option.isSome_iff_exists.1 hsome
  have hplace := FileTree.locate_found ht hroot hfile hne
  refine ⟨below, current, changed, text, hne, beq_iff_eq.1 hmarkup, rfl, rfl, hfile, ?_, ?_⟩
  · exact text_of_readBytes (readBytes_of_locate hplace hfile) rfl htext
  · exact Source.time_of_node? rfl (FileTree.node?_of_file? hplace hfile)

/-- The document with this path and these bytes uses the template. -/
def Uses (rel : Path) (source : ByteArray) (name : String) : Prop :=
  FileKind.ofPath rel = .markup ∧ ∃ text used, String.fromUTF8? source = some text ∧
    templateNames text = .ok used ∧ name ∈ used

/-- A considered document uses the templates that its unit names, and they are loaded. -/
theorem ConsideredAt.of_uses {templates : Templates} {names : List String} {u : PlannedUnit}
    (h : ConsideredAt t options templates names u) {source : ByteArray} {changed : Int}
    (hfile : t.file? (options.docs.place t.home ++ names) = some (source, changed))
    {name : String} (huses : Uses (.ofNames names) source name) :
    name ∈ u.templates ∧ name ∈ templates := by
  obtain ⟨hmarkup, text, used, htext, hused, hname⟩ := huses
  obtain ⟨text', htext', -, hnames, hknown⟩ :=
    Plan.templatesUsed_markup h.used (beq_iff_eq.2 hmarkup)
  have hsame := text_of_readBytes (readBytes_of_locate h.source hfile) rfl htext'
  rw [htext] at hsame
  obtain rfl := Option.some.inj hsame
  obtain rfl := Except.ok.inj (hused.symm.trans hnames)
  exact ⟨hname, hknown name hname⟩

end Stencil
