import Stencil.Build.Output
import Stencil.Proofs.Plan.Units

/-!
# Plans and later changes to the files

A plan holds the text of every document that is to be expanded and of every template, as the
planner read them. Whatever becomes of the files afterwards, processing the plan gives what it
would have given right after planning (`process_after_changes`).
-/

namespace Stencil

/-! ## Changes to the files -/

/-- Something that happens to the files outside of a run. -/
inductive FileChange
  /-- A file is written, and the directories above it are made. -/
  | write (p : Path) (content : ByteArray) (time : Int)
  | touch (p : Path) (time : Int)
  /-- A file or a directory with all in it is taken away. -/
  | delete (p : Path)
  | makeDirectories (p : Path) (time : Int)
  | makeLink (p target : Path)

/-- The tree after a change. A change that fails leaves what it came to. -/
def FileChange.apply (t : FileTree) : FileChange → FileTree
  | write p content time => t.store p content time
  | touch p time => (t.touch p time).toOption.getD t
  | delete p => (t.delete p).toOption.getD t
  | makeDirectories p time => (t.makePath time p).1
  | makeLink p target => (t.makeLink p target).toOption.getD t

/-- The tree after some changes. -/
def FileTree.after (t : FileTree) (changes : List FileChange) : FileTree :=
  changes.foldl FileChange.apply t

/-! ## Documents whose text has been read -/

namespace PlannedUnit

variable {u : PlannedUnit} {templates : Templates} {limit : Nat} {text : String}

/-- What a document with this text comes to. -/
def processText (u : PlannedUnit) (templates : Templates) (limit : Nat) (text : String) :
    Except PlanFailure (Output × List Warning) :=
  match expand templates limit text with
  | .ok expansion =>
    .ok (.text expansion.text, expansion.warnings.map fun w => ⟨some u.source.rel.text, w⟩)
  | .error d => .error (.document u.source.path d)

/-- A document that need not be expanded is copied, and no file is looked at. -/
theorem process_of_copied (hneeds : u.needsExpansion = false) (t : FileTree) :
    u.process t templates limit = .ok (.copy, []) := by
  unfold process
  rw [hneeds]
  rfl

/-- Where the text has been read no file is looked at either. -/
theorem process_of_text (hneeds : u.needsExpansion = true) (htext : u.source.text? = some text)
    (t : FileTree) : u.process t templates limit = u.processText templates limit text := by
  have hread : u.source.text t = .ok text := Source.text_of_text? htext t
  unfold process processText
  rw [hneeds, hread]
  cases hexpand : expand templates limit text with
  | ok expansion => simp [hexpand, pure, Except.pure]
  | error d => simp [hexpand, bind, Except.bind]

theorem processText_ne_scan (failure : ScanFailure) :
    u.processText templates limit text ≠ .error (.scan failure) := by
  unfold processText
  split <;> simp

end PlannedUnit

namespace Plan

variable {t : FileTree} {inventory : Inventory} {force : Bool} {plan : Plan} {u : PlannedUnit}

/-- The planner has read the text of every markup document and has found its names. -/
theorem exists_text_of_isMarkup (h : make t inventory force = .ok plan) (hu : u ∈ plan.units)
    (hmarkup : u.source.isMarkup = true) :
    ∃ doc ∈ inventory.docs, doc.path = u.source.path ∧
      ∃ text, doc.text t = .ok text ∧ u.source.text? = some text ∧
        templateNames text = .ok u.templates := by
  obtain ⟨-, hunits⟩ := of_make h
  obtain ⟨doc, hdoc, left, hconsiders, -⟩ := exists_of_mem_selectUnits hunits hu
  obtain ⟨hpath, hrel⟩ := path_of_templatesUsed hconsiders.used
  have hdocMarkup : doc.isMarkup = true := (Source.isMarkup_congr hrel).symm.trans hmarkup
  obtain ⟨text, htext, hsource, hnames, -⟩ := templatesUsed_markup hconsiders.used hdocMarkup
  refine ⟨doc, hdoc, hpath.symm, text, htext, ?_, hnames⟩
  rw [hsource]

/-- The planner has read the text of every document that is to be expanded. -/
theorem exists_text_of_needsExpansion (h : make t inventory force = .ok plan)
    (hu : u ∈ plan.units) (hneeds : u.needsExpansion = true) :
    ∃ doc ∈ inventory.docs, doc.path = u.source.path ∧
      ∃ text, doc.text t = .ok text ∧ u.source.text? = some text := by
  have hmarkup : u.source.isMarkup = true := (Bool.and_eq_true_iff.1 hneeds).1
  obtain ⟨doc, hdoc, hpath, text, hread, htext, -⟩ := exists_text_of_isMarkup h hu hmarkup
  exact ⟨doc, hdoc, hpath, text, hread, htext⟩

/-- Processing a planned document gives the same on every tree. -/
theorem process_eq_of_make (h : make t inventory force = .ok plan) (hu : u ∈ plan.units)
    (t' : FileTree) (limit : Nat) :
    u.process t' plan.templates limit = u.process t plan.templates limit := by
  cases hneeds : u.needsExpansion with
  | false =>
    rw [PlannedUnit.process_of_copied hneeds, PlannedUnit.process_of_copied hneeds]
  | true =>
    obtain ⟨doc, -, -, text, -, htext⟩ := exists_text_of_needsExpansion h hu hneeds
    rw [PlannedUnit.process_of_text hneeds htext, PlannedUnit.process_of_text hneeds htext]

theorem process_ne_scan (h : make t inventory force = .ok plan) (hu : u ∈ plan.units)
    (t' : FileTree) (limit : Nat) (failure : ScanFailure) :
    u.process t' plan.templates limit ≠ .error (.scan failure) := by
  cases hneeds : u.needsExpansion with
  | false =>
    rw [PlannedUnit.process_of_copied hneeds]
    simp
  | true =>
    obtain ⟨doc, -, -, text, -, htext⟩ := exists_text_of_needsExpansion h hu hneeds
    rw [PlannedUnit.process_of_text hneeds htext]
    exact PlannedUnit.processText_ne_scan failure

/-- The documents of a plan may even be processed on a tree each. -/
theorem mapM_process_eq_of_make (h : make t inventory force = .ok plan)
    (trees : PlannedUnit → FileTree) (limit : Nat) :
    (plan.units.mapM fun u => u.process (trees u) plan.templates limit) =
      plan.units.mapM fun u => u.process t plan.templates limit := by
  apply Stages.mapM_congr
  intro u hu
  exact process_eq_of_make h hu (trees u) limit

/-- Whatever is written, touched or taken away after planning, processing a document of the
plan, or all of them, gives what it would have given then: a copy where nothing is to be
expanded, and else what the text that the planner read comes to. No file is read any more, so
no failure to read comes up. -/
theorem process_after_changes (h : make t inventory force = .ok plan)
    (changes : List FileChange) (limit : Nat) :
    (∀ u ∈ plan.units,
      u.process (t.after changes) plan.templates limit = u.process t plan.templates limit ∧
      (u.needsExpansion = false →
        u.process (t.after changes) plan.templates limit = .ok (.copy, [])) ∧
      (u.needsExpansion = true → ∃ doc ∈ inventory.docs, doc.path = u.source.path ∧
        ∃ text, doc.text t = .ok text ∧ u.process (t.after changes) plan.templates limit =
          u.processText plan.templates limit text) ∧
      ∀ failure, u.process (t.after changes) plan.templates limit ≠ .error (.scan failure)) ∧
    plan.processAll (t.after changes) limit = plan.processAll t limit ∧
    ∀ failure, plan.processAll (t.after changes) limit ≠ .error (.scan failure) := by
  refine ⟨?_, ?_, ?_⟩
  · intro u hu
    refine ⟨process_eq_of_make h hu _ limit, ?_, ?_, process_ne_scan h hu _ limit⟩
    · intro hneeds
      exact PlannedUnit.process_of_copied hneeds _
    · intro hneeds
      obtain ⟨doc, hdoc, hpath, text, hread, htext⟩ := exists_text_of_needsExpansion h hu hneeds
      exact ⟨doc, hdoc, hpath, text, hread, PlannedUnit.process_of_text hneeds htext _⟩
  · unfold processAll
    rw [mapM_process_eq_of_make h (fun _ => t.after changes)]
  · intro failure hall
    unfold processAll at hall
    rcases Stages.bind_eq_error.1 hall with hall | ⟨results, -, hall⟩
    · obtain ⟨u, hu, hfails⟩ := Stages.exists_of_mapM_eq_error hall
      exact process_ne_scan h hu _ limit failure hfails
    · cases hall

/-- The page and its template are gone or changed, and the page still comes to what was
planned. -/
theorem process_after_changes_siteWith :
    let site := siteWith "A" "B"
    let changed := site.after [.delete ⟨"docs"⟩, .write ⟨"templates/a.html"⟩ "X".toUTF8 9,
      .touch ⟨"templates/b.html"⟩ 9, .makeDirectories ⟨"docs/index.html"⟩ 9]
    changed.readText ⟨"docs/index.html"⟩ = .error .isDirectory ∧
    ∃ plan u, make site siteInventory false = .ok plan ∧ u ∈ plan.units ∧
      u.process site plan.templates 10 = .ok (.text "A", []) ∧
      u.process changed plan.templates 10 = .ok (.text "A", []) ∧
      ∀ failure, plan.processAll changed 10 ≠ .error (.scan failure) := by
  intro site changed
  refine ⟨by decide +kernel, ?_⟩
  obtain ⟨plan, hplan, hcheck⟩ : ∃ plan, make site siteInventory false = .ok plan ∧
      (plan.units.any fun u =>
        decide (u.process site plan.templates 10 = .ok (.text "A", []))) = true :=
    Stages.exists_of_any (by decide +kernel)
  obtain ⟨u, hu, hcheck⟩ := List.any_eq_true.1 hcheck
  have hthen : u.process site plan.templates 10 = .ok (.text "A", []) := of_decide_eq_true hcheck
  obtain ⟨hunits, -, hscan⟩ := process_after_changes hplan
    [.delete ⟨"docs"⟩, .write ⟨"templates/a.html"⟩ "X".toUTF8 9,
      .touch ⟨"templates/b.html"⟩ 9, .makeDirectories ⟨"docs/index.html"⟩ 9] 10
  exact ⟨plan, u, hplan, hu, hthen, (hunits u hu).1.trans hthen, hscan⟩

end Plan

end Stencil
