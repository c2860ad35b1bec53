import Stencil.Proofs.Plan.Units

/-!
# Documents that need not be built

A document is left out of a plan only if there is an output for it and neither the document
nor a template that it uses is newer (`of_isRequired_eq_false`).
-/

namespace Stencil.Plan

variable {t : FileTree} {templates : Templates} {force : Bool} {doc : Source} {u : PlannedUnit}
  {docs built left : List Source} {units : List PlannedUnit}

/-- Every document is considered, and it is a unit unless it need not be built. -/
theorem exists_of_mem_docs (h : selectUnits t templates force docs built = .ok units)
    (hdoc : doc ∈ docs) :
    ∃ u left, left.Sublist built ∧ Considers t templates left doc u ∧
      (u ∈ units ∨ isRequired t templates force u = .ok false) := by
  induction docs generalizing built units with
  | nil => cases hdoc
  | cons first docs ih =>
    obtain ⟨v, required, rest, hv, hrequired, hrest, rfl⟩ := selectUnits_cons h
    rcases List.mem_cons.1 hdoc with rfl | hdoc
    · refine ⟨v, built, .refl _, hv, ?_⟩
      cases required with
      | false => exact .inr hrequired
      | true => exact .inl List.mem_cons_self
    · obtain ⟨u, left, hleft, hu, hcase⟩ := ih hrest hdoc
      refine ⟨u, left, hleft.trans List.filter_sublist, hu, hcase.imp_left fun hmem => ?_⟩
      cases required with
      | false => exact hmem
      | true => exact List.mem_cons_of_mem _ hmem

/-- The output of a document is one of those that are left, at the path of the document. -/
theorem of_claimOutput {rel : Path} {output : Source}
    (h : (claimOutput rel left).1 = some output) : output ∈ left ∧ output.rel.Same rel := by
  have hmem := List.mem_of_getLast? h
  rw [List.mem_filter] at hmem
  exact ⟨hmem.1, of_decide_eq_true hmem.2⟩

/-- The newest time is no earlier than the one it starts with or that of any template. -/
theorem le_of_foldlM_later {names : List String} {start newest : Int}
    (h : names.foldlM (later t templates) start = .ok newest) :
    start ≤ newest ∧ ∀ name ∈ names, ∀ template, templates[name]? = some template →
      ∃ time, template.source.time t = .ok time ∧ time ≤ newest := by
  induction names generalizing start with
  | nil =>
    cases h
    exact ⟨Int.le_refl _, nofun⟩
  | cons name names ih =>
    obtain ⟨next, hnext, h⟩ := Stages.bind_eq_ok.1 h
    obtain ⟨hstart, hnames⟩ := ih h
    rw [later] at hnext
    split at hnext
    · next hnone =>
      cases hnext
      refine ⟨hstart, ?_⟩
      intro other hother template htemplate
      rcases List.mem_cons.1 hother with rfl | hother
      · rw [hnone] at htemplate
        cases htemplate
      · exact hnames other hother template htemplate
    · next found hfound =>
      obtain ⟨time, htime, rfl⟩ := Stages.map_eq_ok.1 hnext
      refine ⟨by omega, ?_⟩
      intro other hother template htemplate
      rcases List.mem_cons.1 hother with rfl | hother
      · rw [hfound] at htemplate
        cases htemplate
        exact ⟨time, htime, by omega⟩
      · exact hnames other hother template htemplate

/-- A document that need not be built has an output, and neither the document nor a template
that it uses is newer. -/
theorem of_isRequired_eq_false (h : isRequired t templates force u = .ok false) :
    ∃ output time, u.existing = some output ∧ output.time t = .ok time ∧
      (∃ changed, u.source.time t = .ok changed ∧ changed ≤ time) ∧
      ∀ name ∈ u.templates, ∀ template, templates[name]? = some template →
        ∃ changed, template.source.time t = .ok changed ∧ changed ≤ time := by
  rw [isRequired] at h
  split at h
  · cases h
  next output houtput =>
  split at h
  · cases h
  obtain ⟨latest, hnewest, h⟩ := Stages.bind_eq_ok.1 h
  obtain ⟨time, htime, h⟩ := Stages.bind_eq_ok.1 h
  -- no newer than the output is all that the comparison of times gives
  have hle : latest ≤ time := by
    have hnot := Stages.pure_eq_ok.1 h
    simp only [needsRebuild, decide_eq_false_iff_not] at hnot
    omega
  obtain ⟨changed, hchanged, hfold⟩ := Stages.bind_eq_ok.1 hnewest
  obtain ⟨hstart, hnames⟩ := le_of_foldlM_later hfold
  refine ⟨output, time, houtput, htime, ⟨changed, hchanged, by omega⟩, ?_⟩
  intro name hname template htemplate
  obtain ⟨stamp, hstamp, hlatest⟩ :=
    hnames name (Std.ExtTreeSet.mem_toList.2 hname) template htemplate
  exact ⟨stamp, hstamp, by omega⟩

end Stencil.Plan
