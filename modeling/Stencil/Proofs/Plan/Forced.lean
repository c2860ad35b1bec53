import Stencil.Proofs.Plan.Library
import Stencil.Proofs.Plan.Replan

/-!
# Forced and other plans

A plan that is not forced selects some of the documents that a forced one selects, but it
looks at times that the forced one never reads. Where these can be read there is such a plan
whenever there is a forced one (`exists_make_of_forced`).
-/

namespace Stencil

variable {t : FileTree}

/-- The times of these files can be read. -/
def FileTree.Timed (t : FileTree) (files : List Source) : Prop :=
  ∀ file ∈ files, ∃ time, t.time file.path = .ok time

theorem FileTree.Timed.exists_time {files : List Source} (h : t.Timed files) {file s : Source}
    (hfile : file ∈ files) (hpath : s.path = file.path) : ∃ time, s.time t = .ok time := by
  obtain ⟨time, htime⟩ := h file hfile
  unfold Source.time
  cases s.time? with
  | some time' => exact ⟨time', rfl⟩
  | none => exact ⟨time, by rw [hpath, htime]; rfl⟩

namespace Plan

variable {templates : Templates} {docs built : List Source} {units : List PlannedUnit}

theorem of_mem_claimOutput {rel : Path} {output : Source}
    (h : (claimOutput rel built).1 = some output) : output ∈ built :=
  List.mem_of_mem_filter (List.mem_of_getLast? h)

/-- What a selection selects that is not forced is among what a forced one selects. -/
theorem exists_sublist_of_forced (h : selectUnits t templates true docs built = .ok units)
    (hdocs : t.Timed docs) (hbuilt : t.Timed built)
    (htemplates : ∀ (name : String) (template : Template), templates[name]? = some template →
      ∃ time, template.source.time t = .ok time) (force : Bool) :
    ∃ units', selectUnits t templates force docs built = .ok units' ∧ units'.Sublist units := by
  induction docs generalizing built units with
  | nil =>
    cases h
    exact ⟨[], rfl, .slnil⟩
  | cons doc docs ih =>
    obtain ⟨u, required, rest, hu, hrequired, hrest, rfl⟩ := selectUnits_cons h
    have hforced : required = true := (isRequired_eq_ok hrequired).2 (.inl rfl)
    subst hforced
    have hleft : t.Timed (claimOutput doc.rel built).2 := fun output houtput =>
      hbuilt output (List.mem_of_mem_filter houtput)
    obtain ⟨rest', hrest', hsublist⟩ :=
      ih hrest (fun d hd => hdocs d (List.mem_cons_of_mem _ hd)) hleft
    -- the verdict on the document itself needs its time and that of its output
    have htimed : ¬ Untimed t templates force u := by
      refine not_untimed (hdocs.exists_time List.mem_cons_self
        (path_of_templatesUsed hu.used).1) htemplates ?_
      intro output houtput
      rw [hu.existing] at houtput
      exact hbuilt.exists_time (of_mem_claimOutput houtput) rfl
    obtain ⟨required', hrequired'⟩ : ∃ required', isRequired t templates force u = .ok required' := by
      cases hverdict : isRequired t templates force u with
      | ok required' => exact ⟨required', rfl⟩
      | error e => exact absurd (exists_isRequired_eq_error_iff.1 ⟨e, hverdict⟩) htimed
    have hselect : selectUnits t templates force (doc :: docs) built =
        .ok (if required' then u :: rest' else rest') := by
      obtain ⟨source, existing, names⟩ := u
      obtain ⟨hused, rfl⟩ := hu
      exact Stages.bind_eq_ok.2 ⟨_, hused, Stages.bind_eq_ok.2
        ⟨required', Stages.mapError_eq_ok.2 hrequired', Stages.bind_eq_ok.2 ⟨rest', hrest', rfl⟩⟩⟩
    refine ⟨_, hselect, ?_⟩
    cases required' with
    | true => exact hsublist.cons_cons u
    | false => exact hsublist.cons u

/-- Where the times can be read there is a plan if there is a forced one, and it has no other
documents. -/
theorem exists_make_of_forced {inventory : Inventory} {plan : Plan}
    (h : make t inventory true = .ok plan) (hdocs : t.Timed inventory.docs)
    (htemplates : t.Timed inventory.templates) (hbuilt : t.Timed inventory.built) (force : Bool) :
    ∃ plan', make t inventory force = .ok plan' ∧ plan'.templates = plan.templates ∧
      plan'.units.Sublist plan.units := by
  obtain ⟨hload, hselect, -, -⟩ := make_eq_ok_iff.1 h
  have hlibrary : ∀ (name : String) (template : Template), plan.templates[name]? = some template →
      ∃ time, template.source.time t = .ok time := by
    intro name template hname
    obtain ⟨file, hfile, content, -, -, rfl, -⟩ := Templates.exists_of_getElem?_load hload hname
    exact htemplates.exists_time hfile rfl
  obtain ⟨units, hunits, hsublist⟩ :=
    exists_sublist_of_forced hselect hdocs hbuilt hlibrary force
  exact ⟨⟨plan.templates, units, _, _⟩, make_eq_ok_iff.2 ⟨hload, hunits, rfl, rfl⟩, rfl, hsublist⟩

end Plan

end Stencil
