import Stencil.Plan.Library
import Stencil.Proofs.Stages

/-!
# The templates that are loaded

A library that could be loaded holds a template for every markup file it was given
(`of_mem_load`) and no other (`exists_of_getElem?_load`).
-/

namespace Stencil.Templates

variable {t : FileTree} {files : List Source} {sofar templates : Templates} {file : Source}
  {content : String} {first : Template}

/-! ## One file -/

theorem loadFrom_asset (h : file.isMarkup = false) :
    loadFrom t (file :: files) sofar =
      (ignoredWarning file.rel :: (loadFrom t files sofar).1, (loadFrom t files sofar).2) := by
  rw [loadFrom, if_neg (by simp [h])]

theorem loadFrom_unread {e : ReadFailure} (hmarkup : file.isMarkup = true)
    (hread : file.text t = .error e) :
    loadFrom t (file :: files) sofar = ([], .error (.ofRead e)) := by
  rw [loadFrom, if_pos hmarkup, hread]

theorem loadFrom_taken (hmarkup : file.isMarkup = true) (hread : file.text t = .ok content)
    (htaken : sofar[Template.nameOf file.rel]? = some first) :
    loadFrom t (file :: files) sofar =
      ([], .error (.duplicateTemplate (Template.nameOf file.rel) first.path file.path)) := by
  rw [loadFrom, if_pos hmarkup, hread]
  simp only [Template.name_ofSource, htaken, Template.path_ofSource]

theorem loadFrom_free (hmarkup : file.isMarkup = true) (hread : file.text t = .ok content)
    (hfree : sofar[Template.nameOf file.rel]? = none) :
    loadFrom t (file :: files) sofar =
      loadFrom t files (sofar.insert (Template.nameOf file.rel)
        (Template.ofSource file content)) := by
  rw [loadFrom, if_pos hmarkup, hread]
  simp only [Template.name_ofSource, hfree]

/-- Loading goes on with the rest of the files when it can go on at all. -/
theorem loadFrom_cons (h : (loadFrom t (file :: files) sofar).2 = .ok templates) :
    (file.isMarkup = false ∧ (loadFrom t files sofar).2 = .ok templates) ∨
    ∃ content, file.isMarkup = true ∧ file.text t = .ok content ∧
      sofar[Template.nameOf file.rel]? = none ∧
      (loadFrom t files (sofar.insert (Template.nameOf file.rel)
        (Template.ofSource file content))).2 = .ok templates := by
  cases hmarkup : file.isMarkup with
  | false =>
    rw [loadFrom_asset hmarkup] at h
    exact .inl ⟨rfl, h⟩
  | true =>
    cases hread : file.text t with
    | error e =>
      rw [loadFrom_unread hmarkup hread] at h
      cases h
    | ok content =>
      cases hfree : sofar[Template.nameOf file.rel]? with
      | some first =>
        rw [loadFrom_taken hmarkup hread hfree] at h
        cases h
      | none =>
        rw [loadFrom_free hmarkup hread hfree] at h
        exact .inr ⟨content, rfl, rfl, rfl, h⟩

/-! ## The library -/

/-- What is in the library stays there. -/
theorem getElem?_of_loadFrom (h : (loadFrom t files sofar).2 = .ok templates) {name : String}
    {template : Template} (hname : sofar[name]? = some template) :
    templates[name]? = some template := by
  induction files generalizing sofar with
  | nil =>
    cases h
    exact hname
  | cons file files ih =>
    rcases loadFrom_cons h with ⟨-, h⟩ | ⟨content, -, -, hfree, h⟩
    · exact ih h hname
    · refine ih h ?_
      rw [Std.ExtTreeMap.getElem?_insert, if_neg]
      · exact hname
      · intro heq
        rw [Std.LawfulEqCmp.eq_of_compare heq, hname] at hfree
        cases hfree

/-- Every markup file is in the library as a template. -/
theorem of_mem_load (h : (load t files).2 = .ok templates) {file : Source} (hfile : file ∈ files)
    (hmarkup : file.isMarkup = true) :
    ∃ content, file.text t = .ok content ∧
      templates[Template.nameOf file.rel]? = some (Template.ofSource file content) := by
  rw [load] at h
  generalize (∅ : Templates) = sofar at h
  induction files generalizing sofar with
  | nil => cases hfile
  | cons first files ih =>
    rcases loadFrom_cons h with ⟨hasset, h⟩ | ⟨content, -, htext, -, h⟩
    · rcases List.mem_cons.1 hfile with rfl | hfile
      · rw [hmarkup] at hasset
        cases hasset
      · exact ih hfile _ h
    · rcases List.mem_cons.1 hfile with rfl | hfile
      · refine ⟨content, htext, getElem?_of_loadFrom h ?_⟩
        rw [Std.ExtTreeMap.getElem?_insert, if_pos]
        exact Std.ReflCmp.compare_self
      · exact ih hfile _ h

/-- Every template in the library is a markup file under the name of its path. -/
theorem exists_of_getElem?_load (h : (load t files).2 = .ok templates) {name : String}
    {template : Template} (hname : templates[name]? = some template) :
    ∃ file ∈ files, ∃ content, file.isMarkup = true ∧ file.text t = .ok content ∧
      template = Template.ofSource file content ∧ name = Template.nameOf file.rel := by
  -- a template is in the library from the start or comes from one of the files
  have hfrom : ∀ (files : List Source) (sofar : Templates),
      (loadFrom t files sofar).2 = .ok templates → sofar[name]? = some template ∨
        ∃ file ∈ files, ∃ content, file.isMarkup = true ∧ file.text t = .ok content ∧
          template = Template.ofSource file content ∧
          name = Template.nameOf file.rel := by
    intro files
    induction files with
    | nil =>
      intro sofar h
      cases h
      exact .inl hname
    | cons first files ih =>
      intro sofar h
      rcases loadFrom_cons h with ⟨-, h⟩ | ⟨content, hmarkup, htext, -, h⟩
      · rcases ih _ h with hsofar | ⟨file, hfile, hrest⟩
        · exact .inl hsofar
        · exact .inr ⟨file, List.mem_cons_of_mem _ hfile, hrest⟩
      · rcases ih _ h with hsofar | ⟨file, hfile, hrest⟩
        · rw [Std.ExtTreeMap.getElem?_insert] at hsofar
          split at hsofar
          · next heq =>
            cases hsofar
            exact .inr ⟨first, List.mem_cons_self, content, hmarkup, htext, rfl,
              (Std.LawfulEqCmp.eq_of_compare heq).symm⟩
          · exact .inl hsofar
        · exact .inr ⟨file, List.mem_cons_of_mem _ hfile, hrest⟩
  rcases hfrom files ∅ h with hempty | hfound
  · simp at hempty
  · exact hfound

end Stencil.Templates
