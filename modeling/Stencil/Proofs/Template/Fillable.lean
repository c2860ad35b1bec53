import Stencil.Proofs.Template.Literals

/-!
# When a template can be filled

The values of the fields and the content of the usage go into the text of a template and
decide nothing else. Whether the template can be filled depends on which fields have a value
(`isOk_fill_congr`).
-/

namespace Stencil

/-- Whether all places can be filled depends on where they are. -/
theorem Substitution.exists_substitute?_of_span {position : Nat} {text filled : List Char}
    {places places' : List Substitution} (hspan : places'.map span = places.map span)
    (h : substitute? position text places = some filled) :
    ∃ filled', substitute? position text places' = some filled' := by
  induction places generalizing places' position text filled with
  | nil =>
    obtain rfl := List.map_eq_nil_iff.1 hspan
    exact ⟨filled, h⟩
  | cons s places ih =>
    obtain ⟨s', places', rfl, hs, hspan⟩ := List.map_eq_cons_iff.1 hspan
    obtain ⟨hstart, hstop⟩ : s'.start = s.start ∧ s'.stop = s.stop := Prod.mk.inj hs
    rw [substitute?] at h ⊢
    rw [hstart, hstop]
    split at h
    · cases h
    next hle =>
    obtain ⟨tail, htail, -⟩ := Option.map_eq_some_iff.1 h
    obtain ⟨tail', htail'⟩ := ih hspan htail
    rw [if_neg hle, htail']
    exact ⟨_, rfl⟩

namespace Template

variable {t : Template} {fields fields' : Fields}

/-- A field tag finds a value where its field has one. -/
theorem exists_resolveField (hfields : ∀ field, field ∈ fields ↔ field ∈ fields')
    {tag : List Char} {found : String × String} (h : t.resolveField fields tag = .ok found) :
    ∃ found', t.resolveField fields' tag = .ok found' := by
  obtain ⟨name, value⟩ := found
  obtain ⟨a, ha, hname, hvalue⟩ := resolveField_eq_ok.1 h
  have hgiven : (fields'[name]?).isSome = (fields[name]?).isSome := by
    rw [Bool.eq_iff_iff, ← Std.ExtTreeMap.mem_iff_isSome_getElem?,
      ← Std.ExtTreeMap.mem_iff_isSome_getElem?]
    exact (hfields name).symm
  have hsome : ((fields'[name]?).or (a.get? defaultAttribute)).isSome = true := by
    rw [Option.isSome_or, hgiven, ← Option.isSome_or, hvalue]
    rfl
  obtain ⟨value', hvalue'⟩ := Option.isSome_iff_exists.1 hsome
  exact ⟨(name, value'), resolveField_eq_ok.2 ⟨a, ha, hname, hvalue'⟩⟩

/-- A template that can be filled can be filled with other values for the same fields and with
any content. -/
theorem exists_fill_of_mem_iff (hfields : ∀ field, field ∈ fields ↔ field ∈ fields')
    {inner : List Char} {filling : Filling} (h : t.fill fields inner = .ok filling)
    (inner' : List Char) : ∃ filling', t.fill fields' inner' = .ok filling' := by
  obtain ⟨resolved, places, hresolved, hplaces, hout⟩ := fill_eq_ok.1 h
  obtain ⟨resolved', hresolved'⟩ : ∃ resolved', t.resolveFields fields' = .ok resolved' := by
    refine Stages.exists_mapM_eq_ok fun o ho => ?_
    obtain ⟨found, -, hfound⟩ := Stages.exists_of_mem_mapM hresolved ho
    exact exists_resolveField hfields hfound
  obtain ⟨places', hplaces'⟩ : ∃ places', t.places inner' resolved' = .ok places' := by
    rw [Template.places]
    rcases places_eq_ok hplaces with ⟨hslots, -⟩ | ⟨slot, hslots, -⟩ <;> rw [hslots] <;>
      exact ⟨_, rfl⟩
  have hspan : places'.map Substitution.span = places.map Substitution.span :=
    (span_of_places hresolved' hplaces').trans (span_of_places hresolved hplaces).symm
  obtain ⟨text, htext⟩ :=
    Substitution.exists_substitute?_of_span hspan (substitute?_of_assemble hout)
  have hassembled : ∃ filling', t.assemble fields' resolved' places' = .ok filling' := by
    rw [assemble, htext]
    exact ⟨_, rfl⟩
  obtain ⟨filling', hfilling'⟩ := hassembled
  exact ⟨filling', fill_eq_ok.2 ⟨resolved', places', hresolved', hplaces', hfilling'⟩⟩

/-- Whether a template can be filled is decided by the fields that have a value. -/
theorem isOk_fill_congr (hfields : ∀ field, field ∈ fields ↔ field ∈ fields')
    (inner inner' : List Char) :
    (t.fill fields inner).isOk = (t.fill fields' inner').isOk := by
  rw [Bool.eq_iff_iff, Stages.isOk_iff, Stages.isOk_iff]
  constructor
  · rintro ⟨filling, h⟩
    exact exists_fill_of_mem_iff hfields h inner'
  · rintro ⟨filling, h⟩
    exact exists_fill_of_mem_iff (fun field => (hfields field).symm) h inner

end Template

end Stencil
