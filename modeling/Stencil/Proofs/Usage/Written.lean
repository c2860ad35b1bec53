import Stencil.Proofs.Keyed

/-!
# Written usages

`openTag name fields` is the opening tag of a usage of the template `name` with one
attribute for each field. `ofTag_openTag` reads it back: the usage has the name and, of a
field that is given twice, the later value.
-/

namespace Stencil.Usage

/-- The name of the attribute for a field. -/
def fieldAttribute (field : String) : String := String.ofList ('$' :: field.toList)

/-- The attributes of a usage of `name` with single fields. -/
def attributesOf (name : String) (fields : List (String × String)) : List (String × String) :=
  (Template.nameAttribute, name) :: fields.map fun f => (fieldAttribute f.1, f.2)

def openTag (name : String) (fields : List (String × String)) : List Char :=
  Tag.written tagName (attributesOf name fields)

def closeTag : List Char := '<' :: '/' :: (tagName ++ ['>'])

/-- A field that can be written as one attribute. -/
structure FieldWritable (f : String × String) : Prop where
  name_ne_nil : f.1.toList ≠ []
  inTagName : ∀ c ∈ f.1.toList, Tag.inTagName c = true
  quote_not_mem : '"' ∉ f.2.toList

theorem fieldAttribute_ne (field : String) {name : String} (h : name.toList.head? ≠ some '$') :
    fieldAttribute field ≠ name := by
  rintro rfl
  simp [fieldAttribute] at h

theorem fieldAttribute_inj {f g : String} : fieldAttribute f = fieldAttribute g ↔ f = g := by
  constructor
  · intro h
    have h' := congrArg String.toList h
    simp only [fieldAttribute, String.toList_ofList, List.cons.injEq, true_and] at h'
    exact String.toList_inj.1 h'
  · rintro rfl
    rfl

/-- An attribute belongs to a field exactly when it is the attribute for that field. -/
theorem fieldNamedBy?_eq_some_iff {name field : String} :
    fieldNamedBy? name = some field ↔ name = fieldAttribute field := by
  rw [fieldNamedBy?, Option.map_eq_some_iff]
  constructor
  · rintro ⟨rest, hrest, rfl⟩
    rw [Text.afterLead?_eq_some_iff] at hrest
    apply String.toList_inj.1
    simpa [fieldAttribute] using hrest
  · rintro rfl
    refine ⟨field.toList, ?_, by simp⟩
    rw [Text.afterLead?_eq_some_iff]
    simp [fieldAttribute]

/-- The attribute for a field can be written when the characters of the field are those of
names. -/
theorem writable_fieldAttribute {f : String × String}
    (hname : ∀ c ∈ f.1.toList, Tag.attributeForm.inName c = true) (hquote : '"' ∉ f.2.toList) :
    Tag.Writable (fieldAttribute f.1, f.2) := by
  refine ⟨by simp [fieldAttribute], ?_, hquote⟩
  intro c hc
  have hc : c = '$' ∨ c ∈ f.1.toList := by simpa [fieldAttribute] using hc
  rcases hc with rfl | hc
  · decide
  · exact hname c hc

/-- A writable field is written as a writable attribute. -/
theorem FieldWritable.writable {f : String × String} (h : FieldWritable f) :
    Tag.Writable (fieldAttribute f.1, f.2) :=
  writable_fieldAttribute (fun c hc => Tag.inName_of_inTagName (h.inTagName c hc)) h.quote_not_mem

theorem writable_nameAttribute {name : String} (h : '"' ∉ name.toList) :
    Tag.Writable (Template.nameAttribute, name) := by
  have hne : Template.nameAttribute.toList ≠ [] := by decide
  have hchars : Template.nameAttribute.toList.all Tag.attributeForm.inName = true := by decide
  exact ⟨hne, List.all_eq_true.1 hchars, h⟩

/-- The tag of a usage is made of writable attributes. -/
theorem writable_attributesOf {name : String} {fields : List (String × String)}
    (hname : '"' ∉ name.toList) (h : ∀ f ∈ fields, Tag.Writable (fieldAttribute f.1, f.2)) :
    ∀ a ∈ attributesOf name fields, Tag.Writable a := by
  intro a ha
  rcases List.mem_cons.1 ha with rfl | ha
  · exact writable_nameAttribute hname
  · obtain ⟨f, hf, rfl⟩ := List.mem_map.1 ha
    exact h f hf

/-! ## What the tag of a usage says -/

/-- The single fields of attributes are what the attributes say of them. -/
theorem lookup_singleFields (entries : List (String × String)) (field : String) :
    (entries.filterMap fun e => (fieldNamedBy? e.1).map fun f => (f, e.2)).lookup field =
      entries.lookup (fieldAttribute field) := by
  induction entries with
  | nil => rfl
  | cons e entries ih =>
    rw [List.lookup_cons, List.filterMap_cons]
    cases hf : fieldNamedBy? e.1 with
    | none =>
      have hne : fieldAttribute field ≠ e.1 := by
        intro he
        rw [fieldNamedBy?_eq_some_iff.2 he.symm] at hf
        cases hf
      simp [beq_eq_false_iff_ne.2 hne, ih]
    | some f =>
      have he := fieldNamedBy?_eq_some_iff.1 hf
      rw [he]
      by_cases hk : field = f
      · simp [hk]
      · have hne : fieldAttribute field ≠ fieldAttribute f := fun h => hk (fieldAttribute_inj.1 h)
        simp [List.lookup_cons, beq_eq_false_iff_ne.2 hk, beq_eq_false_iff_ne.2 hne, ih]

/-- Of a field given twice the later attribute counts. -/
theorem getElem?_insertMany_singleFields (a : Tag.Attributes) (field : String) :
    ((∅ : Fields).insertMany (singleFields a))[field]? = a.get? (fieldAttribute field) := by
  have hnodup : (a.entries.reverse.map Prod.fst).Nodup := by
    rw [List.map_reverse]
    exact List.pairwise_reverse.2 (a.nodup.imp fun h => h.symm)
  rw [Fields.getElem?_insertMany, Keyed.latest, singleFields, ← List.filterMap_reverse,
    lookup_singleFields, Tag.Attributes.get?, ← Keyed.latest_eq_lookup hnodup, Keyed.latest,
    List.reverse_reverse]
  simp

/-- Attributes for fields give a field what its last one says. -/
theorem latest_fieldAttributes (fields : List (String × String)) (field : String) :
    Keyed.latest (fieldAttribute field) (fields.map fun f => (fieldAttribute f.1, f.2)) =
      Keyed.latest field fields := by
  induction fields with
  | nil => rfl
  | cons f fields ih =>
    rw [List.map_cons, Keyed.latest_cons, Keyed.latest_cons, ih]
    simp [fieldAttribute_inj]

theorem latest_attributesOf_field (name : String) (fields : List (String × String))
    (field : String) :
    Keyed.latest (fieldAttribute field) (attributesOf name fields) =
      Keyed.latest field fields := by
  have hname : ¬ fieldAttribute field = Template.nameAttribute :=
    fieldAttribute_ne field (by decide)
  rw [attributesOf, Keyed.latest_cons, if_neg hname, Option.or_none, latest_fieldAttributes]

theorem latest_attributesOf_name (name : String) (fields : List (String × String)) :
    Keyed.latest Template.nameAttribute (attributesOf name fields) = some name := by
  rw [attributesOf, Keyed.latest_cons, Keyed.latest_eq_none]
  · simp
  · intro p hp
    obtain ⟨f, -, rfl⟩ := List.mem_map.1 hp
    exact fieldAttribute_ne f.1 (by decide)

theorem latest_attributesOf_bulk (name : String) (fields : List (String × String)) :
    Keyed.latest fieldsAttribute (attributesOf name fields) = none := by
  apply Keyed.latest_eq_none
  intro p hp
  rcases List.mem_cons.1 hp with rfl | hp
  · show Template.nameAttribute ≠ fieldsAttribute
    decide
  · obtain ⟨f, -, rfl⟩ := List.mem_map.1 hp
    exact fieldAttribute_ne f.1 (by decide)

/-- The usage of a tag whose attributes and bulk list can be read. -/
theorem ofTag_eq_ok {tag : List Char} {a : Tag.Attributes} {name : String}
    {bulk : List (String × String)} (ha : Tag.Attributes.ofTag tag = .ok a)
    (hname : a.get? Template.nameAttribute = some name) (hbulk : bulkOf a = .ok bulk) :
    ofTag tag = .ok ⟨name, (∅ : Fields).insertMany (bulk ++ singleFields a)⟩ := by
  rw [ofTag, ha]
  simp only [bind, Except.bind, hname, hbulk]
  rfl

theorem inTagName_tagName : ∀ c ∈ tagName, Tag.inTagName c = true :=
  List.all_eq_true.1 (by decide)

/-- Reading the tag of a usage gives the usage. -/
theorem ofTag_openTag {name : String} {fields : List (String × String)}
    (hname : '"' ∉ name.toList) (h : ∀ f ∈ fields, Tag.Writable (fieldAttribute f.1, f.2)) :
    ofTag (openTag name fields) = .ok ⟨name, (∅ : Fields).insertMany fields⟩ := by
  have hread : Tag.Attributes.ofTag (openTag name fields) =
      .ok (Tag.Attributes.ofList (attributesOf name fields)) :=
    Tag.Attributes.ofTag_written (by decide) inTagName_tagName (writable_attributesOf hname h)
  have hn : (Tag.Attributes.ofList (attributesOf name fields)).get? Template.nameAttribute =
      some name := by
    rw [Tag.Attributes.get?_ofList, latest_attributesOf_name]
  have hb : bulkOf (Tag.Attributes.ofList (attributesOf name fields)) = .ok [] := by
    rw [bulkOf, Tag.Attributes.get?_ofList, latest_attributesOf_bulk]
  have hf : (∅ : Fields).insertMany
      (singleFields (Tag.Attributes.ofList (attributesOf name fields))) =
        (∅ : Fields).insertMany fields := by
    apply Std.ExtTreeMap.ext_getElem?
    intro field
    rw [getElem?_insertMany_singleFields, Tag.Attributes.get?_ofList, latest_attributesOf_field,
      Fields.getElem?_insertMany]
    simp
  rw [ofTag_eq_ok hread hn hb, List.nil_append, hf]

/-- The scan for the end of a tag stops behind the tag of a usage. -/
theorem afterEnd_openTag {name : String} {fields : List (String × String)}
    (hname : '"' ∉ name.toList) (h : ∀ f ∈ fields, Tag.Writable (fieldAttribute f.1, f.2))
    (t : List Char) :
    Tag.afterEnd (.outside false) (openTag name fields ++ t) = some t :=
  Tag.afterEnd_written inTagName_tagName (writable_attributesOf hname h) t

theorem afterEnd_closeTag (t : List Char) :
    Tag.afterEnd (.outside false) (closeTag ++ t) = some t := by
  have hname : ∀ c ∈ tagName, Tag.Plain c := fun c hc =>
    Tag.plain_of_inName (Tag.inName_of_inTagName (inTagName_tagName c hc))
  have hplain : ∀ c ∈ '<' :: '/' :: tagName, Tag.Plain c := by
    rw [List.forall_mem_cons, List.forall_mem_cons]
    exact ⟨⟨by decide, by decide, by decide⟩, ⟨by decide, by decide, by decide⟩, hname⟩
  have hshape : closeTag ++ t = ('<' :: '/' :: tagName) ++ '>' :: t := by simp [closeTag]
  rw [hshape, Tag.afterEnd_plain hplain]
  simp [Tag.afterEnd, Tag.isQuote]

end Stencil.Usage
