import Stencil.Proofs.Stages
import Stencil.Proofs.Usage.Inert

/-!
# Tags that ask alike

Two opening tags ask alike when they name the same template and give values to the same
fields. That is all that decides whether the usage can be filled, so it is what may change in
a tag without a change in the course of an expansion. Attributes that differ in the values of
fields only ask alike (`asksAlike_of_agree`), and texts with such tags stay alike when they are
put together (`Alike.append`).
-/

namespace Stencil

namespace Tag.Attributes

/-- The attributes have the same names, and only those that are `free` may differ in their
values. -/
structure AgreeExcept (free : String → Prop) (a b : Attributes) : Prop where
  names : a.names = b.names
  value : ∀ name, ¬ free name → a.get? name = b.get? name

variable {free : String → Prop} {a b : Attributes} {name value value' : String}

theorem AgreeExcept.refl (a : Attributes) : AgreeExcept free a a := ⟨rfl, fun _ _ => rfl⟩

theorem AgreeExcept.insert (h : AgreeExcept free a b) (hvalue : ¬ free name → value = value') :
    AgreeExcept free (a.insert name value) (b.insert name value') := by
  refine ⟨?_, fun key hkey => ?_⟩
  · rw [names_insert, names_insert, h.names]
  · rw [get?_insert, get?_insert]
    by_cases heq : key = name
    · rw [if_pos heq, if_pos heq, hvalue (heq ▸ hkey)]
    · rw [if_neg heq, if_neg heq, h.value key hkey]

/-- Reading on, attributes that agree stay in agreement. -/
theorem agree_readAll? (h : AgreeExcept free a b) (s : List Char) :
    Option.Rel (AgreeExcept free) (readAll? a s) (readAll? b s) := by
  induction hlength : s.length using Nat.strongRecOn generalizing a b s with
  | _ length ih =>
  by_cases hend : s = ['>'] ∨ s = ['/', '>']
  · rw [readAll?, if_pos hend, readAll?, if_pos hend]
    exact .some h
  · cases hread : Assignment.read? attributeForm s with
    | none =>
      rw [readAll?_of_none hend hread, readAll?_of_none hend hread]
      exact .none
    | some found =>
      obtain ⟨assignment, rest⟩ := found
      rw [readAll?_of_some hend hread, readAll?_of_some hend hread]
      have hshorter := (Assignment.read?_suffix hread).2
      have htrim := (Text.trimStart_suffix rest).length_le
      exact ih _ (by omega) (h.insert fun _ => rfl) _ rfl

end Tag.Attributes

namespace Usage

open Tag (Attributes)

/-- The attribute gives a value to a field. -/
def OfField (name : String) : Prop := ∃ field, fieldNamedBy? name = some field

theorem not_ofField {name : String} (h : name.toList.head? ≠ some '$') : ¬ OfField name := by
  rintro ⟨field, hfield⟩
  exact fieldAttribute_ne field h (fieldNamedBy?_eq_some_iff.1 hfield).symm

theorem ofField_of_head? {name : List Char} (h : name.head? = some '$') :
    OfField (String.ofList name) := by
  obtain ⟨field, rfl⟩ := List.head?_eq_some_iff.1 h
  exact ⟨String.ofList field, fieldNamedBy?_eq_some_iff.2 (by simp [fieldAttribute])⟩

/-- The tags name the same template and give values to the same fields, or neither can be
read. -/
def AsksAlike (tag tag' : List Char) : Prop :=
  Option.Rel (fun u u' : Usage => u.name = u'.name ∧ ∀ field, field ∈ u.fields ↔ field ∈ u'.fields)
    (ofTag tag).toOption (ofTag tag').toOption

theorem AsksAlike.refl (tag : List Char) : AsksAlike tag tag := by
  rw [AsksAlike]
  cases (ofTag tag).toOption with
  | none => exact .none
  | some usage => exact .some ⟨rfl, fun _ => .rfl⟩

/-- The fields that a usage gives values to are those of its bulk list and its attributes. -/
theorem mem_insertMany_singleFields {bulk : List (String × String)} {a : Attributes}
    {field : String} :
    field ∈ (∅ : Fields).insertMany (bulk ++ singleFields a) ↔
      field ∈ bulk.map Prod.fst ∨ ∃ name ∈ a.names, fieldNamedBy? name = some field := by
  have hsingle : (singleFields a).map Prod.fst = a.names.filterMap fieldNamedBy? := by
    rw [singleFields, List.map_filterMap, Attributes.names, List.filterMap_map]
    congr 1
    funext e
    cases h : fieldNamedBy? e.1 <;> simp [h]
  rw [Std.ExtTreeMap.mem_insertMany_list, List.contains_iff_mem, List.map_append, hsingle,
    List.mem_append, List.mem_filterMap]
  simp

/-- Attributes that agree but for the values of fields state usages that ask alike. -/
theorem asksAlike_of_agree {tag tag' : List Char}
    (h : Option.Rel (Attributes.AgreeExcept OfField) (Attributes.ofTag? tag)
      (Attributes.ofTag? tag')) : AsksAlike tag tag' := by
  rw [AsksAlike, ofTag, ofTag, Attributes.ofTag, Attributes.ofTag]
  generalize Attributes.ofTag? tag = read at h ⊢
  generalize Attributes.ofTag? tag' = read' at h ⊢
  cases h with
  | none => exact .none
  | @some a b hagree =>
    have hname : a.get? Template.nameAttribute = b.get? Template.nameAttribute :=
      hagree.value _ (not_ofField (by decide))
    have hbulk : bulkOf a = bulkOf b := by
      rw [bulkOf, bulkOf, hagree.value _ (not_ofField (by decide))]
    simp only [Stages.ok_bind, hname, hbulk]
    cases b.get? Template.nameAttribute with
    | none => exact .none
    | some name =>
      cases bulkOf b with
      | error d => exact .none
      | ok bulk =>
        refine .some ⟨rfl, fun field => ?_⟩
        simp only [mem_insertMany_singleFields, hagree.names]

/-! ## Texts with tags that ask alike -/

/-- Both texts are tags, and when they open usages they ask alike. -/
structure TagsAlike (closing : Bool) (tag tag' : List Char) : Prop where
  left : IsTag closing tag
  right : IsTag closing tag'
  asks : closing = false → AsksAlike tag tag'

/-- The texts have the same tags up to the values of fields, with inert text around them. -/
inductive Alike : List Char → List Char → Prop
  | last {s s'} (inert : Inert s) (inert' : Inert s') : Alike s s'
  | tag {s s' closing tag tag' rest rest'} (inert : Inert s) (inert' : Inert s')
      (tags : TagsAlike closing tag tag') (next : Alike rest rest') :
      Alike (s ++ (tag ++ rest)) (s' ++ (tag' ++ rest'))

variable {s s' t t' : List Char}

theorem Inert.append_alike (hs : Inert s) (hs' : Inert s') (ht : Alike t t') :
    Alike (s ++ t) (s' ++ t') := by
  cases ht with
  | last inert inert' => exact .last (hs.append inert) (hs'.append inert')
  | tag inert inert' tags next =>
    rw [← List.append_assoc, ← List.append_assoc s']
    exact .tag (hs.append inert) (hs'.append inert') tags next

theorem Alike.append (hs : Alike s s') (ht : Alike t t') : Alike (s ++ t) (s' ++ t') := by
  induction hs with
  | last inert inert' => exact inert.append_alike inert' ht
  | tag inert inert' tags next ih =>
    simp only [List.append_assoc]
    exact .tag inert inert' tags ih

/-- No whole tag of a usage stands in the text: one that starts in it does not end. -/
def Tagless (s : List Char) : Prop :=
  ∀ closing mark, Tag.nextMark? tagName s = some (closing, mark) →
    Tag.afterEnd (.outside false) mark = none

/-- A search that comes to a text without whole tags ends in a defect, or without a pair when
no tag waits to be closed. -/
theorem Tagless.findFrom (h : Tagless s) (opened : Option (List Char × List Char)) :
    (∃ d, Tag.Pair.findFrom tagName opened s = .error d) ∨
      opened = none ∧ Tag.Pair.findFrom tagName opened s = .ok none := by
  cases hmark : Tag.nextMark? tagName s with
  | some found => exact .inl ⟨_, Tag.Pair.findFrom_of_unended hmark (h _ _ hmark)⟩
  | none =>
    rw [Tag.Pair.findFrom_of_none hmark]
    cases opened with
    | none => exact .inr ⟨rfl, rfl⟩
    | some o => exact .inl ⟨_, rfl⟩

end Usage

end Stencil
