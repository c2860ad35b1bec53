import Stencil.Proofs.Stages
import Stencil.Template.Fill

/-!
# The stages of filling a template

`Template.fill` resolves the field tags, lays the fillers out in the order of their places
and puts them into the text. `fill_eq` names the three stages.
-/

namespace Stencil.Template

/-- The names and the values of the field tags. -/
def resolveFields (t : Template) (fields : Fields) : Except Defect (List (String × String)) :=
  (Placeholder.occurrences fieldTag t.content.toList).mapM fun o => t.resolveField fields o.tag

/-- The field tags with what they stand for. -/
def fieldPlaces (t : Template) (resolved : List (String × String)) : List Substitution :=
  ((Placeholder.occurrences fieldTag t.content.toList).zip resolved).map
    fun p => .ofOccurrence p.1 p.2.2.toList

/-- All places to fill, the content slot among them. -/
def places (t : Template) (inner : List Char) (resolved : List (String × String)) :
    Except Defect (List Substitution) :=
  match Placeholder.occurrences contentTag t.content.toList with
  | [] => .ok (t.fieldPlaces resolved)
  | [slot] => .ok (Substitution.insert (.ofOccurrence slot inner) (t.fieldPlaces resolved))
  | _ => .error (.multipleContentSlots t.rel.text)

/-- The text with the places filled and the notes on the fields that no tag asked for. -/
def assemble (t : Template) (fields : Fields) (resolved : List (String × String))
    (places : List Substitution) : Except Defect Filling :=
  match Substitution.substitute? 0 t.content.toList places with
  | none => .error (.overlappingTags t.rel.text)
  | some text =>
    .ok ⟨text, (fields.keys.filter fun field =>
      !(resolved.map Prod.fst).contains field).map t.unusedWarning⟩

theorem fill_eq (t : Template) (fields : Fields) (inner : List Char) :
    t.fill fields inner = (do
      let resolved ← t.resolveFields fields
      let places ← t.places inner resolved
      t.assemble fields resolved places) := by
  rw [fill, ← resolveFields]
  refine bind_congr fun resolved => ?_
  rw [places]
  rcases Placeholder.occurrences contentTag t.content.toList with _ | ⟨slot, _ | ⟨slot', slots⟩⟩ <;>
    rfl

/-- A template that can be filled passes every stage. -/
theorem fill_eq_ok {t : Template} {fields : Fields} {inner : List Char} {filling : Filling} :
    t.fill fields inner = .ok filling ↔
      ∃ resolved places, t.resolveFields fields = .ok resolved ∧
        t.places inner resolved = .ok places ∧
        t.assemble fields resolved places = .ok filling := by
  rw [fill_eq, Stages.bind_eq_ok]
  constructor
  · rintro ⟨resolved, hresolved, h⟩
    obtain ⟨places, hplaces, h⟩ := Stages.bind_eq_ok.1 h
    exact ⟨resolved, places, hresolved, hplaces, h⟩
  · rintro ⟨resolved, places, hresolved, hplaces, h⟩
    exact ⟨resolved, hresolved, Stages.bind_eq_ok.2 ⟨places, hplaces, h⟩⟩

/-- What the places are when there is one content slot at most. -/
theorem places_eq_ok {t : Template} {inner : List Char} {resolved : List (String × String)}
    {places : List Substitution} (h : t.places inner resolved = .ok places) :
    (Placeholder.occurrences contentTag t.content.toList = [] ∧
      places = t.fieldPlaces resolved) ∨
    ∃ slot, Placeholder.occurrences contentTag t.content.toList = [slot] ∧
      places = Substitution.insert (.ofOccurrence slot inner) (t.fieldPlaces resolved) := by
  rw [Template.places] at h
  split at h
  · next hslots => cases h; exact .inl ⟨hslots, rfl⟩
  · next slot hslots => cases h; exact .inr ⟨slot, hslots, rfl⟩
  · cases h

/-- The text of a template whose places do not overlap. -/
theorem substitute?_of_assemble {t : Template} {fields : Fields}
    {resolved : List (String × String)} {places : List Substitution} {filling : Filling}
    (h : t.assemble fields resolved places = .ok filling) :
    Substitution.substitute? 0 t.content.toList places = some filling.text := by
  rw [assemble] at h
  split at h
  · cases h
  · next text htext => cases h; exact htext

end Stencil.Template
