import Stencil.Tag.Opening
import Stencil.Template.Fill
import Stencil.Text.Parts

/-!
# Usages of templates

The opening tag of a usage names a template and gives values to its fields: one by one
with a dollar sign in front of the name, or in bulk as `name: value; name: value`. The
single values come after the bulk and win over it.
-/

namespace Stencil

/-- The template a usage asks for and the fields it gives. -/
structure Usage where
  name : String
  fields : Fields

namespace Usage

/-- The paired tag of a usage. -/
def tagName : List Char := "--template".toList

/-- The attribute with the bulk list. -/
def fieldsAttribute : String := "--fields"

/-- One part of a bulk list: a name and a value with a colon between them. -/
def bulkField (part : List Char) : Except Defect (String × String) :=
  match Text.splitOn ':' part with
  | [name, value] => .ok (String.ofList (Text.trim name), String.ofList (Text.trim value))
  | _ => .error (.invalidField (String.ofList part))

/-- The pairs of a bulk list in their order. -/
def bulkFields (bulk : List Char) : Except Defect (List (String × String)) :=
  (Text.splitOn ';' bulk).mapM bulkField

/-- The field that an attribute of this name gives a value to, if it does. -/
def fieldNamedBy? (name : String) : Option String :=
  (Text.afterLead? ['$'] name.toList).map String.ofList

/-- The single fields among the attributes, in their order. -/
def singleFields (attributes : Tag.Attributes) : List (String × String) :=
  attributes.entries.filterMap fun e => (fieldNamedBy? e.1).map fun field => (field, e.2)

/-- The bulk fields among the attributes; an empty list has none. -/
def bulkOf (attributes : Tag.Attributes) : Except Defect (List (String × String)) :=
  match attributes.get? fieldsAttribute with
  | none => .ok []
  | some bulk => if bulk = "" then .ok [] else bulkFields bulk.toList

/-- The usage that an opening tag states. -/
def ofTag (tag : List Char) : Except Defect Usage := do
  let attributes ← Tag.Attributes.ofTag tag
  match attributes.get? Template.nameAttribute with
  | none => .error .missingTemplateName
  | some name =>
    let bulk ← bulkOf attributes
    return ⟨name, (∅ : Fields).insertMany (bulk ++ singleFields attributes)⟩

end Usage

end Stencil
