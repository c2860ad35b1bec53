import Stencil.Template
import Stencil.Template.Placeholder

/-!
# Filling a template

Every field tag of a template takes the value of its field, or its own default, and
the content slot takes the content of the usage. All places are filled at once:
`substitute` copies the text between them and never looks at what it puts in.
-/

namespace Stencil

/-- A text to be put in place of some characters. -/
structure Substitution where
  /-- The number of characters in front of the place. -/
  start : Nat
  /-- The number of characters up to its end. -/
  stop : Nat
  /-- What to put there. -/
  filler : List Char
  deriving DecidableEq, Repr

namespace Substitution

/-- The place of a placeholder with its filler. -/
def ofOccurrence (o : Placeholder.Occurrence) (filler : List Char) : Substitution :=
  ⟨o.start, o.stop, filler⟩

/-- Puts a substitution in front of the first that starts later. -/
def insert (s : Substitution) : List Substitution → List Substitution
  | [] => [s]
  | t :: ts => if s.start < t.start then s :: t :: ts else t :: insert s ts

/-- The text from character `position` on with every place filled; nothing when a place
starts before the end of the one before it. -/
def substitute? (position : Nat) (text : List Char) : List Substitution → Option (List Char)
  | [] => some text
  | s :: rest =>
    if s.start < position then none
    else
      (substitute? s.stop (text.drop (s.stop - position)) rest).map fun tail =>
        text.take (s.start - position) ++ s.filler ++ tail

end Substitution

namespace Template

/-- The void tag that stands for a field. -/
def fieldTag : List Char := "--field".toList

/-- The void tag that stands for the content of the usage. -/
def contentTag : List Char := "--inner-html".toList

/-- The attribute that names a field or, on a usage, the template. -/
def nameAttribute : String := "--name"

/-- The attribute with the value of a field that the usage leaves out. -/
def defaultAttribute : String := "--default"

/-- The name and the value of the field that a field tag stands for. -/
def resolveField (t : Template) (fields : Fields) (tag : List Char) :
    Except Defect (String × String) := do
  let attributes ← Tag.Attributes.ofTag tag
  match attributes.get? nameAttribute with
  | none => .error (.fieldMissingName t.rel.text)
  | some name =>
    match fields[name]?, attributes.get? defaultAttribute with
    | some value, _ => .ok (name, value)
    | none, some value => .ok (name, value)
    | none, none => .error (.fieldRequired t.rel.text name)

/-- What a filled template comes to. -/
structure Filling where
  text : List Char
  /-- One note for each field that the template does not have. -/
  warnings : List String
  deriving DecidableEq, Repr

/-- The note on a field that no tag of the template asked for. -/
def unusedWarning (t : Template) (field : String) : String :=
  "template " ++ t.rel.text ++ ": field " ++ field ++ " not used"

/-- The template with its fields and its content slot filled. The first field tag
without a name or a value decides the defect; after the fields there may be one slot
at most, and it may not share text with a field tag. -/
def fill (t : Template) (fields : Fields) (inner : List Char) : Except Defect Filling := do
  let text := t.content.toList
  let tags := Placeholder.occurrences fieldTag text
  let resolved ← tags.mapM fun o => t.resolveField fields o.tag
  let places := (tags.zip resolved).map fun (o, field) => .ofOccurrence o field.2.toList
  let places ← match Placeholder.occurrences contentTag text with
    | [] => .ok places
    | [slot] => .ok (Substitution.insert (.ofOccurrence slot inner) places)
    | _ => .error (.multipleContentSlots t.rel.text)
  match Substitution.substitute? 0 text places with
  | none => .error (.overlappingTags t.rel.text)
  | some filled =>
    let unused := fields.keys.filter fun field => !(resolved.map Prod.fst).contains field
    .ok ⟨filled, unused.map t.unusedWarning⟩

end Template

end Stencil
