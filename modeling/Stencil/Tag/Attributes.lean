import Stencil.Keyed

/-!
# Attributes of a tag

Names with values, in the order in which the names first appear. A repeated name
keeps its place and takes the new value: `get?_insert` and `names_insert` say what
an insertion does to the values and to the order.
-/

namespace Stencil.Tag

/-- Names with values, each name once. -/
structure Attributes where
  /-- The pairs of name and value in their order. -/
  entries : List (String × String)
  /-- No name appears twice. -/
  nodup : (entries.map Prod.fst).Nodup
  deriving DecidableEq, Repr

namespace Attributes

/-- No attributes. -/
def empty : Attributes := ⟨[], List.nodup_nil⟩

/-- The value of a name. -/
def get? (a : Attributes) (name : String) : Option String := a.entries.lookup name

/-- The names in their order. -/
def names (a : Attributes) : List String := a.entries.map Prod.fst

/-- The attributes with `value` for `name`. -/
def insert (a : Attributes) (name value : String) : Attributes :=
  ⟨Keyed.put name value a.entries, Keyed.nodup_put a.nodup name value⟩

/-- An insertion sets the value of its name and of no other. -/
theorem get?_insert (a : Attributes) (name value key : String) :
    (a.insert name value).get? key = if key = name then some value else a.get? key :=
  Keyed.lookup_put name value key a.entries

/-- An insertion keeps the order of the names and puts a new one last. -/
theorem names_insert (a : Attributes) (name value : String) :
    (a.insert name value).names = if name ∈ a.names then a.names else a.names ++ [name] :=
  Keyed.map_fst_put name value a.entries

end Attributes

end Stencil.Tag
