import Stencil.Defect
import Stencil.Tag.Assignment
import Stencil.Tag.Attributes
import Stencil.Text.Blank
import Stencil.Text.Word

/-!
# Reading an opening tag

An opening tag is `<`, a name, assignments, and `>` or `/>` at the very end. White
space may stand between any two of these except in front of the end mark's own
characters. `Attributes.ofTag` reads the assignments in order; anything else is an
invalid tag.
-/

namespace Stencil.Tag

/-- What the name of a tag consists of. -/
def inTagName (c : Char) : Bool := Text.isWord c || c == '-'

/-- The assignments of a tag: a name may also hold dollar signs, a value all but its
quote. -/
def attributeForm : Assignment.Form where
  inName c := c == '$' || inTagName c
  inGap := Text.isBlank
  inValue c := c != '"'

namespace Attributes

/-- Reads assignments up to the end of the tag into `sofar`. -/
def readAll? (sofar : Attributes) (s : List Char) : Option Attributes :=
  if s = ['>'] ∨ s = ['/', '>'] then some sofar
  else match _read : Assignment.read? attributeForm s with
    | none => none
    | some (a, rest) => readAll? (sofar.insert a.name a.value) (Text.trimStart rest)
termination_by s.length
decreasing_by
  exact Nat.lt_of_le_of_lt (Text.trimStart_suffix rest).length_le
    (Assignment.read?_suffix _read).2

/-- The attributes of a tag, when it is well formed. -/
def ofTag? : List Char → Option Attributes
  | '<' :: s =>
    let s := Text.trimStart s
    if (s.takeWhile inTagName).isEmpty then none
    else readAll? empty (Text.trimStart (s.dropWhile inTagName))
  | _ => none

/-- The attributes of an opening tag given as its whole text. -/
def ofTag (tag : List Char) : Except Defect Attributes :=
  match ofTag? tag with
  | some a => .ok a
  | none => .error (.invalidTag (String.ofList tag))

end Attributes

end Stencil.Tag
