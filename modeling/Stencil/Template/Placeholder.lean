import Stencil.Tag.Opening

/-!
# Placeholders in a template

Inside a template `<--field …>` and `<--inner-html …>` mark places to be filled. Such a
tag stands on one line: spaces, names without dollar signs, values in double quotes
and an optional slash at the end. `occurrences` finds the tags of one name from left
to right, each after the end of the one before.
-/

namespace Stencil.Placeholder

/-- The assignments inside a placeholder: only spaces in the gaps, values on one
line. -/
def form : Tag.Assignment.Form where
  inName := Tag.inTagName
  inGap c := c == ' '
  inValue c := c != '"' && c != '\n' && c != '\r'

/-- What follows the placeholder, read from behind its tag name: assignments with
spaces in front of each, then `>` or `/>` after any spaces. -/
def afterName? (s : List Char) : Option (List Char) :=
  match _gap : s.dropWhile (· == ' ') with
  | '>' :: rest => some rest
  | '/' :: '>' :: rest => some rest
  | gap =>
    if s.head? = some ' ' then
      match _read : Tag.Assignment.read? form gap with
      | some (_, rest) => afterName? rest
      | none => none
    else none
termination_by s.length
decreasing_by
  have h := (List.dropWhile_suffix (l := s) (· == ' ')).length_le
  rw [_gap] at h
  exact Nat.lt_of_lt_of_le (Tag.Assignment.read?_suffix _read).2 h

/-- What follows the placeholder `name` that starts here, if one does. -/
def after? (name s : List Char) : Option (List Char) :=
  (Text.afterLead? ('<' :: name) s).bind afterName?

/-- A placeholder in a text. -/
structure Occurrence where
  /-- The number of characters in front of it. -/
  start : Nat
  /-- The tag itself. -/
  tag : List Char
  deriving DecidableEq, Repr

/-- The number of characters up to its end. -/
def Occurrence.stop (o : Occurrence) : Nat := o.start + o.tag.length

/-- The search behind `occurrences`: `skip` characters belong to the placeholder found
last, and `position` characters came before. -/
def occurrencesFrom (name : List Char) : (skip position : Nat) → List Char → List Occurrence
  | _, _, [] => []
  | skip + 1, position, _ :: s => occurrencesFrom name skip (position + 1) s
  | 0, position, c :: s =>
    match after? name (c :: s) with
    | some rest =>
      let tag := Text.before (c :: s) rest
      ⟨position, tag⟩ :: occurrencesFrom name (tag.length - 1) (position + 1) s
    | none => occurrencesFrom name 0 (position + 1) s

/-- The placeholders `name` in a text, from left to right and none inside another. -/
def occurrences (name text : List Char) : List Occurrence := occurrencesFrom name 0 0 text

end Stencil.Placeholder
