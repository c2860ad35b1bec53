import Std.Data.ExtTreeSet
import Stencil.Tag.Pair
import Stencil.Usage

/-!
# Expansion of a document

Expansion takes the innermost first usage, puts the filled template in its place and
starts over with the new text, until no usage is left or the limit is reached.
`templateNames` looks at a document without expanding it: it notes the name of each
usage and takes its tags away, so that it meets every usage at every depth.
-/

namespace Stencil

/-- A document with every usage resolved. -/
structure Expansion where
  text : String
  /-- Notes on fields that the templates do not have, in the order of the usages. -/
  warnings : List String
  /-- The number of usages resolved. -/
  resolved : Nat
  deriving DecidableEq, Repr

namespace Expansion

/-- Usages resolved in one document unless another limit is set. -/
def defaultLimit : Nat := 10000

/-- What the usage with these tags and this content comes to. -/
def fillUsage (templates : Templates) (p : Tag.Pair) : Except Defect Template.Filling := do
  let usage ← Usage.ofTag p.openingTag
  match templates[usage.name]? with
  | none => .error (.unknownTemplate usage.name)
  | some template => template.fill usage.fields p.inner

/-- Resolves the usages of `text` while `left` more may be resolved of `limit` in all. -/
def resolve (templates : Templates) (limit : Nat) :
    (left : Nat) → (text : List Char) → Except Defect Expansion
  | left, text => do
    match ← Tag.Pair.find? Usage.tagName text with
    | none => return ⟨String.ofList text, [], 0⟩
    | some p =>
      match left with
      | 0 => .error (.expansionLimit limit)
      | left + 1 =>
        let filling ← fillUsage templates p
        let rest ← resolve templates limit left (p.splice text filling.text)
        return { rest with
          warnings := filling.warnings ++ rest.warnings
          resolved := rest.resolved + 1 }

end Expansion

/-- The document with every usage resolved, of which there may be `limit`. -/
def expand (templates : Templates) (limit : Nat) (document : String) : Except Defect Expansion :=
  Expansion.resolve templates limit limit document.toList

/-- The names of the usages of a text and of `sofar`. -/
def templateNamesFrom (sofar : Std.ExtTreeSet String) (text : List Char) :
    Except Defect (Std.ExtTreeSet String) :=
  match _found : Tag.Pair.find? Usage.tagName text with
  | .error d => .error d
  | .ok none => .ok sofar
  | .ok (some p) =>
    match Usage.ofTag p.openingTag with
    | .error d => .error d
    | .ok usage => templateNamesFrom (sofar.insert usage.name) (p.unwrap text)
termination_by text.length
decreasing_by exact (Tag.Pair.within_of_find? _found).length_unwrap

/-- The names of all templates that a document uses, at any depth. -/
def templateNames (document : String) : Except Defect (Std.ExtTreeSet String) :=
  templateNamesFrom ∅ document.toList

end Stencil
