import Stencil.Keyed
import Stencil.Toml.Moment

/-!
# Values of a settings file

A settings file is a table of values, which may be tables again. `merge` lays one value
over another: two tables are merged key by key, and in every other case the value on
top replaces the one below. `Value.get?` looks along a path of keys.
-/

namespace Stencil.Toml

/-- A value of a settings file. The keys of a table differ. -/
inductive Value
  | text (s : String)
  | integer (n : Int)
  /-- Any other number, as it is written. -/
  | real (literal : String)
  | flag (b : Bool)
  | moment (m : Moment)
  | list (items : List Value)
  | table (entries : List (String × Value))
  deriving Inhabited

namespace Value

/-- The value that a path of keys leads to. -/
def get? : Value → List String → Option Value
  | v, [] => some v
  | .table entries, key :: path => (entries.lookup key).bind fun v => v.get? path
  | _, _ :: _ => none

mutual

/-- The value `base` with another laid over it. -/
def merge (base : Value) : Value → Value
  | .table overlay => match base with
    | .table entries => .table (mergeEntries entries overlay)
    | _ => .table overlay
  | overlay => overlay

/-- The entries of a table with those of another laid over them, one by one. -/
def mergeEntries (entries : List (String × Value)) :
    List (String × Value) → List (String × Value)
  | [] => entries
  | e :: overlay => mergeEntries (mergeEntry entries e) overlay

/-- The entries of a table with one more laid over them. -/
def mergeEntry (entries : List (String × Value)) : String × Value → List (String × Value)
  | (key, value) => Keyed.put key
      (match entries.lookup key with
        | some old => old.merge value
        | none => value)
      entries

end

end Value

end Stencil.Toml
