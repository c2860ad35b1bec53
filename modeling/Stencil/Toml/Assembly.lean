import Stencil.Toml.Value

/-!
# Putting a settings file together

The statements of a settings file build up one table. Each table below it remembers how
it came to be, because that decides what may still be added to it: a header may open a
table once, unless the table only exists because a longer header went through it, and
a dotted key may not reach into a table that a header opened.
-/

namespace Stencil.Toml

/-- How a table came to be. -/
inductive Origin
  /-- By a header of its own. -/
  | header
  /-- On the way of a longer header. -/
  | passing
  /-- On the way of a dotted key. -/
  | dotted
  deriving DecidableEq, Repr

/-- What stands under a key while the file is read. -/
inductive Item
  /-- A value that was given whole. -/
  | value (v : Value)
  | table (origin : Origin) (entries : List (String × Item))
  /-- The tables that headers in double brackets opened. -/
  | tables (elements : List (List (String × Item)))

/-- A table while the file is read. -/
structure Draft where
  origin : Origin
  entries : List (String × Item)

namespace Draft

/-- The file before its first statement. -/
def empty : Draft := ⟨.header, []⟩

/-- Changes the table that a path of keys leads to. Tables that are missing on the way
are made with the given origin; of several tables under one key the last is meant. -/
def update (way : Origin) : (path : List String) → (change : Draft → Option Draft) →
    Draft → Option Draft
  | [], change, d => change d
  | key :: path, change, d =>
    match d.entries.lookup key with
    | none => do
      let child ← update way path change ⟨way, []⟩
      return { d with entries := Keyed.put key (.table child.origin child.entries) d.entries }
    | some (.value _) => none
    | some (.table origin entries) =>
      if way = .dotted ∧ origin = .header then none
      else do
        let child ← update way path change ⟨origin, entries⟩
        return { d with entries := Keyed.put key (.table child.origin child.entries) d.entries }
    | some (.tables elements) => do
      let last ← elements.getLast?
      let child ← update way path change ⟨.header, last⟩
      return { d with
        entries := Keyed.put key (.tables (elements.dropLast ++ [child.entries])) d.entries }

/-- Gives a key a value, once. After a dotted path the table must be one that dotted keys
made. -/
def assign (path : List String) (key : String) (v : Value) : Draft → Option Draft :=
  update .dotted path fun d =>
    if (d.origin == .dotted) == path.isEmpty then none
    else match d.entries.lookup key with
      | none => some { d with entries := Keyed.put key (.value v) d.entries }
      | some _ => none

/-- Opens the table `key` below the given path. -/
def openTable (path : List String) (key : String) : Draft → Option Draft :=
  update .passing path fun d =>
    match d.entries.lookup key with
    | none => some { d with entries := Keyed.put key (.table .header []) d.entries }
    | some (.table .passing entries) =>
      some { d with entries := Keyed.put key (.table .header entries) d.entries }
    | some _ => none

/-- Opens one more table under `key` below the given path. -/
def openElement (path : List String) (key : String) : Draft → Option Draft :=
  update .passing path fun d =>
    match d.entries.lookup key with
    | none => some { d with entries := Keyed.put key (.tables [[]]) d.entries }
    | some (.tables elements) =>
      some { d with entries := Keyed.put key (.tables (elements ++ [[]])) d.entries }
    | some _ => none

end Draft

/-! ## The finished value -/

mutual

/-- What stands under a key, as a value. -/
def Item.finish : Item → Value
  | .value v => v
  | .table _ entries => .table (finishEntries entries)
  | .tables elements => .list (finishElements elements)

/-- The entries of a table as values. -/
def Item.finishEntries : List (String × Item) → List (String × Value)
  | [] => []
  | e :: entries => Item.finishEntry e :: Item.finishEntries entries

/-- One entry of a table as a value. -/
def Item.finishEntry : String × Item → String × Value
  | (key, item) => (key, item.finish)

/-- Tables under one key as values. -/
def Item.finishElements : List (List (String × Item)) → List Value
  | [] => []
  | entries :: elements => .table (Item.finishEntries entries) :: Item.finishElements elements

end

/-- The finished table as a value. -/
def Draft.finish (d : Draft) : Value := .table (Item.finishEntries d.entries)

/-! ## Statements -/

/-- One line of a settings file. -/
inductive Statement
  /-- A header `[path.key]`. -/
  | table (path : List String) (key : String)
  /-- A header `[[path.key]]`. -/
  | element (path : List String) (key : String)
  /-- An assignment `path.key = value`. -/
  | assign (path : List String) (key : String) (value : Value)

namespace Statement

/-- Builds the table from the statements in order. Assignments go to the table that the
last header opened, whose path is `place`. -/
def run (place : List String) (d : Draft) : List Statement → Option Draft
  | [] => some d
  | .table path key :: rest => do run (path ++ [key]) (← d.openTable path key) rest
  | .element path key :: rest => do run (path ++ [key]) (← d.openElement path key) rest
  | .assign path key v :: rest => do
    run place (← d.update .passing place (Draft.assign path key v)) rest

/-- The value that the statements of a file make up. -/
def assemble (statements : List Statement) : Option Value :=
  (run [] .empty statements).map Draft.finish

end Statement

end Stencil.Toml
