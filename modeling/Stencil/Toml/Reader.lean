import Stencil.Toml.Assembly
import Stencil.Toml.Lexical
import Stencil.Text.Suffix

/-!
# Reading a settings file

`Value.ofText?` reads a whole file: line by line into statements, and the statements into
one table. A value that holds others is read with a bound on the calls that may be open
at once. The length of the text is enough for it, since each call has a character of its
own: an opening or a closing bracket, or a comma.
-/

namespace Stencil.Toml

mutual

/-- A value; `depth` bounds how many calls may be open. -/
def value? : (depth : Nat) → Reader Value
  | 0, _ => none
  | depth + 1, s =>
    match s with
    | '[' :: s => (items? depth s).map fun (items, rest) => (.list items, rest)
    | '{' :: s =>
      match skipGap s with
      | '}' :: rest => some (.table [], rest)
      | s => (fields? depth .empty s).map fun (d, rest) => (d.finish, rest)
    | _ =>
      match s.head? with
      | none => none
      | some c =>
        if c = '"' ∨ c = '\'' then
          (string? s).map fun (text, rest) => (.text (String.ofList text), rest)
        else if c = 't' then (Text.afterLead? "true".toList s).map (.flag true, ·)
        else if c = 'f' then (Text.afterLead? "false".toList s).map (.flag false, ·)
        else match moment? s with
          | some (m, rest) => some (.moment m, rest)
          | none => number? s

/-- The items of a list, read from behind its bracket or a comma. A comma may stand after
the last item. -/
def items? : (depth : Nat) → Reader (List Value)
  | 0, _ => none
  | depth + 1, s =>
    match skipLines false s with
    | ']' :: rest => some ([], rest)
    | s => do
      let (v, s) ← value? depth s
      match skipLines false s with
      | ',' :: s => (items? depth s).map fun (items, rest) => (v :: items, rest)
      | ']' :: rest => some ([v], rest)
      | _ => none

/-- The assignments of a table on one line, read from behind its brace or a comma and
added to a table. No comma may stand after the last. -/
def fields? : (depth : Nat) → Draft → Reader Draft
  | 0, _, _ => none
  | depth + 1, d, s => do
    let ((path, key), s) ← key? s.length s
    let (v, s) ← value? depth (skipGap (← afterChar? '=' s))
    let d ← d.assign path key v
    match skipGap s with
    | ',' :: s => fields? depth d s
    | '}' :: rest => some (d, rest)
    | _ => none

end

/-- The statement at the start of a line and the text after its last character. -/
def statement? (s : List Char) : Option (Statement × List Char) :=
  match s with
  | '[' :: '[' :: s => do
    let ((path, key), s) ← key? s.length s
    let rest ← Text.afterLead? [']', ']'] s
    return (.element path key, rest)
  | '[' :: s => do
    let ((path, key), s) ← key? s.length s
    let rest ← afterChar? ']' s
    return (.table path key, rest)
  | s => do
    let ((path, key), s) ← key? s.length s
    let (v, rest) ← value? (s.length + 1) (skipGap (← afterChar? '=' s))
    return (.assign path key v, rest)

/-- The statements of a text, which has `lines` lines at most. -/
def statements? : (lines : Nat) → List Char → Option (List Statement)
  | 0, s => if s.isEmpty then some [] else none
  | lines + 1, s =>
    match skipGap s with
    | [] => some []
    | s =>
      match afterLine? s with
      | some rest => statements? lines rest
      | none => do
        let (statement, s) ← statement? s
        let rest ← statements? lines (← afterLine? s)
        return statement :: rest

/-- The table that a settings file holds; nothing when the text is malformed. -/
def Value.ofText? (text : String) : Option Value := do
  let s := (Text.afterLead? ['\uFEFF'] text.toList).getD text.toList
  Statement.assemble (← statements? (s.length + 1) s)

end Stencil.Toml
