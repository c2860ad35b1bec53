/-!
# Single arguments

What the shape of one argument says before anything is known about options: a word, an
option by its name, a run of option letters, or the separator after which every
argument is a word. A single `-` is a word.
-/

namespace Stencil.CommandLine

/-- One argument by its shape. -/
inductive Argument
  | word (text : String)
  /-- The argument `--`. -/
  | separator
  /-- An option by its name, with the value that follows an equals sign. -/
  | long (name : String) (value : Option String)
  /-- Options by their letters; the letters after one that takes a value are its value. -/
  | short (letters : List Char)
  deriving DecidableEq, Repr

namespace Argument

/-- The name of a long option and the value attached to it. -/
def ofLong (body : List Char) : Argument :=
  let name := String.ofList (body.takeWhile (· ≠ '='))
  match body.dropWhile (· ≠ '=') with
  | _ :: value => .long name (some (String.ofList value))
  | [] => .long name none

/-- The shape of an argument. -/
def ofText (arg : String) : Argument :=
  match arg.toList with
  | ['-', '-'] => .separator
  | '-' :: '-' :: body => ofLong body
  | '-' :: c :: letters => .short (c :: letters)
  | _ => .word arg

end Argument

end Stencil.CommandLine
