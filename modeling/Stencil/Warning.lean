/-!
# Warnings

Findings that do not stop a run. They are collected and shown after it.
-/

namespace Stencil

/-- A finding, with the document it is about if there is one. -/
structure Warning where
  context : Option String
  message : String
  deriving DecidableEq, Repr

/-- A warning as it is shown. -/
def Warning.text (w : Warning) : String :=
  match w.context with
  | some context => "[ " ++ context ++ " ] " ++ w.message
  | none => w.message

end Stencil
