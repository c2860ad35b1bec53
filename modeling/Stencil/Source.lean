import Stencil.FileTree.Resolve

/-!
# Source files

A source is a file below one of the roots of a run, with its path and the path below
its root. Text and time are read from the tree when they are first asked for; what was
read is kept in the source and never read again.
-/

namespace Stencil

/-- A file that could not be read. -/
structure ReadFailure where
  path : Path
  cause : IoFailure
  deriving DecidableEq, Repr

/-- The wording of a failure to read. -/
def ReadFailure.message (e : ReadFailure) : String :=
  "failed to read " ++ e.path.text ++ ": " ++ e.cause.message

/-- A file of a run. -/
structure Source where
  /-- Where the file is. -/
  path : Path
  /-- Where the file is below its root. -/
  rel : Path
  /-- The text, once it has been read. -/
  text? : Option String := none
  /-- The time, once it has been read. -/
  time? : Option Int := none
  deriving DecidableEq, Repr

namespace Source

/-- What becomes of the file, by the name it has below its root. -/
def kind (s : Source) : FileKind := .ofPath s.rel

/-- Whether the file is markup. -/
def isMarkup (s : Source) : Bool := s.kind == .markup

/-- The text of the file. -/
def text (s : Source) (t : FileTree) : Except ReadFailure String :=
  match s.text? with
  | some text => .ok text
  | none => (t.readText s.path).mapError (⟨s.path, ·⟩)

/-- The time of the file. -/
def time (s : Source) (t : FileTree) : Except ReadFailure Int :=
  match s.time? with
  | some time => .ok time
  | none => (t.time s.path).mapError (⟨s.path, ·⟩)

/-- The source with its text read. -/
def withText (s : Source) (t : FileTree) : Except ReadFailure Source :=
  (s.text t).map fun text => { s with text? := some text }

/-- The source with its time read. -/
def withTime (s : Source) (t : FileTree) : Except ReadFailure Source :=
  (s.time t).map fun time => { s with time? := some time }

/-- The name below the root alone makes a file markup. -/
theorem isMarkup_congr {s s' : Source} (h : s.rel = s'.rel) : s.isMarkup = s'.isMarkup := by
  rw [isMarkup, isMarkup, kind, kind, h]

theorem text_of_text? {s : Source} {text : String} (h : s.text? = some text) (t : FileTree) :
    s.text t = .ok text := by
  unfold Source.text
  rw [h]

end Source

end Stencil
