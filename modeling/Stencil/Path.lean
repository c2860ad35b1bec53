import Stencil.Text.Parts
import Stencil.Text.Suffix

/-!
# Paths

A path is kept as it was written and shown that way. Two paths are `Same` when their
components agree: repeated slashes, slashes at the end and inner `.` parts count for
nothing, while `..` and a `.` in front are kept. `steps` is the finer reading that a
walk through a tree of files follows.
-/

namespace Stencil

/-- One component of a path. -/
inductive Component
  /-- The slash an absolute path starts with. -/
  | root
  /-- The `.` a relative path starts with. -/
  | here
  /-- A `..` part. -/
  | up
  /-- A part that names a file or a directory. -/
  | name (n : String)
  deriving DecidableEq, Repr

/-- A component as it is shown. -/
def Component.text : Component → String
  | root => "/"
  | here => "."
  | up => ".."
  | name n => n

/-- A path as written, with slashes between its parts. -/
structure Path where
  text : String
  deriving DecidableEq, Repr

namespace Path

/-- Whether the path starts at the root. -/
def isAbsolute (p : Path) : Bool := p.text.toList.head? == some '/'

/-- One part between slashes as a component. -/
def component (part : List Char) : Component :=
  if part = ['.'] then .here
  else if part = ['.', '.'] then .up
  else .name (String.ofList part)

/-- The parts between the slashes that are not empty. -/
def parts (p : Path) : List Component :=
  ((Text.splitOn '/' p.text.toList).filter (· ≠ [])).map component

/-- The moves a walk along the path makes, in order. A slash at the end is a move to
the place itself, since only a directory may be written that way. -/
def steps (p : Path) : List Component :=
  (if p.isAbsolute then [.root] else []) ++ p.parts ++
    (if p.text.toList.getLast? = some '/' then [.here] else [])

/-- The components that make up the identity of the path. -/
def components (p : Path) : List Component :=
  if p.isAbsolute then .root :: p.parts.filter (· ≠ .here)
  else match p.parts with
    | [] => []
    | first :: rest => first :: rest.filter (· ≠ .here)

/-- Equality of paths, component by component. -/
def Same (p q : Path) : Prop := p.components = q.components

instance (p q : Path) : Decidable (Same p q) := inferInstanceAs (Decidable (_ = _))

theorem Same.refl (p : Path) : Same p p := rfl

theorem Same.symm {p q : Path} (h : Same p q) : Same q p := Eq.symm h

theorem Same.trans {p q r : Path} (h : Same p q) (h' : Same q r) : Same p r := Eq.trans h h'

/-- The path `rel` as seen from `base`: an absolute one stays, any other follows after
one slash. -/
def join (base rel : Path) : Path :=
  if rel.isAbsolute then rel
  else if base.text = "" then rel
  else if base.text.toList.getLast? = some '/' then ⟨base.text ++ rel.text⟩
  else ⟨base.text ++ "/" ++ rel.text⟩

/-- The relative path made of the given names. -/
def ofNames (names : List String) : Path := ⟨"/".intercalate names⟩

/-- The last component when it is a name. -/
def fileName? (p : Path) : Option String :=
  match p.components.getLast? with
  | some (.name n) => some n
  | _ => none

/-- The components joined by slashes. -/
def joined (p : Path) : String := "/".intercalate (p.components.map Component.text)

end Path

/-! ## Markup files -/

/-- The endings that make a file markup, the longer first. -/
def markupEndings : List String := [".html", ".htm"]

/-- What becomes of a file: markup is read and expanded, anything else is copied. -/
inductive FileKind
  | markup
  | asset
  deriving DecidableEq, Repr

/-- A path names a markup file when its last component ends like one. -/
def FileKind.ofPath (p : Path) : FileKind :=
  if markupEndings.any fun ending => ending.toList.isSuffixOf (p.fileName?.getD "").toList
  then .markup else .asset

/-- The name without its first matching ending. -/
def dropMarkupEnding (name : String) : String :=
  match markupEndings.find? fun ending => ending.toList.isSuffixOf name.toList with
  | some ending => String.ofList (Text.before name.toList ending.toList)
  | none => name

end Stencil
