import Std.Data.ExtTreeMap
import Stencil.Source

/-!
# Templates

A template is a markup file that usages refer to by name. Its name is its relative
path with slashes between the components and without the markup ending. It keeps its
file as a source, so a time that was read of the file is not read again.
-/

namespace Stencil

/-- The values a usage gives to the fields of its template, by field name. -/
abbrev Fields := Std.ExtTreeMap String String

/-- A template that has been read. -/
structure Template where
  /-- What usages call it. -/
  name : String
  /-- The file that holds it. -/
  source : Source
  /-- The text of the file. -/
  content : String
  deriving DecidableEq, Repr

/-- The templates of a run by name. -/
abbrev Templates := Std.ExtTreeMap String Template

namespace Template

/-- The name of the template at a relative path. -/
def nameOf (rel : Path) : String := dropMarkupEnding rel.joined

/-- Where the file of the template is. -/
def path (t : Template) : Path := t.source.path

/-- Where the file is below the template root; defects and warnings show this. -/
def rel (t : Template) : Path := t.source.rel

/-- The template that a file holds once its text has been read. -/
def ofSource (s : Source) (content : String) : Template :=
  ⟨nameOf s.rel, { s with text? := some content }, content⟩

@[simp] theorem name_ofSource (s : Source) (content : String) :
    (ofSource s content).name = nameOf s.rel := rfl

@[simp] theorem path_ofSource (s : Source) (content : String) :
    (ofSource s content).path = s.path := rfl

/-- The template in a file of which nothing but the text has been read. -/
def ofFile (path rel : Path) (content : String) : Template :=
  ofSource ⟨path, rel, none, none⟩ content

end Template

end Stencil
