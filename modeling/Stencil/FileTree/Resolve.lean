import Stencil.FileTree

/-!
# From paths to places

`locate` follows a path through the tree, and through links, to the place it means.
A walk may pass `linkLimit` links, which bounds it whatever the links point at. What
can be read at the place is here too: bytes, text and times.
-/

namespace Stencil

/-- Why something could not be read from the tree or written to it. -/
inductive IoFailure
  | notFound
  | alreadyExists
  | notDirectory
  | isDirectory
  | tooManyLinks
  /-- The bytes are not UTF-8. -/
  | notText
  /-- Only a file can be copied. -/
  | notFile
  /-- Any other failure, in the words of the system. -/
  | other (wording : String)
  deriving DecidableEq, Repr

/-- The number the operating system gives to a failure, if it is one of its own. -/
def IoFailure.code? : IoFailure → Option Nat
  | notFound => some 2
  | alreadyExists => some 17
  | notDirectory => some 20
  | isDirectory => some 21
  | tooManyLinks => some 40
  | notText | notFile | other _ => none

/-- The wording of a failure without its number. -/
def IoFailure.cause : IoFailure → String
  | notFound => "No such file or directory"
  | alreadyExists => "File exists"
  | notDirectory => "Not a directory"
  | isDirectory => "Is a directory"
  | tooManyLinks => "Too many levels of symbolic links"
  | notText => "stream did not contain valid UTF-8"
  | notFile => "the source path is neither a regular file nor a symlink to a regular file"
  | other wording => wording

/-- The wording of a failure. -/
def IoFailure.message (e : IoFailure) : String :=
  match e.code? with
  | some code => e.cause ++ " (os error " ++ toString code ++ ")"
  | none => e.cause

namespace FileTree

/-- The links one walk may pass. -/
def linkLimit : Nat := 40

/-- Follows `steps` from a place. At a link the walk goes on as `onLink` says, given the
directory of the link, its target and the steps that remain. With `new` the last step
may name something that does not exist yet. -/
def walkWith (t : FileTree) (new : Bool)
    (onLink : Place → Path → List Component → Except IoFailure Place) :
    Place → List Component → Except IoFailure Place
  | place, [] => .ok place
  | place, step :: steps =>
    if t.IsDirectory place then
      match step with
      | .root => walkWith t new onLink [] steps
      | .here => walkWith t new onLink place steps
      | .up => walkWith t new onLink place.dropLast steps
      | .name n =>
        match t.nodes[place ++ [n]]? with
        | none => if new && steps.isEmpty then .ok (place ++ [n]) else .error .notFound
        | some (.link target) => onLink place target steps
        | some _ => walkWith t new onLink (place ++ [n]) steps
    else .error .notDirectory

/-- Follows `steps` from a place and passes `links` links at most. -/
def walk (t : FileTree) (new : Bool) : (links : Nat) → Place → List Component →
    Except IoFailure Place
  | 0 => walkWith t new fun _ _ _ => .error .tooManyLinks
  | links + 1 => walkWith t new fun place target steps =>
      walk t new links place (target.steps ++ steps)

/-- The place a path means; whatever is there exists. -/
def locate (t : FileTree) (p : Path) : Except IoFailure Place :=
  if p.text = "" then .error .notFound else t.walk false linkLimit t.home p.steps

/-- The place a path means, which may be free. -/
def locateNew (t : FileTree) (p : Path) : Except IoFailure Place :=
  if p.text = "" then .error .notFound else t.walk true linkLimit t.home p.steps

/-- The node a path leads to. -/
def node? (t : FileTree) (p : Path) : Except IoFailure Node := do
  match t.nodes[← t.locate p]? with
  | some node => return node
  | none => .error .notFound

/-- Whether the path leads to anything. -/
def pathExists (t : FileTree) (p : Path) : Bool :=
  match t.node? p with
  | .ok _ => true
  | .error _ => false

/-- Whether the path leads to a file. -/
def isFile (t : FileTree) (p : Path) : Bool :=
  match t.node? p with
  | .ok (.file ..) => true
  | _ => false

/-- Whether the path leads to a directory. -/
def isDirectory (t : FileTree) (p : Path) : Bool :=
  match t.node? p with
  | .ok (.directory _) => true
  | _ => false

/-- The bytes of the file the path leads to. -/
def readBytes (t : FileTree) (p : Path) : Except IoFailure ByteArray := do
  match ← t.node? p with
  | .file content _ => return content
  | .directory _ => .error .isDirectory
  | .link _ => .error .tooManyLinks

/-- The text of the file the path leads to. -/
def readText (t : FileTree) (p : Path) : Except IoFailure String := do
  match String.fromUTF8? (← t.readBytes p) with
  | some text => return text
  | none => .error .notText

/-- The time of what the path leads to. -/
def time (t : FileTree) (p : Path) : Except IoFailure Int := do
  match ← t.node? p with
  | .file _ time | .directory time => return time
  | .link _ => .error .tooManyLinks

end FileTree

end Stencil
