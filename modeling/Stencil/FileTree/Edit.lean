import Stencil.FileTree.Resolve

/-!
# Changes to a tree of files

Making directories, writing and copying files, and the smaller changes: links, times
and removal. A change that can fail half way, as `makeDirectories` can, returns the
tree it left behind together with the failure.
-/

namespace Stencil.FileTree

/-! ## Directories -/

/-- Makes the directory `last` in the directory that `up` leads to. -/
def makeDirectory (t : FileTree) (time : Int) (up : List Component) (last : Component) :
    Except IoFailure FileTree := do
  let place ← t.walk false linkLimit t.home up
  if t.IsDirectory place then
    match last with
    | .name n =>
      if (t.nodes[place ++ [n]]?).isSome then .error .alreadyExists
      else if h : t.Admits (place ++ [n]) then .ok (t.put _ (.directory time) h)
      else .error .notFound
    | _ => .error .alreadyExists
  else .error .notDirectory

/-- Whether the steps lead to a directory. -/
def leadsToDirectory (t : FileTree) (steps : List Component) : Bool :=
  match t.walk false linkLimit t.home steps with
  | .ok place => decide (t.IsDirectory place)
  | .error _ => false

/-- Makes a directory and those above it that are missing; the path is given from its
last component to its first. A directory that exists already is no failure. -/
def makeDirectories (time : Int) : List Component → FileTree → FileTree × Except IoFailure Unit
  | [], t => (t, .ok ())
  | last :: up, t =>
    let settle (u : FileTree) (e : IoFailure) : FileTree × Except IoFailure Unit :=
      (u, if u.leadsToDirectory (up.reverse ++ [last]) then .ok () else .error e)
    match t.makeDirectory time up.reverse last with
    | .ok u => (u, .ok ())
    | .error .notFound =>
      match makeDirectories time up t with
      | (u, .error e) => (u, .error e)
      | (u, .ok ()) =>
        match u.makeDirectory time up.reverse last with
        | .ok v => (v, .ok ())
        | .error e => settle u e
    | .error e => settle t e

/-- Makes the directory of a path and those above it. -/
def makePath (t : FileTree) (time : Int) (p : Path) : FileTree × Except IoFailure Unit :=
  makeDirectories time p.components.reverse t

/-- Makes the directory that the path stands in and those above it. -/
def makeParents (t : FileTree) (time : Int) (p : Path) : FileTree × Except IoFailure Unit :=
  makeDirectories time p.components.reverse.tail t

/-! ## Files -/

/-- Puts a file with this content where the path leads, in place of a file there. -/
def writeFile (t : FileTree) (p : Path) (content : ByteArray) (time : Int) :
    Except IoFailure FileTree := do
  let place ← t.locateNew p
  if h : t.Admits place then .ok (t.put place (.file content time) h) else .error .isDirectory

/-- Copies the content of one file to another. The target is emptied before the source
is read, so a file copied to itself ends up empty. -/
def copyFile (t : FileTree) (source target : Path) (time : Int) : Except IoFailure FileTree := do
  let origin ← t.locate source
  match t.nodes[origin]? with
  | some (.file content _) =>
    let place ← t.locateNew target
    if h : t.Admits place then
      .ok (t.put place (.file (if origin = place then ByteArray.empty else content) time) h)
    else .error .isDirectory
  | _ => .error .notFile

/-! ## Entries -/

/-- The place a path names, without following a link that stands there. -/
def entry (t : FileTree) (p : Path) : Except IoFailure Place :=
  match p.components.reverse with
  | .name n :: up => (t.walk false linkLimit t.home up.reverse).map (· ++ [n])
  | _ => t.locate p

/-- Takes away what stands at the path, a link itself and a directory with all in it. -/
def delete (t : FileTree) (p : Path) : Except IoFailure FileTree := do
  let place ← t.entry p
  if (t.nodes[place]?).isNone then .error .notFound
  else if h : place ≠ [] then .ok (t.remove place h)
  else .error .isDirectory

/-- Puts a link to `target` at a free place. -/
def makeLink (t : FileTree) (p target : Path) : Except IoFailure FileTree := do
  let place ← t.entry p
  if (t.nodes[place]?).isSome then .error .alreadyExists
  else if h : t.Admits place then .ok (t.put place (.link target) h)
  else .error .notFound

/-- Gives what the path leads to another time. -/
def touch (t : FileTree) (p : Path) (time : Int) : Except IoFailure FileTree := do
  return t.stamp (← t.locate p) time

end Stencil.FileTree
