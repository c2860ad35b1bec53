import Stencil.Source

/-!
# The files below a root

`findFiles` lists the files below a directory in the order of a walk that takes the
entries of each directory by name and goes down at once. Links count as what they lead
to. A link to a directory that the walk is inside of would never end, so it is
reported, as is a link that leads nowhere.
-/

namespace Stencil

/-- Why a directory could not be walked. -/
inductive WalkFailure
  /-- What stands at the path cannot be looked at. -/
  | unreadable (path : Path) (cause : IoFailure)
  /-- The link leads back to a directory that the walk is inside of. -/
  | loop (path ancestor : Path)
  deriving DecidableEq, Repr

/-- Why the files of a run could not be listed or read. -/
inductive ScanFailure
  | walk (failure : WalkFailure)
  | read (failure : ReadFailure)
  deriving DecidableEq, Repr

/-- The wording of a failure to walk. -/
def WalkFailure.message : WalkFailure → String
  | unreadable path cause => "IO error for operation on " ++ path.text ++ ": " ++ cause.message
  | loop path ancestor =>
    "File system loop found: " ++ path.text ++ " points to an ancestor " ++ ancestor.text

/-- The wording of a failure to list or read files. -/
def ScanFailure.message : ScanFailure → String
  | walk failure => "failed to walk directory: " ++ failure.message
  | read failure => failure.message

namespace FileTree

/-- The entries of a directory by name. -/
def children (t : FileTree) (place : Place) : List (String × Node) :=
  t.nodes.toList.filterMap fun (q, node) =>
    if q ≠ [] ∧ q.dropLast = place then q.getLast?.map (·, node) else none

/-- A directory a walk is inside of: where it is and the path the walk took to it. -/
structure Station where
  place : Place
  path : Path
  deriving DecidableEq, Repr

/-- The files below the directory `here`, which the walk reached through the directories
`above` and by the names `names`. -/
def filesBelow (t : FileTree) : (depth : Nat) → (above : List Station) → (here : Station) →
    (names : List String) → Except WalkFailure (List Source)
  | 0, _, here, _ => .error (.unreadable here.path .tooManyLinks)
  | depth + 1, above, here, names => do
    let above := here :: above
    let found ← (t.children here.place).mapM fun (name, node) => do
      let path := here.path.join ⟨name⟩
      let names := names ++ [name]
      match node with
      | .file .. => return [⟨path, .ofNames names, none, none⟩]
      | .directory _ => filesBelow t depth above ⟨here.place ++ [name], path⟩ names
      | .link _ =>
        match t.locate path with
        | .error cause => .error (.unreadable path cause)
        | .ok place =>
          if t.IsDirectory place then
            match above.find? (·.place = place) with
            | some station => .error (.loop path station.path)
            | none => filesBelow t depth above ⟨place, path⟩ names
          else return [⟨path, .ofNames names, none, none⟩]
    return found.flatten

/-- A walk enters each directory by a link once at most and goes down from it no deeper
than the tree is, so it is never deeper than this. -/
def depthLimit (t : FileTree) : Nat := (t.nodes.size + 2) * (t.nodes.size + 2)

end FileTree

/-- The files below a root in the order of the walk; none when no directory is there. -/
def findFiles (t : FileTree) (root : Path) : Except WalkFailure (List Source) :=
  match t.locate root with
  | .error _ => .ok []
  | .ok place =>
    if t.IsDirectory place then t.filesBelow t.depthLimit [] ⟨place, root⟩ [] else .ok []

/-- All files of one run. -/
structure Inventory where
  docs : List Source
  templates : List Source
  built : List Source
  deriving DecidableEq, Repr

/-- The files below the three roots. -/
def Inventory.scan (t : FileTree) (docs templates output : Path) :
    Except WalkFailure Inventory := do
  return ⟨← findFiles t docs, ← findFiles t templates, ← findFiles t output⟩

end Stencil
