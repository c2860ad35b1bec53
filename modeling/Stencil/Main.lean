import Stencil.CommandLine.Response

/-!
# The program

Takes a picture of the files that a command line speaks of, answers the command line on
the picture, and writes what has changed back to the disk.
-/

namespace Stencil

/-- A picture of a part of the disk. -/
structure Picture where
  tree : FileTree
  /-- The directories that have been taken whole. -/
  whole : List Place

namespace Picture

/-- The picture with one more node. -/
def put (pic : Picture) (place : Place) (node : Node) : Picture :=
  if h : pic.tree.Admits place then { pic with tree := pic.tree.put place node h } else pic

/-- The picture with the directories on the way to a place. -/
def bare (pic : Picture) (place : Place) : Picture :=
  (List.range place.length).foldl (fun pic i => pic.put (place.take (i + 1)) (.directory 0)) pic

end Picture

/-- The directory entry for a place. -/
def diskEntry (place : Place) : IO.FS.DirEntry :=
  ⟨"/" ++ "/".intercalate place.dropLast, place.getLast?.getD ""⟩

/-- The place of an absolute path without links. -/
def placeOf (path : String) : Place := (path.splitOn "/").filter (· ≠ "")

/-- The place that stands for what a link leads to. -/
def linkEnd (place : Place) : IO (Option Place) := do
  match ← (IO.FS.realPath (diskEntry place).path).toBaseIO with
  | .ok real => return some (placeOf real.toString)
  | .error _ => return none

/-- The target that a link has in the picture. A link that leads nowhere stays so. -/
def linkTarget : Option Place → Path
  | some place => ⟨"/" ++ "/".intercalate place⟩
  | none => ⟨"/\x00"⟩

/-- Adds what stands at a place with all below it. -/
partial def takeWhole (pic : Picture) (place : Place) : IO Picture := do
  let path := (diskEntry place).path
  match ← path.symlinkMetadata.toBaseIO with
  | .error _ => return pic
  | .ok known =>
    let time : Int := known.modified.sec * 1000000000 + known.modified.nsec.toNat
    match known.type with
    | .file => return pic.put place (.file (← IO.FS.readBinFile path) time)
    | .dir =>
      if pic.whole.contains place then return pic
      let mut pic := { pic.put place (.directory time) with whole := place :: pic.whole }
      for e in ← path.readDir do
        pic ← takeWhole pic (place ++ [e.fileName])
      return pic
    | .symlink =>
      let goal ← linkEnd place
      let pic := pic.put place (.link (linkTarget goal))
      match goal with
      | some goal => takeWhole (pic.bare goal.dropLast) goal
      | none => return pic
    | .other => return pic

/-- Adds what a path leads to, seen from a place, with the way there. -/
partial def takePath (pic : Picture) (place : Place) : List Component → IO Picture
  | [] => takeWhole pic place
  | .root :: steps => takePath pic [] steps
  | .here :: steps => takePath pic place steps
  | .up :: steps => takePath pic place.dropLast steps
  | .name n :: steps => do
    let place := place ++ [n]
    match ← (diskEntry place).path.symlinkMetadata.toBaseIO with
    | .error _ => return pic
    | .ok known => match known.type with
      | .symlink =>
        let goal ← linkEnd place
        let pic := pic.put place (.link (linkTarget goal))
        match goal with
        | some goal => takePath (pic.bare goal.dropLast) goal steps
        | none => return pic
      | .dir => takePath (pic.put place (.directory 0)) place steps
      | _ => takeWhole pic place

/-- A picture of the files that a command line speaks of. -/
def picture (args : List String) : IO FileTree := do
  let home := placeOf (← IO.FS.realPath (← IO.currentDir)).toString
  let mut pic : Picture := ⟨.empty, []⟩
  pic := pic.bare home
  pic := { pic with tree := { pic.tree with home := home } }
  let .ok i := CommandLine.parse args | return pic.tree
  pic ← takePath pic home ((i.given.get? .config).getD Settings.fileName).steps
  let .ok s := i.settings pic.tree | return pic.tree
  for root in [s.docs, s.templates, s.output] do
    pic ← takePath pic home root.steps
  return pic.tree

/-- The latest time in a tree. -/
def latestTime (t : FileTree) : Int :=
  t.nodes.toList.foldl (fun latest (_, node) => match node with
    | .file _ time | .directory time => max latest time
    | .link _ => latest) 0

/-- Writes to the disk what is new in a tree. -/
def store (old new : FileTree) : IO Unit := do
  for (place, node) in new.nodes.toList do
    if old.nodes[place]? ≠ some node then
      match node with
      | .directory _ => IO.FS.createDir (diskEntry place).path
      | .file content _ => IO.FS.writeBinFile (diskEntry place).path content
      | .link _ => pure ()

/-- Whether the terminal is to have colours, by the environment and the terminal. -/
def wantsColour : IO Bool := do
  let force := (← IO.getEnv "CLICOLOR_FORCE").getD "0"
  if force ≠ "0" then return true
  if (← IO.getEnv "NO_COLOR").isSome then return false
  if (← IO.getEnv "CLICOLOR") = some "0" then return false
  (← IO.getStdout).isTty

end Stencil

/-- Answers the command line. -/
def main (args : List String) : IO UInt32 := do
  let t ← Stencil.picture args
  let r := Stencil.CommandLine.respond args t (← Stencil.wantsColour) (Stencil.latestTime t + 1)
  Stencil.store t r.tree
  for line in r.stdout do IO.println line
  for line in r.stderr do IO.eprintln line
  return r.exit.toUInt32
