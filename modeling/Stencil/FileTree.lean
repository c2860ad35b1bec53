import Std.Data.ExtTreeMap
import Stencil.Path

/-!
# Trees of files

A tree maps places to nodes: files with their bytes and times, directories, and links.
A place is the list of names on the way down from the root, so the order of the places
lists every directory right before what it holds. The tree keeps three facts about
itself: the root is a directory, whatever exists stands in a directory, and every name
can be written as one part of a path.
-/

namespace Stencil

/-- The names on the way down from the root to a node. -/
abbrev Place := List String

/-- Whether `n` can be one part of a path that names something. -/
def isFileName (n : String) : Bool :=
  n != "" && n != "." && n != ".." && !n.toList.contains '/'

/-- What stands at a place. Times are nanoseconds since the epoch. -/
inductive Node
  | file (content : ByteArray) (time : Int)
  | directory (time : Int)
  | link (target : Path)

/-- Nodes are compared byte by byte. -/
instance : DecidableEq Node
  | .file c t, .file d u =>
    decidable_of_iff (c.data = d.data ∧ t = u) (by simp [ByteArray.ext_iff])
  | .directory t, .directory u => decidable_of_iff (t = u) (by simp)
  | .link p, .link q => decidable_of_iff (p = q) (by simp)
  | .file .., .directory _ | .file .., .link _ | .directory _, .file ..
  | .directory _, .link _ | .link _, .file .. | .link _, .directory _ => isFalse nofun

/-- Whether the node is a directory. -/
def Node.isDirectory : Node → Bool
  | directory _ => true
  | _ => false

/-- The node with another time; a link has none of its own. -/
def Node.withTime (time : Int) : Node → Node
  | file content _ => file content time
  | directory _ => directory time
  | link target => link target

theorem Node.isDirectory_withTime (time : Int) (n : Node) :
    (n.withTime time).isDirectory = n.isDirectory := by
  cases n <;> rfl

/-- The nodes of a tree by place. -/
abbrev Nodes := Std.ExtTreeMap Place Node

/-- A directory stands at `place`. -/
def Nodes.IsDirectory (nodes : Nodes) (place : Place) : Prop :=
  (nodes[place]?.map Node.isDirectory) = some true

instance (nodes : Nodes) (place : Place) : Decidable (nodes.IsDirectory place) :=
  inferInstanceAs (Decidable (_ = _))

/-- A tree of files as a program that works in the directory `home` sees it. -/
structure FileTree where
  nodes : Nodes
  /-- Where relative paths start. -/
  home : Place
  /-- The root is a directory. -/
  root : nodes.IsDirectory []
  /-- What exists stands in a directory. -/
  parent : ∀ place ∈ nodes, place ≠ [] → nodes.IsDirectory place.dropLast
  /-- Every name can be written in a path. -/
  names : ∀ place ∈ nodes, ∀ n ∈ place, isFileName n

namespace FileTree

@[ext] theorem ext {t u : FileTree} (hn : t.nodes = u.nodes) (hh : t.home = u.home) : t = u := by
  cases t; cases u; simp_all

instance : DecidableEq FileTree := fun t u =>
  if hn : t.nodes = u.nodes then
    if hh : t.home = u.home then .isTrue (ext hn hh)
    else .isFalse fun h => hh (h ▸ rfl)
  else .isFalse fun h => hn (h ▸ rfl)

/-- A directory stands at `place`. -/
abbrev IsDirectory (t : FileTree) (place : Place) : Prop := t.nodes.IsDirectory place

/-- The tree with nothing but its root, seen from there. -/
def empty : FileTree where
  nodes := (∅ : Nodes).insert [] (.directory 0)
  home := []
  root := by simp [Nodes.IsDirectory, Node.isDirectory]
  parent place h hne := by simp_all [Std.ExtTreeMap.mem_insert]
  names place h n hn := by
    have h' : [] = place := by simpa [Std.ExtTreeMap.mem_insert] using h
    simp [← h'] at hn

/-! ## Setting one node -/

/-- A node that is no directory may be put at `place`: its parent is a directory, it is
not one itself, and its name can be written. -/
def Admits (t : FileTree) (place : Place) : Prop :=
  place ≠ [] ∧ t.IsDirectory place.dropLast ∧ ¬ t.IsDirectory place ∧
    ∀ n ∈ place.getLast?, isFileName n

instance (t : FileTree) (place : Place) : Decidable (t.Admits place) :=
  inferInstanceAs (Decidable (_ ∧ _))

theorem isDirectory_insert_of_ne {nodes : Nodes} {place q : Place} {node : Node}
    (h : nodes.IsDirectory q) (hne : place ≠ q) :
    Nodes.IsDirectory (nodes.insert place node) q := by
  unfold Nodes.IsDirectory at *
  rw [Std.ExtTreeMap.getElem?_insert, if_neg (by simpa using hne)]
  exact h

/-- The tree with `node` at a place that admits it. -/
def put (t : FileTree) (place : Place) (node : Node) (h : t.Admits place) : FileTree where
  nodes := t.nodes.insert place node
  home := t.home
  root := isDirectory_insert_of_ne t.root h.1
  parent q hq hne := by
    have hdir : t.IsDirectory q.dropLast := by
      rcases Std.ExtTreeMap.mem_insert.1 hq with hpq | hq
      · have hpq : place = q := by simpa using hpq
        exact hpq ▸ h.2.1
      · exact t.parent q hq hne
    exact isDirectory_insert_of_ne hdir fun hpq => h.2.2.1 (hpq ▸ hdir)
  names q hq n hn := by
    rcases Std.ExtTreeMap.mem_insert.1 hq with hpq | hq
    · have hpq : place = q := by simpa using hpq
      subst hpq
      rw [← List.dropLast_concat_getLast h.1, List.mem_append, List.mem_singleton] at hn
      rcases hn with hn | rfl
      · have hmem : place.dropLast ∈ t.nodes := by
          have hd := h.2.1
          unfold IsDirectory Nodes.IsDirectory at hd
          rw [Std.ExtTreeMap.mem_iff_isSome_getElem?]
          cases hg : t.nodes[place.dropLast]? <;> simp_all
        exact t.names _ hmem n hn
      · exact h.2.2.2 _ (by simp [List.getLast?_eq_some_getLast h.1])
    · exact t.names q hq n hn

/-- Putting a node changes its place and no other. -/
theorem getElem?_put (t : FileTree) (place q : Place) (node : Node) (h : t.Admits place) :
    (t.put place node h).nodes[q]? = if place = q then some node else t.nodes[q]? := by
  simp [put, Std.ExtTreeMap.getElem?_insert]

/-! ## Taking nodes away -/

/-- The tree without the node at `place` and all that stands below it. -/
def remove (t : FileTree) (place : Place) (h : place ≠ []) : FileTree where
  nodes := t.nodes.filter fun q _ => !place.isPrefixOf q
  home := t.home
  root := by
    have hr := t.root
    unfold Nodes.IsDirectory at *
    rw [Std.ExtTreeMap.getElem?_filter']
    cases place with
    | nil => exact absurd rfl h
    | cons n place => cases hg : t.nodes[([] : Place)]? <;> simp_all [Option.filter]
  parent q hq hne := by
    obtain ⟨hmem, hkeep⟩ := Std.ExtTreeMap.mem_filter.1 hq
    rw [Std.ExtTreeMap.getKey_eq] at hkeep
    have hd := t.parent q hmem hne
    have hkeep' : place.isPrefixOf q.dropLast = false := by
      cases hp : place.isPrefixOf q.dropLast with
      | false => rfl
      | true =>
        have := (List.isPrefixOf_iff_prefix.1 hp).trans (List.dropLast_prefix q)
        simp [List.isPrefixOf_iff_prefix.2 this] at hkeep
    unfold Nodes.IsDirectory at *
    rw [Std.ExtTreeMap.getElem?_filter']
    cases hg : t.nodes[q.dropLast]? <;> simp_all [Option.filter]
  names q hq := t.names q (Std.ExtTreeMap.mem_of_mem_filter hq)

/-! ## Times -/

theorem isDirectory_modify {nodes : Nodes} {place q : Place} {f : Node → Node}
    (hf : ∀ n, (f n).isDirectory = n.isDirectory) :
    Nodes.IsDirectory (nodes.modify place f) q ↔ nodes.IsDirectory q := by
  unfold Nodes.IsDirectory
  rw [Std.ExtTreeMap.getElem?_modify]
  split
  · next h =>
    have h : place = q := by simpa using h
    subst h
    cases nodes[place]? <;> simp [hf]
  · rfl

/-- The tree with another time at `place`. -/
def stamp (t : FileTree) (place : Place) (time : Int) : FileTree where
  nodes := t.nodes.modify place (Node.withTime time)
  home := t.home
  root := (isDirectory_modify (Node.isDirectory_withTime time)).2 t.root
  parent q hq hne :=
    (isDirectory_modify (Node.isDirectory_withTime time)).2
      (t.parent q (Std.ExtTreeMap.mem_modify.1 hq) hne)
  names q hq := t.names q (Std.ExtTreeMap.mem_modify.1 hq)

end FileTree

end Stencil
