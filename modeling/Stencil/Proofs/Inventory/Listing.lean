import Stencil.Proofs.FileTree.Store
import Stencil.Proofs.Inventory.Order
import Stencil.Proofs.Text.ByteOrder

/-!
# The listing below a root

A walk lists every file below its root once, in the order of the bytes of their names, name by
name (`findFiles_listing`). That is not the order of the paths as texts: `a/z` comes before
`a.html`, since the name `a` comes before the name `a.html`. No path below the root leads
through another, because a file contains nothing.
-/

namespace Stencil

/-- The first file comes before the second by the bytes of their names, compared name by name. -/
def Source.BytesBefore (a b : Source) : Prop :=
  a.rel.names.map Text.utf8 < b.rel.names.map Text.utf8

/-- The path of neither file below the root starts with that of the other. -/
def Source.Unnested (a b : Source) : Prop :=
  ¬ a.rel.names <+: b.rel.names ∧ ¬ b.rel.names <+: a.rel.names

/-- The source is that of a file below the root, at any depth: names lead to the file from the
directory at the root, and they make up the path. Nothing has been read of it. -/
def Source.Below (t : FileTree) (root : Path) (s : Source) : Prop :=
  ∃ place names, t.locate root = .ok place ∧ names ≠ [] ∧ (t.file? (place ++ names)).isSome ∧
    s.rel.names = names ∧ s = ⟨root.join (.ofNames names), .ofNames names, none, none⟩

/-- The files below a root, as they are listed. -/
structure Listing (t : FileTree) (root : Path) (files : List Source) : Prop where
  /-- Every file below the root is listed, and nothing else. -/
  mem : ∀ file, file ∈ files ↔ file.Below t root
  ordered : files.Pairwise Source.BytesBefore
  unnested : files.Pairwise Source.Unnested
  path : ∀ file ∈ files, file.path = root.join file.rel
  kind : ∀ file ∈ files, file.kind = .ofPath file.rel
  /-- Nothing is listed when there is no directory at the root. -/
  nothing : (∀ place, t.locate root = .ok place → ¬ t.IsDirectory place) → files = []

variable {t : FileTree} {root : Path} {files : List Source}

/-- A file stands above no other. -/
theorem FileTree.not_prefix_of_file? {place : Place} {names others : List String}
    (h : (t.file? (place ++ names)).isSome) (h' : (t.file? (place ++ others)).isSome)
    (hne : names ≠ others) : ¬ names <+: others := by
  rintro ⟨rest, rfl⟩
  obtain ⟨⟨content, time⟩, hfile⟩ := Option.isSome_iff_exists.1 h
  obtain ⟨file, hbelow⟩ := Option.isSome_iff_exists.1 h'
  have hrest : rest ≠ [] := fun hnil => hne (by rw [hnil, List.append_nil])
  have hmem := mem_nodes_of_file? hbelow
  rw [← List.append_assoc] at hmem
  obtain ⟨stamp, hdir⟩ := exists_of_isDirectory (isDirectory_of_mem_append hmem hrest)
  rw [file?_eq_some_iff.1 hfile] at hdir
  cases hdir

theorem mem_iff_below (ht : t.LinkFree) (h : findFiles t root = .ok files) (file : Source) :
    file ∈ files ↔ file.Below t root := by
  have hwritable : ∀ {place : Place} {names : List String},
      (t.file? (place ++ names)).isSome → ∀ n ∈ names, isFileName n = true := by
    intro place names hfile
    obtain ⟨found, hfound⟩ := Option.isSome_iff_exists.1 hfile
    exact FileTree.isFileName_of_mem (FileTree.mem_nodes_of_file? hfound)
  rw [mem_findFiles ht h]
  constructor
  · rintro ⟨hroot, names, hne, hfile, rfl⟩
    refine ⟨_, names, hroot, hne, hfile, Path.names_ofNames (hwritable hfile), ?_⟩
    rw [FileTree.found, Path.below_eq root (hwritable hfile) hne]
  · rintro ⟨place, names, hroot, hne, hfile, -, rfl⟩
    obtain rfl := ((FileTree.locate_eq_ok_iff ht).1 hroot).2.2
    refine ⟨hroot, names, hne, hfile, ?_⟩
    rw [FileTree.found, Path.below_eq root (hwritable hfile) hne]

/-- No file that is listed stands above another. -/
theorem unnested_findFiles (ht : t.LinkFree) (h : findFiles t root = .ok files) :
    files.Pairwise Source.Unnested := by
  refine (ordered_findFiles ht h).imp_of_mem ?_
  intro a b ha hb hbefore
  obtain ⟨place, names, hroot, -, hfile, hnames, -⟩ := (mem_iff_below ht h a).1 ha
  obtain ⟨place', others, hroot', -, hfile', hothers, -⟩ := (mem_iff_below ht h b).1 hb
  rw [hroot] at hroot'
  cases hroot'
  have hne : names ≠ others := by
    rintro rfl
    have hself : compare names names = .eq := Std.ReflCmp.compare_self
    rw [Source.Before, hnames, hothers, hself] at hbefore
    cases hbefore
  rw [Source.Unnested, hnames, hothers]
  exact ⟨FileTree.not_prefix_of_file? hfile hfile' hne,
    FileTree.not_prefix_of_file? hfile' hfile hne.symm⟩

/-- **The walk is complete, free of duplicates and sorted**: in a tree without links it comes to
its end below any root, with the listing of the files there. -/
theorem findFiles_listing (ht : t.LinkFree) (root : Path) :
    ∃ files, findFiles t root = .ok files ∧ Listing t root files := by
  obtain ⟨files, h⟩ := exists_findFiles ht root
  refine ⟨files, h, {
    mem := mem_iff_below ht h
    ordered := (ordered_findFiles ht h).imp Text.map_utf8_lt
    unnested := unnested_findFiles ht h
    path := ?_
    kind := fun _ _ => rfl
    nothing := ?_ }⟩
  · intro file hfile
    obtain ⟨place, names, -, -, -, -, rfl⟩ := (mem_iff_below ht h file).1 hfile
    rfl
  · intro hnone
    rw [findFiles] at h
    split at h
    · cases h
      rfl
    · next place hplace =>
      rw [if_neg (hnone place hplace)] at h
      cases h
      rfl

/-- A file next to a directory whose name it starts with, and a directory named like markup. -/
def shelves : FileTree :=
  ((FileTree.empty.store ⟨"d/x.html/b.htm"⟩ "B".toUTF8 1).store ⟨"d/a.html"⟩ "A".toUTF8 2).store
    ⟨"d/a/z"⟩ "Z".toUTF8 3

/-- The directory comes first, and the one named like markup is not listed itself. -/
theorem findFiles_listing_shelves :
    shelves.LinkFree ∧
    (∃ files, findFiles shelves ⟨"d"⟩ = .ok files ∧ Listing shelves ⟨"d"⟩ files) ∧
    findFiles shelves ⟨"d"⟩ = .ok [⟨⟨"d/a/z"⟩, ⟨"a/z"⟩, none, none⟩,
      ⟨⟨"d/a.html"⟩, ⟨"a.html"⟩, none, none⟩,
      ⟨⟨"d/x.html/b.htm"⟩, ⟨"x.html/b.htm"⟩, none, none⟩] := by
  have hfree : shelves.LinkFree := FileTree.linkFree_store (FileTree.linkFree_store
    (FileTree.linkFree_store FileTree.linkFree_empty _ _ _) _ _ _) _ _ _
  exact ⟨hfree, findFiles_listing hfree ⟨"d"⟩, by decide +kernel⟩

end Stencil
