import Stencil.Inventory
import Stencil.Proofs.FileTree.Walk

/-!
# What a walk finds

In a tree without links the walk below a root finds exactly the files below its place
(`mem_findFiles`), each under the names that lead to it.
-/

namespace Stencil

namespace Path

/-- The path a walk has come by when it went down by these names. -/
def below (p : Path) (names : List String) : Path := names.foldl (fun p n => p.join ⟨n⟩) p

theorem below_cons (p : Path) (n : String) (names : List String) :
    p.below (n :: names) = (p.join ⟨n⟩).below names := rfl

variable {names : List String}

/-- Going down name by name is joining the names. -/
theorem below_eq (p : Path) (h : ∀ n ∈ names, isFileName n = true) (hne : names ≠ []) :
    p.below names = p.join (ofNames names) := by
  induction names generalizing p with
  | nil => exact absurd rfl hne
  | cons n names ih =>
    obtain ⟨hn, hrest⟩ := List.forall_mem_cons.1 h
    rw [below_cons]
    by_cases hnames : names = []
    · subst hnames
      simp [below, ofNames]
    · rw [ih _ hrest hnames, join_join p hn hrest hnames]

end Path

/-- The time of a source that has not been read is that of its file. -/
theorem Source.time_of_node? {t : FileTree} {s : Source} {content : ByteArray} {changed : Int}
    (hunread : s.time? = none) (h : t.node? s.path = .ok (.file content changed)) :
    s.time t = .ok changed := by
  unfold Source.time
  simp only [hunread, FileTree.time_of_node? h]
  rfl

namespace FileTree

variable {t : FileTree}

/-- The names on the way to a node can be written. -/
theorem isFileName_of_mem {place : Place} {names : List String} (h : place ++ names ∈ t.nodes) :
    ∀ n ∈ names, isFileName n = true := fun n hn =>
  t.names _ h n (List.mem_append_right _ hn)

/-- Below a root that can be located, the names on the way to a node make up its path. -/
theorem locate_below (ht : t.LinkFree) {root p : Path} {names : List String}
    (hroot : t.locate root = .ok (root.place t.home))
    (h : root.place t.home ++ names ∈ t.nodes) (hne : names ≠ [])
    (hsteps : p.steps = (root.join (Path.ofNames names)).steps) :
    t.locate p = .ok (root.place t.home ++ names) := by
  have hnames := isFileName_of_mem h
  rw [Path.steps_join_ofNames root hnames hne] at hsteps
  have hplace : p.place t.home = root.place t.home ++ names := by
    rw [Path.place, hsteps, follow_append, Path.follow_lead_parts, follow_names]
  obtain ⟨-, hpass, -⟩ := (locate_eq_ok_iff ht).1 hroot
  rw [Path.steps_eq] at hpass
  refine (locate_eq_ok_iff ht).2 ⟨?_, ?_, hplace.symm⟩
  · refine Path.text_ne_empty_of_steps ?_
    rw [hsteps]
    simp [hne]
  · rw [hsteps]
    refine passable_append.2 ⟨(passable_append.1 hpass).1, ?_⟩
    rw [Path.follow_lead_parts]
    exact passable_names h

/-- A file below a root that can be located is found at the path the walk comes by. -/
theorem locate_found (ht : t.LinkFree) {root : Path} {names : List String}
    {file : ByteArray × Int} (hroot : t.locate root = .ok (root.place t.home))
    (hfile : t.file? (root.place t.home ++ names) = some file) (hne : names ≠ []) :
    t.locate (root.below names) = .ok (root.place t.home ++ names) := by
  have hnode := mem_nodes_of_file? hfile
  rw [Path.below_eq root (isFileName_of_mem hnode) hne]
  exact locate_below ht hroot hnode hne rfl

/-- The entries of a directory are the nodes one name below it. -/
theorem mem_children {place : Place} {name : String} {node : Node} :
    (name, node) ∈ t.children place ↔ t.nodes[place ++ [name]]? = some node := by
  rw [children, List.mem_filterMap]
  constructor
  · rintro ⟨⟨q, found⟩, hmem, h⟩
    rw [Std.ExtTreeMap.mem_toList_iff_getElem?_eq_some] at hmem
    simp only at h
    split at h
    · next hq =>
      obtain ⟨last, hlast, h⟩ := Option.map_eq_some_iff.1 h
      cases h
      obtain ⟨front, rfl⟩ := List.getLast?_eq_some_iff.1 hlast
      rw [List.dropLast_concat] at hq
      exact hq.2 ▸ hmem
    · cases h
  · intro h
    refine ⟨(place ++ [name], node), ?_, by simp⟩
    rwa [Std.ExtTreeMap.mem_toList_iff_getElem?_eq_some]

/-- The source that a walk makes of a file it finds. -/
def found (path : Path) (names : List String) : Source := ⟨path, .ofNames names, none, none⟩

/-- What a walk makes of one entry of a directory when there are no links. -/
def filesOfEntry (t : FileTree) (depth : Nat) (above : List Station) (here : Station)
    (names : List String) (entry : String × Node) : Except WalkFailure (List Source) :=
  let path := here.path.join ⟨entry.1⟩
  match entry.2 with
  | .directory _ => t.filesBelow depth above ⟨here.place ++ [entry.1], path⟩ (names ++ [entry.1])
  | _ => .ok [found path (names ++ [entry.1])]

theorem filesBelow_eq (ht : t.LinkFree) {depth : Nat} {above : List Station} {here : Station}
    {names : List String} :
    t.filesBelow (depth + 1) above here names =
      ((t.children here.place).mapM (t.filesOfEntry depth (here :: above) here names)).map
        List.flatten := by
  rw [filesBelow]
  have hentries : ∀ f : String × Node → Except WalkFailure (List Source),
      (∀ entry ∈ t.children here.place,
        f entry = t.filesOfEntry depth (here :: above) here names entry) →
      ((t.children here.place).mapM f >>= fun found => pure found.flatten) =
        ((t.children here.place).mapM (t.filesOfEntry depth (here :: above) here names)).map
          List.flatten := by
    intro f hf
    rw [Stages.mapM_congr hf]
    cases (t.children here.place).mapM (t.filesOfEntry depth (here :: above) here names) <;> rfl
  refine hentries _ fun entry hentry => ?_
  obtain ⟨name, node⟩ := entry
  cases node with
  | link target => exact absurd (mem_children.1 hentry) (ht _ _)
  | file content time => rfl
  | directory time => rfl

theorem filesBelow_succ (ht : t.LinkFree) {depth : Nat} {above : List Station} {here : Station}
    {names : List String} {files : List Source}
    (h : t.filesBelow (depth + 1) above here names = .ok files) :
    ∃ parts, (t.children here.place).mapM (t.filesOfEntry depth (here :: above) here names) =
      .ok parts ∧ files = parts.flatten := by
  rw [filesBelow_eq ht] at h
  obtain ⟨parts, hparts, rfl⟩ := Stages.map_eq_ok.1 h
  exact ⟨parts, hparts, rfl⟩

/-- A walk finds exactly the files below the directory it is in. -/
theorem mem_filesBelow (ht : t.LinkFree) {depth : Nat} {above : List Station} {here : Station}
    {names : List String} {files : List Source}
    (h : t.filesBelow depth above here names = .ok files) {s : Source} :
    s ∈ files ↔ ∃ rest, rest ≠ [] ∧ (t.file? (here.place ++ rest)).isSome ∧
      s = found (here.path.below rest) (names ++ rest) := by
  induction depth generalizing above here names files with
  | zero => cases h
  | succ depth ih =>
    obtain ⟨parts, hparts, rfl⟩ := filesBelow_succ ht h
    rw [List.mem_flatten]
    constructor
    · -- a file that was found comes from one entry
      rintro ⟨part, hpart, hs⟩
      obtain ⟨⟨name, node⟩, hentry, hpart⟩ := (Stages.mem_of_mapM hparts).1 hpart
      have hnode := mem_children.1 hentry
      cases node with
      | link target => exact absurd hnode (ht _ _)
      | file content time =>
        cases hpart
        obtain rfl := List.mem_singleton.1 hs
        exact ⟨[name], by simp, by simp [file?, hnode], rfl⟩
      | directory time =>
        obtain ⟨rest, hrest, hfile, rfl⟩ := (ih hpart).1 hs
        refine ⟨name :: rest, by simp, ?_, ?_⟩
        · simpa using hfile
        · rw [Path.below_cons, List.append_assoc]
          rfl
    · -- the first name on the way to a file is an entry
      rintro ⟨rest, hrest, hfile, rfl⟩
      cases rest with
      | nil => exact absurd rfl hrest
      | cons name rest =>
        obtain ⟨⟨content, time⟩, hfile⟩ := Option.isSome_iff_exists.1 hfile
        by_cases hlast : rest = []
        · subst hlast
          have hentry := mem_children.2 (file?_eq_some_iff.1 hfile)
          obtain ⟨part, hpart, hresult⟩ := Stages.exists_of_mem_mapM hparts hentry
          cases hresult
          exact ⟨_, hpart, List.mem_singleton.2 rfl⟩
        · have hmem : here.place ++ [name] ++ rest ∈ t.nodes := by
            simpa using mem_nodes_of_file? hfile
          obtain ⟨stamp, hnode⟩ := exists_of_isDirectory (isDirectory_of_mem_append hmem hlast)
          obtain ⟨part, hpart, hresult⟩ := Stages.exists_of_mem_mapM hparts (mem_children.2 hnode)
          refine ⟨part, hpart, (ih hresult).2 ⟨rest, hlast, ?_, ?_⟩⟩
          · rw [List.append_assoc]
            show (t.file? (here.place ++ name :: rest)).isSome = true
            rw [hfile]
            rfl
          · rw [Path.below_cons, List.append_assoc]
            rfl

/-- Every file that a walk finds in an entry has the name of the entry in its path. -/
theorem rel_of_filesOfEntry (ht : t.LinkFree) {depth : Nat} {above : List Station}
    {here : Station} {names : List String} (hnames : ∀ n ∈ names, isFileName n = true)
    {entry : String × Node} {part : List Source} (hentry : entry ∈ t.children here.place)
    (h : t.filesOfEntry depth above here names entry = .ok part) {s : Source} (hs : s ∈ part) :
    ∃ rest, s.rel = .ofNames (names ++ entry.1 :: rest) ∧
      ∀ n ∈ names ++ entry.1 :: rest, isFileName n = true := by
  obtain ⟨name, node⟩ := entry
  have hnode := mem_children.1 hentry
  have hvalid : ∀ rest, here.place ++ name :: rest ∈ t.nodes →
      ∀ n ∈ names ++ name :: rest, isFileName n = true := by
    intro rest hmem n hn
    rcases List.mem_append.1 hn with hn | hn
    · exact hnames n hn
    · exact isFileName_of_mem hmem n hn
  cases node with
  | link target => exact absurd hnode (ht _ _)
  | file content time =>
    cases h
    obtain rfl := List.mem_singleton.1 hs
    exact ⟨[], rfl, hvalid [] (mem_nodes_of_file? (file?_eq_some_iff.2 hnode))⟩
  | directory time =>
    obtain ⟨rest, -, hfile, rfl⟩ := (mem_filesBelow ht h).1 hs
    obtain ⟨file, hfile⟩ := Option.isSome_iff_exists.1 hfile
    have hmem := mem_nodes_of_file? hfile
    refine ⟨rest, ?_, hvalid rest (by simpa using hmem)⟩
    show Path.ofNames (names ++ [name] ++ rest) = _
    rw [List.append_assoc]
    rfl

end FileTree

variable {t : FileTree} {root : Path} {files : List Source}

/-- In a tree without links the files below a root are those below its place. -/
theorem mem_findFiles (ht : t.LinkFree) (h : findFiles t root = .ok files) {s : Source} :
    s ∈ files ↔ t.locate root = .ok (root.place t.home) ∧
      ∃ names, names ≠ [] ∧ (t.file? (root.place t.home ++ names)).isSome ∧
        s = FileTree.found (root.below names) names := by
  rw [findFiles] at h
  split at h
  · next e he =>
    cases h
    simp [he]
  · next place hplace =>
    obtain rfl := ((FileTree.locate_eq_ok_iff ht).1 hplace).2.2
    by_cases hdir : t.IsDirectory (root.place t.home)
    · rw [if_pos hdir] at h
      rw [FileTree.mem_filesBelow ht h]
      simp [hplace]
    · rw [if_neg hdir] at h
      cases h
      constructor
      · intro hs
        cases hs
      · rintro ⟨-, names, hne, hfile, -⟩
        obtain ⟨file, hfile⟩ := Option.isSome_iff_exists.1 hfile
        exact absurd (FileTree.isDirectory_of_mem_append
          (FileTree.mem_nodes_of_file? hfile) hne) hdir

end Stencil
