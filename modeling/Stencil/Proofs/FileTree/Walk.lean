import Mathlib.Data.List.Induction
import Stencil.FileTree.Resolve
import Stencil.Proofs.Path.Place
import Stencil.Proofs.Stages

/-!
# Walks without links

In a tree without links a walk cannot end anywhere but where its steps lead
(`locate_eq_ok_iff`); it can only be stopped by a place that is missing or no directory.
`file?` looks at the files alone, and `Extends` says that nothing was taken away.
-/

namespace Stencil.FileTree

variable {t u v : FileTree} {place q : Place} {new : Bool} {steps : List Component}

/-- No node of the tree is a link. -/
def LinkFree (t : FileTree) : Prop :=
  ∀ (place : Place) (target : Path), t.nodes[place]? ≠ some (Node.link target)

/-- Every step starts in a directory and leads to something; with `new` the last step may
lead to something that does not exist yet. -/
def Passable (t : FileTree) (new : Bool) : Place → List Component → Prop
  | _, [] => True
  | place, step :: steps =>
    t.IsDirectory place ∧
    (∀ n, step = .name n → place ++ [n] ∈ t.nodes ∨ new = true ∧ steps = []) ∧
    t.Passable new (step.move place) steps

theorem exists_of_isDirectory (h : t.IsDirectory place) :
    ∃ time, t.nodes[place]? = some (.directory time) := by
  obtain ⟨node, hnode, h⟩ := Option.map_eq_some_iff.1 h
  cases node with
  | directory time => exact ⟨time, hnode⟩
  | file content time => cases h
  | link target => cases h

theorem mem_nodes_of_isDirectory (h : t.IsDirectory place) : place ∈ t.nodes := by
  obtain ⟨time, hnode⟩ := exists_of_isDirectory h
  rw [Std.ExtTreeMap.mem_iff_isSome_getElem?, hnode]
  rfl

/-- In a tree without links a walk ends where its steps lead, if it ends. -/
theorem walkWith_eq_ok_iff (ht : t.LinkFree)
    {onLink : Place → Path → List Component → Except IoFailure Place} :
    t.walkWith new onLink place steps = .ok q ↔
      t.Passable new place steps ∧ q = follow place steps := by
  induction steps generalizing place with
  | nil =>
    rw [walkWith, Except.ok.injEq, eq_comm]
    exact (true_and _).symm ▸ Iff.rfl
  | cons step steps ih =>
    rw [walkWith.eq_def]
    by_cases hdir : t.IsDirectory place
    · simp only [if_pos hdir]
      cases step with
      | root | here | up =>
        refine ih.trans ?_
        simp [Passable, hdir, follow, Component.move]
      | name n =>
        cases hnode : t.nodes[place ++ [n]]? with
        | none =>
          have hmissing : place ++ [n] ∉ t.nodes := by
            simp [Std.ExtTreeMap.mem_iff_isSome_getElem?, hnode]
          -- only the last name may be missing
          by_cases hend : new = true ∧ steps = []
          · obtain ⟨rfl, rfl⟩ := hend
            simp [hnode, Passable, hdir, follow, Component.move, eq_comm]
          · have hstop : (new && steps.isEmpty) = false := by simpa using hend
            simp only [hnode, hstop]
            constructor
            · intro h
              cases h
            · rintro ⟨⟨-, hname, -⟩, -⟩
              exact ((hname n rfl).elim hmissing hend).elim
        | some node =>
          have hmem : place ++ [n] ∈ t.nodes := by
            simp [Std.ExtTreeMap.mem_iff_isSome_getElem?, hnode]
          cases node with
          | link target => exact absurd hnode (ht _ _)
          | file content time | directory time =>
            simp only [hnode]
            refine ih.trans ?_
            simp [Passable, hdir, hmem, follow, Component.move]
    · simp only [if_neg hdir]
      constructor
      · intro h
        cases h
      · rintro ⟨⟨hdir', -⟩, -⟩
        exact absurd hdir' hdir

theorem walk_eq_ok_iff (ht : t.LinkFree) {links : Nat} :
    t.walk new links place steps = .ok q ↔
      t.Passable new place steps ∧ q = follow place steps := by
  cases links <;> exact walkWith_eq_ok_iff ht

/-- In a tree without links a path means the place of its steps, if it means any. -/
theorem locate_eq_ok_iff (ht : t.LinkFree) {p : Path} :
    t.locate p = .ok q ↔
      p.text ≠ "" ∧ t.Passable false t.home p.steps ∧ q = p.place t.home := by
  rw [locate]
  by_cases hempty : p.text = ""
  · rw [if_pos hempty]
    constructor
    · intro h
      cases h
    · rintro ⟨hne, -⟩
      exact absurd hempty hne
  · rw [if_neg hempty, walk_eq_ok_iff ht]
    exact ⟨fun h => ⟨hempty, h⟩, fun h => h.2⟩

theorem locateNew_eq_ok_iff (ht : t.LinkFree) {p : Path} :
    t.locateNew p = .ok q ↔
      p.text ≠ "" ∧ t.Passable true t.home p.steps ∧ q = p.place t.home := by
  rw [locateNew]
  by_cases hempty : p.text = ""
  · rw [if_pos hempty]
    constructor
    · intro h
      cases h
    · rintro ⟨hne, -⟩
      exact absurd hempty hne
  · rw [if_neg hempty, walk_eq_ok_iff ht]
    exact ⟨fun h => ⟨hempty, h⟩, fun h => h.2⟩

/-- Steps can be taken when the first of them can and the others can from there. -/
theorem passable_append {a b : List Component} :
    t.Passable false place (a ++ b) ↔
      t.Passable false place a ∧ t.Passable false (follow place a) b := by
  induction a generalizing place with
  | nil => simp [Passable, follow]
  | cons step a ih =>
    rw [List.cons_append, Passable, Passable, ih, and_assoc, and_assoc]
    simp [follow]

/-! ## Directories above a node -/

/-- Whatever stands above a node is a directory. -/
theorem isDirectory_of_mem_append {names : List String} (h : place ++ names ∈ t.nodes)
    (hne : names ≠ []) : t.IsDirectory place := by
  induction names using List.reverseRecOn with
  | nil => exact absurd rfl hne
  | append_singleton names n ih =>
    have hdir : t.IsDirectory (place ++ names) := by
      have hparent := t.parent _ h (by simp)
      rwa [← List.append_assoc, List.dropLast_concat] at hparent
    by_cases hnames : names = []
    · rwa [hnames, List.append_nil] at hdir
    · exact ih (mem_nodes_of_isDirectory hdir) hnames

/-- A node below a directory can be reached by its names. -/
theorem passable_names {names : List String} (h : place ++ names ∈ t.nodes) :
    t.Passable new place (names.map .name) := by
  induction names generalizing place with
  | nil => trivial
  | cons n names ih =>
    have h' : place ++ [n] ++ names ∈ t.nodes := by simpa using h
    refine ⟨isDirectory_of_mem_append h (by simp), ?_, ih h'⟩
    rintro m ⟨⟩
    left
    by_cases hnames : names = []
    · rwa [hnames, List.append_nil] at h'
    · exact mem_nodes_of_isDirectory (isDirectory_of_mem_append h' hnames)

/-! ## Files -/

/-- The content and the time of the file at a place. -/
def file? (t : FileTree) (place : Place) : Option (ByteArray × Int) :=
  match t.nodes[place]? with
  | some (.file content time) => some (content, time)
  | _ => none

theorem file?_eq_some_iff {content : ByteArray} {time : Int} :
    t.file? place = some (content, time) ↔ t.nodes[place]? = some (.file content time) := by
  rw [file?]
  split
  · next c τ h => simp [h]
  · next hfile =>
    constructor
    · intro h
      cases h
    · intro h
      exact absurd h (hfile _ _)

theorem mem_nodes_of_file? {file : ByteArray × Int} (h : t.file? place = some file) :
    place ∈ t.nodes := by
  rw [Std.ExtTreeMap.mem_iff_isSome_getElem?, file?_eq_some_iff.1 h]
  rfl

/-- The files of a tree, each with its place, its content and its time. -/
def fileList (t : FileTree) : List (Place × ByteArray × Int) :=
  t.nodes.toList.filterMap fun entry => (t.file? entry.1).map (entry.1, ·)

theorem mem_fileList {content : ByteArray} {time : Int} :
    (place, content, time) ∈ t.fileList ↔ t.file? place = some (content, time) := by
  rw [fileList, List.mem_filterMap]
  constructor
  · rintro ⟨entry, -, h⟩
    obtain ⟨file, hfile, heq⟩ := Option.map_eq_some_iff.1 h
    cases heq
    exact hfile
  · intro h
    refine ⟨(place, .file content time), ?_, by rw [h]; rfl⟩
    exact Std.ExtTreeMap.mem_toList_iff_getElem?_eq_some.2 (file?_eq_some_iff.1 h)

/-- The bytes behind a path are those of the file at its place. -/
theorem readBytes_eq_ok_iff {p : Path} {content : ByteArray} :
    t.readBytes p = .ok content ↔
      ∃ place time, t.locate p = .ok place ∧ t.file? place = some (content, time) := by
  rw [readBytes, node?, Stages.bind_eq_ok]
  constructor
  · rintro ⟨node, hnode, h⟩
    obtain ⟨place, hplace, hnode⟩ := Stages.bind_eq_ok.1 hnode
    split at hnode
    · next found hfound =>
      cases hnode
      split at h
      · next c time =>
        cases h
        exact ⟨place, time, hplace, file?_eq_some_iff.2 hfound⟩
      · cases h
      · cases h
    · cases hnode
  · rintro ⟨place, time, hplace, hfile⟩
    refine ⟨.file content time, ?_, rfl⟩
    rw [hplace]
    simp only [bind, Except.bind, file?_eq_some_iff.1 hfile]
    rfl

theorem node?_eq_ok_iff {p : Path} {node : Node} :
    t.node? p = .ok node ↔ ∃ place, t.locate p = .ok place ∧ t.nodes[place]? = some node := by
  unfold node?
  rw [Stages.bind_eq_ok]
  refine exists_congr fun place => and_congr_right fun _ => ?_
  cases t.nodes[place]? with
  | none => simp
  | some found => simp [Stages.pure_eq_ok]

/-- A path is that of a directory when it leads to one. -/
theorem isDirectory_iff {p : Path} :
    t.isDirectory p = true ↔ ∃ place, t.locate p = .ok place ∧ t.IsDirectory place := by
  constructor
  · intro h
    unfold isDirectory at h
    split at h
    · next time hnode =>
      obtain ⟨place, hplace, hnode⟩ := node?_eq_ok_iff.1 hnode
      refine ⟨place, hplace, ?_⟩
      unfold IsDirectory Nodes.IsDirectory
      rw [hnode]
      rfl
    · cases h
  · rintro ⟨place, hplace, hdir⟩
    obtain ⟨time, hnode⟩ := exists_of_isDirectory hdir
    unfold isDirectory
    rw [node?_eq_ok_iff.2 ⟨place, hplace, hnode⟩]

theorem node?_of_file? {p : Path} {content : ByteArray} {time : Int}
    (hplace : t.locate p = .ok place) (hfile : t.file? place = some (content, time)) :
    t.node? p = .ok (.file content time) := by
  unfold node?
  rw [hplace, Stages.ok_bind, file?_eq_some_iff.1 hfile]
  rfl

theorem time_of_node? {p : Path} {content : ByteArray} {time : Int}
    (h : t.node? p = .ok (.file content time)) : t.time p = .ok time := by
  unfold FileTree.time
  rw [h]
  rfl

/-- The time of a path is that of the file at its place. -/
theorem time_of_file? {p : Path} {content : ByteArray} {time : Int}
    (hplace : t.locate p = .ok place) (hfile : t.file? place = some (content, time)) :
    t.time p = .ok time :=
  time_of_node? (node?_of_file? hplace hfile)

/-! ## Trees that grow -/

/-- Nothing that `t` has is missing in `u`. -/
structure Extends (t u : FileTree) : Prop where
  home : u.home = t.home
  node : ∀ q ∈ t.nodes, q ∈ u.nodes
  directory : ∀ q, t.IsDirectory q → u.IsDirectory q

theorem Extends.refl (t : FileTree) : t.Extends t := ⟨rfl, fun _ h => h, fun _ h => h⟩

theorem Extends.trans (h : t.Extends u) (h' : u.Extends v) : t.Extends v :=
  ⟨h'.home.trans h.home, fun q hq => h'.node q (h.node q hq),
    fun q hq => h'.directory q (h.directory q hq)⟩

/-- Steps to something that exists now could always be taken. -/
theorem Extends.passable (h : t.Extends u) (hpass : t.Passable new place steps)
    (hnew : new = true → follow place steps ∈ u.nodes) : u.Passable false place steps := by
  induction steps generalizing place with
  | nil => trivial
  | cons step steps ih =>
    obtain ⟨hdir, hname, hrest⟩ := hpass
    refine ⟨h.directory _ hdir, ?_, ih hrest hnew⟩
    rintro n rfl
    rcases hname n rfl with hmem | ⟨hlast, rfl⟩
    · exact .inl (h.node _ hmem)
    · exact .inl (hnew hlast)

/-- What a path means does not change when the tree grows. -/
theorem Extends.locate (h : t.Extends u) (ht : t.LinkFree) (hu : u.LinkFree) {p : Path}
    (hp : t.locate p = .ok q) : u.locate p = .ok q := by
  obtain ⟨htext, hpass, rfl⟩ := (locate_eq_ok_iff ht).1 hp
  rw [← h.home] at hpass ⊢
  exact (locate_eq_ok_iff hu).2 ⟨htext, h.passable hpass nofun, rfl⟩

end Stencil.FileTree
