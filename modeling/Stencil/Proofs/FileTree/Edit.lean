import Stencil.FileTree.Edit
import Stencil.Proofs.FileTree.Walk

/-!
# What changes to a tree leave alone

Making directories changes no file (`grows_makeDirectories`), and writing or copying a file
changes the one at the place of its path (`stores_of_writeFile`, `stores_of_copyFile`).
-/

namespace Stencil.FileTree

variable {t u v : FileTree} {place : Place} {time : Int} {content : ByteArray} {p : Path}

/-- `u` is `t` with more directories. -/
structure Grows (t u : FileTree) : Prop extends t.Extends u where
  files : ∀ q, u.file? q = t.file? q
  linkFree : t.LinkFree → u.LinkFree

theorem Grows.refl (t : FileTree) : t.Grows t := ⟨.refl t, fun _ => rfl, id⟩

theorem Grows.trans (h : t.Grows u) (h' : u.Grows v) : t.Grows v :=
  ⟨h.toExtends.trans h'.toExtends, fun q => (h'.files q).trans (h.files q),
    fun ht => h'.linkFree (h.linkFree ht)⟩

/-- `u` is `t` with a file at `place`. -/
structure Stores (t : FileTree) (place : Place) (content : ByteArray) (time : Int)
    (u : FileTree) : Prop extends t.Extends u where
  files : ∀ q, u.file? q = if place = q then some (content, time) else t.file? q
  linkFree : t.LinkFree → u.LinkFree

/-- A file stored in a tree with more directories is stored in the tree. -/
theorem Grows.stores (h : t.Grows u) (h' : u.Stores place content time v) :
    t.Stores place content time v := by
  refine ⟨h.toExtends.trans h'.toExtends, ?_, fun ht => h'.linkFree (h.linkFree ht)⟩
  intro q
  rw [h'.files, h.files]

/-! ## Putting one node -/

theorem extends_put {node : Node} (h : t.Admits place) : t.Extends (t.put place node h) := by
  refine ⟨rfl, fun q hq => ?_, fun q hq => ?_⟩
  · exact Std.ExtTreeMap.mem_insert.2 (.inr hq)
  · exact isDirectory_insert_of_ne hq fun hpq => h.2.2.1 (hpq ▸ hq)

/-- A node that is no link brings no link into the tree. -/
theorem linkFree_put {node : Node} (h : t.Admits place)
    (hnode : ∀ target, node ≠ .link target) (ht : t.LinkFree) : (t.put place node h).LinkFree := by
  intro q target
  rw [getElem?_put]
  split
  · simpa using hnode target
  · exact ht q target

theorem stores_put (h : t.Admits place) :
    t.Stores place content time (t.put place (.file content time) h) := by
  refine ⟨extends_put h, fun q => ?_, linkFree_put h (by simp)⟩
  rw [file?, getElem?_put]
  by_cases hpq : place = q
  · rw [if_pos hpq, if_pos hpq]
  · rw [if_neg hpq, if_neg hpq]
    rfl

/-- A directory put at a free place is no file. -/
theorem grows_put (h : t.Admits place) (hfree : t.nodes[place]? = none) :
    t.Grows (t.put place (.directory time) h) := by
  refine ⟨extends_put h, fun q => ?_, linkFree_put h (by simp)⟩
  rw [file?, getElem?_put, file?]
  by_cases hpq : place = q
  · rw [if_pos hpq, ← hpq, hfree]
  · rw [if_neg hpq]

/-! ## Directories -/

theorem grows_makeDirectory {up : List Component} {last : Component}
    (h : t.makeDirectory time up last = .ok u) : t.Grows u := by
  obtain ⟨place, -, h⟩ := Stages.bind_eq_ok.1 h
  split at h
  · cases last with
    | root | here | up => cases h
    | name n =>
      simp only at h
      by_cases hnode : (t.nodes[place ++ [n]]?).isSome
      · rw [if_pos hnode] at h
        cases h
      rw [if_neg hnode] at h
      by_cases hadmits : t.Admits (place ++ [n])
      · rw [dif_pos hadmits] at h
        cases h
        exact grows_put hadmits (by simpa using hnode)
      · rw [dif_neg hadmits] at h
        cases h
  · cases h

/-- Making directories changes no file, even when it fails half way. -/
theorem grows_makeDirectories (path : List Component) :
    t.Grows (makeDirectories time path t).1 := by
  induction path with
  | nil => exact .refl t
  | cons last up ih =>
    rw [makeDirectories]
    split
    · next u hu => exact grows_makeDirectory hu
    · split
      · next u e hu => rw [hu] at ih; exact ih
      · next u hu =>
        rw [hu] at ih
        split
        · next v hv => exact ih.trans (grows_makeDirectory hv)
        · exact ih
    · exact .refl t

theorem grows_makeParents : t.Grows (t.makeParents time p).1 := grows_makeDirectories _

/-! ## Files -/

/-- A file put where a new path leads stands at the place of the path and can be found
there. -/
theorem stores_of_locateNew (ht : t.LinkFree) (h : t.locateNew p = .ok place)
    (hadmits : t.Admits place) :
    t.Stores (p.place t.home) content time (t.put place (.file content time) hadmits) ∧
      (t.put place (.file content time) hadmits).locate p = .ok (p.place t.home) := by
  obtain ⟨htext, hpass, rfl⟩ := (locateNew_eq_ok_iff ht).1 h
  have hstores : t.Stores _ content time _ := stores_put hadmits
  have hfile := hstores.files (p.place t.home)
  rw [if_pos rfl] at hfile
  refine ⟨hstores, (locate_eq_ok_iff (hstores.linkFree ht)).2 ⟨htext, ?_, rfl⟩⟩
  exact hstores.toExtends.passable hpass fun _ => mem_nodes_of_file? hfile

/-- A file is written where the new path leads. -/
theorem exists_put_of_writeFile (h : t.writeFile p content time = .ok u) :
    ∃ place, ∃ hadmits : t.Admits place, t.locateNew p = .ok place ∧
      u = t.put place (.file content time) hadmits := by
  obtain ⟨place, hplace, h⟩ := Stages.bind_eq_ok.1 h
  by_cases hadmits : t.Admits place
  · rw [dif_pos hadmits] at h
    cases h
    exact ⟨place, hadmits, hplace, rfl⟩
  · rw [dif_neg hadmits] at h
    cases h

/-- A copy has the content of its source, unless the two are one file, which is emptied. -/
theorem exists_put_of_copyFile {source : Path} (h : t.copyFile source p time = .ok u) :
    ∃ origin place content old, ∃ hadmits : t.Admits place, t.locate source = .ok origin ∧
      t.file? origin = some (content, old) ∧ t.locateNew p = .ok place ∧
      u = t.put place (.file (if origin = place then ByteArray.empty else content) time)
        hadmits := by
  obtain ⟨origin, horigin, h⟩ := Stages.bind_eq_ok.1 h
  split at h
  · next content old hfile =>
    obtain ⟨place, hplace, h⟩ := Stages.bind_eq_ok.1 h
    by_cases hadmits : t.Admits place
    · rw [dif_pos hadmits] at h
      cases h
      exact ⟨origin, place, content, old, hadmits, horigin, file?_eq_some_iff.2 hfile, hplace, rfl⟩
    · rw [dif_neg hadmits] at h
      cases h
  · cases h

theorem stores_of_writeFile (ht : t.LinkFree) (h : t.writeFile p content time = .ok u) :
    t.Stores (p.place t.home) content time u ∧ u.locate p = .ok (p.place t.home) := by
  obtain ⟨place, hadmits, hplace, rfl⟩ := exists_put_of_writeFile h
  exact stores_of_locateNew ht hplace hadmits

theorem stores_of_copyFile {source : Path} (ht : t.LinkFree)
    (h : t.copyFile source p time = .ok u) :
    ∃ content old, t.file? (source.place t.home) = some (content, old) ∧
      t.Stores (p.place t.home)
        (if source.place t.home = p.place t.home then ByteArray.empty else content) time u ∧
      u.locate p = .ok (p.place t.home) := by
  obtain ⟨origin, place, content, old, hadmits, horigin, hfile, hplace, rfl⟩ :=
    exists_put_of_copyFile h
  obtain ⟨-, -, rfl⟩ := (locate_eq_ok_iff ht).1 horigin
  have hwhere := ((locateNew_eq_ok_iff ht).1 hplace).2.2
  subst hwhere
  exact ⟨content, old, hfile, stores_of_locateNew ht hplace hadmits⟩

end Stencil.FileTree
