import Stencil.Proofs.FileTree.Edit

/-!
# Storing a file

`store` puts a file into a tree together with the directories it stands in.
-/

namespace Stencil.FileTree

/-- The tree with a file at a path and the directories above it; as far as they can be made
when the file cannot. -/
def store (t : FileTree) (p : Path) (content : ByteArray) (time : Int) : FileTree :=
  let made := (t.makeParents time p).1
  (made.writeFile p content time).toOption.getD made

theorem linkFree_empty : empty.LinkFree := by
  intro place target h
  rw [empty, Std.ExtTreeMap.getElem?_insert] at h
  split at h
  · cases h
  · simp at h

/-- Storing a file makes no link. -/
theorem linkFree_store {t : FileTree} (ht : t.LinkFree) (p : Path) (content : ByteArray)
    (time : Int) : (t.store p content time).LinkFree := by
  have hgrows : t.Grows (t.makeParents time p).1 := grows_makeParents
  have hmade := hgrows.linkFree ht
  rw [store]
  cases hwrite : (t.makeParents time p).1.writeFile p content time with
  | error e => exact hmade
  | ok u => exact (stores_of_writeFile hmade hwrite).1.linkFree hmade

end Stencil.FileTree
