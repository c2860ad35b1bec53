import Stencil.Proofs.Build.Save
import Stencil.Proofs.FileTree.Alike
import Stencil.Proofs.FileTree.Rooted

/-!
# Documents that cannot be saved

Below a rooted path a document that cannot be saved leaves the tree as it was, since what
stops it shows before anything is made (`Savable.tree_of_save_error`). So it is stopped in
the same way whenever it is tried again (`Savable.save_error_of_alike`).
-/

namespace Stencil

variable {root : Path} {time : Int} {t t' u : FileTree}

namespace PlannedUnit

variable {w : PlannedUnit} {output : Output} {failure : WriteFailure} {names : List String}

/-- The output goes to `names` below a rooted path, and what is copied to it is a file. -/
structure Savable (t : FileTree) (root : Path) (w : PlannedUnit) (names : List String) : Prop where
  linkFree : t.LinkFree
  home : t.IsDirectory t.home
  root : t.Rooted root
  rel : w.source.rel = .ofNames names
  ne_nil : names ≠ []
  valid : ∀ n ∈ names, isFileName n = true
  source : ∃ place file, t.locate w.source.path = .ok place ∧ t.file? place = some file

/-- What stops a document is in the way of its output or of a directory that it needs. -/
def StoppedBy (t : FileTree) (root : Path) (time : Int) (w : PlannedUnit)
    (failure : WriteFailure) : Prop :=
  w.conflict? t root = some failure ∨ w.conflict? t root = none ∧
    ∃ cause, (t.makeParents time (w.target root)).2 = .error cause ∧
      failure = .io (w.target root) cause

namespace Savable

/-- A document without a conflict does not go to a directory. -/
theorem not_isDirectory (h : Savable t root w names) (hgrounded : t.Grounded root)
    (hconflict : w.conflict? t root = none) : ¬ t.IsDirectory (root.place t.home ++ names) := by
  intro hdir
  have htext : (root.join (.ofNames names)).text ≠ "" := by
    refine Path.text_ne_empty_of_steps ?_
    rw [Path.steps_join_ofNames root h.valid h.ne_nil]
    simp [h.ne_nil]
  rw [← Path.place_join_ofNames _ _ h.valid] at hdir
  have hplace := (hgrounded.join h.valid).locate h.linkFree h.home htext hdir
  obtain ⟨stamp, hnode⟩ := FileTree.exists_of_isDirectory hdir
  have hfound : t.node? (root.join (.ofNames names)) = .ok (.directory stamp) := by
    unfold FileTree.node?
    rw [hplace, Stages.ok_bind, hnode]
    rfl
  unfold conflict? at hconflict
  rw [target, h.rel] at hconflict
  simp only at hconflict
  split at hconflict
  · simp [FileTree.pathExists, hfound] at hconflict
  · simp [FileTree.isFile, hfound] at hconflict

/-- Once the directories are made, a document without a conflict can be written. -/
theorem exists_write (h : Savable t root w names) (hconflict : w.conflict? t root = none)
    (hmade : t.makeParents time (w.target root) = (u, .ok ())) (output : Output) :
    ∃ v, w.write output (w.target root) time u = .ok v := by
  have hgrows : t.Grows (t.makeParents time (w.target root)).1 := FileTree.grows_makeParents
  rw [hmade] at hgrows
  rw [target, h.rel] at hmade ⊢
  have hgrounded := h.root.grounded_of_makeParents h.linkFree h.home h.valid h.ne_nil hmade
  obtain ⟨hplace, hdir, hnode⟩ :=
    hgrounded.locateNew_of_makeParents h.linkFree h.home h.valid h.ne_nil hmade
  have hadmits : u.Admits (root.place t.home ++ names) := by
    refine ⟨by simp [h.ne_nil], by rwa [List.dropLast_append_of_ne_nil h.ne_nil], ?_, ?_⟩
    · have hnot := h.not_isDirectory hgrounded hconflict
      unfold FileTree.IsDirectory Nodes.IsDirectory at hnot ⊢
      rwa [hnode]
    · intro n hn
      rw [List.getLast?_append_of_ne_nil _ h.ne_nil] at hn
      exact h.valid n (List.mem_of_getLast? hn)
  cases output with
  | text content =>
    show ∃ v, u.writeFile _ _ _ = .ok v
    unfold FileTree.writeFile
    rw [hplace, Stages.ok_bind]
    exact ⟨_, dif_pos hadmits⟩
  | copy =>
    obtain ⟨place, ⟨content, changed⟩, hsource, hfile⟩ := h.source
    show ∃ v, u.copyFile _ _ _ = .ok v
    unfold FileTree.copyFile
    rw [hgrows.toExtends.locate h.linkFree (hgrows.linkFree h.linkFree) hsource, Stages.ok_bind,
      FileTree.file?_eq_some_iff.1 ((hgrows.files place).trans hfile)]
    simp only [hplace, Stages.ok_bind]
    exact ⟨_, dif_pos hadmits⟩

/-- A document that cannot be saved leaves the tree as it was. -/
theorem tree_of_save_error (h : Savable t root w names)
    (hsave : w.save output root time t = (t', .error failure)) :
    t' = t ∧ StoppedBy t root time w failure := by
  cases save_eq_iff.1 hsave with
  | conflict conflict => exact ⟨rfl, .inl conflict⟩
  | unmade free parents =>
    refine ⟨?_, .inr ⟨free, _, by rw [parents], rfl⟩⟩
    rw [target, h.rel] at parents
    exact h.root.tree_of_makeParents h.linkFree h.home h.valid h.ne_nil parents
  | unwritten free parents write =>
    obtain ⟨v, hwritten⟩ := h.exists_write free parents output
    rw [hwritten] at write
    cases write

theorem alike (h : Savable t root w names) (halike : t.Alike u) : Savable u root w names := by
  obtain ⟨place, ⟨content, changed⟩, hsource, hfile⟩ := h.source
  obtain ⟨changed', hfile'⟩ := halike.exists_file? hfile
  refine ⟨halike.linkFree h.linkFree, ?_, halike.toExtends.rooted h.root, h.rel, h.ne_nil,
    h.valid, place, (content, changed'), ?_, hfile'⟩
  · rw [halike.home]
    exact halike.isDirectory.2 h.home
  · rw [halike.locate h.linkFree]
    exact hsource

/-- What has stopped a document stops it again while the tree changes in times only. -/
theorem save_error_of_alike (h : Savable t root w names) (halike : t.Alike u)
    (hsave : w.save output root time t = (t', .error failure)) (time' : Int) :
    w.save output root time' u = (u, .error failure) := by
  obtain ⟨-, hstopped⟩ := h.tree_of_save_error hsave
  have hsame : w.conflict? u root = w.conflict? t root := by
    unfold conflict?
    simp only [halike.pathExists h.linkFree, halike.isFile h.linkFree]
  suffices hfails : ∃ v, w.save output root time' u = (v, .error failure) by
    obtain ⟨v, hfails⟩ := hfails
    obtain ⟨rfl, -⟩ := (h.alike halike).tree_of_save_error hfails
    exact hfails
  rcases hstopped with hconflict | ⟨hfree, cause, hmade, rfl⟩
  · exact ⟨u, save_eq_iff.2 (.conflict (hsame.trans hconflict))⟩
  · have hfails : (u.makeParents time' (w.target root)).2 = .error cause :=
      (halike.makeDirectories h.linkFree time time' _).2.trans hmade
    exact ⟨_, save_eq_iff.2 (.unmade (hsame.trans hfree) (Prod.ext rfl hfails))⟩

end Savable

end PlannedUnit

/-! ## Where writing stops -/

variable {pairs : List (PlannedUnit × Output)} {failure : WriteFailure}

/-- Writing fails at the first document that cannot be saved in the tree as it is by then. -/
theorem exists_of_failure_writeAll (ht : t.LinkFree)
    (h : (writeAll root time pairs t).failure = some failure) :
    ∃ w output s, pairs[(writeAll root time pairs t).saved]? = some (w, output) ∧ t.Extends s ∧
      s.LinkFree ∧
      w.save output root time s = ((writeAll root time pairs t).tree, .error failure) := by
  induction pairs generalizing t with
  | nil => cases h
  | cons p pairs ih =>
    obtain ⟨w, output⟩ := p
    rw [writeAll] at h ⊢
    split at h
    · next made cause hsave =>
      cases h
      exact ⟨w, output, t, rfl, .refl t, ht, hsave⟩
    · next made hsave =>
      obtain ⟨content, -, hstores, -⟩ := PlannedUnit.stores_of_save ht hsave
      obtain ⟨w', output', s, hat, hextends, hfree, hfails⟩ := ih (hstores.linkFree ht) h
      exact ⟨w', output', s, hat, hstores.toExtends.trans hextends, hfree, hfails⟩

/-- Writing that has failed fails at once when it goes on, in any tree that is alike. -/
theorem writeAll_drop_of_alike (ht : t.LinkFree) (hhome : t.IsDirectory t.home)
    (hroot : t.Rooted root)
    (hpairs : ∀ p ∈ pairs, ∃ names, p.1.source.rel = .ofNames names ∧ names ≠ [] ∧
      (∀ n ∈ names, isFileName n = true) ∧ ∃ place file, t.locate p.1.source.path = .ok place ∧
      (writeAll root time pairs t).tree.file? place = some file)
    (hfailure : (writeAll root time pairs t).failure = some failure)
    (halike : (writeAll root time pairs t).tree.Alike u) (time' : Int) :
    writeAll root time' (pairs.drop (writeAll root time pairs t).saved) u =
      ⟨u, 0, some failure⟩ := by
  obtain ⟨w, output, s, hat, hextends, hs, hsave⟩ := exists_of_failure_writeAll ht hfailure
  obtain ⟨names, hrel, hne, hvalid, place, file, hsource, hfile⟩ :=
    hpairs _ (List.mem_of_getElem? hat)
  have hgrows := PlannedUnit.grows_of_save_error hsave
  have hsavable : PlannedUnit.Savable s root w names := by
    refine ⟨hs, ?_, hextends.rooted hroot, hrel, hne, hvalid, place, file, ?_, ?_⟩
    · rw [hextends.home]
      exact hextends.directory _ hhome
    · exact hextends.locate ht hs hsource
    · rw [← hgrows.files]
      exact hfile
  obtain ⟨htree, -⟩ := hsavable.tree_of_save_error hsave
  rw [htree] at halike
  have hagain := hsavable.save_error_of_alike halike hsave time'
  obtain ⟨hlt, heq⟩ := List.getElem?_eq_some_iff.1 hat
  rw [List.drop_eq_getElem_cons hlt, heq, writeAll, hagain]

end Stencil
