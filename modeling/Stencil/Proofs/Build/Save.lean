import Stencil.Build
import Stencil.Proofs.FileTree.Edit

/-!
# What saving does to the files

Seen from its files a tree without links changes with every saved document at one place,
that of its output (`files_writeAll`). A failure to save changes no file.
-/

namespace Stencil

/-- The files of a tree by place, each with its content and its time. -/
abbrev Files := Place → Option (ByteArray × Int)

namespace PlannedUnit

variable {u : PlannedUnit} {output : Output} {root : Path} {time : Int} {t t' : FileTree}

/-- The place of the output of a document, seen from `home`. -/
def targetPlace (u : PlannedUnit) (root : Path) (home : Place) : Place := (u.target root).place home

/-- The place of a document, seen from `home`. -/
def sourcePlace (u : PlannedUnit) (home : Place) : Place := u.source.path.place home

/-- The bytes that are saved for a document when the files are `files`. A document copied
onto itself is emptied. -/
def savedBytes (u : PlannedUnit) (output : Output) (root : Path) (home : Place) (files : Files) :
    Option ByteArray :=
  match output with
  | .text content => some content.toUTF8
  | .copy =>
    if u.sourcePlace home = u.targetPlace root home then some ByteArray.empty
    else (files (u.sourcePlace home)).map Prod.fst

/-- The files after a document was saved. -/
def saveFiles (root : Path) (home : Place) (time : Int) (files : Files)
    (p : PlannedUnit × Output) : Files := fun q =>
  if p.1.targetPlace root home = q then
    (p.1.savedBytes p.2 root home files).map fun content => (content, time)
  else files q

/-- Writing an output stores its bytes at its place. -/
theorem stores_of_write (ht : t.LinkFree)
    (h : u.write output (u.target root) time t = .ok t') :
    ∃ content, u.savedBytes output root t.home t.file? = some content ∧
      t.Stores (u.targetPlace root t.home) content time t' ∧
      t'.locate (u.target root) = .ok (u.targetPlace root t.home) := by
  cases output with
  | text content => exact ⟨content.toUTF8, rfl, FileTree.stores_of_writeFile ht h⟩
  | copy =>
    obtain ⟨content, old, hfile, hstores⟩ := FileTree.stores_of_copyFile ht h
    refine ⟨_, ?_, hstores⟩
    rw [savedBytes, sourcePlace, hfile]
    by_cases hself : u.source.path.place t.home = (u.target root).place t.home
    · rw [if_pos hself]
      exact if_pos hself
    · rw [if_neg hself]
      exact if_neg hself

/-- The ways in which saving a document ends, each with the tree that it leaves. -/
inductive SaveEnds (u : PlannedUnit) (output : Output) (root : Path) (time : Int) (t : FileTree) :
    FileTree → Except WriteFailure Unit → Prop
  | conflict {failure} (conflict : u.conflict? t root = some failure) :
      SaveEnds u output root time t t (.error failure)
  | unmade {made cause} (free : u.conflict? t root = none)
      (parents : t.makeParents time (u.target root) = (made, .error cause)) :
      SaveEnds u output root time t made (.error (.io (u.target root) cause))
  | unwritten {made cause} (free : u.conflict? t root = none)
      (parents : t.makeParents time (u.target root) = (made, .ok ()))
      (write : u.write output (u.target root) time made = .error cause) :
      SaveEnds u output root time t made (.error (.io (u.target root) cause))
  | saved {made t'} (free : u.conflict? t root = none)
      (parents : t.makeParents time (u.target root) = (made, .ok ()))
      (write : u.write output (u.target root) time made = .ok t') :
      SaveEnds u output root time t t' (.ok ())

theorem save_eq_iff {result : Except WriteFailure Unit} :
    u.save output root time t = (t', result) ↔ u.SaveEnds output root time t t' result := by
  constructor
  · intro h
    rw [save] at h
    split at h
    · next conflict =>
      cases h
      exact .conflict conflict
    · next free =>
      simp only at h
      split at h
      · next parents =>
        cases h
        exact .unmade free parents
      · next parents =>
        split at h
        · next write =>
          cases h
          exact .unwritten free parents write
        · next write =>
          cases h
          exact .saved free parents write
  · intro h
    rw [save]
    cases h with
    | conflict conflict => rw [conflict]
    | unmade free parents => simp only [free, parents]
    | unwritten free parents write => simp only [free, parents, write]
    | saved free parents write => simp only [free, parents, write]

/-- A document that could not be saved leaves every file as it was. -/
theorem grows_of_save_error {failure : WriteFailure}
    (h : u.save output root time t = (t', .error failure)) : t.Grows t' := by
  have hgrows : t.Grows (t.makeParents time (u.target root)).1 := FileTree.grows_makeParents
  cases save_eq_iff.1 h with
  | conflict => exact .refl t
  | unmade _ parents =>
    rw [parents] at hgrows
    exact hgrows
  | unwritten _ parents =>
    rw [parents] at hgrows
    exact hgrows

/-- A document that was saved has its bytes at the place of its output. -/
theorem stores_of_save (ht : t.LinkFree) (h : u.save output root time t = (t', .ok ())) :
    ∃ content, u.savedBytes output root t.home t.file? = some content ∧
      t.Stores (u.targetPlace root t.home) content time t' ∧
      t'.locate (u.target root) = .ok (u.targetPlace root t.home) := by
  have hgrows : t.Grows (t.makeParents time (u.target root)).1 := FileTree.grows_makeParents
  cases save_eq_iff.1 h with
  | @saved made _ _ parents write =>
    rw [parents] at hgrows
    -- making the directories has changed no file
    obtain ⟨content, hbytes, hstores, hlocate⟩ := stores_of_write (hgrows.linkFree ht) write
    rw [hgrows.home] at hbytes hstores hlocate
    have hfiles : made.file? = t.file? := funext hgrows.files
    rw [hfiles] at hbytes
    exact ⟨content, hbytes, hgrows.stores hstores, hlocate⟩

/-- Seen from the files, saving is `saveFiles`. -/
theorem file?_save (ht : t.LinkFree) (h : u.save output root time t = (t', .ok ())) :
    t'.file? = saveFiles root t.home time t.file? (u, output) := by
  obtain ⟨content, hbytes, hstores, -⟩ := stores_of_save ht h
  funext q
  rw [hstores.files, saveFiles, hbytes]
  rfl

end PlannedUnit

/-! ## Saving one document after the other -/

variable {root : Path} {time : Int} {t : FileTree} {pairs : List (PlannedUnit × Output)}

/-- When anything was saved, the first document was, on the tree as it stood. -/
theorem exists_save_of_mem_take {p : PlannedUnit × Output}
    (h : p ∈ pairs.take (writeAll root time pairs t).saved) :
    ∃ first ∈ pairs, ∃ t', first.1.save first.2 root time t = (t', .ok ()) := by
  cases pairs with
  | nil => simp at h
  | cons first pairs =>
    obtain ⟨u, output⟩ := first
    rw [writeAll] at h
    split at h
    · simp at h
    · next made hsave => exact ⟨(u, output), List.mem_cons_self, made, hsave⟩

theorem extends_writeAll (ht : t.LinkFree) :
    t.Extends (writeAll root time pairs t).tree ∧ (writeAll root time pairs t).tree.LinkFree := by
  induction pairs generalizing t with
  | nil => exact ⟨.refl t, ht⟩
  | cons p pairs ih =>
    obtain ⟨u, output⟩ := p
    rw [writeAll]
    split
    · next made failure hsave =>
      have hgrows := PlannedUnit.grows_of_save_error hsave
      exact ⟨hgrows.toExtends, hgrows.linkFree ht⟩
    · next made hsave =>
      obtain ⟨content, -, hstores, -⟩ := PlannedUnit.stores_of_save ht hsave
      obtain ⟨hextends, hfree⟩ := ih (hstores.linkFree ht)
      exact ⟨hstores.toExtends.trans hextends, hfree⟩

/-- Seen from the files, the saved documents are saved one after the other and nothing else
happens. -/
theorem files_writeAll (ht : t.LinkFree) :
    (writeAll root time pairs t).tree.file? =
      (pairs.take (writeAll root time pairs t).saved).foldl
        (PlannedUnit.saveFiles root t.home time) t.file? := by
  induction pairs generalizing t with
  | nil => rfl
  | cons p pairs ih =>
    obtain ⟨u, output⟩ := p
    rw [writeAll]
    split
    · next made failure hsave =>
      exact funext (PlannedUnit.grows_of_save_error hsave).files
    · next made hsave =>
      obtain ⟨content, -, hstores, -⟩ := PlannedUnit.stores_of_save ht hsave
      show (writeAll root time pairs made).tree.file? = _
      rw [ih (hstores.linkFree ht), hstores.home, PlannedUnit.file?_save ht hsave]
      rfl

/-- Every output that was saved can be found where it was put. -/
theorem locate_target_of_writeAll (ht : t.LinkFree) {p : PlannedUnit × Output}
    (hp : p ∈ pairs.take (writeAll root time pairs t).saved) :
    (writeAll root time pairs t).tree.locate (p.1.target root) =
      .ok (p.1.targetPlace root t.home) := by
  induction pairs generalizing t with
  | nil => cases hp
  | cons p' pairs ih =>
    obtain ⟨u, output⟩ := p'
    rw [writeAll] at hp ⊢
    split at hp
    · cases hp
    · next made hsave =>
      obtain ⟨content, -, hstores, hlocate⟩ := PlannedUnit.stores_of_save ht hsave
      have hmade := hstores.linkFree ht
      have hrest : made.Extends (writeAll root time pairs made).tree ∧
          (writeAll root time pairs made).tree.LinkFree := extends_writeAll hmade
      obtain ⟨hextends, hfree⟩ := hrest
      rcases List.mem_cons.1 hp with rfl | hp
      · -- later documents take nothing away
        exact hextends.locate hmade hfree hlocate
      · rw [← hstores.home]
        exact ih hmade hp

theorem saved_of_writeAll (h : (writeAll root time pairs t).failure = none) :
    (writeAll root time pairs t).saved = pairs.length := by
  induction pairs generalizing t with
  | nil => rfl
  | cons p pairs ih =>
    obtain ⟨u, output⟩ := p
    rw [writeAll] at h ⊢
    split at h
    · cases h
    · next made hsave =>
      simp only
      rw [ih h]
      rfl

end Stencil
