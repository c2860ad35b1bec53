import Stencil.Proofs.Build.Atomic
import Stencil.Proofs.Build.Refusal

/-!
# Blocked documents

Which documents cannot be saved can be read off the tree before anything is written: those that
go to a directory and those with a file in their way. Saving one of the others changes this for
none of the rest, so writing stops at the first document that is blocked
(`writeAll_of_expected`).
-/

namespace Stencil

variable {t t' : FileTree} {root : Path} {time : Int}

namespace PlannedUnit

variable {v w : PlannedUnit} {output : Output} {names names' : List String}
  {failure : WriteFailure}

/-- The output cannot be put where it goes: a directory stands there, or a file where one of
the directories above it belongs. -/
def Blocked (t : FileTree) (root : Path) (w : PlannedUnit) : Prop :=
  t.isDirectory (w.target root) = true ∨ t.Obstructed (w.target root)

instance (t : FileTree) (root : Path) (w : PlannedUnit) : Decidable (w.Blocked t root) :=
  inferInstanceAs (Decidable (_ ∨ _))

/-- What the writing fails with at a document that is blocked. -/
inductive BlockedBy (t : FileTree) (root : Path) (w : PlannedUnit) : WriteFailure → Prop
  | directory (h : t.isDirectory (w.target root) = true) :
    BlockedBy t root w (.alreadyExists (w.target root))
  | file (cause : IoFailure) (h : t.Obstructed (w.target root)) :
    BlockedBy t root w (.io (w.target root) cause)

theorem BlockedBy.blocked (h : BlockedBy t root w failure) : w.Blocked t root := by
  cases h with
  | directory h => exact .inl h
  | file cause h => exact .inr h

/-- A directory has no file in its way. -/
theorem not_obstructed_of_isDirectory (ht : t.LinkFree) (hrel : w.source.rel = .ofNames names)
    (hnames : ∀ n ∈ names, isFileName n = true) (hne : names ≠ [])
    (h : t.isDirectory (w.target root) = true) : ¬ t.Obstructed (w.target root) := by
  rw [target, hrel] at h ⊢
  obtain ⟨place, hplace, -⟩ := FileTree.isDirectory_iff.1 h
  exact FileTree.not_obstructed_of_locate hnames hne ht hplace

/-- A new document with a file in its way is not saved. -/
theorem save_of_obstructed (ht : t.LinkFree) (hhome : t.IsDirectory t.home)
    (hrel : w.source.rel = .ofNames names) (hnames : ∀ n ∈ names, isFileName n = true)
    (hne : names ≠ []) (hnew : w.existing = none) (h : t.Obstructed (w.target root))
    (output : Output) (time : Int) :
    ∃ t' cause, w.save output root time t = (t', .error (.io (w.target root) cause)) := by
  have hlost : t.pathExists (w.target root) = false := by
    unfold FileTree.pathExists
    split
    · next node hnode =>
      obtain ⟨place, hplace, -⟩ := FileTree.node?_eq_ok_iff.1 hnode
      rw [target, hrel] at h hplace
      exact absurd h (FileTree.not_obstructed_of_locate hnames hne ht hplace)
    · rfl
  have hconflict : w.conflict? t root = none := by
    unfold conflict?
    simp [hnew, hlost]
  obtain ⟨u, cause, hmade⟩ : ∃ u cause, t.makeParents time (w.target root) = (u, .error cause) := by
    rw [target, hrel] at h ⊢
    exact FileTree.exists_makeParents_of_obstructed hnames hne ht hhome h time
  exact ⟨u, cause, save_eq_iff.2 (.unmade hconflict hmade)⟩

/-! ## One document -/

/-- The document was planned for what stands where its output goes. -/
structure Expected (t : FileTree) (base : Path) (w : PlannedUnit) (names : List String) : Prop
    extends Savable t base w names where
  grounded : t.Grounded base
  named : base.text ≠ ""
  existing : w.existing.isSome = (t.file? (base.place t.home ++ names)).isSome

namespace Expected

theorem targetPlace (h : Expected t root w names) :
    w.targetPlace root t.home = root.place t.home ++ names := by
  rw [PlannedUnit.targetPlace, target, h.rel]
  exact Path.place_join_ofNames _ _ h.valid

/-- What stands at the place of the output is found at its path. -/
theorem node?_target (h : Expected t root w names) {node : Node}
    (hnode : t.nodes[root.place t.home ++ names]? = some node) :
    t.node? (w.target root) = .ok node := by
  have hmem : root.place t.home ++ names ∈ t.nodes := by
    rw [Std.ExtTreeMap.mem_iff_isSome_getElem?, hnode]
    rfl
  have hroot := h.grounded.locate h.linkFree h.home h.named
    (FileTree.isDirectory_of_mem_append hmem h.ne_nil)
  refine FileTree.node?_eq_ok_iff.2 ⟨_, ?_, hnode⟩
  refine FileTree.locate_below h.linkFree hroot hmem h.ne_nil ?_
  rw [target, h.rel]

theorem isDirectory_target (h : Expected t root w names) :
    t.isDirectory (w.target root) = true ↔ t.IsDirectory (root.place t.home ++ names) := by
  constructor
  · intro hdir
    obtain ⟨place, hplace, hdir⟩ := FileTree.isDirectory_iff.1 hdir
    obtain ⟨-, -, rfl⟩ := (FileTree.locate_eq_ok_iff h.linkFree).1 hplace
    rw [← h.targetPlace]
    exact hdir
  · intro hdir
    obtain ⟨stamp, hnode⟩ := FileTree.exists_of_isDirectory hdir
    unfold FileTree.isDirectory
    rw [h.node?_target hnode]

/-- Where the output goes only a directory keeps the document back. -/
theorem conflict?_eq (h : Expected t root w names) : w.conflict? t root =
    if t.isDirectory (w.target root) then some (.alreadyExists (w.target root)) else none := by
  have hexisting := h.existing
  unfold conflict?
  cases hw : w.existing with
  | some output =>
    -- there is a file
    rw [hw] at hexisting
    obtain ⟨⟨content, stamp⟩, hfile⟩ := Option.isSome_iff_exists.1 hexisting.symm
    have hnode := h.node?_target (FileTree.file?_eq_some_iff.1 hfile)
    simp [FileTree.isFile, FileTree.isDirectory, hnode]
  | none =>
    -- there is no file, so what is found is a directory
    have hsame : t.pathExists (w.target root) = t.isDirectory (w.target root) := by
      unfold FileTree.pathExists FileTree.isDirectory
      split
      · next node hfound =>
        obtain ⟨place, hplace, hnode⟩ := FileTree.node?_eq_ok_iff.1 hfound
        obtain ⟨-, -, rfl⟩ := (FileTree.locate_eq_ok_iff h.linkFree).1 hplace
        cases node with
        | directory stamp => rw [hfound]
        | link target => exact absurd hnode (h.linkFree _ _)
        | file content stamp =>
          rw [hw, ← h.targetPlace] at hexisting
          rw [PlannedUnit.targetPlace, FileTree.file?_eq_some_iff.2 hnode] at hexisting
          cases hexisting
      · next e hlost => rw [hlost]
    simp [hsame]

/-- A document that is not blocked is saved. -/
theorem exists_save (h : Expected t root w names) (hfree : ¬ w.Blocked t root) (output : Output)
    (time : Int) : ∃ t', w.save output root time t = (t', .ok ()) := by
  unfold Blocked at hfree
  rw [not_or] at hfree
  obtain ⟨hdir, hway⟩ := hfree
  have hconflict : w.conflict? t root = none := by rw [h.conflict?_eq, if_neg hdir]
  cases hmade : t.makeParents time (w.target root) with
  | mk u result =>
  cases result with
  | error cause =>
    rw [target, h.rel] at hmade hway
    exact absurd (h.grounded.obstructed_of_makeParents h.linkFree h.home h.valid h.ne_nil hmade) hway
  | ok made =>
    obtain ⟨v, hwritten⟩ := h.exists_write hconflict hmade output
    exact ⟨v, save_eq_iff.2 (.saved hconflict hmade hwritten)⟩

/-- A document that is blocked is not saved. -/
theorem save_of_blocked (h : Expected t root w names) (hblocked : w.Blocked t root)
    (output : Output) (time : Int) :
    ∃ t' failure, w.save output root time t = (t', .error failure) ∧ w.BlockedBy t root failure := by
  rcases hblocked with hdir | hway
  · have hconflict := h.conflict?_eq
    rw [if_pos hdir] at hconflict
    exact ⟨t, _, save_eq_iff.2 (.conflict hconflict), .directory hdir⟩
  · have hnew : w.existing = none := by
      have hexisting := h.existing
      rw [← Option.not_isSome_iff_eq_none, hexisting]
      intro hfile
      obtain ⟨⟨content, stamp⟩, hfile⟩ := Option.isSome_iff_exists.1 hfile
      have hnode := h.node?_target (FileTree.file?_eq_some_iff.1 hfile)
      obtain ⟨place, hplace, -⟩ := FileTree.node?_eq_ok_iff.1 hnode
      rw [target, h.rel] at hplace hway
      exact FileTree.not_obstructed_of_locate h.valid h.ne_nil h.linkFree hplace hway
    obtain ⟨t', cause, hsave⟩ :=
      save_of_obstructed h.linkFree h.home h.rel h.valid h.ne_nil hnew hway output time
    exact ⟨t', _, hsave, .file cause hway⟩

/-! ## The next document -/

theorem apart_names (hv : Expected t root v names') (hw : Expected t root w names)
    (h : Apart (v.targetPlace root t.home) (w.targetPlace root t.home)) : Apart names' names := by
  rw [hv.targetPlace, hw.targetPlace] at h
  unfold Apart at h ⊢
  rwa [List.prefix_append_right_inj, List.prefix_append_right_inj] at h

theorem targetPlace_ne (hv : Expected t root v names') (hapart : Apart names' names) :
    v.targetPlace root t.home ≠ root.place t.home ++ names := by
  rw [hv.targetPlace]
  intro heq
  exact hapart.1 (List.append_cancel_left heq ▸ List.prefix_rfl)

section

variable (hv : Expected t root v names') (hw : Expected t root w names)
  (hapart : Apart names' names) (hsave : v.save output root time t = (t', .ok ()))

include hv hw hapart hsave

/-- Another document that goes elsewhere is expected as before. -/
theorem of_save : Expected t' root w names := by
  obtain ⟨content, -, hstores, -⟩ := stores_of_save hw.linkFree hsave
  have hextends := hstores.toExtends
  obtain ⟨place, file, hplace, hfile⟩ := hw.source
  refine ⟨⟨hstores.linkFree hw.linkFree, ?_, hextends.rooted hw.root, hw.rel, hw.ne_nil,
    hw.valid, place, ?_⟩, hextends.grounded hw.grounded, hw.named, ?_⟩
  · rw [hextends.home]
    exact hextends.directory _ hw.home
  · -- the source is found as before, with the bytes of the output if that went there
    have hplace' := hextends.locate hw.linkFree (hstores.linkFree hw.linkFree) hplace
    by_cases hself : v.targetPlace root t.home = place
    · exact ⟨_, hplace', (hstores.files place).trans (if_pos hself)⟩
    · exact ⟨file, hplace', ((hstores.files place).trans (if_neg hself)).trans hfile⟩
  · rw [hextends.home, hstores.files, if_neg (hv.targetPlace_ne hapart)]
    exact hw.existing

/-- No directory was made where its output goes. -/
theorem isDirectory_of_save :
    t'.isDirectory (w.target root) = true ↔ t.isDirectory (w.target root) = true := by
  obtain ⟨content, -, hstores, -⟩ := stores_of_save hw.linkFree hsave
  have hextends := hstores.toExtends
  rw [(of_save hv hw hapart hsave).isDirectory_target, hw.isDirectory_target, hextends.home]
  refine ⟨fun hdir => ?_, hextends.directory _⟩
  rcases keepsNode_of_save hw.linkFree hsave (hv.targetPlace_ne hapart) with hsame | ⟨-, -, hpass⟩
  · unfold FileTree.IsDirectory Nodes.IsDirectory at hdir ⊢
    rwa [hsame] at hdir
  · rw [target, hv.rel] at hpass
    exact (hw.grounded.of_passes hw.home hv.valid hv.ne_nil hpass).resolve_right hapart.2

/-- No file was put in its way. -/
theorem obstructed_of_save :
    t'.Obstructed (w.target root) ↔ t.Obstructed (w.target root) := by
  obtain ⟨content, -, hstores, -⟩ := stores_of_save hw.linkFree hsave
  have hextends := hstores.toExtends
  constructor
  · rintro ⟨q, hpass, hfile⟩
    rw [hextends.home] at hpass
    refine ⟨q, hpass, ?_⟩
    by_cases hself : v.targetPlace root t.home = q
    · -- on its way only a directory can stand where the other output went
      subst hself
      rw [hv.targetPlace, target, hw.rel] at hpass
      have hdir := (hw.grounded.of_passes hw.home hw.valid hw.ne_nil hpass).resolve_right hapart.1
      rw [← hv.targetPlace] at hdir
      exact absurd (hextends.directory _ hdir) (FileTree.not_isDirectory_of_file? hfile)
    · rwa [hstores.files, if_neg hself] at hfile
  · rintro ⟨q, hpass, hfile⟩
    refine ⟨q, by rwa [hextends.home], ?_⟩
    rw [hstores.files]
    split
    · rfl
    · exact hfile

theorem blocked_of_save : w.Blocked t' root ↔ w.Blocked t root :=
  or_congr (isDirectory_of_save hv hw hapart hsave) (obstructed_of_save hv hw hapart hsave)

theorem blockedBy_of_save (h : w.BlockedBy t' root failure) : w.BlockedBy t root failure := by
  cases h with
  | directory h => exact .directory ((isDirectory_of_save hv hw hapart hsave).1 h)
  | file cause h => exact .file cause ((obstructed_of_save hv hw hapart hsave).1 h)

end

end Expected

end PlannedUnit

/-! ## One document after the other -/

/-- The document at `i` is the first that is blocked, and writing fails with it. -/
def StopsAt (t : FileTree) (root : Path) (units : List PlannedUnit) (i : Nat)
    (failure : WriteFailure) : Prop :=
  ∃ w, units[i]? = some w ∧ w.BlockedBy t root failure ∧ ∀ v ∈ units.take i, ¬ v.Blocked t root

variable {pairs : List (PlannedUnit × Output)}

/-- Writing comes to its end or stops at the first document that is blocked. -/
theorem writeAll_of_expected (time : Int)
    (hpairs : ∀ p ∈ pairs, ∃ names, p.1.Expected t root names)
    (hapart : pairs.Pairwise fun p q =>
      Apart (p.1.targetPlace root t.home) (q.1.targetPlace root t.home)) :
    ((writeAll root time pairs t).failure = none ∧ ∀ p ∈ pairs, ¬ p.1.Blocked t root) ∨
      ∃ failure, (writeAll root time pairs t).failure = some failure ∧
        StopsAt t root (pairs.map Prod.fst) (writeAll root time pairs t).saved failure := by
  induction pairs generalizing t with
  | nil => exact .inl ⟨rfl, by simp⟩
  | cons p pairs ih =>
    obtain ⟨v, output⟩ := p
    obtain ⟨⟨names, hv⟩, hrest⟩ := List.forall_mem_cons.1 hpairs
    obtain ⟨hfirst, htail⟩ := List.pairwise_cons.1 hapart
    rw [writeAll]
    by_cases hblocked : v.Blocked t root
    · right
      obtain ⟨t', failure, hsave, hby⟩ := hv.save_of_blocked hblocked output time
      rw [hsave]
      exact ⟨failure, rfl, v, rfl, hby, by simp⟩
    obtain ⟨t', hsave⟩ := hv.exists_save hblocked output time
    obtain ⟨content, -, hstores, -⟩ := PlannedUnit.stores_of_save hv.linkFree hsave
    -- what was saved changes nothing for the others
    have hexpected : ∀ q ∈ pairs, ∃ names, q.1.Expected t' root names := by
      intro q hq
      obtain ⟨names', hw⟩ := hrest q hq
      exact ⟨names', hv.of_save hw (hv.apart_names hw (hfirst q hq)) hsave⟩
    have hsame : ∀ q ∈ pairs, (q.1.Blocked t' root ↔ q.1.Blocked t root) := by
      intro q hq
      obtain ⟨names', hw⟩ := hrest q hq
      exact hv.blocked_of_save hw (hv.apart_names hw (hfirst q hq)) hsave
    rw [hsave]
    rcases ih hexpected (by rwa [hstores.home]) with
      ⟨hnone, hall⟩ | ⟨failure, hfailure, w, hw, hby, hbefore⟩
    · left
      refine ⟨hnone, List.forall_mem_cons.2 ⟨hblocked, fun q hq => ?_⟩⟩
      rw [← hsame q hq]
      exact hall q hq
    · right
      have hmem : w ∈ pairs.map Prod.fst := List.mem_of_getElem? hw
      obtain ⟨q, hq, rfl⟩ := List.mem_map.1 hmem
      obtain ⟨names', hat⟩ := hrest q hq
      refine ⟨failure, hfailure, q.1, hw, ?_, ?_⟩
      · exact hv.blockedBy_of_save hat (hv.apart_names hat (hfirst q hq)) hsave hby
      · rw [List.map_cons, List.take_succ_cons]
        refine List.forall_mem_cons.2 ⟨hblocked, fun u hu => ?_⟩
        obtain ⟨q', hq', rfl⟩ := List.mem_map.1 (List.mem_of_mem_take hu)
        rw [← hsame q' hq']
        exact hbefore _ hu

end Stencil
