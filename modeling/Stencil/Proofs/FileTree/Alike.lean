import Stencil.Proofs.FileTree.Edit

/-!
# Trees that differ in times

Trees are alike when they differ at most in the times of their nodes. Without links a path
means the same in both (`Alike.locate`), and making directories ends the same way in both
(`Alike.makeDirectories`).
-/

namespace Stencil.FileTree

variable {t u : FileTree} {place q : Place} {new : Bool} {steps : List Component}
  {p : Path}

/-- The trees differ at most in the times of their nodes. -/
structure Alike (t u : FileTree) : Prop where
  home : u.home = t.home
  nodes : ∀ q : Place, (u.nodes[q]?).map (Node.withTime 0) = (t.nodes[q]?).map (Node.withTime 0)

/-- A walk without links takes a name when something stands there. -/
theorem walkWith_name (ht : t.LinkFree) (n : String)
    {onLink : Place → Path → List Component → Except IoFailure Place} :
    t.walkWith new onLink place (.name n :: steps) =
      if t.IsDirectory place then
        if (t.nodes[place ++ [n]]?).isSome then t.walkWith new onLink (place ++ [n]) steps
        else if new && steps.isEmpty then .ok (place ++ [n]) else .error .notFound
      else .error .notDirectory := by
  rw [walkWith.eq_def]
  simp only
  cases hnode : t.nodes[place ++ [n]]? with
  | none => rfl
  | some node =>
    cases node with
    | link target => exact absurd hnode (ht _ _)
    | file content time | directory time => rfl

namespace Alike

theorem refl (t : FileTree) : t.Alike t := ⟨rfl, fun _ => rfl⟩

theorem isSome (h : t.Alike u) (q : Place) : (u.nodes[q]?).isSome = (t.nodes[q]?).isSome := by
  have hnode := congrArg Option.isSome (h.nodes q)
  rwa [Option.isSome_map, Option.isSome_map] at hnode

theorem isDirectory (h : t.Alike u) : u.IsDirectory q ↔ t.IsDirectory q := by
  have hkind : Node.isDirectory ∘ Node.withTime 0 = Node.isDirectory :=
    funext (Node.isDirectory_withTime 0)
  have hnode := congrArg (Option.map Node.isDirectory) (h.nodes q)
  rw [Option.map_map, Option.map_map, hkind] at hnode
  unfold IsDirectory Nodes.IsDirectory
  rw [hnode]

theorem linkFree (h : t.Alike u) (ht : t.LinkFree) : u.LinkFree := by
  intro q target hlink
  have hnode := h.nodes q
  rw [hlink] at hnode
  obtain ⟨node, hsome, hsame⟩ := Option.map_eq_some_iff.1 hnode.symm
  cases node with
  | file content time => cases hsame
  | directory time => cases hsame
  | link other => exact ht q other hsome

theorem exists_file? (h : t.Alike u) {content : ByteArray} {time : Int}
    (hfile : t.file? q = some (content, time)) : ∃ time', u.file? q = some (content, time') := by
  have hnode := h.nodes q
  rw [file?_eq_some_iff.1 hfile] at hnode
  obtain ⟨node, hsome, hsame⟩ := Option.map_eq_some_iff.1 hnode
  cases node with
  | file content' time' =>
    cases hsame
    exact ⟨time', file?_eq_some_iff.2 hsome⟩
  | directory time' => cases hsame
  | link other => cases hsame

theorem toExtends (h : t.Alike u) : t.Extends u := by
  refine ⟨h.home, fun q hq => ?_, fun q hq => h.isDirectory.2 hq⟩
  rw [Std.ExtTreeMap.mem_iff_isSome_getElem?] at hq ⊢
  rw [h.isSome, hq]

/-! ## Paths -/

/-- A walk passes the same places in trees that are alike. -/
theorem walkWith (h : t.Alike u) (ht : t.LinkFree)
    {onLink onLink' : Place → Path → List Component → Except IoFailure Place} :
    u.walkWith new onLink place steps = t.walkWith new onLink' place steps := by
  induction steps generalizing place with
  | nil => rfl
  | cons step steps ih =>
    cases step with
    | root | here | up =>
      rw [walkWith.eq_def, walkWith.eq_def t]
      simp only [h.isDirectory, ih]
    | name n =>
      rw [walkWith_name (h.linkFree ht), walkWith_name ht, h.isSome, ih]
      simp only [h.isDirectory]

theorem walk (h : t.Alike u) (ht : t.LinkFree) {links : Nat} :
    u.walk new links place steps = t.walk new links place steps := by
  cases links <;> exact h.walkWith ht

theorem locate (h : t.Alike u) (ht : t.LinkFree) : u.locate p = t.locate p := by
  unfold FileTree.locate
  rw [h.walk ht, h.home]

/-- What a path leads to is alike. -/
theorem node? (h : t.Alike u) (ht : t.LinkFree) :
    (u.node? p).map (Node.withTime 0) = (t.node? p).map (Node.withTime 0) := by
  unfold FileTree.node?
  rw [h.locate ht]
  cases t.locate p with
  | error e => rfl
  | ok q =>
    have hnode := h.nodes q
    simp only [Stages.ok_bind]
    cases hu : u.nodes[q]? <;> cases ht : t.nodes[q]? <;> rw [hu, ht] at hnode
    · cases hnode
    · cases hnode
    · exact congrArg Except.ok (Option.some.inj hnode)

theorem pathExists (h : t.Alike u) (ht : t.LinkFree) : u.pathExists p = t.pathExists p := by
  have hnode := h.node? ht (p := p)
  unfold FileTree.pathExists
  cases hu : u.node? p <;> cases ht : t.node? p <;> rw [hu, ht] at hnode
  · cases hnode
  · cases hnode

theorem isFile (h : t.Alike u) (ht : t.LinkFree) : u.isFile p = t.isFile p := by
  have hnode := h.node? ht (p := p)
  unfold FileTree.isFile
  cases hu : u.node? p <;> cases ht : t.node? p <;> rw [hu, ht] at hnode
  · cases hnode
  · cases hnode
  · next n m => cases n <;> cases m <;> first | rfl | cases hnode

/-! ## Directories -/

theorem admits (h : t.Alike u) : u.Admits q ↔ t.Admits q := by
  unfold Admits
  rw [h.isDirectory, h.isDirectory]

theorem put {node node' : Node} (h : t.Alike u) (ht : t.Admits q) (hu : u.Admits q)
    (hnode : node'.withTime 0 = node.withTime 0) : (t.put q node ht).Alike (u.put q node' hu) := by
  refine ⟨h.home, fun q' => ?_⟩
  rw [getElem?_put, getElem?_put]
  split
  · exact congrArg some hnode
  · exact h.nodes q'

/-- A directory is made in both trees, or in neither for the same reason. -/
theorem makeDirectory (h : t.Alike u) (ht : t.LinkFree) (time time' : Int) (up : List Component)
    (last : Component) :
    (∃ t' u', t.makeDirectory time up last = .ok t' ∧ u.makeDirectory time' up last = .ok u' ∧
      t'.Alike u') ∨
    ∃ e, t.makeDirectory time up last = .error e ∧ u.makeDirectory time' up last = .error e := by
  unfold FileTree.makeDirectory
  rw [h.walk ht, h.home]
  cases t.walk false linkLimit t.home up with
  | error e => exact .inr ⟨e, rfl, rfl⟩
  | ok q =>
    simp only [Stages.ok_bind]
    by_cases hdir : t.IsDirectory q
    · rw [if_pos hdir, if_pos (h.isDirectory.2 hdir)]
      cases last with
      | root | here | up => exact .inr ⟨_, rfl, rfl⟩
      | name n =>
        simp only [h.isSome]
        by_cases hnode : (t.nodes[q ++ [n]]?).isSome
        · rw [if_pos hnode, if_pos hnode]
          exact .inr ⟨_, rfl, rfl⟩
        · rw [if_neg hnode, if_neg hnode]
          by_cases hadmits : t.Admits (q ++ [n])
          · rw [dif_pos hadmits, dif_pos (h.admits.2 hadmits)]
            exact .inl ⟨_, _, rfl, rfl, h.put _ _ rfl⟩
          · rw [dif_neg hadmits, dif_neg fun hadmits' => hadmits (h.admits.1 hadmits')]
            exact .inr ⟨_, rfl, rfl⟩
    · rw [if_neg hdir, if_neg fun hdir' => hdir (h.isDirectory.1 hdir')]
      exact .inr ⟨_, rfl, rfl⟩

theorem leadsToDirectory (h : t.Alike u) (ht : t.LinkFree) :
    u.leadsToDirectory steps = t.leadsToDirectory steps := by
  unfold FileTree.leadsToDirectory
  rw [h.walk ht, h.home]
  cases t.walk false linkLimit t.home steps with
  | error e => rfl
  | ok q => simp only [h.isDirectory]

/-- Making directories ends the same way in trees that are alike, and they stay alike. -/
theorem makeDirectories (h : t.Alike u) (ht : t.LinkFree) (time time' : Int)
    (path : List Component) :
    (makeDirectories time path t).1.Alike (makeDirectories time' path u).1 ∧
      (makeDirectories time' path u).2 = (makeDirectories time path t).2 := by
  induction path generalizing t u with
  | nil => exact ⟨h, rfl⟩
  | cons last up ih =>
    rw [FileTree.makeDirectories, FileTree.makeDirectories]
    rcases h.makeDirectory ht time time' up.reverse last with
      ⟨t', u', hmade, hmade', halike⟩ | ⟨e, hfails, hfails'⟩
    · rw [hmade, hmade']
      exact ⟨halike, rfl⟩
    rw [hfails, hfails']
    cases e with
    | notFound =>
      obtain ⟨hup, hresult⟩ := ih h ht
      have hgrows : t.Grows (FileTree.makeDirectories time up t).1 := grows_makeDirectories up
      cases hv : FileTree.makeDirectories time up t with
      | mk v result =>
      cases hw : FileTree.makeDirectories time' up u with
      | mk w result' =>
      rw [hv, hw] at hup hresult
      rw [hv] at hgrows
      obtain rfl : result' = result := hresult
      cases result' with
      | error e => exact ⟨hup, rfl⟩
      | ok =>
        have hfree := hgrows.linkFree ht
        rcases hup.makeDirectory hfree time time' up.reverse last with
          ⟨t', u', hmade, hmade', halike⟩ | ⟨e, hfails, hfails'⟩
        · simp only [hmade, hmade']
          exact ⟨halike, trivial⟩
        · simp only [hfails, hfails', hup.leadsToDirectory hfree]
          exact ⟨hup, trivial⟩
    | _ =>
      simp only [h.leadsToDirectory ht]
      exact ⟨h, trivial⟩

end Alike

end Stencil.FileTree
