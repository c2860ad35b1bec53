import Stencil.Proofs.FileTree.Edit

/-!
# The nodes that a change touches

Place by place: making the directories of a path adds directories that the path passes and
does nothing else (`adds_makeDirectories`), and writing or copying a file touches the place
of its path alone (`getElem?_writeFile_of_ne`, `getElem?_copyFile_of_ne`).
-/

namespace Stencil

theorem isPrefix_follow_of_up_not_mem {place : Place} {steps : List Component}
    (hup : .up ∉ steps) (hroot : .root ∉ steps) : place <+: follow place steps := by
  induction steps generalizing place with
  | nil => exact List.prefix_rfl
  | cons step steps ih =>
    rw [List.mem_cons, not_or] at hup hroot
    have hrest : step.move place <+: follow (step.move place) steps := ih hup.2 hroot.2
    cases step with
    | root => exact absurd rfl hroot.1
    | up => exact absurd rfl hup.1
    | here => exact hrest
    | name n => exact (List.prefix_append place [n]).trans hrest

namespace Path

/-- The path leads through this place before it comes to its end. -/
def Passes (p : Path) (home place : Place) : Prop :=
  ∃ lead, lead ≠ [] ∧ lead <+: p.components ∧ lead ≠ p.components ∧ place = follow home lead

theorem root_not_mem_parts (p : Path) : .root ∉ p.parts := by
  intro hmem
  obtain ⟨part, -, hpart⟩ := List.mem_map.1 hmem
  unfold component at hpart
  split at hpart
  · cases hpart
  · split at hpart <;> cases hpart

/-- Only the first component of a path can be the root. -/
theorem root_not_mem_tail_components (p : Path) : .root ∉ p.components.tail := by
  intro hmem
  have hparts := p.root_not_mem_parts
  unfold components at hmem
  split at hmem
  · exact hparts (List.mem_of_mem_filter hmem)
  · cases hp : p.parts with
    | nil => simp [hp] at hmem
    | cons first rest =>
      rw [hp] at hmem hparts
      exact hparts (List.mem_cons_of_mem _ (List.mem_of_mem_filter hmem))

/-- A path that never goes up passes only directories above its place. -/
theorem Passes.isPrefix {p : Path} {home place : Place} (h : p.Passes home place)
    (hup : .up ∉ p.components) : place <+: p.place home := by
  obtain ⟨lead, hne, ⟨rest, hrest⟩, -, rfl⟩ := h
  rw [← follow_components, ← hrest, follow_append]
  rw [← hrest, List.mem_append, not_or] at hup
  refine isPrefix_follow_of_up_not_mem hup.2 fun hroot => ?_
  have htail : Component.root ∈ p.components.tail := by
    rw [← hrest, List.tail_append_of_ne_nil hne]
    exact List.mem_append_right _ hroot
  exact p.root_not_mem_tail_components htail

end Path

namespace FileTree

variable {t u v : FileTree} {time : Int} {places places' : Place → Prop} {q : Place}

/-- The node at a place is the same in both trees, or it is a new directory at one of
`places`. -/
def KeepsNode (t : FileTree) (time : Int) (places : Place → Prop) (u : FileTree) (q : Place) :
    Prop :=
  u.nodes[q]? = t.nodes[q]? ∨
    t.nodes[q]? = none ∧ u.nodes[q]? = some (.directory time) ∧ places q

namespace KeepsNode

theorem mono (h : t.KeepsNode time places u q) (hsub : places q → places' q) :
    t.KeepsNode time places' u q := by
  rcases h with hsame | ⟨hnone, hdir, hq⟩
  · exact .inl hsame
  · exact .inr ⟨hnone, hdir, hsub hq⟩

theorem of_node_eq (h : t.KeepsNode time places u q) (hv : v.nodes[q]? = u.nodes[q]?) :
    t.KeepsNode time places v q := by
  unfold KeepsNode
  rw [hv]
  exact h

theorem trans (h : t.KeepsNode time places u q) (h' : u.KeepsNode time places v q) :
    t.KeepsNode time places v q := by
  rcases h' with hsame | ⟨hnone, hdir, hq⟩
  · exact h.of_node_eq hsame
  · rcases h with hbefore | ⟨-, hmade, -⟩
    · exact .inr ⟨hbefore ▸ hnone, hdir, hq⟩
    · rw [hmade] at hnone
      cases hnone

end KeepsNode

/-- `u` is `t` with new directories, each at one of `places`. -/
structure Adds (t : FileTree) (time : Int) (places : Place → Prop) (u : FileTree) : Prop where
  home : u.home = t.home
  nodes : ∀ q, t.KeepsNode time places u q

theorem Adds.refl (t : FileTree) : t.Adds time places t := ⟨rfl, fun _ => .inl rfl⟩

theorem Adds.mono (h : t.Adds time places u) (hsub : ∀ q, places q → places' q) :
    t.Adds time places' u :=
  ⟨h.home, fun q => (h.nodes q).mono (hsub q)⟩

theorem Adds.trans (h : t.Adds time places u) (h' : u.Adds time places v) :
    t.Adds time places v :=
  ⟨h'.home.trans h.home, fun q => (h.nodes q).trans (h'.nodes q)⟩

/-- A directory that could be made is the one that the steps lead to, and nothing stood
there. -/
theorem exists_of_makeDirectory (ht : t.LinkFree) {up : List Component} {last : Component}
    (h : t.makeDirectory time up last = .ok u) :
    t.nodes[follow t.home (up ++ [last])]? = none ∧
      ∃ hadmits : t.Admits (follow t.home (up ++ [last])),
        u = t.put _ (.directory time) hadmits := by
  obtain ⟨place, hplace, h⟩ := Stages.bind_eq_ok.1 h
  obtain ⟨-, rfl⟩ := (walk_eq_ok_iff ht).1 hplace
  split at h
  · cases last with
    | root | here | up => cases h
    | name n =>
      have hend : follow t.home (up ++ [.name n]) = follow t.home up ++ [n] := by
        rw [follow_append]
        rfl
      simp only at h
      rw [hend]
      by_cases hnode : (t.nodes[follow t.home up ++ [n]]?).isSome
      · rw [if_pos hnode] at h
        cases h
      rw [if_neg hnode] at h
      by_cases hadmits : t.Admits (follow t.home up ++ [n])
      · rw [dif_pos hadmits] at h
        cases h
        exact ⟨by simpa using hnode, hadmits, rfl⟩
      · rw [dif_neg hadmits] at h
        cases h
  · cases h

theorem adds_makeDirectory (ht : t.LinkFree) {up : List Component} {last : Component}
    (h : t.makeDirectory time up last = .ok u) :
    t.Adds time (· = follow t.home (up ++ [last])) u := by
  obtain ⟨hfree, hadmits, rfl⟩ := exists_of_makeDirectory ht h
  refine ⟨rfl, fun q => ?_⟩
  unfold KeepsNode
  rw [getElem?_put]
  by_cases hq : follow t.home (up ++ [last]) = q
  · subst hq
    exact .inr ⟨hfree, if_pos rfl, rfl⟩
  · exact .inl (if_neg hq)

/-- Making directories adds directories that the steps lead through, even when it fails half
way. -/
theorem adds_makeDirectories (ht : t.LinkFree) (path : List Component) :
    t.Adds time (fun q => ∃ lead, lead ≠ [] ∧ lead <+: path.reverse ∧ q = follow t.home lead)
      (makeDirectories time path t).1 := by
  induction path with
  | nil => exact .refl t
  | cons last up ih =>
    rw [List.reverse_cons]
    -- a directory on the way up is also on the way to the last step
    have hup : t.Adds time (fun q =>
        ∃ lead, lead ≠ [] ∧ lead <+: up.reverse ++ [last] ∧ q = follow t.home lead)
        (makeDirectories time up t).1 := by
      refine ih.mono ?_
      rintro q ⟨lead, hne, hlead, rfl⟩
      exact ⟨lead, hne, hlead.trans (List.prefix_append ..), rfl⟩
    have hself : ∀ q, q = follow t.home (up.reverse ++ [last]) →
        ∃ lead, lead ≠ [] ∧ lead <+: up.reverse ++ [last] ∧ q = follow t.home lead := by
      rintro q rfl
      exact ⟨_, by simp, List.prefix_rfl, rfl⟩
    have hgrows : t.Grows (makeDirectories time up t).1 := grows_makeDirectories up
    rw [makeDirectories]
    split
    · next u hu => exact (adds_makeDirectory ht hu).mono hself
    · split
      · next u e hu =>
        rw [hu] at hup
        exact hup
      · next u hu =>
        rw [hu] at hup hgrows
        split
        · next v hv =>
          have hmade := adds_makeDirectory (hgrows.linkFree ht) hv
          rw [hgrows.home] at hmade
          exact hup.trans (hmade.mono hself)
        · exact hup
    · exact .refl t

/-- The directories made for a path are directories that it passes. -/
theorem adds_makeParents (ht : t.LinkFree) {p : Path} :
    t.Adds time (p.Passes t.home) (t.makeParents time p).1 := by
  unfold makeParents
  by_cases hempty : p.components = []
  · rw [hempty]
    exact .refl t
  · refine (adds_makeDirectories ht _).mono ?_
    rintro q ⟨lead, hne, hlead, rfl⟩
    rw [List.tail_reverse, List.reverse_reverse] at hlead
    refine ⟨lead, hne, hlead.trans (List.dropLast_prefix _), ?_, rfl⟩
    rintro rfl
    have hlength := hlead.length_le
    have hpos := List.length_pos_iff.2 hempty
    rw [List.length_dropLast] at hlength
    omega

/-! ## Files -/

theorem getElem?_writeFile_of_ne (ht : t.LinkFree) {p : Path} {content : ByteArray}
    (h : t.writeFile p content time = .ok u) (hq : p.place t.home ≠ q) :
    u.nodes[q]? = t.nodes[q]? := by
  obtain ⟨place, hadmits, hplace, rfl⟩ := exists_put_of_writeFile h
  obtain ⟨-, -, rfl⟩ := (locateNew_eq_ok_iff ht).1 hplace
  rw [getElem?_put, if_neg hq]

theorem getElem?_copyFile_of_ne (ht : t.LinkFree) {source p : Path}
    (h : t.copyFile source p time = .ok u) (hq : p.place t.home ≠ q) :
    u.nodes[q]? = t.nodes[q]? := by
  obtain ⟨origin, place, content, old, hadmits, -, -, hplace, rfl⟩ := exists_put_of_copyFile h
  obtain ⟨-, -, rfl⟩ := (locateNew_eq_ok_iff ht).1 hplace
  rw [getElem?_put, if_neg hq]

end FileTree

end Stencil
