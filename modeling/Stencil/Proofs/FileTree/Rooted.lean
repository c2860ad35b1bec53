import Stencil.Proofs.FileTree.Obstacle

/-!
# Paths that go up from a file

A rooted path that is not grounded goes up from a file at some point. No walk comes past that
file, so nothing is ever made below such a path (`Rooted.makeParents_of_not_grounded`), and as
long as files stay files the path is not grounded later on either (`Rooted.grounded_iff`).
-/

namespace Stencil.FileTree

variable {t u : FileTree} {root p : Path} {lead rest : List Component} {names : List String}
  {time : Int}

/-- Whether a rooted path is grounded does not change while the tree grows and files stay. -/
theorem Rooted.grounded_iff (hp : t.Rooted p) (ht : t.LinkFree) (hextends : t.Extends u)
    (hkept : ∀ q, (t.file? q).isSome → (u.file? q).isSome) : u.Grounded p ↔ t.Grounded p := by
  constructor
  · intro hgrounded lead rest hsplit
    have hdir := hgrounded lead rest hsplit
    rw [hextends.home] at hdir
    refine (isDirectory_or_file? ht (hp lead rest hsplit)).resolve_right fun hfile => ?_
    exact not_isDirectory_of_file? (hkept _ hfile) hdir
  · exact hextends.grounded

section Stuck

variable (hpass : t.Passable false t.home lead) (hend : ¬ t.IsDirectory (follow t.home lead))

include hpass hend

/-- A walk does not go up from what is no directory. -/
theorem walk_of_stuck (ht : t.LinkFree) (links : Nat) :
    t.walk false links t.home (lead ++ .up :: rest) = .error .notDirectory := by
  cases links <;>
  · rw [walk, walkWith_append ht hpass, walkWith.eq_def]
    simp only [if_neg hend]

/-- So no directory is made behind it, and none in front of it is missing. -/
theorem makeDirectories_of_stuck (ht : t.LinkFree) :
    makeDirectories time (lead ++ .up :: rest).reverse t = (t, .error .notDirectory) := by
  have hwalk : ∀ {rest}, t.walk false linkLimit t.home (lead ++ .up :: rest) =
      .error .notDirectory := walk_of_stuck hpass hend ht linkLimit
  obtain ⟨front, last, hsplit, hmade⟩ : ∃ front last, lead ++ .up :: rest = front ++ [last] ∧
      t.makeDirectory time front last = .error .notDirectory := by
    cases rest using List.reverseRecOn with
    | nil =>
      refine ⟨lead, .up, rfl, ?_⟩
      have hlead : t.walk false linkLimit t.home lead = .ok (follow t.home lead) :=
        (walk_eq_ok_iff ht).2 ⟨hpass, rfl⟩
      rw [makeDirectory, hlead, Stages.ok_bind, if_neg hend]
    | append_singleton rest last =>
      refine ⟨lead ++ .up :: rest, last, by simp, ?_⟩
      rw [makeDirectory, hwalk]
      rfl
  have hleads : t.leadsToDirectory (front ++ [last]) = false := by
    rw [leadsToDirectory, ← hsplit, hwalk]
  rw [hsplit, List.reverse_append, List.reverse_singleton, List.singleton_append, makeDirectories,
    List.reverse_reverse, hmade]
  simp [hleads]

end Stuck

section Parents

variable (hroot : t.Rooted root) (ht : t.LinkFree) (hhome : t.IsDirectory t.home)
  (hnames : ∀ n ∈ names, isFileName n = true) (hne : names ≠ [])

include hroot ht hhome hnames hne

/-- Nothing is made below a path that goes up from a file. -/
theorem Rooted.makeParents_of_not_grounded (hnot : ¬ t.Grounded root) :
    t.makeParents time (root.join (.ofNames names)) = (t, .error .notDirectory) := by
  obtain ⟨lead, rest, hsplit, hpass, hend⟩ := (hroot.exists_leads_or_stuck hhome).resolve_left
    fun ⟨_, _, hsplit, hlead⟩ => hnot (grounded_of_leads hsplit hlead)
  obtain ⟨front, n, rfl⟩ : ∃ front n, names = front ++ [n] :=
    ⟨_, _, (List.dropLast_concat_getLast hne).symm⟩
  rw [makeParents, Path.tail_reverse_components_join root hnames, hsplit, List.append_assoc,
    List.cons_append]
  exact makeDirectories_of_stuck hpass hend ht

theorem Rooted.grounded_of_makeParents
    (h : t.makeParents time (root.join (.ofNames names)) = (u, .ok ())) : t.Grounded root := by
  by_contra hnot
  rw [hroot.makeParents_of_not_grounded ht hhome hnames hne hnot] at h
  cases h

/-- Making the directories for an output succeeds or changes nothing. -/
theorem Rooted.tree_of_makeParents {e : IoFailure}
    (h : t.makeParents time (root.join (.ofNames names)) = (u, .error e)) : u = t := by
  by_cases hgrounded : t.Grounded root
  · exact hgrounded.tree_of_makeParents ht hhome hnames hne h
  · rw [hroot.makeParents_of_not_grounded ht hhome hnames hne hgrounded] at h
    cases h
    rfl

end Parents

end Stencil.FileTree
