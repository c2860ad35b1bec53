import Mathlib.Data.List.Nodup
import Mathlib.Data.List.Perm.Subperm
import Stencil.Proofs.Inventory

/-!
# A walk is determined by what it finds

In a tree without links a walk comes to its end (`exists_findFiles`), and it lists the files
in the order of their names. So two walks that find the same files list them alike
(`eq_of_mem_iff`).
-/

namespace Stencil

variable {t : FileTree} {root : Path}

/-! ## The end of a walk -/

namespace FileTree

/-- A place lies no deeper than there are nodes, since it stands below each of its prefixes. -/
theorem length_lt_size {place : Place} (h : place ∈ t.nodes) : place.length < t.nodes.size := by
  let above : List Place := (List.range (place.length + 1)).map fun i => place.take i
  have hnodup : above.Nodup := by
    refine List.Nodup.map_on ?_ List.nodup_range
    intro i hi j hj hij
    rw [List.mem_range] at hi hj
    have hlength := congrArg List.length hij
    rw [List.length_take, List.length_take] at hlength
    omega
  have hsubset : above ⊆ t.nodes.keys := by
    intro q hq
    obtain ⟨i, -, rfl⟩ := List.mem_map.1 hq
    rw [Std.ExtTreeMap.mem_keys]
    by_cases hrest : place.drop i = []
    · have hwhole : place.take i = place := by
        rw [← List.take_append_drop i place, hrest, List.append_nil, List.take_take, Nat.min_self]
      rw [hwhole]
      exact h
    · refine mem_nodes_of_isDirectory (isDirectory_of_mem_append ?_ hrest)
      rw [List.take_append_drop]
      exact h
  have hle := (hnodup.subperm hsubset).length_le
  rw [Std.ExtTreeMap.length_keys, List.length_map, List.length_range] at hle
  omega

/-- A walk that may go down as deep as the tree comes to its end. -/
theorem exists_filesBelow (ht : t.LinkFree) {depth : Nat} {above : List Station}
    {here : Station} {names : List String} (hhere : here.place ∈ t.nodes)
    (hdepth : ∀ q ∈ t.nodes, q.length < here.place.length + depth) :
    ∃ files, t.filesBelow depth above here names = .ok files := by
  induction depth generalizing above here names with
  | zero =>
    have hlt := hdepth _ hhere
    omega
  | succ depth ih =>
    have hparts : ∃ parts, (t.children here.place).mapM
        (t.filesOfEntry depth (here :: above) here names) = .ok parts := by
      apply Stages.exists_mapM_eq_ok
      rintro ⟨name, node⟩ hentry
      have hnode := mem_children.1 hentry
      cases node with
      | link target => exact absurd hnode (ht _ _)
      | file content time => exact ⟨_, rfl⟩
      | directory time =>
        refine ih ?_ ?_
        · rw [Std.ExtTreeMap.mem_iff_isSome_getElem?, hnode]
          rfl
        · intro q hq
          have hlt := hdepth q hq
          simp only [List.length_append, List.length_singleton]
          omega
    obtain ⟨parts, hparts⟩ := hparts
    rw [filesBelow_eq ht, hparts]
    exact ⟨_, rfl⟩

end FileTree

/-- In a tree without links every walk comes to its end. -/
theorem exists_findFiles (ht : t.LinkFree) (root : Path) : ∃ files, findFiles t root = .ok files := by
  unfold findFiles
  split
  · exact ⟨[], rfl⟩
  · next place hplace =>
    by_cases hdir : t.IsDirectory place
    · rw [if_pos hdir]
      refine FileTree.exists_filesBelow ht (FileTree.mem_nodes_of_isDirectory hdir) ?_
      intro q hq
      have hlt := FileTree.length_lt_size hq
      have hlimit : t.nodes.size ≤ t.depthLimit := by
        unfold FileTree.depthLimit
        exact Nat.le_trans (Nat.le_add_right _ 2) (Nat.le_mul_of_pos_right _ (by omega))
      simp only
      omega
    · rw [if_neg hdir]
      exact ⟨[], rfl⟩

/-! ## The order of a walk -/

/-- The names that a path is made of. -/
def Path.names (p : Path) : List String :=
  p.components.filterMap fun
    | .name n => some n
    | _ => none

theorem Path.names_ofNames {names : List String} (h : ∀ n ∈ names, isFileName n = true) :
    (Path.ofNames names).names = names := by
  unfold Path.names
  rw [components_ofNames h, List.filterMap_map]
  exact List.filterMap_some

/-- The walk lists the first file before the second. -/
def Source.Before (a b : Source) : Prop := compare a.rel.names b.rel.names = .lt

theorem Source.Before.asymm {a b : Source} (h : a.Before b) : ¬ b.Before a := by
  have hswap : compare b.rel.names a.rel.names = (compare a.rel.names b.rel.names).swap :=
    Std.OrientedCmp.eq_swap
  unfold Source.Before at *
  rw [hswap, h]
  simp

theorem Source.not_before_self (a : Source) : ¬ a.Before a := by
  intro h
  exact h.asymm h

/-- Lists in the order of a walk are equal when they have the same members. -/
theorem eq_of_mem_iff {l l' : List Source} (h : l.Pairwise Source.Before)
    (h' : l'.Pairwise Source.Before) (hmem : ∀ s, s ∈ l ↔ s ∈ l') : l = l' := by
  have hnodup : ∀ {k : List Source}, k.Pairwise Source.Before → k.Nodup := by
    intro k hk
    refine hk.imp ?_
    rintro a b hab rfl
    exact a.not_before_self hab
  refine List.Perm.eq_of_pairwise ?_ h h' ((List.perm_ext_iff_of_nodup (hnodup h) (hnodup h')).2 hmem)
  intro a b _ _ hab hba
  exact absurd hba hab.asymm

theorem compare_append_left (front a b : List String) :
    compare (front ++ a) (front ++ b) = compare a b := by
  induction front with
  | nil => rfl
  | cons n front ih =>
    have hself : compare n n = .eq := Std.ReflCmp.compare_self
    rw [List.cons_append, List.cons_append, List.compare_eq_compareLex, List.compareLex_cons_cons,
      hself, Ordering.eq_then, ← List.compare_eq_compareLex]
    exact ih

theorem compare_cons_of_lt {a b : String} (h : compare a b = .lt) (x y : List String) :
    compare (a :: x) (b :: y) = .lt := by
  rw [List.compare_eq_compareLex, List.compareLex_cons_cons, h]
  rfl

namespace FileTree

/-- The entries of a directory are listed by name. -/
theorem ordered_children (place : Place) :
    (t.children place).Pairwise fun a b => compare a.1 b.1 = .lt := by
  unfold children
  rw [List.pairwise_filterMap]
  refine t.nodes.ordered_keys_toList.imp ?_
  rintro ⟨q, node⟩ ⟨q', node'⟩ hlt a ha b hb
  simp only at ha hb
  split at ha
  · next hq =>
    split at hb
    · next hq' =>
      obtain ⟨last, hlast, rfl⟩ := Option.map_eq_some_iff.1 ha
      obtain ⟨last', hlast', rfl⟩ := Option.map_eq_some_iff.1 hb
      obtain ⟨front, rfl⟩ := List.getLast?_eq_some_iff.1 hlast
      obtain ⟨front', rfl⟩ := List.getLast?_eq_some_iff.1 hlast'
      rw [List.dropLast_concat] at hq hq'
      simp only at hlt
      rw [hq.2, hq'.2, compare_append_left] at hlt
      have hnil : List.compareLex compare ([] : List String) [] = .eq := rfl
      rw [List.compare_eq_compareLex, List.compareLex_cons_cons, hnil, Ordering.then_eq] at hlt
      exact hlt
    · cases hb
  · cases ha

/-- A walk lists the files in the order of their names. -/
theorem ordered_filesBelow (ht : t.LinkFree) {depth : Nat} {above : List Station}
    {here : Station} {names : List String} {files : List Source}
    (hnames : ∀ n ∈ names, isFileName n = true)
    (h : t.filesBelow depth above here names = .ok files) : files.Pairwise Source.Before := by
  induction depth generalizing above here names files with
  | zero => cases h
  | succ depth ih =>
    obtain ⟨parts, hparts, rfl⟩ := filesBelow_succ ht h
    refine List.pairwise_flatten.2 ⟨?_, ?_⟩
    · -- two files of one entry
      intro part hpart
      obtain ⟨⟨name, node⟩, hentry, hresult⟩ := (Stages.mem_of_mapM hparts).1 hpart
      have hnode := mem_children.1 hentry
      cases node with
      | link target => exact absurd hnode (ht _ _)
      | file content time =>
        cases hresult
        exact List.pairwise_singleton ..
      | directory time =>
        have hmem : here.place ++ [name] ∈ t.nodes := by
          rw [Std.ExtTreeMap.mem_iff_isSome_getElem?, hnode]
          rfl
        refine ih ?_ hresult
        intro n hn
        rcases List.mem_append.1 hn with hn | hn
        · exact hnames n hn
        · exact isFileName_of_mem hmem n hn
    · -- files of two entries
      have hentries : (t.children here.place).Pairwise fun a b =>
          a ∈ t.children here.place ∧ b ∈ t.children here.place ∧ compare a.1 b.1 = .lt := by
        refine (ordered_children here.place).imp_of_mem ?_
        intro a b ha hb hlt
        exact ⟨ha, hb, hlt⟩
      refine Stages.pairwise_of_mapM hparts hentries ?_
      rintro a b part part' ⟨ha, hb, hlt⟩ hpart hpart' s hs s' hs'
      obtain ⟨rest, hrel, hvalid⟩ := rel_of_filesOfEntry ht hnames ha hpart hs
      obtain ⟨rest', hrel', hvalid'⟩ := rel_of_filesOfEntry ht hnames hb hpart' hs'
      unfold Source.Before
      rw [hrel, hrel', Path.names_ofNames hvalid, Path.names_ofNames hvalid', compare_append_left]
      exact compare_cons_of_lt hlt _ _

end FileTree

theorem ordered_findFiles (ht : t.LinkFree) {files : List Source}
    (h : findFiles t root = .ok files) : files.Pairwise Source.Before := by
  unfold findFiles at h
  split at h
  · cases h
    exact .nil
  · split at h
    · exact FileTree.ordered_filesBelow ht (by simp) h
    · cases h
      exact .nil

/-- No two files that a walk finds have the same path below the root. -/
theorem pairwise_findFiles (ht : t.LinkFree) {files : List Source}
    (h : findFiles t root = .ok files) : files.Pairwise fun a b => ¬ a.rel.Same b.rel := by
  refine (ordered_findFiles ht h).imp ?_
  intro a b hbefore hsame
  have hnames : a.rel.names = b.rel.names := by
    unfold Path.names
    rw [hsame]
  unfold Source.Before at hbefore
  rw [hnames] at hbefore
  have hself : compare b.rel.names b.rel.names = .eq := Std.ReflCmp.compare_self
  rw [hself] at hbefore
  cases hbefore

/-- The files found before another have other paths. -/
theorem not_same_of_mem_take (ht : t.LinkFree) {files : List Source}
    (h : findFiles t root = .ok files) {i : Nat} {file : Source} (hfile : files[i]? = some file) :
    ∀ other ∈ files.take i, ¬ other.rel.Same file.rel := by
  have hpairwise := pairwise_findFiles ht h
  obtain ⟨hlt, hat⟩ := List.getElem?_eq_some_iff.1 hfile
  rw [← List.take_append_drop i files, List.drop_eq_getElem_cons hlt, hat,
    List.pairwise_append] at hpairwise
  obtain ⟨-, -, hapart⟩ := hpairwise
  intro other hother
  exact hapart other hother file List.mem_cons_self

end Stencil
