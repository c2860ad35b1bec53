import Stencil.Proofs.FileTree.Grounded

/-!
# Files in the way

The directories that an output below a grounded root needs can be made exactly when no file
stands where one of them belongs: a file in the way stops them
(`exists_makeParents_of_obstructed`), and nothing else does
(`Grounded.obstructed_of_makeParents`).
-/

namespace Stencil

/-- A path made of names below another passes the prefixes of the way to its last name. -/
theorem Path.passes_join_ofNames (root : Path) {names : List String} {home q : Place}
    (hnames : ∀ n ∈ names, isFileName n = true) (hne : names ≠ []) :
    (root.join (.ofNames names)).Passes home q ↔ ∃ lead, lead ≠ [] ∧
      lead <+: root.components ++ names.dropLast.map .name ∧ q = follow home lead := by
  have hsplit : root.components ++ names.map Component.name =
      root.components ++ names.dropLast.map .name ++ [.name (names.getLast hne)] := by
    conv_lhs => rw [← List.dropLast_concat_getLast hne]
    simp
  unfold Passes
  rw [components_join_ofNames root hnames, hsplit]
  refine exists_congr fun lead => and_congr_right fun _ => ?_
  rw [← and_assoc]
  refine and_congr_left fun _ => ?_
  constructor
  · rintro ⟨hlead, hproper⟩
    exact (List.prefix_concat_iff.1 hlead).resolve_left hproper
  · intro hlead
    refine ⟨hlead.trans (List.prefix_append ..), ?_⟩
    rintro rfl
    have hlength := hlead.length_le
    rw [List.length_append, List.length_singleton] at hlength
    omega

namespace FileTree

variable {t u : FileTree} {root : Path} {place q : Place} {lead : List Component}
  {names : List String} {time : Int}

/-- A file stands where the path needs a directory. -/
def Obstructed (t : FileTree) (p : Path) : Prop := ∃ q, p.Passes t.home q ∧ (t.file? q).isSome

instance (t : FileTree) (p : Path) : Decidable (t.Obstructed p) :=
  decidable_of_iff (∃ lead ∈ p.components.inits, lead ≠ [] ∧ lead ≠ p.components ∧
    (t.file? (follow t.home lead)).isSome) <| by
    constructor
    · rintro ⟨lead, hmem, hne, hproper, hfile⟩
      exact ⟨_, ⟨lead, hne, (List.mem_inits ..).1 hmem, hproper, rfl⟩, hfile⟩
    · rintro ⟨q, ⟨lead, hne, hlead, hproper, rfl⟩, hfile⟩
      exact ⟨lead, (List.mem_inits ..).2 hlead, hne, hproper, hfile⟩

theorem not_isDirectory_of_file? (h : (t.file? place).isSome) : ¬ t.IsDirectory place := by
  intro hdir
  obtain ⟨⟨content, time⟩, hfile⟩ := Option.isSome_iff_exists.1 h
  obtain ⟨stamp, hnode⟩ := exists_of_isDirectory hdir
  rw [file?_eq_some_iff, hnode] at hfile
  cases hfile

/-- In a tree without links what exists is a directory or a file. -/
theorem isDirectory_or_file? (ht : t.LinkFree) (h : place ∈ t.nodes) :
    t.IsDirectory place ∨ (t.file? place).isSome := by
  obtain ⟨node, hnode⟩ := Option.isSome_iff_exists.1 (Std.ExtTreeMap.mem_iff_isSome_getElem?.1 h)
  cases node with
  | file content time => exact .inr (by rw [file?_eq_some_iff.2 hnode]; rfl)
  | directory time =>
    left
    unfold IsDirectory Nodes.IsDirectory
    rw [hnode]
    rfl
  | link target => exact absurd hnode (ht _ _)

/-! ## A file stops what needs a directory -/

section

variable (hnames : ∀ n ∈ names, isFileName n = true) (hne : names ≠ [])

include hnames hne

/-- Where the way to the last name is one of directories no file is in the way. -/
theorem not_obstructed_of_leads (h : t.Leads (root.components ++ names.dropLast.map .name)) :
    ¬ t.Obstructed (root.join (.ofNames names)) := by
  rintro ⟨q, hpass, hfile⟩
  obtain ⟨lead, -, ⟨rest, hrest⟩, rfl⟩ := (Path.passes_join_ofNames root hnames hne).1 hpass
  rw [← hrest] at h
  exact not_isDirectory_of_file? hfile h.of_append.2

theorem leads_of_locate_join (ht : t.LinkFree)
    (h : t.locate (root.join (.ofNames names)) = .ok place) :
    t.Leads (root.components ++ names.dropLast.map .name) := by
  obtain ⟨-, hpass, -⟩ := (locate_eq_ok_iff ht).1 h
  rw [Path.steps_join_ofNames root hnames hne, ← List.dropLast_concat_getLast hne, List.map_append,
    ← List.append_assoc, List.map_singleton, passable_append] at hpass
  obtain ⟨hfront, hlast⟩ := hpass
  have hsteps : t.Leads (root.lead ++ root.parts ++ names.dropLast.map .name) := ⟨hfront, hlast.1⟩
  rw [← leads_filter_here, List.filter_append] at hsteps ⊢
  rwa [Path.filter_here_components]

/-- What can be located has no file in its way. -/
theorem not_obstructed_of_locate (ht : t.LinkFree)
    (h : t.locate (root.join (.ofNames names)) = .ok place) :
    ¬ t.Obstructed (root.join (.ofNames names)) :=
  not_obstructed_of_leads hnames hne (leads_of_locate_join hnames hne ht h)

/-- With a file in the way directories cannot be made. -/
theorem exists_makeParents_of_obstructed (ht : t.LinkFree) (hhome : t.IsDirectory t.home)
    (h : t.Obstructed (root.join (.ofNames names))) (time : Int) :
    ∃ u cause, t.makeParents time (root.join (.ofNames names)) = (u, .error cause) := by
  have hgrows : t.Grows (t.makeParents time (root.join (.ofNames names))).1 := grows_makeParents
  cases hmade : t.makeParents time (root.join (.ofNames names)) with
  | mk u result =>
  rw [hmade] at hgrows
  cases result with
  | error cause => exact ⟨u, cause, rfl⟩
  | ok made =>
    obtain ⟨q, hpass, hfile⟩ := h
    have hleads := leads_of_makeParents ht hhome hnames hne hmade
    refine absurd ⟨q, ?_, ?_⟩ (not_obstructed_of_leads hnames hne hleads)
    · rw [hgrows.home]
      exact hpass
    · rw [hgrows.files]
      exact hfile

end

/-! ## Nothing else stops it -/

/-- Without links a walk takes steps that can be taken. -/
theorem walkWith_append (ht : t.LinkFree)
    {onLink : Place → Path → List Component → Except IoFailure Place} {rest : List Component}
    (h : t.Passable false place lead) :
    t.walkWith false onLink place (lead ++ rest) = t.walkWith false onLink (follow place lead) rest := by
  induction lead generalizing place with
  | nil => rfl
  | cons step lead ih =>
    obtain ⟨hdir, hname, hpass⟩ := h
    rw [List.cons_append, walkWith.eq_def]
    simp only [if_pos hdir]
    cases step with
    | root | here | up => exact ih hpass
    | name n =>
      have hmem := (hname n rfl).resolve_right (by simp)
      obtain ⟨node, hnode⟩ :=
        Option.isSome_iff_exists.1 (Std.ExtTreeMap.mem_iff_isSome_getElem?.1 hmem)
      cases node with
      | link target => exact absurd hnode (ht _ _)
      | file content time | directory time =>
        simp only [hnode]
        exact ih hpass

/-- Where no file is in the way a walk by names ends there or misses something. -/
theorem walkWith_names (ht : t.LinkFree)
    {onLink : Place → Path → List Component → Except IoFailure Place} (hdir : t.IsDirectory place)
    (hno : ∀ front, front <+: names → t.file? (place ++ front) = none) :
    t.walkWith false onLink place (names.map .name) = .error .notFound ∨
      t.IsDirectory (place ++ names) := by
  induction names generalizing place with
  | nil => exact .inr (by rwa [List.append_nil])
  | cons n names ih =>
    rw [List.map_cons, walkWith.eq_def]
    simp only [if_pos hdir]
    cases hnode : t.nodes[place ++ [n]]? with
    | none =>
      left
      rfl
    | some node =>
      have hfile := hno [n] ⟨names, rfl⟩
      cases node with
      | link target => exact absurd hnode (ht _ _)
      | file content time =>
        rw [file?_eq_some_iff.2 hnode] at hfile
        cases hfile
      | directory time =>
        have hnext : t.IsDirectory (place ++ [n]) := by
          unfold IsDirectory Nodes.IsDirectory
          rw [hnode]
          rfl
        have hrest := ih hnext fun front hfront => by
          rw [List.append_assoc]
          exact hno (n :: front) (List.cons_prefix_cons.2 ⟨rfl, hfront⟩)
        rwa [List.append_assoc] at hrest

theorem walk_names (ht : t.LinkFree) (hlead : t.Leads lead) {links : Nat}
    (hno : ∀ front, front <+: names → t.file? (follow t.home lead ++ front) = none) :
    t.walk false links t.home (lead ++ names.map .name) = .error .notFound ∨
      t.IsDirectory (follow t.home lead ++ names) := by
  cases links <;>
  · rw [walk, walkWith_append ht hlead.1]
    exact walkWith_names ht hlead.2 hno

/-- With no file in the way, a directory that cannot be made is there or its parent is not. -/
theorem makeDirectory_of_no_file (ht : t.LinkFree) (hlead : t.Leads lead) {n : String}
    (hno : ∀ front, front <+: names ++ [n] → t.file? (follow t.home lead ++ front) = none)
    {e : IoFailure} (h : t.makeDirectory time (lead ++ names.map .name) (.name n) = .error e) :
    e = .notFound ∨ t.IsDirectory (follow t.home lead ++ (names ++ [n])) := by
  rcases walk_names ht hlead fun front hfront => hno front (hfront.trans (List.prefix_append ..))
    with hmissing | hdir
  · left
    rw [makeDirectory, hmissing] at h
    cases h
    rfl
  · rw [makeDirectory_of_leads ht (hlead.append_names hdir)] at h
    simp only at h
    rw [follow_append, follow_names, List.append_assoc] at h
    by_cases hnode : (t.nodes[follow t.home lead ++ (names ++ [n])]?).isSome
    · right
      have hmem := Std.ExtTreeMap.mem_iff_isSome_getElem?.2 hnode
      refine (isDirectory_or_file? ht hmem).resolve_right ?_
      rw [hno _ List.prefix_rfl]
      simp
    · left
      rw [if_neg hnode] at h
      split at h
      · cases h
      · cases h
        rfl

/-- Directories by names from a directory can be made when no file is in the way. -/
theorem exists_makeDirectories_of_no_file (ht : t.LinkFree) (hlead : t.Leads lead)
    (hnames : ∀ n ∈ names, isFileName n = true)
    (hno : ∀ front, front <+: names → t.file? (follow t.home lead ++ front) = none) (time : Int) :
    ∃ u, makeDirectories time (lead ++ names.map Component.name).reverse t = (u, .ok ()) := by
  induction names using List.reverseRecOn with
  | nil => exact ⟨t, makeDirectories_of_leads ht (by simpa using hlead)⟩
  | append_singleton names n ih =>
    by_cases hdir : t.IsDirectory (follow t.home lead ++ (names ++ [n]))
    · exact ⟨t, makeDirectories_of_leads ht
        (by rw [List.reverse_reverse]; exact hlead.append_names hdir)⟩
    obtain ⟨v, hup⟩ := ih (fun m hm => hnames m (List.mem_append_left _ hm))
      fun front hfront => hno front (hfront.trans (List.prefix_append ..))
    have hpath : (lead ++ (names ++ [n]).map Component.name).reverse =
        .name n :: (lead ++ names.map Component.name).reverse := by
      simp
    rw [hpath, makeDirectories, List.reverse_reverse]
    cases hmade : t.makeDirectory time (lead ++ names.map .name) (.name n) with
    | ok w => exact ⟨w, rfl⟩
    | error e =>
      obtain rfl := (makeDirectory_of_no_file ht hlead hno hmade).resolve_right hdir
      obtain ⟨w, hmade'⟩ := exists_makeDirectory_of_makeDirectories ht hlead
        (hnames n (by simp)) hmade hup
      exact ⟨w, by simp only [hup, hmade']⟩

variable {others : List String}

/-- Below a grounded root directories cannot be made only with a file in the way. -/
theorem Grounded.obstructed_of_makeParents (hroot : t.Grounded root) (ht : t.LinkFree)
    (hhome : t.IsDirectory t.home) (hnames : ∀ n ∈ names, isFileName n = true) (hne : names ≠ [])
    {e : IoFailure} (h : t.makeParents time (root.join (.ofNames names)) = (u, .error e)) :
    t.Obstructed (root.join (.ofNames names)) := by
  obtain ⟨lead, above, hlead, hsplit, -, hvalid⟩ := hroot.exists_leads_join hhome
    fun n hn => hnames n (List.dropLast_subset names hn)
  by_contra hfree
  have hno : ∀ front, front <+: above ++ names.dropLast →
      t.file? (follow t.home lead ++ front) = none := by
    intro front hfront
    rw [← Option.not_isSome_iff_eq_none]
    intro hfile
    have hnil : front ≠ [] := by
      rintro rfl
      rw [List.append_nil] at hfile
      exact not_isDirectory_of_file? hfile hlead.2
    refine hfree ⟨_, (Path.passes_join_ofNames root hnames hne).2
      ⟨lead ++ front.map .name, by simp [hnil], ?_, ?_⟩, hfile⟩
    · rw [hsplit, List.append_assoc, ← List.map_append, List.prefix_append_right_inj]
      exact hfront.map _
    · rw [follow_append, follow_names]
  obtain ⟨v, hmade⟩ := exists_makeDirectories_of_no_file ht hlead hvalid hno time
  unfold makeParents at h
  rw [← List.dropLast_concat_getLast hne, Path.tail_reverse_components_join root
    (by rwa [List.dropLast_concat_getLast]), hsplit, List.append_assoc, ← List.map_append, hmade] at h
  cases h

/-- Below a grounded root an output passes the place of another only as a directory that is
there, or by the names of that other one. -/
theorem Grounded.of_passes (hroot : t.Grounded root) (hhome : t.IsDirectory t.home)
    (hnames : ∀ n ∈ names, isFileName n = true) (hne : names ≠ [])
    (h : (root.join (.ofNames names)).Passes t.home (root.place t.home ++ others)) :
    t.IsDirectory (root.place t.home ++ others) ∨ others <+: names := by
  obtain ⟨lead, above, hlead, hsplit, hplace, -⟩ := hroot.exists_leads_join hhome hnames
  obtain ⟨way, -, hway, heq⟩ := (Path.passes_join_ofNames root hnames hne).1 h
  rw [hsplit, List.append_assoc, ← List.map_append] at hway
  rcases List.prefix_or_prefix_of_prefix hway (List.prefix_append lead _) with hbefore | hafter
  · -- the way to the last directory passes directories
    obtain ⟨rest, rfl⟩ := hbefore
    left
    rw [heq]
    exact hlead.of_append.2
  · -- behind it the names of the root come first, so the others begin the names
    right
    obtain ⟨rest, rfl⟩ := hafter
    rw [List.prefix_append_right_inj] at hway
    obtain ⟨front, hfront, rfl⟩ := List.prefix_map_iff.1 hway
    rw [follow_append, follow_names, hplace, List.append_assoc] at heq
    rw [← List.append_cancel_left heq, List.prefix_append_right_inj] at hfront
    exact hfront.trans (List.dropLast_prefix _)

end FileTree

end Stencil
