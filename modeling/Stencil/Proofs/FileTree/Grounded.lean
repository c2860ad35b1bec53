import Mathlib.Data.List.Infix
import Stencil.Proofs.FileTree.Changes

/-!
# Paths that go up from directories

A path is grounded when every `..` in it goes up from a directory that exists. Such a path
is a way to a directory followed by plain names (`Grounded.exists_leads`), so it can be
located once its place exists (`Grounded.locate`), and making directories along it either
succeeds or changes nothing (`tree_of_makeDirectories`). A path is rooted when every `..` in
it goes up from something that exists, be it a file: then it is such a way, or the first steps
of it lead to what it cannot go up from (`Rooted.exists_leads_or_stuck`).
-/

namespace Stencil

namespace Path

/-- Only the first component of a path can be the place itself. -/
theorem here_not_mem_tail_components (p : Path) : .here ∉ p.components.tail := by
  intro hmem
  unfold components at hmem
  split at hmem
  · simp at hmem
  · cases hp : p.parts with
    | nil => simp [hp] at hmem
    | cons first rest => simp [hp] at hmem

/-- But for steps to the place itself the components are the steps of the path. -/
theorem filter_here_components (p : Path) :
    p.components.filter (· ≠ .here) = (p.lead ++ p.parts).filter (· ≠ .here) := by
  unfold components lead
  by_cases habs : p.isAbsolute
  · rw [if_pos habs, if_pos habs]
    simp [List.filter_filter]
  · rw [if_neg habs, if_neg habs, List.nil_append]
    cases p.parts with
    | nil => rfl
    | cons first rest => simp [List.filter_cons, List.filter_filter]

theorem filter_here_trail (p : Path) : p.trail.filter (· ≠ .here) = [] := by
  unfold trail
  split <;> simp

/-- The components that lead to the parent of a path made of names below another. -/
theorem tail_reverse_components_join (p : Path) {front : List String} {n : String}
    (h : ∀ m ∈ front ++ [n], isFileName m = true) :
    (p.join (ofNames (front ++ [n]))).components.reverse.tail =
      (p.components ++ front.map Component.name).reverse := by
  rw [components_join_ofNames p h, List.map_append, ← List.append_assoc, List.map_singleton,
    List.reverse_append]
  rfl

end Path

namespace FileTree

variable {t u : FileTree} {p : Path} {place q : Place} {steps lead : List Component}
  {names : List String} {time : Int}

/-! ## Ways to a directory -/

/-- The steps lead from where paths start to a directory. -/
def Leads (t : FileTree) (steps : List Component) : Prop :=
  t.Passable false t.home steps ∧ t.IsDirectory (follow t.home steps)

theorem isDirectory_dropLast (h : t.IsDirectory place) : t.IsDirectory place.dropLast := by
  by_cases hplace : place = []
  · rw [hplace]
    exact t.root
  · exact t.parent place (mem_nodes_of_isDirectory h) hplace

/-- A way that ends in a directory starts in one. -/
theorem isDirectory_of_passable (h : t.Passable false place steps)
    (hend : t.IsDirectory (follow place steps)) : t.IsDirectory place := by
  cases steps with
  | nil => exact hend
  | cons step steps => exact h.1

/-- The way to a directory passes directories. -/
theorem Leads.of_append {rest : List Component} (h : t.Leads (lead ++ rest)) : t.Leads lead := by
  obtain ⟨hpass, hend⟩ := h
  obtain ⟨hfirst, hrest⟩ := passable_append.1 hpass
  rw [follow_append] at hend
  exact ⟨hfirst, isDirectory_of_passable hrest hend⟩

/-- Names lead on to a directory when one is there. -/
theorem Leads.append_names (h : t.Leads lead) (hdir : t.IsDirectory (follow t.home lead ++ names)) :
    t.Leads (lead ++ names.map .name) := by
  constructor
  · exact passable_append.2 ⟨h.1, passable_names (mem_nodes_of_isDirectory hdir)⟩
  · rw [follow_append, follow_names]
    exact hdir

theorem Extends.leads (h : t.Extends u) (hlead : t.Leads lead) : u.Leads lead := by
  unfold Leads
  rw [h.home]
  exact ⟨h.passable hlead.1 nofun, h.directory _ hlead.2⟩

/-- On the way to a directory steps to the place itself do not matter. -/
theorem passable_filter_here (hend : t.IsDirectory (follow place steps)) :
    t.Passable false place (steps.filter (· ≠ .here)) ↔ t.Passable false place steps := by
  induction steps generalizing place with
  | nil => exact Iff.rfl
  | cons step steps ih =>
    have hrest := ih (show t.IsDirectory (follow (step.move place) steps) from hend)
    by_cases hstep : step = .here
    · subst hstep
      rw [List.filter_cons_of_neg (by simp)]
      constructor
      · intro h
        have hpass := hrest.1 h
        exact ⟨isDirectory_of_passable hpass hend, nofun, hpass⟩
      · intro h
        exact hrest.2 h.2.2
    · rw [List.filter_cons_of_pos (by simp [hstep])]
      unfold Passable
      simp only [Bool.false_eq_true, false_and, or_false]
      exact and_congr_right fun _ => and_congr_right fun _ => hrest

theorem leads_filter_here (steps : List Component) :
    t.Leads (steps.filter (· ≠ .here)) ↔ t.Leads steps := by
  unfold Leads
  rw [follow_filter_here]
  exact and_congr_left passable_filter_here

/-- The components of a path lead to a directory when its steps do. -/
theorem leads_components : t.Leads p.components ↔ t.Leads p.steps := by
  have hsteps : p.steps.filter (· ≠ .here) = (p.lead ++ p.parts).filter (· ≠ .here) := by
    rw [Path.steps_eq, List.filter_append _ p.trail, Path.filter_here_trail, List.append_nil]
  rw [← leads_filter_here, Path.filter_here_components, ← hsteps, leads_filter_here]

/-! ## Grounded paths -/

/-- Every `..` of the path goes up from a directory. -/
def Grounded (t : FileTree) (p : Path) : Prop :=
  ∀ lead rest, p.components = lead ++ .up :: rest → t.IsDirectory (follow t.home lead)

/-- A path to a directory is grounded. -/
theorem grounded_of_locate (ht : t.LinkFree) (hp : t.locate p = .ok place)
    (hdir : t.IsDirectory place) : t.Grounded p := by
  obtain ⟨-, hpass, rfl⟩ := (locate_eq_ok_iff ht).1 hp
  have hleads : t.Leads p.components := leads_components.2 ⟨hpass, hdir⟩
  intro lead rest hsplit
  rw [hsplit] at hleads
  exact hleads.of_append.2

theorem Extends.grounded (h : t.Extends u) (hp : t.Grounded p) : u.Grounded p := by
  intro lead rest hsplit
  rw [h.home]
  exact h.directory _ (hp lead rest hsplit)

/-- Every `..` of the path goes up from something that exists. -/
def Rooted (t : FileTree) (p : Path) : Prop :=
  ∀ lead rest, p.components = lead ++ .up :: rest → follow t.home lead ∈ t.nodes

/-- What holds in front of every `..` can be checked for the starts of a path. -/
theorem forall_up_iff {P : List Component → Prop} :
    (∀ front ∈ steps.inits, front.getLast? = some .up → P front.dropLast) ↔
      ∀ lead rest, steps = lead ++ .up :: rest → P lead := by
  constructor
  · rintro h lead rest rfl
    have hfront : lead ++ [.up] ∈ (lead ++ .up :: rest).inits :=
      (List.mem_inits ..).2 ⟨rest, by simp⟩
    simpa using h _ hfront
  · intro h front hfront hlast
    obtain ⟨lead, rfl⟩ := List.getLast?_eq_some_iff.1 hlast
    obtain ⟨rest, rfl⟩ := (List.mem_inits ..).1 hfront
    rw [List.dropLast_concat]
    exact h lead rest (by simp)

instance (t : FileTree) (p : Path) : Decidable (t.Grounded p) :=
  decidable_of_iff _ forall_up_iff

instance (t : FileTree) (p : Path) : Decidable (t.Rooted p) :=
  decidable_of_iff _ forall_up_iff

theorem Grounded.rooted (hp : t.Grounded p) : t.Rooted p := fun lead rest hsplit =>
  mem_nodes_of_isDirectory (hp lead rest hsplit)

theorem Extends.rooted (h : t.Extends u) (hp : t.Rooted p) : u.Rooted p := by
  intro lead rest hsplit
  rw [h.home]
  exact h.node _ (hp lead rest hsplit)

/-- A rooted path goes down by names from where its last `..` leads, unless it comes to a `..`
that goes up from what is no directory. -/
theorem Rooted.exists_leads_or_stuck (hp : t.Rooted p) (hhome : t.IsDirectory t.home) :
    (∃ (lead : List Component) (names : List String),
      p.components = lead ++ names.map .name ∧ t.Leads lead) ∨
    ∃ lead rest, p.components = lead ++ .up :: rest ∧ t.Passable false t.home lead ∧
      ¬ t.IsDirectory (follow t.home lead) := by
  rw [or_iff_not_imp_right]
  intro hfree
  -- shown for every part of the path from its start
  suffices hall : ∀ front, front <+: p.components →
      ∃ (lead : List Component) (names : List String), front = lead ++ names.map .name ∧
        t.Leads lead from hall p.components List.prefix_rfl
  intro front
  induction front using List.reverseRecOn with
  | nil =>
    intro _
    exact ⟨[], [], rfl, trivial, hhome⟩
  | append_singleton front step ih =>
    intro hfront
    obtain ⟨rest, hrest⟩ := hfront
    obtain ⟨lead, names, hsplit, hlead⟩ := ih ⟨step :: rest, by simp [← hrest]⟩
    have hstart : step ∉ p.components.tail → front = [] := by
      intro hnot
      cases front with
      | nil => rfl
      | cons head front =>
        rw [← hrest] at hnot
        simp at hnot
    cases step with
    | name n =>
      refine ⟨lead, names ++ [n], ?_, hlead⟩
      rw [hsplit, List.map_append, List.append_assoc]
      rfl
    | up =>
      have hcomponents : p.components = front ++ .up :: rest := by simp [← hrest]
      have hpass : t.Passable false t.home front := by
        have hmem := hp front rest hcomponents
        rw [hsplit, follow_append, follow_names] at hmem
        rw [hsplit]
        exact passable_append.2 ⟨hlead.1, passable_names hmem⟩
      have hup : t.IsDirectory (follow t.home front) := by
        by_contra hnot
        exact hfree ⟨front, rest, hcomponents, hpass, hnot⟩
      refine ⟨front ++ [.up], [], by simp, ?_, ?_⟩
      · exact passable_append.2 ⟨hpass, hup, nofun, trivial⟩
      · rw [follow_append]
        exact isDirectory_dropLast hup
    | here =>
      obtain rfl := hstart p.here_not_mem_tail_components
      exact ⟨[.here], [], rfl, ⟨hhome, nofun, trivial⟩, hhome⟩
    | root =>
      obtain rfl := hstart p.root_not_mem_tail_components
      exact ⟨[.root], [], rfl, ⟨hhome, nofun, trivial⟩, t.root⟩

/-- A grounded path goes down by names from where its last `..` leads. -/
theorem Grounded.exists_leads (hp : t.Grounded p) (hhome : t.IsDirectory t.home) :
    ∃ (lead : List Component) (names : List String),
      p.components = lead ++ names.map .name ∧ t.Leads lead := by
  refine (hp.rooted.exists_leads_or_stuck hhome).resolve_right ?_
  rintro ⟨lead, rest, hsplit, -, hnot⟩
  exact hnot (hp lead rest hsplit)

/-- Names at the end of a path go up nowhere. -/
theorem exists_of_append_names {front rest : List Component}
    (h : lead ++ names.map .name = front ++ .up :: rest) : ∃ more, lead = front ++ .up :: more := by
  have hnot : ∀ middle, names.map Component.name ≠ middle ++ .up :: rest := by
    intro middle heq
    have hmem : Component.up ∈ names.map Component.name := by simp [heq]
    simp at hmem
  rcases List.append_eq_append_iff.1 h with ⟨middle, -, hmiddle⟩ | ⟨middle, hlead, hrest⟩
  · exact absurd hmiddle (hnot middle)
  · cases middle with
    | nil => exact absurd hrest.symm (hnot [])
    | cons step more =>
      obtain ⟨rfl, -⟩ := List.cons.inj hrest
      exact ⟨more, hlead⟩

/-- A path that goes down by names from where a way leads is grounded. -/
theorem grounded_of_leads (hsplit : p.components = lead ++ names.map .name) (hlead : t.Leads lead) :
    t.Grounded p := by
  intro front rest hup
  obtain ⟨more, rfl⟩ := exists_of_append_names (hsplit.symm.trans hup)
  exact hlead.of_append.2

/-- Names below a grounded path go up nowhere. -/
theorem Grounded.join {root : Path} (h : t.Grounded root)
    (hnames : ∀ n ∈ names, isFileName n = true) : t.Grounded (root.join (.ofNames names)) := by
  intro lead rest hsplit
  rw [Path.components_join_ofNames root hnames] at hsplit
  obtain ⟨more, hroot⟩ := exists_of_append_names hsplit
  exact h lead more hroot

/-- A grounded path can be located when a directory is at its place. -/
theorem Grounded.locate (hp : t.Grounded p) (ht : t.LinkFree) (hhome : t.IsDirectory t.home)
    (htext : p.text ≠ "") (hdir : t.IsDirectory (p.place t.home)) :
    t.locate p = .ok (p.place t.home) := by
  obtain ⟨lead, names, hsplit, hlead⟩ := hp.exists_leads hhome
  have hcomponents : t.Leads p.components := by
    rw [← Path.follow_components, hsplit, follow_append, follow_names] at hdir
    rw [hsplit]
    exact hlead.append_names hdir
  exact (locate_eq_ok_iff ht).2 ⟨htext, (leads_components.1 hcomponents).1, rfl⟩

/-! ## Making directories -/

theorem leadsToDirectory_iff (ht : t.LinkFree) : t.leadsToDirectory steps = true ↔ t.Leads steps := by
  unfold leadsToDirectory Leads
  cases hwalk : t.walk false linkLimit t.home steps with
  | error e =>
    simp only [Bool.false_eq_true, false_iff]
    rintro ⟨hpass, -⟩
    rw [(walk_eq_ok_iff ht).2 ⟨hpass, rfl⟩] at hwalk
    cases hwalk
  | ok q =>
    obtain ⟨hpass, rfl⟩ := (walk_eq_ok_iff ht).1 hwalk
    simp [hpass]

/-- What making one directory comes to in a directory. -/
theorem makeDirectory_of_leads (ht : t.LinkFree) {up : List Component} (hup : t.Leads up)
    (last : Component) :
    t.makeDirectory time up last =
      match last with
      | .name n =>
        if (t.nodes[follow t.home up ++ [n]]?).isSome then .error .alreadyExists
        else if h : t.Admits (follow t.home up ++ [n]) then .ok (t.put _ (.directory time) h)
        else .error .notFound
      | _ => .error .alreadyExists := by
  have hwalk : t.walk false linkLimit t.home up = .ok (follow t.home up) :=
    (walk_eq_ok_iff ht).2 ⟨hup.1, rfl⟩
  unfold makeDirectory
  rw [hwalk]
  exact if_pos hup.2

/-- A free place in a directory admits a node. -/
theorem admits_of_isDirectory {n : String} (hdir : t.IsDirectory place)
    (hfree : t.nodes[place ++ [n]]? = none) (hn : isFileName n = true) :
    t.Admits (place ++ [n]) := by
  refine ⟨by simp, by rwa [List.dropLast_concat], ?_, ?_⟩
  · intro hself
    obtain ⟨time, hnode⟩ := exists_of_isDirectory hself
    rw [hfree] at hnode
    cases hnode
  · simpa using hn

/-- Nothing is made on the way to a directory. -/
theorem makeDirectories_of_leads (ht : t.LinkFree) {path : List Component}
    (h : t.Leads path.reverse) : makeDirectories time path t = (t, .ok ()) := by
  cases path with
  | nil => rfl
  | cons last up =>
    rw [List.reverse_cons] at h
    have hexists : t.makeDirectory time up.reverse last = .error .alreadyExists := by
      rw [makeDirectory_of_leads ht h.of_append]
      cases last with
      | name n =>
        have hend := h.2
        rw [follow_append] at hend
        obtain ⟨stamp, hnode⟩ := exists_of_isDirectory hend
        exact if_pos (Option.isSome_iff_exists.2 ⟨_, hnode⟩)
      | root | here | up => rfl
    rw [makeDirectories, hexists]
    simp only
    rw [if_pos ((leadsToDirectory_iff ht).2 h)]

/-- A directory that was made is where its steps lead. -/
theorem leads_of_makeDirectory (ht : t.LinkFree) {up : List Component} {last : Component}
    (h : t.makeDirectory time up last = .ok u) : u.Leads (up ++ [last]) := by
  have hgrows := grows_makeDirectory h
  obtain ⟨place, hplace, hmade⟩ := Stages.bind_eq_ok.1 h
  obtain ⟨hpass, rfl⟩ := (walk_eq_ok_iff ht).1 hplace
  obtain ⟨-, hadmits, rfl⟩ := exists_of_makeDirectory ht h
  have hend : (t.put _ (.directory time) hadmits).IsDirectory (follow t.home (up ++ [last])) := by
    unfold IsDirectory Nodes.IsDirectory
    rw [getElem?_put, if_pos rfl]
    rfl
  split at hmade
  · next hdir =>
    have hup : (t.put _ (.directory time) hadmits).Leads up := hgrows.toExtends.leads ⟨hpass, hdir⟩
    refine ⟨passable_append.2 ⟨hup.1, hup.2, ?_, trivial⟩, hend⟩
    rintro n rfl
    have hmove : follow t.home up ++ [n] = follow t.home (up ++ [.name n]) := by
      rw [follow_append]
      rfl
    left
    show follow t.home up ++ [n] ∈ _
    rw [hmove]
    exact mem_nodes_of_isDirectory hend
  · cases hmade

/-- Directories that were made are where their steps lead. -/
theorem leads_of_makeDirectories (ht : t.LinkFree) (hhome : t.IsDirectory t.home)
    {path : List Component} (h : makeDirectories time path t = (u, .ok ())) :
    u.Leads path.reverse := by
  cases path with
  | nil =>
    cases h
    exact ⟨trivial, hhome⟩
  | cons last up =>
    have hsettle : ∀ {v : FileTree} {e : IoFailure}, v.LinkFree →
        ((v, if v.leadsToDirectory (up.reverse ++ [last]) then .ok () else .error e) :
          FileTree × Except IoFailure Unit) = (u, .ok ()) → u.Leads (up.reverse ++ [last]) := by
      intro v e hv heq
      by_cases hleads : v.leadsToDirectory (up.reverse ++ [last]) = true
      · rw [if_pos hleads] at heq
        cases heq
        exact (leadsToDirectory_iff hv).1 hleads
      · rw [if_neg hleads] at heq
        cases heq
    have hgrows : t.Grows (makeDirectories time up t).1 := grows_makeDirectories up
    rw [List.reverse_cons]
    rw [makeDirectories] at h
    split at h
    · next v hmade =>
      cases h
      exact leads_of_makeDirectory ht hmade
    · split at h
      · cases h
      · next v hup =>
        rw [hup] at hgrows
        have hv := hgrows.linkFree ht
        split at h
        · next w hmade =>
          cases h
          exact leads_of_makeDirectory hv hmade
        · exact hsettle hv h
    · exact hsettle ht h

/-- Making directories by names from a directory changes nothing that stands below them. -/
theorem getElem?_of_makeDirectories (ht : t.LinkFree) (hlead : t.Leads lead)
    {result : Except IoFailure Unit}
    (h : makeDirectories time (lead ++ names.map Component.name).reverse t = (u, result))
    (n : String) :
    u.nodes[follow t.home lead ++ names ++ [n]]? = t.nodes[follow t.home lead ++ names ++ [n]]? := by
  have hadds : t.Adds time _ _ :=
    adds_makeDirectories ht (lead ++ names.map Component.name).reverse
  rw [h] at hadds
  rcases hadds.nodes (follow t.home lead ++ names ++ [n]) with hsame | ⟨hnone, -, way, -, hway, heq⟩
  · exact hsame
  rw [List.reverse_reverse] at hway
  rcases List.prefix_or_prefix_of_prefix hway (List.prefix_append lead _) with hbefore | hafter
  · -- the way to the directory was there
    obtain ⟨rest, rfl⟩ := hbefore
    obtain ⟨stamp, hnode⟩ := exists_of_isDirectory hlead.of_append.2
    rw [heq, hnode] at hnone
    cases hnone
  · -- the names lead less far down
    obtain ⟨rest, rfl⟩ := hafter
    rw [List.prefix_append_right_inj] at hway
    obtain ⟨front, hfront, rfl⟩ := List.prefix_map_iff.1 hway
    rw [follow_append, follow_names, List.append_assoc] at heq
    have hlength := hfront.length_le
    rw [← List.append_cancel_left heq, List.length_append, List.length_singleton] at hlength
    omega

/-- A directory is not made for want of others only where nothing stands. -/
theorem getElem?_eq_none_of_makeDirectory (ht : t.LinkFree) (hlead : t.Leads lead) {n : String}
    (h : t.makeDirectory time (lead ++ names.map .name) (.name n) = .error .notFound) :
    t.nodes[follow t.home lead ++ names ++ [n]]? = none := by
  by_contra hnode
  have hsome := Option.isSome_iff_ne_none.2 hnode
  have hdir : t.IsDirectory (follow t.home lead ++ names) :=
    isDirectory_of_mem_append (Std.ExtTreeMap.mem_iff_isSome_getElem?.2 hsome) (by simp)
  rw [makeDirectory_of_leads ht (hlead.append_names hdir)] at h
  simp only at h
  rw [follow_append, follow_names, if_pos hsome] at h
  cases h

/-- A directory that was missing only for want of others can be made once these are there. -/
theorem exists_makeDirectory_of_makeDirectories (ht : t.LinkFree) (hlead : t.Leads lead) {n : String}
    (hn : isFileName n = true)
    (hmissing : t.makeDirectory time (lead ++ names.map .name) (.name n) = .error .notFound)
    (hup : makeDirectories time (lead ++ names.map Component.name).reverse t = (u, .ok ())) :
    ∃ v, u.makeDirectory time (lead ++ names.map .name) (.name n) = .ok v := by
  have hgrows : t.Grows (makeDirectories time (lead ++ names.map Component.name).reverse t).1 :=
    grows_makeDirectories _
  rw [hup] at hgrows
  have hleads := leads_of_makeDirectories ht (isDirectory_of_passable hlead.1 hlead.2) hup
  rw [List.reverse_reverse] at hleads
  have hfollow : follow u.home (lead ++ names.map .name) = follow t.home lead ++ names := by
    rw [hgrows.home, follow_append, follow_names]
  have hfree : u.nodes[follow u.home (lead ++ names.map .name) ++ [n]]? = none := by
    rw [hfollow, getElem?_of_makeDirectories ht hlead hup n]
    exact getElem?_eq_none_of_makeDirectory ht hlead hmissing
  have hadmits := admits_of_isDirectory hleads.2 hfree hn
  refine ⟨u.put _ (.directory time) hadmits, ?_⟩
  rw [makeDirectory_of_leads (hgrows.linkFree ht) hleads]
  simp only
  rw [if_neg (by simp [hfree]), dif_pos hadmits]

/-- Making directories that go down by names from a directory succeeds or changes nothing. -/
theorem tree_of_makeDirectories (ht : t.LinkFree) (hlead : t.Leads lead)
    (hnames : ∀ n ∈ names, isFileName n = true) {e : IoFailure}
    (h : makeDirectories time (lead ++ names.map Component.name).reverse t = (u, .error e)) : u = t := by
  induction names using List.reverseRecOn generalizing u e with
  | nil =>
    rw [List.map_nil, List.append_nil, makeDirectories_of_leads ht (by rwa [List.reverse_reverse])]
      at h
    cases h
  | append_singleton names n ih =>
    have hpath : (lead ++ (names ++ [n]).map Component.name).reverse =
        .name n :: (lead ++ names.map Component.name).reverse := by
      simp
    rw [hpath, makeDirectories, List.reverse_reverse] at h
    split at h
    · cases h
    · next hmissing =>
      split at h
      · next v cause hup =>
        cases h
        exact ih (fun m hm => hnames m (List.mem_append_left _ hm)) hup
      · next v hup =>
        obtain ⟨w, hmade⟩ := exists_makeDirectory_of_makeDirectories ht hlead
          (hnames n (by simp)) hmissing hup
        rw [hmade] at h
        cases h
    · exact (Prod.mk.inj h).1.symm

/-! ## Outputs below a grounded root -/

/-- A name in a directory can be new. -/
theorem passable_concat {n : String} (hpass : t.Passable false place steps)
    (hend : t.IsDirectory (follow place steps)) : t.Passable true place (steps ++ [.name n]) := by
  induction steps generalizing place with
  | nil => exact ⟨hend, fun _ _ => .inr ⟨rfl, rfl⟩, trivial⟩
  | cons step steps ih =>
    obtain ⟨hdir, hname, hrest⟩ := hpass
    refine ⟨hdir, ?_, ih hrest hend⟩
    rintro m hm
    rcases hname m hm with hmem | ⟨hnew, -⟩
    · exact .inl hmem
    · cases hnew

variable {root : Path}

/-- A grounded root is reached by names from a directory, and so is what is named below it. -/
theorem Grounded.exists_leads_join (hroot : t.Grounded root) (hhome : t.IsDirectory t.home)
    (hnames : ∀ n ∈ names, isFileName n = true) :
    ∃ (lead : List Component) (above : List String), t.Leads lead ∧
      root.components = lead ++ above.map .name ∧
      root.place t.home = follow t.home lead ++ above ∧
      ∀ n ∈ above ++ names, isFileName n = true := by
  obtain ⟨lead, above, hsplit, hlead⟩ := hroot.exists_leads hhome
  refine ⟨lead, above, hlead, hsplit, ?_, ?_⟩
  · rw [← Path.follow_components, hsplit, follow_append, follow_names]
  · intro n hn
    rcases List.mem_append.1 hn with hn | hn
    · refine Path.isFileName_of_mem_components (p := root) ?_
      rw [hsplit]
      exact List.mem_append_right _ (List.mem_map_of_mem hn)
    · exact hnames n hn

/-- Making the directories for an output succeeds or changes nothing. -/
theorem Grounded.tree_of_makeParents (hroot : t.Grounded root) (ht : t.LinkFree)
    (hhome : t.IsDirectory t.home) (hnames : ∀ n ∈ names, isFileName n = true)
    (hne : names ≠ []) {e : IoFailure}
    (h : t.makeParents time (root.join (.ofNames names)) = (u, .error e)) : u = t := by
  obtain ⟨front, n, rfl⟩ : ∃ front n, names = front ++ [n] :=
    ⟨_, _, (List.dropLast_concat_getLast hne).symm⟩
  obtain ⟨lead, above, hlead, hsplit, -, hvalid⟩ := hroot.exists_leads_join hhome
    fun m hm => hnames m (List.mem_append_left _ hm)
  unfold makeParents at h
  rw [Path.tail_reverse_components_join root hnames, hsplit, List.append_assoc, ← List.map_append]
    at h
  exact tree_of_makeDirectories ht hlead hvalid h

/-- Directories that were made for an output are where its path goes through. -/
theorem leads_of_makeParents (ht : t.LinkFree) (hhome : t.IsDirectory t.home)
    (hnames : ∀ n ∈ names, isFileName n = true) (hne : names ≠ [])
    (h : t.makeParents time (root.join (.ofNames names)) = (u, .ok ())) :
    u.Leads (root.components ++ names.dropLast.map .name) := by
  unfold makeParents at h
  rw [← List.dropLast_concat_getLast hne, Path.tail_reverse_components_join root
    (by rwa [List.dropLast_concat_getLast])] at h
  have hleads := leads_of_makeDirectories ht hhome h
  rwa [List.reverse_reverse] at hleads

/-- Once the directories for an output are made, its path leads to its place, and nothing has
changed there. -/
theorem Grounded.locateNew_of_makeParents (hroot : t.Grounded root) (ht : t.LinkFree)
    (hhome : t.IsDirectory t.home) (hnames : ∀ n ∈ names, isFileName n = true)
    (hne : names ≠ []) (h : t.makeParents time (root.join (.ofNames names)) = (u, .ok ())) :
    u.locateNew (root.join (.ofNames names)) = .ok (root.place t.home ++ names) ∧
      u.IsDirectory (root.place t.home ++ names.dropLast) ∧
      u.nodes[root.place t.home ++ names]? = t.nodes[root.place t.home ++ names]? := by
  obtain ⟨lead, above, hlead, hsplit, hroot', -⟩ := hroot.exists_leads_join hhome hnames
  obtain ⟨front, n, rfl⟩ : ∃ front n, names = front ++ [n] :=
    ⟨_, _, (List.dropLast_concat_getLast hne).symm⟩
  have hgrows : t.Grows (t.makeParents time (root.join (.ofNames (front ++ [n])))).1 :=
    grows_makeParents
  rw [h] at hgrows
  have hmade := leads_of_makeParents ht hhome hnames hne h
  rw [List.dropLast_concat] at hmade
  have hdir : u.IsDirectory (root.place t.home ++ front) := by
    have hend := hmade.2
    rwa [follow_append, follow_names, Path.follow_components, hgrows.home] at hend
  refine ⟨?_, by rwa [List.dropLast_concat], ?_⟩
  · have hsteps : u.Leads (root.lead ++ root.parts ++ front.map .name) := by
      rw [← leads_filter_here, List.filter_append] at hmade ⊢
      rwa [← Path.filter_here_components]
    have hjoin := Path.steps_join_ofNames root hnames hne
    rw [List.map_append, ← List.append_assoc] at hjoin
    refine (locateNew_eq_ok_iff (hgrows.linkFree ht)).2 ⟨?_, ?_, ?_⟩
    · exact Path.text_ne_empty_of_steps (by rw [hjoin]; simp)
    · rw [hjoin]
      exact passable_concat hsteps.1 hsteps.2
    · rw [hgrows.home, Path.place_join_ofNames _ _ hnames]
  · have hplace : root.place t.home ++ (front ++ [n]) =
        follow t.home lead ++ (above ++ front) ++ [n] := by
      rw [hroot']
      simp
    unfold makeParents at h
    rw [Path.tail_reverse_components_join root hnames, hsplit, List.append_assoc,
      ← List.map_append] at h
    rw [hplace, getElem?_of_makeDirectories ht hlead h n]

end FileTree

end Stencil
