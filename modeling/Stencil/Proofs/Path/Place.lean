import Mathlib.Data.List.Basic
import Stencil.FileTree
import Stencil.Proofs.Text.Parts

/-!
# The place a path means

In a tree without links the place of a path can be read off its steps (`Path.place`).
Joining names to a path appends them to its place (`place_join_ofNames`), whatever the
path looks like.
-/

namespace Stencil

/-- Where one step leads when it passes no link. -/
def Component.move (place : Place) : Component → Place
  | root => []
  | here => place
  | up => place.dropLast
  | name n => place ++ [n]

/-- Where steps lead when they pass no link. -/
def follow (place : Place) (steps : List Component) : Place := steps.foldl Component.move place

theorem follow_append (place : Place) (a b : List Component) :
    follow place (a ++ b) = follow (follow place a) b := List.foldl_append

/-- Names lead down. -/
theorem follow_names (place : Place) (names : List String) :
    follow place (names.map .name) = place ++ names := by
  induction names generalizing place with
  | nil => simp [follow]
  | cons n names ih =>
    show follow (place ++ [n]) (names.map .name) = _
    rw [ih, List.append_assoc]
    rfl

/-- Staying where one is leads nowhere else. -/
theorem follow_filter_here (place : Place) (steps : List Component) :
    follow place (steps.filter (· ≠ .here)) = follow place steps := by
  induction steps generalizing place with
  | nil => rfl
  | cons s steps ih =>
    by_cases h : s = .here
    · subst h
      rw [List.filter_cons_of_neg (by simp)]
      exact ih place
    · rw [List.filter_cons_of_pos (by simp [h])]
      exact ih (s.move place)

namespace Path

/-- The place a path means where nothing is a link, seen from `home`. -/
def place (home : Place) (p : Path) : Place := follow home p.steps

/-- The step to the root that an absolute path starts with. -/
def lead (p : Path) : List Component := if p.isAbsolute then [.root] else []

/-- The step that a slash at the end stands for. -/
def trail (p : Path) : List Component := if p.text.toList.getLast? = some '/' then [.here] else []

theorem steps_eq (p : Path) : p.steps = p.lead ++ p.parts ++ p.trail := rfl

/-- A path that leads somewhere is not empty. -/
theorem text_ne_empty_of_steps {p : Path} (h : p.steps ≠ []) : p.text ≠ "" := by
  intro htext
  obtain rfl : p = ⟨""⟩ := by cases p; exact congrArg Path.mk htext
  exact h rfl

theorem follow_trail (place : Place) (p : Path) : follow place p.trail = place := by
  rw [trail]
  split <;> rfl

theorem follow_lead_parts (home : Place) (p : Path) :
    follow home (p.lead ++ p.parts) = p.place home := by
  rw [place, steps_eq, follow_append _ (_ ++ _), follow_trail]

/-- The components of a path lead where its steps do. -/
theorem follow_components (home : Place) (p : Path) : follow home p.components = p.place home := by
  rw [← follow_lead_parts, components, lead]
  by_cases habs : p.isAbsolute
  · rw [if_pos habs, if_pos habs]
    exact follow_filter_here [] p.parts
  · rw [if_neg habs, if_neg habs, List.nil_append]
    cases p.parts with
    | nil => rfl
    | cons first rest => exact follow_filter_here (first.move home) rest

/-! ## Parts -/

/-- The components of a text that is split at its slashes. -/
def partsOf (s : List Char) : List Component :=
  ((Text.splitOn '/' s).filter (· ≠ [])).map component

theorem partsOf_append_slash (s t : List Char) :
    partsOf (s ++ '/' :: t) = partsOf s ++ partsOf t := by
  rw [partsOf, Text.splitOn_append_cons, List.filter_append, List.map_append]
  rfl

/-- A file name is one part, and that part is a name. -/
theorem partsOf_fileName {n : String} (h : isFileName n = true) :
    partsOf n.toList = [.name n] := by
  simp only [isFileName, Bool.and_eq_true, bne_iff_ne, Bool.not_eq_true',
    List.contains_eq_mem, decide_eq_false_iff_not] at h
  obtain ⟨⟨⟨hempty, hdot⟩, hup⟩, hslash⟩ := h
  have hne : n.toList ≠ [] := by simpa using hempty
  have hhere : n.toList ≠ ['.'] := fun he => hdot (String.toList_inj.1 he)
  have hparent : n.toList ≠ ['.', '.'] := fun he => hup (String.toList_inj.1 he)
  rw [partsOf, Text.splitOn_of_not_mem hslash]
  simp [hne, component, hhere, hparent]

/-- A part that names something can be written as one part of a path. -/
theorem isFileName_of_component {part : List Char} {n : String} (hne : part ≠ [])
    (hslash : '/' ∉ part) (h : component part = .name n) : isFileName n = true := by
  unfold component at h
  split at h
  · cases h
  · next hhere =>
    split at h
    · cases h
    · next hup =>
      cases h
      have hdot : String.ofList part ≠ "." := fun heq => hhere (String.ofList_inj.1 heq)
      have hdots : String.ofList part ≠ ".." := fun heq => hup (String.ofList_inj.1 heq)
      have hempty : String.ofList part ≠ "" := fun heq => hne (String.ofList_inj.1 heq)
      simp [isFileName, hdot, hdots, hempty, hslash]

theorem isFileName_of_mem_components {p : Path} {n : String} (h : .name n ∈ p.components) :
    isFileName n = true := by
  have hparts : .name n ∈ p.parts := by
    unfold components at h
    split at h
    · rcases List.mem_cons.1 h with h | h
      · cases h
      · exact List.mem_of_mem_filter h
    · cases hp : p.parts with
      | nil => simp [hp] at h
      | cons first rest =>
        rw [hp] at h
        rcases List.mem_cons.1 h with h | h
        · exact h ▸ List.mem_cons_self
        · exact List.mem_cons_of_mem _ (List.mem_of_mem_filter h)
  obtain ⟨part, hpart, hn⟩ := List.mem_map.1 hparts
  rw [List.mem_filter] at hpart
  exact isFileName_of_component (of_decide_eq_true hpart.2) (Text.not_mem_of_mem_splitOn hpart.1) hn

variable {names : List String}

/-- The parts of a path made of names are the names. -/
theorem parts_ofNames (h : ∀ n ∈ names, isFileName n = true) :
    (ofNames names).parts = names.map .name := by
  show partsOf ("/".intercalate names).toList = _
  induction names with
  | nil => rfl
  | cons n names ih =>
    have hn := partsOf_fileName (h n (by simp))
    cases names with
    | nil => simpa using hn
    | cons m names =>
      rw [String.intercalate_cons_cons, String.toList_append, String.toList_append,
        List.append_assoc]
      show partsOf (n.toList ++ '/' :: ("/".intercalate (m :: names)).toList) = _
      rw [partsOf_append_slash, hn, ih fun m hm => h m (List.mem_cons_of_mem _ hm)]
      rfl

/-- A path made of names starts with the first of them. -/
theorem toList_ofNames_cons (n : String) (names : List String) :
    (ofNames (n :: names)).text.toList =
      n.toList ++ if names = [] then [] else '/' :: (ofNames names).text.toList := by
  cases names with
  | nil => simp [ofNames]
  | cons m names =>
    show ("/".intercalate (n :: m :: names)).toList = _
    rw [String.intercalate_cons_cons, String.toList_append, String.toList_append,
      List.append_assoc]
    rfl

theorem fileName_ne_nil {n : String} (h : isFileName n = true) : n.toList ≠ [] := by
  intro hn
  rw [String.toList_eq_nil_iff.1 hn] at h
  cases h

theorem slash_not_mem_fileName {n : String} (h : isFileName n = true) : '/' ∉ n.toList := by
  intro hmem
  simp [isFileName, hmem] at h

theorem ofNames_ne_empty (h : ∀ n ∈ names, isFileName n = true) (hne : names ≠ []) :
    (ofNames names).text ≠ "" := by
  cases names with
  | nil => exact absurd rfl hne
  | cons n names =>
    intro htext
    have hlist := toList_ofNames_cons n names
    rw [htext] at hlist
    exact fileName_ne_nil (h n (by simp)) (List.append_eq_nil_iff.1 hlist.symm).1

theorem isAbsolute_ofNames (h : ∀ n ∈ names, isFileName n = true) :
    (ofNames names).isAbsolute = false := by
  cases names with
  | nil => rfl
  | cons n names =>
    have hn := h n (by simp)
    rw [isAbsolute, toList_ofNames_cons, beq_eq_false_iff_ne]
    intro hhead
    obtain ⟨c, rest, hc⟩ := List.exists_cons_of_ne_nil (fileName_ne_nil hn)
    rw [hc, List.cons_append, List.head?_cons, Option.some.injEq] at hhead
    exact slash_not_mem_fileName hn (by rw [hc, hhead]; exact List.mem_cons_self)

theorem trail_ofNames (h : ∀ n ∈ names, isFileName n = true) : (ofNames names).trail = [] := by
  rw [trail, if_neg]
  induction names with
  | nil => simp [ofNames]
  | cons n names ih =>
    rw [toList_ofNames_cons]
    by_cases hne : names = []
    · rw [if_pos hne, List.append_nil]
      intro hlast
      exact slash_not_mem_fileName (h n (by simp)) (List.mem_of_getLast? hlast)
    · have hrest : ∀ m ∈ names, isFileName m = true := fun m hm => h m (List.mem_cons_of_mem _ hm)
      have htext : (ofNames names).text.toList ≠ [] := fun hnil =>
        ofNames_ne_empty hrest hne (String.toList_eq_nil_iff.1 hnil)
      rw [if_neg hne, List.getLast?_append_of_ne_nil _ (by simp), List.getLast?_cons_of_ne_nil htext]
      exact ih hrest

/-- The path as it stands in front of what is joined to it. -/
def slashed (p : Path) : String :=
  if p.text = "" then ""
  else if p.text.toList.getLast? = some '/' then p.text else p.text ++ "/"

theorem join_eq (p : Path) {rel : Path} (h : rel.isAbsolute = false) :
    p.join rel = ⟨p.slashed ++ rel.text⟩ := by
  rw [join, if_neg (by simp [h]), slashed]
  by_cases hempty : p.text = ""
  · rw [if_pos hempty, if_pos hempty, String.empty_append]
  · rw [if_neg hempty, if_neg hempty]
    split <;> rfl

theorem parts_join (p : Path) {rel : Path} (h : rel.isAbsolute = false) :
    (p.join rel).parts = p.parts ++ rel.parts := by
  rw [join_eq p h]
  show partsOf (p.slashed ++ rel.text).toList = partsOf p.text.toList ++ partsOf rel.text.toList
  rw [String.toList_append, slashed]
  by_cases hempty : p.text = ""
  · rw [if_pos hempty, hempty]
    rfl
  rw [if_neg hempty]
  split
  · next hslash =>
    obtain ⟨front, hfront⟩ := List.getLast?_eq_some_iff.1 hslash
    rw [hfront, List.append_assoc]
    show partsOf (front ++ '/' :: rel.text.toList) = partsOf (front ++ '/' :: []) ++ _
    rw [partsOf_append_slash, partsOf_append_slash, List.append_assoc]
    rfl
  · rw [String.toList_append, List.append_assoc]
    exact partsOf_append_slash _ _

theorem isAbsolute_join (p : Path) {rel : Path} (h : rel.isAbsolute = false) :
    (p.join rel).isAbsolute = p.isAbsolute := by
  rw [join_eq p h, isAbsolute, String.toList_append, slashed]
  by_cases hempty : p.text = ""
  · rw [if_pos hempty, isAbsolute, hempty]
    exact h
  have hne : p.text.toList ≠ [] := fun hnil => hempty (String.toList_eq_nil_iff.1 hnil)
  obtain ⟨c, rest, hc⟩ := List.exists_cons_of_ne_nil hne
  rw [if_neg hempty]
  split <;> simp [isAbsolute, String.toList_append, hc]

theorem lead_join (p : Path) {rel : Path} (h : rel.isAbsolute = false) :
    (p.join rel).lead = p.lead := by
  rw [lead, lead, isAbsolute_join p h]

theorem trail_join (p : Path) {rel : Path} (h : rel.isAbsolute = false) (hne : rel.text ≠ "") :
    (p.join rel).trail = rel.trail := by
  have hrel : rel.text.toList ≠ [] := fun hnil => hne (String.toList_eq_nil_iff.1 hnil)
  rw [trail, trail, join_eq p h, String.toList_append, List.getLast?_append_of_ne_nil _ hrel]

/-! ## Names joined to a path -/

/-- Joining a name and then more of them is joining all of them. -/
theorem join_join (p : Path) {n : String} (hn : isFileName n = true)
    (h : ∀ m ∈ names, isFileName m = true) (hne : names ≠ []) :
    (p.join ⟨n⟩).join (ofNames names) = p.join (ofNames (n :: names)) := by
  have hone : ofNames [n] = ⟨n⟩ := by simp [ofNames]
  have habs := isAbsolute_ofNames (List.forall_mem_singleton.2 hn)
  rw [hone] at habs
  have hall : ∀ m ∈ n :: names, isFileName m = true := List.forall_mem_cons.2 ⟨hn, h⟩
  obtain ⟨front, c, hc⟩ := List.eq_nil_or_concat n.toList |>.resolve_left (fileName_ne_nil hn)
  have hslash : c ≠ '/' := by
    rintro rfl
    exact slash_not_mem_fileName hn (by rw [hc]; simp)
  have hslashed : (p.join ⟨n⟩).slashed = p.slashed ++ n ++ "/" := by
    have hlast : (p.slashed ++ n).toList.getLast? = some c := by
      rw [String.toList_append, hc]
      simp
    have hempty : p.slashed ++ n ≠ "" := by
      intro heq
      rw [heq] at hlast
      cases hlast
    rw [join_eq p habs, slashed, if_neg hempty, hlast, if_neg (by simpa using hslash)]
  have htext : (ofNames (n :: names)).text = n ++ "/" ++ (ofNames names).text := by
    refine String.toList_inj.1 ?_
    rw [toList_ofNames_cons, if_neg hne]
    simp
  rw [join_eq _ (isAbsolute_ofNames h), join_eq p (isAbsolute_ofNames hall), hslashed, htext]
  simp only [String.append_assoc]

theorem steps_join_ofNames (p : Path) (h : ∀ n ∈ names, isFileName n = true) (hne : names ≠ []) :
    (p.join (ofNames names)).steps = p.lead ++ p.parts ++ names.map .name := by
  have habs := isAbsolute_ofNames h
  rw [steps_eq, lead_join p habs, parts_join p habs, trail_join p habs (ofNames_ne_empty h hne),
    parts_ofNames h, trail_ofNames h, List.append_nil, List.append_assoc]

/-- Names joined to a path are appended to its place. -/
theorem place_join_ofNames (home : Place) (p : Path) (h : ∀ n ∈ names, isFileName n = true) :
    (p.join (ofNames names)).place home = p.place home ++ names := by
  have habs := isAbsolute_ofNames h
  rw [← follow_lead_parts, ← follow_lead_parts, lead_join p habs, parts_join p habs,
    parts_ofNames h, ← List.append_assoc, follow_append _ (_ ++ _), follow_names]

theorem components_join_ofNames (p : Path) (h : ∀ n ∈ names, isFileName n = true) :
    (p.join (ofNames names)).components = p.components ++ names.map .name := by
  have habs := isAbsolute_ofNames h
  have hsame : (p.join (ofNames names)).isAbsolute = p.isAbsolute := isAbsolute_join p habs
  have hkeep : (names.map Component.name).filter (· ≠ .here) = names.map .name := by
    rw [List.filter_eq_self]
    intro c hc
    obtain ⟨n, -, rfl⟩ := List.mem_map.1 hc
    simp
  rw [components, components, hsame, parts_join p habs, parts_ofNames h]
  split
  · rw [List.filter_append, hkeep, List.cons_append]
  cases p.parts with
  | nil =>
    cases names with
    | nil => rfl
    | cons n names => simp
  | cons first rest =>
    show first :: (rest ++ names.map Component.name).filter (· ≠ .here) = _
    rw [List.filter_append, hkeep]
    rfl

theorem components_ofNames (h : ∀ n ∈ names, isFileName n = true) :
    (ofNames names).components = names.map .name := by
  have hempty := components_join_ofNames ⟨""⟩ h
  have hjoin : (⟨""⟩ : Path).join (ofNames names) = ofNames names := by
    rw [join_eq _ (isAbsolute_ofNames h), slashed, if_pos rfl, String.empty_append]
  rw [hjoin] at hempty
  exact hempty

/-- Paths made of names are the same when the names are. -/
theorem same_ofNames {others : List String} (h : ∀ n ∈ names, isFileName n = true)
    (h' : ∀ n ∈ others, isFileName n = true) :
    (ofNames names).Same (ofNames others) ↔ names = others := by
  rw [Same, components_ofNames h, components_ofNames h']
  exact List.map_inj_right fun a b hab => Component.name.inj hab

end Path

end Stencil
