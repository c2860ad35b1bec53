import Stencil.Proofs.Expansion.Steps
import Stencil.Proofs.Template.Stages

/-!
# The templates an expansion asks for

`Expansion.consulted` is the list of template names that an expansion looks up. What an
expansion comes to depends on the templates through these names only (`resolve_congr`),
and a map that lacks one of them makes it fail there (`resolve_restrict_of_not_mem`).
-/

namespace Stencil

/-- The template that does not exist, if that is the defect. -/
def Defect.unknownName? : Defect → Option String
  | unknownTemplate name => some name
  | _ => none

/-! ## Defects that no template is to blame for -/

theorem Tag.Attributes.unknownName?_of_ofTag {tag : List Char} {d : Defect}
    (h : Tag.Attributes.ofTag tag = .error d) : d.unknownName? = none := by
  rw [Tag.Attributes.ofTag] at h
  split at h
  · cases h
  · cases h; rfl

theorem Tag.Pair.unknownName?_of_findFrom {name s : List Char}
    {opened : Option (List Char × List Char)} {d : Defect}
    (h : Tag.Pair.findFrom name opened s = .error d) : d.unknownName? = none := by
  fun_induction Tag.Pair.findFrom name opened s with
  | case1 | case3 | case4 => cases h; rfl
  | case2 | case5 => cases h
  | case6 opened s closes mark hm rest ha hc ih => exact ih h

theorem Usage.unknownName?_of_bulkFields {bulk : List Char} {d : Defect}
    (h : Usage.bulkFields bulk = .error d) : d.unknownName? = none := by
  obtain ⟨part, -, h⟩ := Stages.exists_of_mapM_eq_error h
  rw [Usage.bulkField] at h
  split at h
  · cases h
  · cases h; rfl

theorem Usage.unknownName?_of_ofTag {tag : List Char} {d : Defect}
    (h : Usage.ofTag tag = .error d) : d.unknownName? = none := by
  rcases Stages.bind_eq_error.1 h with h | ⟨a, -, h⟩
  · exact Tag.Attributes.unknownName?_of_ofTag h
  split at h
  · cases h; rfl
  rcases Stages.bind_eq_error.1 h with h | ⟨bulk, -, h⟩
  · rw [Usage.bulkOf] at h
    split at h
    · cases h
    · split at h
      · cases h
      · exact Usage.unknownName?_of_bulkFields h
  · cases h

theorem Template.unknownName?_of_fill {t : Template} {fields : Fields} {inner : List Char}
    {d : Defect} (h : t.fill fields inner = .error d) : d.unknownName? = none := by
  rw [Template.fill_eq] at h
  rcases Stages.bind_eq_error.1 h with h | ⟨resolved, -, h⟩
  · obtain ⟨o, -, h⟩ := Stages.exists_of_mapM_eq_error h
    rcases Stages.bind_eq_error.1 h with h | ⟨a, -, h⟩
    · exact Tag.Attributes.unknownName?_of_ofTag h
    split at h
    · cases h; rfl
    · split at h
      · cases h
      · cases h
      · cases h; rfl
  rcases Stages.bind_eq_error.1 h with h | ⟨places, -, h⟩
  · rw [Template.places] at h
    split at h
    · cases h
    · cases h
    · cases h; rfl
  · rw [Template.assemble] at h
    split at h
    · cases h; rfl
    · cases h

namespace Expansion

/-- The names that `resolve` looks up while `left` more usages may be resolved, in their
order. -/
def consulted (templates : Templates) : (left : Nat) → (text : List Char) → List String
  | 0, _ => []
  | left + 1, text =>
    match Tag.Pair.find? Usage.tagName text with
    | .ok (some p) =>
      match Usage.ofTag p.openingTag with
      | .error _ => []
      | .ok usage =>
        usage.name :: match fillUsage templates p with
          | .error _ => []
          | .ok filling => consulted templates left (p.splice text filling.text)
    | _ => []

variable {templates others : Templates} {limit left : Nat} {text : List Char} {p : Tag.Pair}

/-- A text that starts with a usage asks for the template of the usage, and for what the
text asks for once the usage is filled. -/
theorem mem_consulted_succ (hfind : Tag.Pair.find? Usage.tagName text = .ok (some p))
    {name : String} :
    name ∈ consulted templates (left + 1) text ↔
      ∃ usage, Usage.ofTag p.openingTag = .ok usage ∧
        (name = usage.name ∨ ∃ filling, fillUsage templates p = .ok filling ∧
          name ∈ consulted templates left (p.splice text filling.text)) := by
  cases husage : Usage.ofTag p.openingTag with
  | error d => simp [consulted, hfind, husage]
  | ok usage =>
    cases hfilling : fillUsage templates p <;> simp [consulted, hfind, husage, hfilling]

/-- Maps that agree on the template of a usage fill the usage alike. -/
theorem fillUsage_congr
    (h : ∀ usage, Usage.ofTag p.openingTag = .ok usage →
      others[usage.name]? = templates[usage.name]?) :
    fillUsage others p = fillUsage templates p := by
  cases husage : Usage.ofTag p.openingTag with
  | error d => rw [fillUsage_of_ofTag_error husage, fillUsage_of_ofTag_error husage]
  | ok usage => rw [fillUsage_of_ofTag husage, fillUsage_of_ofTag husage, h usage husage]

/-- Maps that agree on the names asked for give the same expansion. -/
theorem resolve_congr
    (h : ∀ name ∈ consulted templates left text, others[name]? = templates[name]?) :
    resolve others limit left text = resolve templates limit left text := by
  induction left generalizing text with
  | zero =>
    rcases find?_cases text with ⟨d, hfind⟩ | hfind | ⟨p, hfind⟩
    · rw [resolve_of_error hfind, resolve_of_error hfind]
    · rw [resolve_of_none hfind, resolve_of_none hfind]
    · rw [resolve_zero hfind, resolve_zero hfind]
  | succ left ih =>
    rcases find?_cases text with ⟨d, hfind⟩ | hfind | ⟨p, hfind⟩
    · rw [resolve_of_error hfind, resolve_of_error hfind]
    · rw [resolve_of_none hfind, resolve_of_none hfind]
    -- the first usage is filled alike, and then both expand the same text
    have hfill : fillUsage others p = fillUsage templates p := fillUsage_congr fun usage husage =>
      h _ ((mem_consulted_succ hfind).2 ⟨usage, husage, .inl rfl⟩)
    rw [resolve_succ hfind, resolve_succ hfind, hfill]
    cases hfilling : fillUsage templates p with
    | error d => rfl
    | ok filling =>
      obtain ⟨usage, -, husage, -⟩ := exists_of_fillUsage hfilling
      have hrest := ih fun name hname =>
        h name ((mem_consulted_succ hfind).2 ⟨usage, husage, .inr ⟨filling, hfilling, hname⟩⟩)
      simp only [bind, Except.bind, hrest]

/-- An expansion that finds a template missing has asked for it. -/
theorem of_resolve_unknownTemplate {name : String}
    (h : resolve templates limit left text = .error (.unknownTemplate name)) :
    name ∈ consulted templates left text ∧ templates[name]? = none := by
  induction left generalizing text with
  | zero =>
    rcases find?_cases text with ⟨d, hfind⟩ | hfind | ⟨p, hfind⟩
    · rw [resolve_of_error hfind] at h
      cases h
      cases Tag.Pair.unknownName?_of_findFrom hfind
    · rw [resolve_of_none hfind] at h
      cases h
    · rw [resolve_zero hfind] at h
      cases h
  | succ left ih =>
    rcases find?_cases text with ⟨d, hfind⟩ | hfind | ⟨p, hfind⟩
    · rw [resolve_of_error hfind] at h
      cases h
      cases Tag.Pair.unknownName?_of_findFrom hfind
    · rw [resolve_of_none hfind] at h
      cases h
    rw [resolve_succ hfind] at h
    rcases Stages.bind_eq_error.1 h with h | ⟨filling, hfilling, h⟩
    · -- only the lookup of the template can find a name missing
      rcases Stages.bind_eq_error.1 h with h | ⟨usage, husage, h⟩
      · cases Usage.unknownName?_of_ofTag h
      split at h
      · next hnone =>
        cases h
        exact ⟨(mem_consulted_succ hfind).2 ⟨usage, husage, .inl rfl⟩, hnone⟩
      · cases Template.unknownName?_of_fill h
    · obtain ⟨usage, -, husage, -⟩ := exists_of_fillUsage hfilling
      rcases Stages.bind_eq_error.1 h with h | ⟨rest, -, h⟩
      · obtain ⟨hmem, hnone⟩ := ih h
        exact ⟨(mem_consulted_succ hfind).2 ⟨usage, husage, .inr ⟨filling, hfilling, hmem⟩⟩, hnone⟩
      · cases h

end Expansion

/-- The templates with one of the given names. -/
def Templates.restrict (templates : Templates) (names : Std.ExtTreeSet String) : Templates :=
  templates.filter fun name _ => names.contains name

namespace Expansion

variable {templates : Templates} {names : Std.ExtTreeSet String} {limit left : Nat}
  {text : List Char}

theorem getElem?_restrict_of_mem {name : String} (h : name ∈ names) :
    (templates.restrict names)[name]? = templates[name]? := by
  rw [Templates.restrict, Std.ExtTreeMap.getElem?_filter']
  cases templates[name]? <;> simp [h]

theorem getElem?_restrict_of_not_mem {name : String} (h : name ∉ names) :
    (templates.restrict names)[name]? = none := by
  rw [Templates.restrict, Std.ExtTreeMap.getElem?_filter']
  cases templates[name]? <;> simp [h]

/-- Without one of the templates it asks for an expansion fails. -/
theorem resolve_restrict_of_not_mem
    (h : ∃ name ∈ consulted templates left text, name ∉ names) :
    ∃ name, resolve (templates.restrict names) limit left text =
      .error (.unknownTemplate name) := by
  induction left generalizing text with
  | zero =>
    obtain ⟨name, hname, -⟩ := h
    cases hname
  | succ left ih =>
    obtain ⟨name, hname, hnot⟩ := h
    rcases find?_cases text with ⟨d, hfind⟩ | hfind | ⟨p, hfind⟩
    · simp [consulted, hfind] at hname
    · simp [consulted, hfind] at hname
    obtain ⟨usage, husage, hcase⟩ := (mem_consulted_succ hfind).1 hname
    rw [resolve_succ hfind]
    by_cases hmem : usage.name ∈ names
    · rcases hcase with rfl | ⟨filling, hfilling, hlater⟩
      · exact absurd hmem hnot
      -- the usage is filled as with all templates, and the missing name comes later
      have hsame : fillUsage (templates.restrict names) p = fillUsage templates p := by
        rw [fillUsage_of_ofTag husage, fillUsage_of_ofTag husage, getElem?_restrict_of_mem hmem]
      obtain ⟨missing, hmissing⟩ := ih ⟨name, hlater, hnot⟩
      refine ⟨missing, ?_⟩
      rw [hsame, hfilling]
      simp only [bind, Except.bind, hmissing]
    · refine ⟨usage.name, ?_⟩
      rw [fillUsage_of_ofTag husage, getElem?_restrict_of_not_mem hmem]
      rfl

end Expansion

/-- The names that the expansion of a document looks up. -/
def consultedNames (templates : Templates) (limit : Nat) (document : String) : List String :=
  Expansion.consulted templates limit document.toList

variable {templates : Templates} {names : Std.ExtTreeSet String} {limit : Nat}
  {document : String}

/-- A document expands with some of the templates as with all of them, and without a name
missing, exactly when these are all it asks for. -/
theorem expand_restrict_iff (h : ∀ name ∈ names, name ∈ templates) :
    (expand templates limit document = expand (templates.restrict names) limit document ∧
      ∀ name, expand templates limit document ≠ .error (.unknownTemplate name)) ↔
    ∀ name ∈ consultedNames templates limit document, name ∈ names := by
  constructor
  · rintro ⟨hsame, hknown⟩ name hname
    by_cases hmem : name ∈ names
    · exact hmem
    obtain ⟨missing, hmissing⟩ := Expansion.resolve_restrict_of_not_mem ⟨name, hname, hmem⟩
    exact absurd (hsame.trans hmissing) (hknown missing)
  · intro hall
    refine ⟨?_, ?_⟩
    · exact (Expansion.resolve_congr fun name hname =>
        Expansion.getElem?_restrict_of_mem (hall name hname)).symm
    · intro name hunknown
      obtain ⟨hmem, hnone⟩ := Expansion.of_resolve_unknownTemplate hunknown
      have hin := h name (hall name hmem)
      rw [Std.ExtTreeMap.mem_iff_isSome_getElem?, hnone] at hin
      cases hin

end Stencil
