import Stencil.Proofs.Expansion.Accepted
import Stencil.Proofs.Tag.Chain

/-!
# Texts without marks

A text in which no tag of a usage starts has no template names, and it is the only kind of text
that has none: every usage that is found gives a name, and marks that do not pair up are a defect
(`isEmpty_templateNames_iff`). The expansion leaves such a text as it is whatever it is given
(`expand_of_unmarked`), and resolves a usage in every other (`resolved_pos_of_marked`).
-/

namespace Stencil

/-- A search for a pair comes back with nothing exactly when the text has no mark. -/
theorem Tag.Pair.find?_eq_none_iff {name text : List Char} (hname : IsName name) :
    find? name text = .ok none ↔ ∀ w, ¬ Mark.In w name text := by
  obtain ⟨ws, hchain, hverdict⟩ := exists_chain hname none (List.suffix_refl text)
  rw [Text.offset_self] at hchain
  have hnone : verdict text none ws = .ok none ↔ ws = [] := verdict_eq_none_iff
  rw [← hchain.eq_nil_iff, ← hnone]
  have hfind : verdict text none ws = (find? name text).map (·.map (·.span text)) := hverdict
  rw [hfind]
  cases find? name text with
  | error d => simp [Except.map]
  | ok found => cases found <;> simp [Except.map]

/-- No opening or closing tag of a usage starts in the text. -/
def Usage.Unmarked (text : List Char) : Prop := ∀ w, ¬ Tag.Mark.In w tagName text

namespace Expansion

variable {templates : Templates} {limit : Nat} {text : String} {s : List Char}
  {sofar names : Std.ExtTreeSet String}

theorem find?_eq_none_iff : Tag.Pair.find? Usage.tagName s = .ok none ↔ Usage.Unmarked s :=
  Tag.Pair.find?_eq_none_iff Usage.isName_tagName

/-! ## Names -/

/-- A name that was found is not lost when the search goes on. -/
theorem mem_of_templateNamesFrom (h : templateNamesFrom sofar s = .ok names) {name : String}
    (hname : name ∈ sofar) : name ∈ names := by
  fun_induction templateNamesFrom sofar s with
  | case1 | case3 => cases h
  | case2 =>
    cases h
    exact hname
  | case4 sofar s p hfind usage husage ih =>
    exact ih h (Std.ExtTreeSet.mem_insert.2 (.inr hname))

/-- The search for names that comes to its end notes the name of the first usage and goes on. -/
theorem exists_usage_of_templateNamesFrom {p : Tag.Pair}
    (hfind : Tag.Pair.find? Usage.tagName s = .ok (some p))
    (h : templateNamesFrom sofar s = .ok names) :
    ∃ usage, Usage.ofTag p.openingTag = .ok usage ∧
      templateNamesFrom (sofar.insert usage.name) (p.unwrap s) = .ok names := by
  cases husage : Usage.ofTag p.openingTag with
  | ok usage =>
    rw [templateNamesFrom_of_some hfind husage] at h
    exact ⟨usage, rfl, h⟩
  | error d =>
    rw [templateNamesFrom] at h
    split at h
    · cases h
    · next hnone => rw [hfind] at hnone; cases hnone
    · next q hsome =>
      obtain rfl : p = q := by simpa [hfind] using hsome
      rw [husage] at h
      cases h

/-- The search for names comes back with none exactly when the text has no mark. -/
theorem isEmpty_templateNames_iff (h : templateNames text = .ok names) :
    names.isEmpty = true ↔ Usage.Unmarked text.toList := by
  rw [templateNames] at h
  rw [← find?_eq_none_iff]
  rcases find?_cases text.toList with ⟨d, hfind⟩ | hfind | ⟨p, hfind⟩
  · rw [templateNamesFrom, hfind] at h
    cases h
  · rw [templateNamesFrom_of_none hfind] at h
    cases h
    simp [hfind]
  · -- the name of the usage stays among the names
    obtain ⟨usage, -, hrest⟩ := exists_usage_of_templateNamesFrom hfind h
    have hmem : usage.name ∈ names :=
      mem_of_templateNamesFrom hrest (Std.ExtTreeSet.mem_insert_self ..)
    have hsome : names.isEmpty = false := by
      rw [Std.ExtTreeSet.isEmpty_eq_false_iff]
      rintro rfl
      exact Std.ExtTreeSet.not_mem_empty hmem
    simp [hsome, hfind]

/-! ## Expansion -/

/-- A text without marks is left as it is, with any templates and any limit. -/
theorem expand_of_unmarked (h : Usage.Unmarked text.toList) (templates : Templates)
    (limit : Nat) : expand templates limit text = .ok ⟨text, [], 0⟩ := by
  rw [expand, resolve_of_none (find?_eq_none_iff.2 h), String.ofList_toList]

/-- In a text with a mark a usage is resolved if the expansion comes to its end. -/
theorem resolved_pos_of_marked {e : Expansion} (h : ¬ Usage.Unmarked text.toList)
    (he : expand templates limit text = .ok e) : 0 < e.resolved := by
  rw [expand] at he
  rcases find?_cases text.toList with ⟨d, hfind⟩ | hfind | ⟨p, hfind⟩
  · rw [resolve_of_error hfind] at he
    cases he
  · exact absurd (find?_eq_none_iff.1 hfind) h
  · cases limit with
    | zero =>
      rw [resolve_zero hfind] at he
      cases he
    | succ left =>
      rw [resolve_succ hfind] at he
      obtain ⟨filling, -, he⟩ := Stages.bind_eq_ok.1 he
      obtain ⟨rest, -, he⟩ := Stages.bind_eq_ok.1 he
      cases he
      exact Nat.succ_pos rest.resolved

end Expansion

end Stencil
