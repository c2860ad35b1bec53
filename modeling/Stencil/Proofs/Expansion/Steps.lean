import Stencil.Expansion
import Stencil.Proofs.Stages

/-!
# The steps of an expansion

`Expansion.resolve` looks for the first pair of tags and does one of four things with what
it finds. One lemma for each, so that proofs about expansion never open its definition.
-/

namespace Stencil.Expansion

variable {templates : Templates} {limit left : Nat} {text : List Char} {p : Tag.Pair}

/-- The search for a usage fails, finds nothing or finds a pair of tags. -/
theorem find?_cases (text : List Char) :
    (∃ d, Tag.Pair.find? Usage.tagName text = .error d) ∨
    Tag.Pair.find? Usage.tagName text = .ok none ∨
    ∃ p, Tag.Pair.find? Usage.tagName text = .ok (some p) := by
  cases Tag.Pair.find? Usage.tagName text with
  | error d => exact .inl ⟨d, rfl⟩
  | ok found =>
    cases found with
    | none => exact .inr (.inl rfl)
    | some p => exact .inr (.inr ⟨p, rfl⟩)

/-- A text without usages is done. -/
theorem resolve_of_none (h : Tag.Pair.find? Usage.tagName text = .ok none) :
    resolve templates limit left text = .ok ⟨String.ofList text, [], 0⟩ := by
  rw [resolve, h]
  rfl

/-- A text whose tags do not pair up has the defect of its tags. -/
theorem resolve_of_error {d : Defect} (h : Tag.Pair.find? Usage.tagName text = .error d) :
    resolve templates limit left text = .error d := by
  rw [resolve, h]
  rfl

/-- With a usage left and none allowed the expansion gives up. -/
theorem resolve_zero (h : Tag.Pair.find? Usage.tagName text = .ok (some p)) :
    resolve templates limit 0 text = .error (.expansionLimit limit) := by
  rw [resolve, h]
  rfl

/-- A usage is filled, put in place, and the expansion goes on with the new text. -/
theorem resolve_succ (h : Tag.Pair.find? Usage.tagName text = .ok (some p)) :
    resolve templates limit (left + 1) text = (do
      let filling ← fillUsage templates p
      let rest ← resolve templates limit left (p.splice text filling.text)
      return { rest with
        warnings := filling.warnings ++ rest.warnings
        resolved := rest.resolved + 1 }) := by
  rw [resolve, h]
  rfl

/-- What is filled in for a usage whose tag can be read. -/
theorem fillUsage_of_ofTag {usage : Usage} (h : Usage.ofTag p.openingTag = .ok usage) :
    fillUsage templates p =
      match templates[usage.name]? with
      | none => .error (.unknownTemplate usage.name)
      | some template => template.fill usage.fields p.inner := by
  rw [fillUsage, h]
  rfl

/-- A usage whose tag cannot be read is not filled. -/
theorem fillUsage_of_ofTag_error {d : Defect} (h : Usage.ofTag p.openingTag = .error d) :
    fillUsage templates p = .error d := by
  rw [fillUsage, h]
  rfl

/-- A usage that is filled has a tag that can be read, and its template exists. -/
theorem exists_of_fillUsage {filling : Template.Filling}
    (h : fillUsage templates p = .ok filling) :
    ∃ usage template, Usage.ofTag p.openingTag = .ok usage ∧
      templates[usage.name]? = some template ∧
      template.fill usage.fields p.inner = .ok filling := by
  obtain ⟨usage, husage, h⟩ := Stages.bind_eq_ok.1 h
  split at h
  · cases h
  · next template ht => exact ⟨usage, template, husage, ht, h⟩

end Stencil.Expansion
