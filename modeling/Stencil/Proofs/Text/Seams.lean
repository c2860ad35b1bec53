/-!
# Texts put together from parts

What stands in a text that is put together from parts stands in one of the parts or goes over a
seam between two of them (`free_flatten_iff`).
-/

namespace Stencil.Text

variable {kind : List Char → Prop} {s t : List Char} {parts : List (List Char)}

/-- No text of the kind stands in the text. -/
def Free (kind : List Char → Prop) (s : List Char) : Prop := ∀ m, kind m → ¬ m <:+: s

/-- A text of the kind starts in one of the parts and ends in a later one. -/
inductive Straddled (kind : List Char → Prop) : (parts : List (List Char)) → Prop
  | here {part behind} (head tail : List Char) (starts : head <:+ part) (head_ne_nil : head ≠ [])
      (ends : tail <+: behind.flatten) (tail_ne_nil : tail ≠ []) (isKind : kind (head ++ tail)) :
      Straddled kind (part :: behind)
  | later {part behind} (next : Straddled kind behind) : Straddled kind (part :: behind)

/-- What stands in two texts put together stands in one of them or goes over the seam. -/
theorem infix_append_iff {m : List Char} :
    m <:+: s ++ t ↔ m <:+: s ∨ m <:+: t ∨ ∃ head tail, m = head ++ tail ∧
      head <:+ s ∧ head ≠ [] ∧ tail <+: t ∧ tail ≠ [] := by
  constructor
  · rintro ⟨lead, rest, h⟩
    rw [List.append_assoc] at h
    rcases List.append_eq_append_iff.1 h with ⟨u, rfl, hrest⟩ | ⟨u, -, rfl⟩
    · rcases List.append_eq_append_iff.1 hrest with ⟨v, rfl, -⟩ | ⟨v, rfl, rfl⟩
      · exact .inl ⟨lead, v, by simp⟩
      · by_cases hu : u = []
        · exact .inr (.inl ⟨[], rest, by simp [hu]⟩)
        by_cases hv : v = []
        · exact .inl ⟨lead, [], by simp [hv]⟩
        · exact .inr (.inr ⟨u, v, rfl, List.suffix_append .., hu, List.prefix_append .., hv⟩)
    · exact .inr (.inl ⟨u, rest, by simp⟩)
  · rintro (h | h | ⟨head, tail, rfl, ⟨lead, rfl⟩, -, ⟨rest, rfl⟩, -⟩)
    · exact h.trans (List.prefix_append s t).isInfix
    · exact h.trans (List.suffix_append s t).isInfix
    · exact ⟨lead, rest, by simp⟩

/-- A text that is put together from parts is free of a kind when the parts are and no seam is gone
over. -/
theorem free_flatten_iff (hne : ∀ m, kind m → m ≠ []) :
    Free kind parts.flatten ↔ (∀ part ∈ parts, Free kind part) ∧ ¬ Straddled kind parts := by
  induction parts with
  | nil =>
    constructor
    · intro _
      exact ⟨by simp, nofun⟩
    · intro _ m hm hin
      exact hne m hm (List.infix_nil.1 hin)
  | cons part behind ih =>
    rw [List.flatten_cons, List.forall_mem_cons]
    constructor
    · intro h
      have hbehind : Free kind behind.flatten := fun m hm hin =>
        h m hm (infix_append_iff.2 (.inr (.inl hin)))
      obtain ⟨hfree, hnext⟩ := ih.1 hbehind
      refine ⟨⟨fun m hm hin => h m hm (infix_append_iff.2 (.inl hin)), hfree⟩, fun hstraddled => ?_⟩
      cases hstraddled with
      | here head tail starts head_ne_nil ends tail_ne_nil isKind =>
        exact h _ isKind (infix_append_iff.2
          (.inr (.inr ⟨head, tail, rfl, starts, head_ne_nil, ends, tail_ne_nil⟩)))
      | later next => exact hnext next
    · rintro ⟨⟨hpart, hbehind⟩, hseams⟩ m hm hin
      rcases infix_append_iff.1 hin with hin | hin | ⟨head, tail, rfl, hhead, hne, htail, hne'⟩
      · exact hpart m hm hin
      · exact ih.2 ⟨hbehind, fun hstraddled => hseams (.later hstraddled)⟩ m hm hin
      · exact hseams (.here head tail hhead hne htail hne' hm)

/-- The text ends in the beginning of a text of the kind. -/
def Opens (kind : List Char → Prop) (s : List Char) : Prop :=
  ∃ head tail, head <:+ s ∧ head ≠ [] ∧ tail ≠ [] ∧ kind (head ++ tail)

/-- A seam that is gone over is one behind a part that ends in the beginning of a text of the
kind. -/
theorem Straddled.exists_opens (h : Straddled kind parts) : ∃ part ∈ parts, Opens kind part := by
  induction h with
  | here head tail starts head_ne_nil ends tail_ne_nil isKind =>
    exact ⟨_, List.mem_cons_self, head, tail, starts, head_ne_nil, tail_ne_nil, isKind⟩
  | later next ih =>
    obtain ⟨part, hpart, hopens⟩ := ih
    exact ⟨part, List.mem_cons_of_mem _ hpart, hopens⟩

end Stencil.Text
