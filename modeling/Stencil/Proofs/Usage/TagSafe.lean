import Stencil.Proofs.Tag.Pair
import Stencil.Proofs.Usage.Written

/-!
# Texts without tags of usages

A text is tag-safe when no tag of a usage starts in it, whatever comes behind the text:
it holds the start of no tag, and it does not end inside one. Tag-safe texts can be put
together (`TagSafe.append`), and the search for tags passes over them
(`TagSafe.nextMark?_append`).
-/

namespace Stencil.Usage

/-- How the two tags of a usage start. -/
def marks : List (List Char) := ['<' :: tagName, '<' :: '/' :: tagName]

/-- No tag of a usage starts in the text: it neither holds the start of one nor ends in a
part of it. -/
structure TagSafe (s : List Char) : Prop where
  not_infix : ∀ mark ∈ marks, ¬ mark <:+: s
  not_suffix : ∀ mark ∈ marks, ∀ k < mark.length, 0 < k → ¬ mark.take k <:+ s

/-- Tag-safety said of the places in the text: a mark starts at none of them, even if more
text follows. -/
theorem tagSafe_iff {s : List Char} :
    TagSafe s ↔
      ∀ v, v <:+ s → v ≠ [] → ∀ mark ∈ marks, ∀ rest, ¬ mark <+: v ++ rest := by
  constructor
  · intro h v hv hne mark hmark rest hpre
    obtain ⟨lead, rfl⟩ := hv
    rcases List.prefix_or_prefix_of_prefix hpre (List.prefix_append v rest) with hm | hm
    · -- the whole mark lies in the text
      exact h.not_infix mark hmark (hm.isInfix.trans (List.suffix_append lead v).isInfix)
    · -- the text ends inside the mark
      by_cases hlen : v.length < mark.length
      · refine h.not_suffix mark hmark v.length hlen (List.length_pos_iff.2 hne) ?_
        rw [← List.prefix_iff_eq_take.1 hm]
        exact List.suffix_append lead v
      · have heq : v = mark := hm.eq_of_length_le (Nat.le_of_not_lt hlen)
        exact h.not_infix mark hmark (heq ▸ (List.suffix_append lead v).isInfix)
  · intro h
    refine ⟨?_, ?_⟩
    · rintro mark hmark ⟨lead, tail, rfl⟩
      have hne : mark ++ tail ≠ [] := by
        intro hnil
        have hm : mark = [] := (List.append_eq_nil_iff.1 hnil).1
        subst hm
        revert hmark
        decide
      refine h (mark ++ tail) ⟨lead, by simp⟩ hne mark hmark [] ?_
      simp
    · intro mark hmark k hk hpos hsuf
      have hne : mark.take k ≠ [] := by
        intro hnil
        rcases List.take_eq_nil_iff.1 hnil with h0 | h0
        · omega
        · simp [h0] at hk
      refine h _ hsuf hne mark hmark (mark.drop k) ?_
      exact ⟨[], by rw [List.append_nil, List.take_append_drop]⟩

theorem TagSafe.nil : TagSafe [] := by
  rw [tagSafe_iff]
  intro v hv hne
  exact absurd (List.suffix_nil.1 hv) hne

/-- Tag-safe texts stay so when they are put together: no tag is born where they meet. -/
theorem TagSafe.append {s t : List Char} (hs : TagSafe s) (ht : TagSafe t) :
    TagSafe (s ++ t) := by
  rw [tagSafe_iff] at hs ht ⊢
  intro v hv hne mark hmark rest hpre
  rcases List.suffix_or_suffix_of_suffix hv (List.suffix_append s t) with hvt | htv
  · exact ht v hvt hne mark hmark rest hpre
  · obtain ⟨u, rfl⟩ := htv
    by_cases hu : u = []
    · subst hu
      exact ht t List.suffix_rfl (by simpa using hne) mark hmark rest (by simpa using hpre)
    · have hus : u <:+ s := (List.suffix_append_self_iff).1 hv
      exact hs u hus hu mark hmark (t ++ rest) (by simpa using hpre)

theorem TagSafe.flatten {parts : List (List Char)} (h : ∀ s ∈ parts, TagSafe s) :
    TagSafe parts.flatten := by
  induction parts with
  | nil => exact .nil
  | cons s parts ih =>
    rw [List.flatten_cons]
    exact (h s (by simp)).append (ih fun t ht => h t (List.mem_cons_of_mem _ ht))

/-! ## The search for tags -/

/-- Where a tag starts, the text starts with a mark. -/
theorem exists_mark_of_markHere? {s : List Char} {closing : Bool}
    (h : Tag.markHere? tagName s = some closing) : ∃ mark ∈ marks, mark <+: s := by
  unfold Tag.markHere? at h
  split at h
  · next t =>
    refine ⟨_, List.mem_cons_of_mem _ (List.mem_singleton.2 rfl), ?_⟩
    cases hl : Text.afterLead? tagName t with
    | none => simp [hl, Tag.markHere?.closes] at h
    | some rest =>
      rw [Text.afterLead?_eq_some_iff] at hl
      exact ⟨rest, by simp [hl]⟩
  · next t _ =>
    refine ⟨_, List.mem_cons_self, ?_⟩
    cases hl : Text.afterLead? tagName t with
    | none => simp [hl, Tag.markHere?.closes] at h
    | some rest =>
      rw [Text.afterLead?_eq_some_iff] at hl
      exact ⟨rest, by simp [hl]⟩
  · cases h

/-- The search for the next tag passes over tag-safe text. -/
theorem TagSafe.nextMark?_append {s : List Char} (h : TagSafe s) (rest : List Char) :
    Tag.nextMark? tagName (s ++ rest) = Tag.nextMark? tagName rest := by
  rw [tagSafe_iff] at h
  induction s with
  | nil => rfl
  | cons c s ih =>
    have hnone : Tag.markHere? tagName (c :: s ++ rest) = none := by
      cases hm : Tag.markHere? tagName (c :: s ++ rest) with
      | none => rfl
      | some closing =>
        obtain ⟨mark, hmark, hpre⟩ := exists_mark_of_markHere? hm
        exact absurd hpre (h (c :: s) List.suffix_rfl (by simp) mark hmark rest)
    rw [List.cons_append] at hnone ⊢
    rw [Tag.nextMark?, hnone]
    exact ih fun v hv => h v (hv.trans (List.suffix_cons c s))

theorem TagSafe.nextMark? {s : List Char} (h : TagSafe s) :
    Tag.nextMark? tagName s = none := by
  rw [← List.append_nil s, h.nextMark?_append]
  rfl

/-- The fields of a usage hold tag-safe values when all its attributes do. -/
theorem tagSafe_of_insertMany {fields : List (String × String)}
    (h : ∀ f ∈ fields, TagSafe f.2.toList) (field value : String)
    (hv : ((∅ : Fields).insertMany fields)[field]? = some value) : TagSafe value.toList := by
  rw [Fields.getElem?_insertMany] at hv
  have hlatest : Keyed.latest field fields = some value := by simpa using hv
  exact h _ (Keyed.mem_of_latest hlatest)

theorem nextMark?_openTag (name : String) (fields : List (String × String)) (t : List Char) :
    Tag.nextMark? tagName (openTag name fields ++ t) =
      some (false, openTag name fields ++ t) := by
  have hshape : openTag name fields ++ t =
      '<' :: (tagName ++ ' ' :: (Tag.writtenAttribute (Template.nameAttribute, name) ++
        (Tag.writtenAttributes (fields.map fun f => (fieldAttribute f.1, f.2)) ++ '>' :: t))) := by
    simp [openTag, Tag.written, attributesOf, Tag.writtenAttributes_cons]
  rw [hshape, Tag.nextMark?]
  have hname : tagName = '-' :: "-template".toList := by decide
  have hmark : ∀ u, Tag.markHere? tagName ('<' :: (tagName ++ ' ' :: u)) = some false := by
    intro u
    rw [hname, List.cons_append]
    rfl
  rw [hmark]

theorem nextMark?_closeTag (t : List Char) :
    Tag.nextMark? tagName (closeTag ++ t) = some (true, closeTag ++ t) := by
  have hshape : closeTag ++ t = '<' :: '/' :: (tagName ++ '>' :: t) := by simp [closeTag]
  have hlead : Text.afterLead? tagName (tagName ++ '>' :: t) = some ('>' :: t) :=
    Text.afterLead?_eq_some_iff.2 rfl
  have hmark : Tag.markHere? tagName ('<' :: '/' :: (tagName ++ '>' :: t)) = some true := by
    simp only [Tag.markHere?, hlead, Tag.markHere?.closes, Tag.endsName]
    rfl
  rw [hshape, Tag.nextMark?, hmark]

end Stencil.Usage
