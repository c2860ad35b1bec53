import Stencil.Proofs.Tag.Marks
import Stencil.Proofs.Usage.TagSafe

/-!
# Texts that keep out of the search for tags

A text is inert when the search for the tags of usages passes over it, whatever stands
behind it. In a separated text nothing but inert text stands in front of a tag, so that no
tag is born when tags are taken away. In a balanced text, moreover, every tag that is
opened is closed.
-/

namespace Stencil.Usage

/-- No tag of a usage starts in the text, whatever stands behind it. -/
def Inert (s : List Char) : Prop :=
  ∀ v, v <:+ s → v ≠ [] → ∀ rest, Tag.markHere? tagName (v ++ rest) = none

theorem TagSafe.inert {s : List Char} (h : TagSafe s) : Inert s := by
  rw [tagSafe_iff] at h
  intro v hv hne rest
  cases hmark : Tag.markHere? tagName (v ++ rest) with
  | none => rfl
  | some closing =>
    obtain ⟨mark, hmem, hprefix⟩ := exists_mark_of_markHere? hmark
    exact absurd hprefix (h v hv hne mark hmem rest)

namespace Inert

variable {s t : List Char}

theorem nil : Inert [] := by
  intro v hv hne
  exact absurd (List.suffix_nil.1 hv) hne

theorem append (hs : Inert s) (ht : Inert t) : Inert (s ++ t) := by
  intro v hv hne rest
  rcases List.suffix_or_suffix_of_suffix hv (List.suffix_append s t) with hvt | ⟨u, rfl⟩
  · exact ht v hvt hne rest
  · by_cases hu : u = []
    · subst hu
      exact ht t List.suffix_rfl hne rest
    · have hus : u <:+ s := List.suffix_append_self_iff.1 hv
      rw [List.append_assoc]
      exact hs u hus hu (t ++ rest)

/-- The search for the next tag passes over inert text. -/
theorem nextMark?_append (h : Inert s) (rest : List Char) :
    Tag.nextMark? tagName (s ++ rest) = Tag.nextMark? tagName rest := by
  induction s with
  | nil => rfl
  | cons c s ih =>
    have hnone := h (c :: s) List.suffix_rfl (by simp) rest
    rw [List.cons_append] at hnone ⊢
    rw [Tag.nextMark?, hnone]
    exact ih fun v hv => h v (hv.trans (List.suffix_cons c s))

theorem nextMark? (h : Inert s) : Tag.nextMark? tagName s = none := by
  rw [← List.append_nil s, h.nextMark?_append]
  rfl

end Inert

/-! ## Tags -/

/-- The text is one whole tag of a usage, whatever stands behind it. -/
structure IsTag (closing : Bool) (tag : List Char) : Prop where
  mark : ∀ rest, Tag.nextMark? tagName (tag ++ rest) = some (closing, tag ++ rest)
  ended : ∀ rest, Tag.afterEnd (.outside false) (tag ++ rest) = some rest

/-- How an opening or a closing tag of a usage starts. -/
def markOf (closing : Bool) : List Char := if closing then '<' :: '/' :: tagName else '<' :: tagName

theorem isName_tagName : Tag.IsName tagName :=
  ⟨by decide, by decide, by decide, by decide⟩

theorem markHere?_eq_some_iff {s : List Char} {closing : Bool} :
    Tag.markHere? tagName s = some closing ↔
      ∃ rest, s = markOf closing ++ rest ∧ Tag.endsName rest = true :=
  isName_tagName.markHere?_eq_some_iff

/-- A tag that starts and ends somewhere is a whole tag everywhere. -/
theorem isTag_of_afterEnd {tag rest : List Char} {closing : Bool}
    (hmark : Tag.markHere? tagName (tag ++ rest) = some closing)
    (hend : Tag.afterEnd (.outside false) (tag ++ rest) = some rest) : IsTag closing tag := by
  refine ⟨fun other => ?_, Tag.afterEnd_append hend⟩
  have hhere := isName_tagName.markHere?_of_afterEnd hmark hend other
  obtain ⟨t, ht⟩ := Tag.eq_cons_of_markHere? hhere
  rw [ht] at hhere ⊢
  rw [Tag.nextMark?, hhere]

theorem isTag_openTag {name : String} {fields : List (String × String)}
    (hname : '"' ∉ name.toList) (h : ∀ f ∈ fields, Tag.Writable (fieldAttribute f.1, f.2)) :
    IsTag false (openTag name fields) :=
  ⟨nextMark?_openTag name fields, afterEnd_openTag hname h⟩

theorem isTag_closeTag : IsTag true closeTag := ⟨nextMark?_closeTag, afterEnd_closeTag⟩

/-! ## Separated and balanced texts -/

/-- All text in front of a tag is inert. -/
inductive Separated : List Char → Prop
  | last {s} (clean : Tag.nextMark? tagName s = none) : Separated s
  | tag {s tag rest closing} (inert : Inert s) (isTag : IsTag closing tag)
      (next : Separated rest) : Separated (s ++ (tag ++ rest))

/-- All text outside of the tags is inert, and the tags pair up when `depth` more were
opened in front of the text. -/
inductive Balanced : (depth : Nat) → List Char → Prop
  | last {s} (inert : Inert s) : Balanced 0 s
  | opening {depth s tag rest} (inert : Inert s) (isTag : IsTag false tag)
      (next : Balanced (depth + 1) rest) : Balanced depth (s ++ (tag ++ rest))
  | closing {depth s tag rest} (inert : Inert s) (isTag : IsTag true tag)
      (next : Balanced depth rest) : Balanced (depth + 1) (s ++ (tag ++ rest))

theorem Inert.append_balanced {s t : List Char} {depth : Nat} (hs : Inert s)
    (ht : Balanced depth t) : Balanced depth (s ++ t) := by
  cases ht with
  | last inert => exact .last (hs.append inert)
  | opening inert isTag next =>
    rw [← List.append_assoc]
    exact .opening (hs.append inert) isTag next
  | closing inert isTag next =>
    rw [← List.append_assoc]
    exact .closing (hs.append inert) isTag next

/-- Balanced texts stay balanced when they are put together. -/
theorem Balanced.append {s t : List Char} {depth depth' : Nat} (hs : Balanced depth s)
    (ht : Balanced depth' t) : Balanced (depth + depth') (s ++ t) := by
  induction hs with
  | last inert =>
    rw [Nat.zero_add]
    exact inert.append_balanced ht
  | @opening depth s tag rest inert isTag next ih =>
    rw [List.append_assoc, List.append_assoc]
    refine .opening inert isTag ?_
    rw [Nat.add_right_comm]
    exact ih
  | @closing depth s tag rest inert isTag next ih =>
    rw [List.append_assoc, List.append_assoc, Nat.add_right_comm]
    exact .closing inert isTag ih

end Stencil.Usage
