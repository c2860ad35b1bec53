import Stencil.Text.Bytes
import Stencil.Text.Suffix

/-!
# Places in a text by their offsets

A suffix of a text is a place in it, and `offset` counts the bytes in front of that place. The
offsets of suffixes are character boundaries (`isBoundary_offset`), they grow along the text
(`offset_le_offset_iff`), and each belongs to one suffix only (`eq_of_offset_eq`).
-/

namespace Stencil.Text

/-- The bytes of `text` in front of its suffix `s`. -/
def offset (text s : List Char) : Nat := size text - size s

/-- A character of the text, or the text itself, starts or ends at byte `n`. -/
def IsBoundary (text : List Char) (n : Nat) : Prop := ∃ lead, lead <+: text ∧ size lead = n

variable {text s t : List Char}

theorem length_le_size (s : List Char) : s.length ≤ size s := by
  induction s with
  | nil => simp
  | cons c s ih =>
    have hpos : 0 < c.utf8Size := c.utf8Size_pos
    simp only [List.length_cons, size]
    omega

theorem size_eq_zero : size s = 0 ↔ s = [] := by
  constructor
  · intro h
    have hlength := length_le_size s
    exact List.length_eq_zero_iff.1 (by omega)
  · intro h
    simp [h, size]

@[simp] theorem offset_append (lead s : List Char) : offset (lead ++ s) s = size lead := by
  simp [offset]

theorem offset_self (text : List Char) : offset text text = 0 := by
  simp [offset]

theorem offset_le_size (text s : List Char) : offset text s ≤ size text := by
  simp [offset]

theorem isBoundary_offset (h : s <:+ text) : IsBoundary text (offset text s) := by
  obtain ⟨lead, rfl⟩ := h
  exact ⟨lead, List.prefix_append lead s, by simp⟩

theorem offset_le_offset (hs : s <:+ t) (ht : t <:+ text) : offset text t ≤ offset text s := by
  obtain ⟨lead, rfl⟩ := hs
  simp only [offset, size_append]
  omega

/-- A place further on has the greater offset. -/
theorem offset_lt_offset (hs : s <:+ t) (hne : s ≠ t) (ht : t <:+ text) :
    offset text t < offset text s := by
  obtain ⟨lead, rfl⟩ := hs
  obtain ⟨front, rfl⟩ := ht
  have hlead : size lead ≠ 0 := by
    intro hzero
    rw [size_eq_zero] at hzero
    exact hne (by simp [hzero])
  simp only [offset, size_append]
  omega

theorem offset_le_offset_iff (hs : s <:+ text) (ht : t <:+ text) :
    offset text t ≤ offset text s ↔ s <:+ t := by
  constructor
  · intro hle
    rcases List.suffix_or_suffix_of_suffix hs ht with h | h
    · exact h
    · by_cases hne : t = s
      · exact hne ▸ List.suffix_rfl
      · have hlt := offset_lt_offset h hne hs
        omega
  · intro h
    exact offset_le_offset h ht

theorem eq_of_offset_eq (hs : s <:+ text) (ht : t <:+ text) (h : offset text s = offset text t) :
    s = t := by
  have hst : s <:+ t := (offset_le_offset_iff hs ht).1 (by omega)
  have hts : t <:+ s := (offset_le_offset_iff ht hs).1 (by omega)
  exact hst.eq_of_length_le hts.length_le

/-- A prefix of a text is known by its size. -/
theorem eq_of_size_eq {lead front : List Char} (h : lead ++ s = front ++ t)
    (hsize : size lead = size front) : lead = front ∧ s = t := by
  have hs : s <:+ lead ++ s := List.suffix_append lead s
  have ht : t <:+ lead ++ s := h ▸ List.suffix_append front t
  have heq : s = t := by
    apply eq_of_offset_eq hs ht
    rw [offset_append, h, offset_append, hsize]
  subst heq
  exact ⟨List.append_cancel_right h, rfl⟩

end Stencil.Text
