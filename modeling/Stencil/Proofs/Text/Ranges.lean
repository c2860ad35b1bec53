import Stencil.Proofs.Text.Encoding

/-!
# Ranges of a text

A range of bytes can be read or taken out of a text when it lies in the text and goes from
character to character (`IsRange`). What is read and what is left are then texts again, and the
bytes leave no choice which (`IsSlice.unique`, `IsCut.unique`).
-/

namespace Stencil.Text

/-- The bytes from `i` to `j` are those of whole characters of the text. -/
structure IsRange (text : List Char) (i j : Nat) : Prop where
  le : i ≤ j
  le_size : j ≤ size text
  start : IsBoundary text i
  stop : IsBoundary text j

/-- `part` is what stands in the text from byte `i` to byte `j`. -/
structure IsSlice (text : List Char) (i j : Nat) (part : List Char) : Prop
    extends IsRange text i j where
  bytes_eq : bytes part = ((bytes text).take j).drop i

/-- `left` is the text without the bytes from `i` to `j`. -/
structure IsCut (text : List Char) (i j : Nat) (left : List Char) : Prop
    extends IsRange text i j where
  bytes_eq : bytes left = (bytes text).take i ++ (bytes text).drop j

variable {text part part' left left' : List Char} {i j : Nat}

theorem IsSlice.unique (h : IsSlice text i j part) (h' : IsSlice text i j part') :
    part = part' :=
  eq_of_bytes_eq (h.bytes_eq.trans h'.bytes_eq.symm)

theorem IsCut.unique (h : IsCut text i j left) (h' : IsCut text i j left') : left = left' :=
  eq_of_bytes_eq (h.bytes_eq.trans h'.bytes_eq.symm)

/-- A cut takes away as many bytes as it has. -/
theorem IsCut.size_add (h : IsCut text i j left) : size left + (j - i) = size text := by
  have hle := h.le
  have hsize := h.le_size
  rw [← length_bytes left, h.bytes_eq, List.length_append, List.length_take, List.length_drop,
    length_bytes]
  omega

theorem isRange_append (lead part rest : List Char) :
    IsRange (lead ++ (part ++ rest)) (size lead) (size lead + size part) := by
  refine ⟨Nat.le_add_right _ _, ?_, ⟨lead, List.prefix_append _ _, rfl⟩,
    ⟨lead ++ part, ⟨rest, List.append_assoc _ _ _⟩, size_append lead part⟩⟩
  rw [size_append, size_append]
  omega

theorem isSlice_append (lead part rest : List Char) :
    IsSlice (lead ++ (part ++ rest)) (size lead) (size lead + size part) part := by
  refine ⟨isRange_append lead part rest, ?_⟩
  rw [bytes_append, bytes_append, ← length_bytes, ← length_bytes, List.take_length_add_append,
    List.drop_left, List.take_left]

theorem isCut_append (lead part rest : List Char) :
    IsCut (lead ++ (part ++ rest)) (size lead) (size lead + size part) (lead ++ rest) := by
  refine ⟨isRange_append lead part rest, ?_⟩
  rw [bytes_append, bytes_append, bytes_append, ← length_bytes, ← length_bytes, List.take_left,
    List.drop_length_add_append, List.drop_left]

end Stencil.Text
