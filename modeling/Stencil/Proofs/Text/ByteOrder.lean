import Mathlib.Data.List.Basic

/-!
# The order of texts and of their bytes

Texts are compared character by character. The UTF-8 form keeps that order: of two characters
the one with the smaller number has the smaller bytes, whatever follows either of them
(`utf8EncodeChar_append_lt`). So texts in order have their bytes in order (`utf8_lt_utf8`).
-/

namespace Stencil.Text

/-- The bytes of the UTF-8 form. -/
def utf8 (s : String) : List UInt8 := s.toUTF8.data.toList

theorem utf8_eq (s : String) : utf8 s = s.toList.flatMap String.utf8EncodeChar := by
  rw [utf8, String.toUTF8, ← String.utf8Encode_toList, List.utf8Encode]
  simp

/-- The order of bytes given by their numbers. -/
theorem ofNat_cons_lt_iff {a b : Nat} (ha : a < 256) (hb : b < 256) {s t : List UInt8} :
    UInt8.ofNat a :: s < UInt8.ofNat b :: t ↔ a < b ∨ a = b ∧ s < t := by
  rw [List.cons_lt_cons_iff, UInt8.ofNat_lt_iff_lt ha hb, ← UInt8.toNat_inj, UInt8.toNat_ofNat',
    UInt8.toNat_ofNat', Nat.mod_eq_of_lt ha, Nat.mod_eq_of_lt hb]

theorem toNat_val_lt (c : Char) : c.val.toNat < 0x110000 := by
  rcases c.valid with h | ⟨-, h⟩
  · exact Nat.lt_trans h (by decide)
  · exact h

/-- The first bytes that differ decide, and the smaller character has the smaller of them. -/
theorem utf8EncodeChar_append_lt {c d : Char} (h : c < d) (s t : List UInt8) :
    String.utf8EncodeChar c ++ s < String.utf8EncodeChar d ++ t := by
  have hlt : c.val.toNat < d.val.toNat := h
  have hd := toNat_val_lt d
  -- what stands in front of a digit is the number without its last digits
  have hdigits : ∀ n < 0x110000, n / 64 / 64 = n / 4096 ∧ n / 4096 / 64 = n / 262144 ∧
      n / 262144 % 8 = n / 262144 := by omega
  unfold String.utf8EncodeChar
  generalize c.val.toNat = v at hlt
  generalize d.val.toNat = w at hlt hd
  obtain ⟨hv, hv', hv''⟩ := hdigits v (Nat.lt_trans hlt hd)
  obtain ⟨hw, hw', hw''⟩ := hdigits w hd
  simp only
  -- the lead bytes of longer forms are larger; in forms of one length the digits decide
  split_ifs
  all_goals
    simp (disch := omega) only [List.cons_append, List.nil_append, ofNat_cons_lt_iff]
    omega

theorem utf8EncodeChar_ne_nil (c : Char) : String.utf8EncodeChar c ≠ [] := by
  unfold String.utf8EncodeChar
  simp only
  split_ifs <;> exact List.cons_ne_nil _ _

/-- Texts in order have their bytes in order. -/
theorem utf8_lt_utf8 {a b : String} (h : a < b) : utf8 a < utf8 b := by
  rw [utf8_eq, utf8_eq]
  rw [String.lt_iff] at h
  generalize a.toList = s at h ⊢
  generalize b.toList = t at h ⊢
  induction h with
  | @nil d t =>
    obtain ⟨byte, rest, hd⟩ := List.exists_cons_of_ne_nil (utf8EncodeChar_ne_nil d)
    rw [List.flatMap_nil, List.flatMap_cons, hd]
    exact .nil
  | @cons c s t h ih =>
    rw [List.flatMap_cons, List.flatMap_cons]
    exact List.append_left_lt ih
  | @rel c s d t h =>
    rw [List.flatMap_cons, List.flatMap_cons]
    exact utf8EncodeChar_append_lt h _ _

/-- Lists of texts in order have their bytes in order, text by text. -/
theorem map_utf8_lt {l l' : List String} (h : compare l l' = .lt) : l.map utf8 < l'.map utf8 := by
  rw [List.compare_eq_compareLex] at h
  induction l generalizing l' with
  | nil =>
    cases l' with
    | nil => cases h
    | cons b l' => exact .nil
  | cons a l ih =>
    cases l' with
    | nil => cases h
    | cons b l' =>
      rw [List.compareLex_cons_cons, Ordering.then_eq_lt] at h
      rcases h with hlt | ⟨heq, hrest⟩
      · exact .rel (utf8_lt_utf8 (compareOfLessAndEq_eq_lt.1 hlt))
      · rw [Std.LawfulEqCmp.eq_of_compare heq]
        exact .cons (ih hrest)

end Stencil.Text
