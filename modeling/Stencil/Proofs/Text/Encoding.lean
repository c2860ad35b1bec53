import Stencil.Proofs.Text.ByteOrder
import Stencil.Proofs.Text.Offsets

/-!
# Texts as bytes

The UTF-8 form of a text is the bytes of its characters one after another, and a text is known by
them (`eq_of_bytes_eq`). A character of one byte stands in the bytes only where it stands in the
text (`mem_bytes_iff`), so a cut of the bytes in front of such a character is a cut of the text
(`bytes_eq_append_cons_iff`). Any other cut goes at most through one character of several bytes,
which `cutAt` takes to lie in front of it (`exists_of_cutAt`).
-/

namespace Stencil.Text

/-- The bytes of a text in its UTF-8 form. -/
def bytes (s : List Char) : List UInt8 := s.flatMap String.utf8EncodeChar

/-- A character that is a single byte. -/
def IsAscii (c : Char) : Prop := c.toNat < 128

instance (c : Char) : Decidable (IsAscii c) := inferInstanceAs (Decidable (c.toNat < 128))

/-- A byte of a character of several bytes. -/
def IsHigh (b : UInt8) : Prop := 128 ≤ b.toNat

instance (b : UInt8) : Decidable (IsHigh b) := inferInstanceAs (Decidable (128 ≤ b.toNat))

variable {c d : Char} {s t : List Char}

theorem utf8_eq_bytes (s : String) : utf8 s = bytes s.toList := utf8_eq s

@[simp] theorem bytes_nil : bytes [] = [] := rfl

theorem bytes_cons (c : Char) (s : List Char) :
    bytes (c :: s) = String.utf8EncodeChar c ++ bytes s := rfl

@[simp] theorem bytes_append (s t : List Char) : bytes (s ++ t) = bytes s ++ bytes t :=
  List.flatMap_append

@[simp] theorem length_bytes (s : List Char) : (bytes s).length = size s := by
  induction s with
  | nil => rfl
  | cons c s ih => rw [bytes_cons, List.length_append, String.length_utf8EncodeChar, ih, size]

/-- Texts with the same bytes are the same. -/
theorem eq_of_bytes_eq (h : bytes s = bytes t) : s = t := by
  have hutf8 : utf8 (String.ofList s) = utf8 (String.ofList t) := by
    rw [utf8_eq_bytes, utf8_eq_bytes, String.toList_ofList, String.toList_ofList, h]
  have harray : (String.ofList s).toUTF8 = (String.ofList t).toUTF8 :=
    ByteArray.ext (Array.toList_inj.1 hutf8)
  exact String.ofList_injective (String.toByteArray_inj.1 harray)

/-! ## Characters of one byte -/

theorem utf8EncodeChar_of_isAscii (h : IsAscii c) : String.utf8EncodeChar c = [c.toUInt8] := by
  apply String.utf8EncodeChar_eq_singleton
  rw [Char.utf8Size_eq_one_iff, UInt32.le_iff_toNat_le]
  exact Nat.le_of_lt_succ h

theorem isHigh_of_mem_utf8EncodeChar (hc : ¬ IsAscii c) {b : UInt8}
    (hb : b ∈ String.utf8EncodeChar c) : IsHigh b := by
  have hbound : c.val.toNat < 0x110000 := toNat_val_lt c
  have hlow : ¬ c.val.toNat < 128 := hc
  have hhigh : ∀ n, 128 ≤ n → n < 256 → IsHigh (UInt8.ofNat n) := by
    intro n hle hlt
    rwa [IsHigh, UInt8.toNat_ofNat', Nat.mod_eq_of_lt hlt]
  unfold String.utf8EncodeChar at hb
  generalize c.val.toNat = v at hbound hlow hb
  simp only at hb
  split_ifs at hb
  · omega
  all_goals
    simp only [List.mem_cons, List.not_mem_nil, or_false] at hb
    rcases hb with rfl | rfl | rfl | rfl <;> exact hhigh _ (by omega) (by omega)

theorem IsAscii.size_cons (hc : IsAscii c) : size (c :: s) = size s + 1 := by
  rw [size, ← String.length_utf8EncodeChar, utf8EncodeChar_of_isAscii hc, Nat.add_comm]
  rfl

theorem IsAscii.toNat_toUInt8 (h : IsAscii c) : c.toUInt8.toNat = c.toNat := by
  show c.toNat % 256 = c.toNat
  exact Nat.mod_eq_of_lt (Nat.lt_trans h (by decide))

theorem IsAscii.not_isHigh (h : IsAscii c) : ¬ IsHigh c.toUInt8 := by
  rw [IsHigh, h.toNat_toUInt8]
  exact Nat.not_le_of_lt h

theorem IsAscii.toUInt8_inj (hc : IsAscii c) (hd : IsAscii d) :
    c.toUInt8 = d.toUInt8 ↔ c = d := by
  rw [← UInt8.toNat_inj, hc.toNat_toUInt8, hd.toNat_toUInt8, Char.toNat_inj]

/-- The byte of a character stands in no other character. -/
theorem IsAscii.mem_utf8EncodeChar_iff (hc : IsAscii c) :
    c.toUInt8 ∈ String.utf8EncodeChar d ↔ c = d := by
  by_cases hd : IsAscii d
  · rw [utf8EncodeChar_of_isAscii hd, List.mem_singleton, hc.toUInt8_inj hd]
  · constructor
    · intro hmem
      exact absurd (isHigh_of_mem_utf8EncodeChar hd hmem) hc.not_isHigh
    · rintro rfl
      exact absurd hc hd

theorem IsAscii.mem_bytes_iff (hc : IsAscii c) : c.toUInt8 ∈ bytes s ↔ c ∈ s := by
  simp only [bytes, List.mem_flatMap, hc.mem_utf8EncodeChar_iff]
  constructor
  · rintro ⟨d, hd, rfl⟩
    exact hd
  · intro hmem
    exact ⟨c, hmem, rfl⟩

/-- The bytes can be cut at the byte of a character only where the text has the character. -/
theorem IsAscii.bytes_eq_append_cons_iff (hc : IsAscii c) {front rest : List UInt8} :
    bytes s = front ++ c.toUInt8 :: rest ↔
      ∃ lead behind, s = lead ++ c :: behind ∧ bytes lead = front ∧ bytes behind = rest := by
  constructor
  · intro h
    induction s generalizing front with
    | nil => simp at h
    | cons d s ih =>
      rw [bytes_cons] at h
      rcases List.append_eq_append_iff.1 h with ⟨more, rfl, hs⟩ | ⟨more, hd, hrest⟩
      · obtain ⟨lead, behind, rfl, rfl, rfl⟩ := ih hs
        exact ⟨d :: lead, behind, rfl, rfl, rfl⟩
      · cases more with
        | nil =>
          rw [List.append_nil] at hd
          have hstart : bytes s = [] ++ c.toUInt8 :: rest := hrest.symm
          obtain ⟨lead, behind, rfl, hlead, rfl⟩ := ih hstart
          obtain rfl : lead = [] := eq_of_bytes_eq hlead
          exact ⟨[d], behind, rfl, by rw [bytes_cons, hd, bytes_nil, List.append_nil], rfl⟩
        | cons b more =>
          rw [List.cons_append, List.cons.injEq] at hrest
          obtain ⟨rfl, rfl⟩ := hrest
          -- the byte of the character is in `d`, so `d` is the character
          obtain rfl : c = d := hc.mem_utf8EncodeChar_iff.1 (hd ▸ by simp)
          rw [utf8EncodeChar_of_isAscii hc, List.singleton_eq_append_iff] at hd
          rcases hd with ⟨rfl, hmore⟩ | ⟨-, hmore⟩
          · rw [List.cons.injEq] at hmore
            obtain ⟨-, rfl⟩ := hmore
            exact ⟨[], s, rfl, rfl, rfl⟩
          · cases hmore
  · rintro ⟨lead, behind, rfl, rfl, rfl⟩
    rw [bytes_append, bytes_cons, utf8EncodeChar_of_isAscii hc, List.singleton_append]

/-- The byte of a character stands behind all bytes of characters of several bytes in front. -/
theorem IsAscii.exists_append_of_isHigh (hc : IsAscii c) {inside bs whole more : List UInt8}
    (hinside : ∀ b ∈ inside, IsHigh b) (h : inside ++ bs = whole ++ c.toUInt8 :: more) :
    ∃ front, whole = inside ++ front ∧ bs = front ++ c.toUInt8 :: more := by
  rcases List.append_eq_append_iff.1 h with ⟨front, hwhole, hbs⟩ | ⟨front, hsplit, hbs⟩
  · exact ⟨front, hwhole, hbs⟩
  · cases front with
    | nil =>
      rw [List.append_nil] at hsplit
      exact ⟨[], by rw [hsplit, List.append_nil], hbs.symm⟩
    | cons b front =>
      rw [List.cons_append, List.cons.injEq] at hbs
      have hmem : b ∈ inside := by
        rw [hsplit]
        simp
      exact absurd (hinside b hmem) (hbs.1 ▸ hc.not_isHigh)

theorem IsAscii.getLast?_bytes_iff (hc : IsAscii c) :
    (bytes s).getLast? = some c.toUInt8 ↔ s.getLast? = some c := by
  rw [List.getLast?_eq_some_iff, List.getLast?_eq_some_iff]
  constructor
  · rintro ⟨front, h⟩
    obtain ⟨lead, behind, rfl, -, hbehind⟩ := hc.bytes_eq_append_cons_iff.1 h
    obtain rfl : behind = [] := eq_of_bytes_eq hbehind
    exact ⟨lead, rfl⟩
  · rintro ⟨lead, rfl⟩
    exact ⟨bytes lead, by simp [bytes_cons, utf8EncodeChar_of_isAscii hc]⟩

/-! ## Cuts at an offset -/

theorem cutAt_eq_none_iff {offset : Nat} {previous : Option Char} :
    cutAt offset previous s = none ↔ size s < offset := by
  induction s generalizing offset previous with
  | nil =>
    rw [cutAt, size]
    split
    · next hzero => simp [hzero]
    · next hpos => simpa using Nat.pos_of_ne_zero hpos
  | cons c s ih =>
    rw [cutAt]
    split
    · next hzero => simp [hzero]
    · next hpos =>
      rw [ih, size]
      omega

/-- A cut at an offset leaves a text behind it. What the bytes have between the offset and that
text is the rest of a character of several bytes. -/
theorem exists_of_cutAt {offset : Nat} {previous last : Option Char}
    (h : cutAt offset previous s = some (last, t)) :
    ∃ front lead inside, s = front ++ t ∧ last = front.getLast?.or previous ∧
      bytes front = lead ++ inside ∧ lead.length = offset ∧ (∀ b ∈ inside, IsHigh b) ∧
      (inside ≠ [] → ∃ c, last = some c ∧ ¬ IsAscii c) := by
  induction s generalizing offset previous with
  | nil =>
    rw [cutAt] at h
    split at h
    · next hzero =>
      cases h
      exact ⟨[], [], [], rfl, rfl, rfl, hzero.symm, by simp, by simp⟩
    · cases h
  | cons c s ih =>
    rw [cutAt] at h
    split at h
    · next hzero =>
      cases h
      exact ⟨[], [], [], rfl, rfl, rfl, hzero.symm, by simp, by simp⟩
    · next hpos =>
      by_cases hle : c.utf8Size ≤ offset
      · obtain ⟨front, lead, inside, rfl, rfl, hbytes, hlength, hinside, hlast⟩ := ih h
        refine ⟨c :: front, String.utf8EncodeChar c ++ lead, inside, rfl, ?_, ?_, ?_, hinside,
          hlast⟩
        · rw [List.getLast?_cons]
          cases front.getLast? <;> rfl
        · rw [bytes_cons, hbytes, List.append_assoc]
        · rw [List.length_append, String.length_utf8EncodeChar, hlength]
          omega
      · -- the offset lies inside the character
        have hzero : offset - c.utf8Size = 0 := by omega
        have hcut : cutAt 0 (some c) s = some (some c, s) := by
          cases s <;> rw [cutAt, if_pos rfl]
        rw [hzero, hcut] at h
        cases h
        have hc : ¬ IsAscii c := by
          intro hascii
          have hone := hascii.size_cons (s := [])
          simp only [size] at hone
          omega
        refine ⟨[c], (String.utf8EncodeChar c).take offset, (String.utf8EncodeChar c).drop offset,
          rfl, rfl, ?_, ?_, ?_, fun _ => ⟨c, rfl, hc⟩⟩
        · rw [List.take_append_drop, bytes_cons, bytes_nil, List.append_nil]
        · rw [List.length_take, String.length_utf8EncodeChar]
          omega
        · intro b hb
          exact isHigh_of_mem_utf8EncodeChar hc (List.mem_of_mem_drop hb)

end Stencil.Text
