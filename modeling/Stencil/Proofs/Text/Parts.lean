import Stencil.Text.Parts

/-!
# Splitting texts that are put together

A text put together at a separator splits into the parts of the two sides
(`splitOn_append_cons`), and parts that do not hold the separator come back when they are
joined by it (`splitOn_join`). So a text has its parts in one way only (`parted_iff`).
-/

namespace Stencil.Text

variable {sep : Char}

theorem splitOn_cons_self (s : List Char) : splitOn sep (sep :: s) = [] :: splitOn sep s := by
  rw [splitOn, if_pos rfl]

/-- A character that does not separate belongs to the first part. -/
theorem splitOn_cons_of_ne {c : Char} (h : c ≠ sep) {s part : List Char}
    {parts : List (List Char)} (hs : splitOn sep s = part :: parts) :
    splitOn sep (c :: s) = (c :: part) :: parts := by
  rw [splitOn, if_neg h, hs]

theorem splitOn_append_cons (s t : List Char) :
    splitOn sep (s ++ sep :: t) = splitOn sep s ++ splitOn sep t := by
  induction s with
  | nil =>
    rw [List.nil_append, splitOn_cons_self]
    rfl
  | cons c s ih =>
    rw [List.cons_append]
    by_cases hc : c = sep
    · subst hc
      rw [splitOn_cons_self, splitOn_cons_self, ih]
      rfl
    · cases hs : splitOn sep s with
      | nil => exact absurd hs (splitOn_ne_nil sep s)
      | cons part parts =>
        rw [hs, List.cons_append] at ih
        rw [splitOn_cons_of_ne hc ih, splitOn_cons_of_ne hc hs]
        rfl

theorem splitOn_of_not_mem {s : List Char} (h : sep ∉ s) : splitOn sep s = [s] := by
  induction s with
  | nil => rfl
  | cons c s ih =>
    rw [List.mem_cons, not_or] at h
    exact splitOn_cons_of_ne (Ne.symm h.1) (ih h.2)

theorem join_cons_cons (joint part next : List Char) (parts : List (List Char)) :
    join joint (part :: next :: parts) = part ++ (joint ++ join joint (next :: parts)) := by
  rw [join, List.append_assoc]
  exact List.cons_ne_nil next parts

/-- Parts that are joined by a character they do not hold are split at it again. -/
theorem splitOn_join {parts : List (List Char)} (h : ∀ part ∈ parts, sep ∉ part)
    (hne : parts ≠ []) : splitOn sep (join [sep] parts) = parts := by
  induction parts with
  | nil => exact absurd rfl hne
  | cons part parts ih =>
    have hpart := splitOn_of_not_mem (h part List.mem_cons_self)
    cases parts with
    | nil => exact hpart
    | cons next parts =>
      have hrest := ih (fun other hother => h other (List.mem_cons_of_mem _ hother)) nofun
      rw [join_cons_cons, List.singleton_append, splitOn_append_cons, hpart, hrest,
        List.singleton_append]

/-- What stands in joined parts stands in the joint or in one of the parts. -/
theorem mem_of_mem_join {joint : List Char} {parts : List (List Char)} {c : Char}
    (h : c ∈ join joint parts) : c ∈ joint ∨ ∃ part ∈ parts, c ∈ part := by
  induction parts with
  | nil => cases h
  | cons part parts ih =>
    cases parts with
    | nil => exact .inr ⟨part, List.mem_cons_self, h⟩
    | cons next parts =>
      rw [join_cons_cons] at h
      rcases List.mem_append.1 h with h | h
      · exact .inr ⟨part, List.mem_cons_self, h⟩
      rcases List.mem_append.1 h with h | h
      · exact .inl h
      · exact (ih h).imp_right fun ⟨other, hother, hc⟩ =>
          ⟨other, List.mem_cons_of_mem _ hother, hc⟩

/-- The text is made of these parts: the separator stands between neighbours, and no part holds
it. -/
structure Parted (sep : Char) (parts : List (List Char)) (s : List Char) : Prop where
  ne_nil : parts ≠ []
  not_mem : ∀ part ∈ parts, sep ∉ part
  join_eq : join [sep] parts = s

theorem parted_iff {parts : List (List Char)} {s : List Char} :
    Parted sep parts s ↔ parts = splitOn sep s := by
  constructor
  · intro h
    rw [← h.join_eq, splitOn_join h.not_mem h.ne_nil]
  · rintro rfl
    exact ⟨splitOn_ne_nil sep s, fun _ => not_mem_of_mem_splitOn, join_splitOn sep s⟩

theorem length_splitOn (s : List Char) : (splitOn sep s).length = s.count sep + 1 := by
  induction s with
  | nil => rfl
  | cons c s ih =>
    by_cases hc : c = sep
    · rw [hc, splitOn_cons_self, List.length_cons, ih, List.count_cons_self]
    · obtain ⟨part, parts, hs⟩ := List.exists_cons_of_ne_nil (splitOn_ne_nil sep s)
      rw [splitOn_cons_of_ne hc hs, List.count_cons_of_ne hc, ← ih, hs]
      rfl

end Stencil.Text
