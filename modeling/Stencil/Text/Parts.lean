/-!
# Texts in parts

Splitting a text at every occurrence of one character, putting parts together
again, and the lines of a text. `join_splitOn` says that nothing is lost.
-/

namespace Stencil.Text

/-- The parts of a text between the occurrences of `sep`; there is one more part
than there are occurrences. -/
def splitOn (sep : Char) : List Char → List (List Char)
  | [] => [[]]
  | c :: s =>
    if c = sep then [] :: splitOn sep s
    else match splitOn sep s with
      | [] => [[c]]
      | part :: parts => (c :: part) :: parts

theorem splitOn_ne_nil (sep : Char) (s : List Char) : splitOn sep s ≠ [] := by
  cases s with
  | nil => simp [splitOn]
  | cons c s =>
    rw [splitOn]
    split
    · simp
    · split <;> simp

/-- Parts with `sep` between any two neighbours. -/
def join (sep : List Char) : List (List Char) → List Char
  | [] => []
  | [part] => part
  | part :: parts => part ++ sep ++ join sep parts

/-- Splitting and joining gives the text back. -/
theorem join_splitOn (sep : Char) (s : List Char) : join [sep] (splitOn sep s) = s := by
  induction s with
  | nil => rfl
  | cons c s ih =>
    have hne := splitOn_ne_nil sep s
    rw [splitOn]
    split
    · next h =>
      subst h
      cases hs : splitOn c s with
      | nil => exact absurd hs hne
      | cons part parts => rw [hs] at ih; simp [join, ih]
    · cases hs : splitOn sep s with
      | nil => exact absurd hs hne
      | cons part parts =>
        rw [hs] at ih
        cases parts with
        | nil => simpa [join] using ih
        | cons p ps => simpa [join] using ih

/-- No part holds the separator. -/
theorem not_mem_of_mem_splitOn {sep : Char} {s part : List Char} (h : part ∈ splitOn sep s) :
    sep ∉ part := by
  induction s generalizing part with
  | nil => simp only [splitOn, List.mem_singleton] at h; subst h; simp
  | cons c s ih =>
    rw [splitOn] at h
    split at h
    · rcases List.mem_cons.1 h with rfl | h
      · simp
      · exact ih h
    · next hc =>
      cases hs : splitOn sep s with
      | nil => exact absurd hs (splitOn_ne_nil sep s)
      | cons p ps =>
        rw [hs] at h ih
        rcases List.mem_cons.1 h with rfl | h
        · simp [Ne.symm hc, ih (List.mem_cons_self ..)]
        · exact ih (List.mem_cons_of_mem _ h)

/-- A line without the carriage return it may end with. -/
def dropReturn (s : List Char) : List Char :=
  if s.getLast? = some '\r' then s.dropLast else s

/-- The lines of a text. A line ends with a line feed, which may have a carriage return
in front of it; what follows the last line feed is a line of its own, kept as it is,
unless it is empty. -/
def lines (s : List Char) : List (List Char) :=
  let parts := splitOn '\n' s
  parts.dropLast.map dropReturn ++ parts.getLast?.toList.filter (· ≠ [])

end Stencil.Text
