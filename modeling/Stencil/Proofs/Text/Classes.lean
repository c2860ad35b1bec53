import Stencil.Text.Blank
import Stencil.Text.Word

/-!
# Classes of characters

White space and word characters have no character in common, so a run of one ends where
the other starts. Trimming takes the white space off that surrounds a text and stops at the
text (`trim_surrounded`), and what it leaves is all that can be left so (`surrounds_iff`).
-/

namespace Stencil.Text

theorem isWord_eq_false_of_isBlank {c : Char} (h : isBlank c = true) : isWord c = false := by
  have hmem : c.toNat ∈ [0x09, 0x0A, 0x0B, 0x0C, 0x0D, 0x20, 0x85, 0xA0, 0x1680, 0x2000, 0x2001,
      0x2002, 0x2003, 0x2004, 0x2005, 0x2006, 0x2007, 0x2008, 0x2009, 0x200A, 0x2028, 0x2029,
      0x202F, 0x205F, 0x3000] := by
    simp only [isBlank, Bool.or_eq_true, Bool.and_eq_true, decide_eq_true_eq, beq_iff_eq] at h
    simp only [List.mem_cons, List.not_mem_nil, or_false]
    omega
  rw [← Char.ofNat_toNat c]
  generalize c.toNat = n at hmem
  revert n
  decide +kernel

/-- A run of characters of one kind is read to its end, where another kind starts. -/
theorem takeWhile_run {p : Char → Bool} {run rest : List Char} (hrun : ∀ c ∈ run, p c = true)
    (hrest : ∀ c ∈ rest.head?, p c = false) : (run ++ rest).takeWhile p = run := by
  rw [List.takeWhile_append_of_pos hrun]
  cases rest with
  | nil => simp
  | cons c rest => simp [hrest c (by simp)]

theorem dropWhile_run {p : Char → Bool} {run rest : List Char} (hrun : ∀ c ∈ run, p c = true)
    (hrest : ∀ c ∈ rest.head?, p c = false) : (run ++ rest).dropWhile p = rest := by
  rw [List.dropWhile_append_of_pos hrun]
  cases rest with
  | nil => simp
  | cons c rest => simp [hrest c (by simp)]

/-- Where a run has been dropped, another kind of character starts. -/
theorem head?_dropWhile_run (p : Char → Bool) (s : List Char) :
    ∀ c ∈ (s.dropWhile p).head?, p c = false := by
  intro c hc
  have hstop := List.head?_dropWhile_not p s
  rw [Option.mem_def.1 hc] at hstop
  exact hstop

/-- A text starts with one whole run only. -/
theorem eq_of_run {p : Char → Bool} {run run' rest rest' : List Char}
    (hrun : ∀ c ∈ run, p c = true) (hrest : ∀ c ∈ rest.head?, p c = false)
    (hrun' : ∀ c ∈ run', p c = true) (hrest' : ∀ c ∈ rest'.head?, p c = false)
    (h : run ++ rest = run' ++ rest') : run = run' ∧ rest = rest' := by
  constructor
  · rw [← takeWhile_run hrun hrest, h, takeWhile_run hrun' hrest']
  · rw [← dropWhile_run hrun hrest, h, dropWhile_run hrun' hrest']

/-- What is trimmed off is the white space at the start. -/
theorem takeWhile_append_trimStart (s : List Char) : s.takeWhile isBlank ++ trimStart s = s :=
  List.takeWhile_append_dropWhile

/-- White space is taken off in front of anything else. -/
theorem trimStart_run (blank : List Char) {rest : List Char} (hblank : ∀ c ∈ blank, isBlank c = true)
    (hrest : ∀ c ∈ rest.head?, isBlank c = false) : trimStart (blank ++ rest) = rest :=
  dropWhile_run hblank hrest

theorem trimStart_append {blank : List Char} (h : ∀ c ∈ blank, isBlank c = true)
    (rest : List Char) : trimStart (blank ++ rest) = trimStart rest :=
  List.dropWhile_append_of_pos h

/-- The text neither starts nor ends in white space. -/
structure Trimmed (s : List Char) : Prop where
  head? : ∀ c ∈ s.head?, isBlank c = false
  getLast? : ∀ c ∈ s.getLast?, isBlank c = false

instance (s : List Char) : Decidable (Trimmed s) :=
  decidable_of_iff (s.head?.all (!isBlank ·) ∧ s.getLast?.all (!isBlank ·)) <| by
    simp only [Option.all_eq_true, Bool.not_eq_true']
    exact ⟨fun ⟨hhead, hlast⟩ => ⟨hhead, hlast⟩, fun h => ⟨h.head?, h.getLast?⟩⟩

/-- Trimming takes off what surrounds a text and no more. -/
theorem trim_surrounded {s lead trail : List Char} (h : Trimmed s)
    (hlead : ∀ c ∈ lead, isBlank c = true) (htrail : ∀ c ∈ trail, isBlank c = true) :
    trim (lead ++ (s ++ trail)) = s := by
  have hend : ∀ c ∈ trail.reverse, isBlank c = true := fun c hc =>
    htrail c (List.mem_reverse.1 hc)
  rw [trim, trimStart_append hlead]
  cases s with
  | nil =>
    -- nothing but white space: it is all taken off at the start
    have hall := trimStart_append htrail []
    rw [List.append_nil] at hall
    rw [List.nil_append, hall]
    rfl
  | cons c s =>
    have hstart : trimStart (c :: s ++ trail) = c :: s ++ trail :=
      trimStart_run [] (by simp) h.head?
    have hlast : ∀ d ∈ (c :: s).reverse.head?, isBlank d = false := by
      rw [List.head?_reverse]
      exact h.getLast?
    rw [hstart, trimEnd, List.reverse_append, dropWhile_run hend hlast, List.reverse_reverse]

/-- The text is `inner` with white space around it, all that there is. -/
def Surrounds (s inner : List Char) : Prop :=
  ∃ lead trail, s = lead ++ (inner ++ trail) ∧ (∀ c ∈ lead, isBlank c = true) ∧
    (∀ c ∈ trail, isBlank c = true) ∧ Trimmed inner

theorem trimEnd_append_takeWhile (s : List Char) :
    trimEnd s ++ (s.reverse.takeWhile isBlank).reverse = s := by
  rw [trimEnd, ← List.reverse_append, List.takeWhile_append_dropWhile, List.reverse_reverse]

theorem trimmed_trim (s : List Char) : Trimmed (trim s) := by
  constructor
  · intro c hc
    -- what is left starts where the white space at the start was taken off
    apply head?_dropWhile_run isBlank s c
    obtain ⟨trail, htrail⟩ := trimEnd_isPrefix (trimStart s)
    obtain ⟨rest, hrest⟩ := List.head?_eq_some_iff.1 (Option.mem_def.1 hc)
    rw [trim] at hrest
    show c ∈ (trimStart s).head?
    rw [← htrail, hrest]
    rfl
  · intro c hc
    rw [trim, trimEnd, List.getLast?_reverse] at hc
    exact head?_dropWhile_run isBlank (trimStart s).reverse c hc

/-- Only the trimmed text is surrounded by all the white space. -/
theorem surrounds_iff {s inner : List Char} : Surrounds s inner ↔ inner = trim s := by
  constructor
  · rintro ⟨lead, trail, rfl, hlead, htrail, htrimmed⟩
    exact (trim_surrounded htrimmed hlead htrail).symm
  · rintro rfl
    refine ⟨s.takeWhile isBlank, ((trimStart s).reverse.takeWhile isBlank).reverse, ?_, ?_, ?_,
      trimmed_trim s⟩
    · rw [trim, trimEnd_append_takeWhile, takeWhile_append_trimStart]
    · exact List.all_eq_true.1 List.all_takeWhile
    · intro c hc
      exact List.all_eq_true.1 List.all_takeWhile c (List.mem_reverse.1 hc)

end Stencil.Text
