/-!
# Texts as suffixes

A scan that walks down a text returns what it has not read yet. `before whole rest`
recovers what it has read: the part of `whole` in front of its suffix `rest`.
-/

namespace Stencil.Text

/-- The part of `whole` in front of its suffix `rest`. -/
def before (whole rest : List Char) : List Char :=
  whole.take (whole.length - rest.length)

/-- What stands before a suffix is what was put in front of it. -/
@[simp] theorem before_append_left (a rest : List Char) : before (a ++ rest) rest = a := by
  simp [before]

theorem length_before {whole rest : List Char} :
    (before whole rest).length = whole.length - rest.length := by
  simp [before]

/-- The rest of `s` after `lead`, when `s` starts with it. -/
def afterLead? : (lead s : List Char) → Option (List Char)
  | [], s => some s
  | _ :: _, [] => none
  | a :: lead, c :: s => if a = c then afterLead? lead s else none

/-- `afterLead?` takes off exactly the given lead. -/
theorem afterLead?_eq_some_iff {lead s rest : List Char} :
    afterLead? lead s = some rest ↔ s = lead ++ rest := by
  induction lead generalizing s with
  | nil => simp [afterLead?, eq_comm]
  | cons a lead ih =>
    cases s with
    | nil => simp [afterLead?]
    | cons c s =>
      by_cases h : a = c
      · subst h; simp [afterLead?, ih]
      · simp [afterLead?, h, Ne.symm h]

end Stencil.Text
