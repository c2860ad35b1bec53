import Stencil.Text.Bytes

/-!
# The end of a tag

A tag ends at its first `>` outside quotes. A quote opens a quoted run unless the
character in front of it is a backslash; inside a run the next quote of the same
kind closes it, backslash or not. `afterEnd` reads a tag and returns what follows
it, `endOffset?` gives the same place as a byte offset.
-/

namespace Stencil.Tag

/-- What a scan of a tag knows about the next character. -/
inductive Quoting
  /-- Outside quotes; `escaped` when the last character was a backslash. -/
  | outside (escaped : Bool)
  /-- Inside a run that `quote` closes. -/
  | inside (quote : Char)
  deriving DecidableEq, Repr

/-- The two characters that open a quoted run. -/
def isQuote (c : Char) : Bool := c == '"' || c == '\''

/-- The state of a scan at the first character it reads. -/
def Quoting.start (previous : Option Char) : Quoting := .outside (previous == some '\\')

/-- What follows the `>` that ends the tag, if the tag has an end. -/
def afterEnd : Quoting → List Char → Option (List Char)
  | _, [] => none
  | .inside quote, c :: s =>
    if c = quote then afterEnd (.outside false) s else afterEnd (.inside quote) s
  | .outside escaped, c :: s =>
    if isQuote c && !escaped then afterEnd (.inside c) s
    else if c = '>' then some s
    else afterEnd (.outside (c == '\\')) s

/-- The rest after a tag comes after a `>`. -/
theorem eq_append_of_afterEnd {q : Quoting} {s rest : List Char}
    (h : afterEnd q s = some rest) : ∃ lead, s = lead ++ '>' :: rest := by
  induction s generalizing q with
  | nil => simp [afterEnd] at h
  | cons c s ih =>
    have step {q' : Quoting} (h : afterEnd q' s = some rest) :
        ∃ lead, c :: s = lead ++ '>' :: rest := by
      obtain ⟨lead, hl⟩ := ih h
      exact ⟨c :: lead, by simp [hl]⟩
    cases q with
    | inside quote =>
      rw [afterEnd] at h
      split at h <;> exact step h
    | outside escaped =>
      rw [afterEnd] at h
      split at h
      · exact step h
      · split at h
        · next hc => exact ⟨[], by simp_all⟩
        · exact step h

theorem afterEnd_suffix {q : Quoting} {s rest : List Char} (h : afterEnd q s = some rest) :
    rest <:+ s := by
  obtain ⟨lead, rfl⟩ := eq_append_of_afterEnd h
  exact ⟨lead ++ ['>'], by simp⟩

theorem afterEnd_length {q : Quoting} {s rest : List Char} (h : afterEnd q s = some rest) :
    rest.length < s.length := by
  obtain ⟨lead, rfl⟩ := eq_append_of_afterEnd h
  simp only [List.length_append, List.length_cons]
  omega

/-- The byte offset just past the `>` that ends the tag found at byte `start`. The
character in front of `start` counts for the first quote; an offset past the end of
the text, or a tag without an end, has none. -/
def endOffset? (text : List Char) (start : Nat) : Option Nat := do
  let (previous, s) ← Text.cutAt start none text
  let rest ← afterEnd (.start previous) s
  return Text.size text - Text.size rest

end Stencil.Tag
