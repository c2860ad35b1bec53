import Stencil.Text.Suffix

/-!
# One attribute as written

An assignment is a name, an equals sign and a value in double quotes. `Form` says
which characters a name and a value may hold and which may stand around the sign, so
that the strict form inside a placeholder and the freer one of a usage share the
reader `Assignment.read?`. `read?_eq_some` gives the shape of what was read.
-/

namespace Stencil.Tag

/-- A name with its value. -/
structure Assignment where
  name : String
  value : String
  deriving DecidableEq, Repr

namespace Assignment

/-- The characters an assignment is made of. -/
structure Form where
  /-- What a name consists of. -/
  inName : Char → Bool
  /-- What may stand on either side of the equals sign. -/
  inGap : Char → Bool
  /-- What a value consists of. -/
  inValue : Char → Bool

/-- The assignment at the start of the text and the text after its closing quote. -/
def read? (form : Form) (s : List Char) : Option (Assignment × List Char) :=
  let name := s.takeWhile form.inName
  if name.isEmpty then none
  else match (s.dropWhile form.inName).dropWhile form.inGap with
    | '=' :: s =>
      match s.dropWhile form.inGap with
      | '"' :: s =>
        match s.dropWhile form.inValue with
        | '"' :: rest =>
          some (⟨String.ofList name, String.ofList (s.takeWhile form.inValue)⟩, rest)
        | _ => none
      | _ => none
    | _ => none

/-- What was read is a name, a gap, the sign, a gap and the quoted value, each as long
as the text allows. -/
theorem read?_eq_some {form : Form} {s rest : List Char} {a : Assignment}
    (h : read? form s = some (a, rest)) :
    ∃ gap gap' : List Char,
      s = a.name.toList ++ gap ++ '=' :: gap' ++ '"' :: a.value.toList ++ '"' :: rest ∧
      a.name.toList ≠ [] ∧ a.name.toList.all form.inName ∧ gap.all form.inGap ∧
      gap'.all form.inGap ∧ a.value.toList.all form.inValue := by
  unfold read? at h
  simp only at h
  split at h
  · cases h
  next hname =>
  split at h
  next r hr =>
    split at h
    next r' hr' =>
      split at h
      next r'' hr'' =>
        simp only [Option.some.injEq, Prod.mk.injEq] at h
        obtain ⟨rfl, rfl⟩ := h
        refine ⟨(s.dropWhile form.inName).takeWhile form.inGap, r.takeWhile form.inGap, ?_, ?_, ?_,
          ?_, ?_, ?_⟩
        · simp only [String.toList_ofList]
          conv => lhs; rw [← List.takeWhile_append_dropWhile (p := form.inName) (l := s),
            ← List.takeWhile_append_dropWhile (p := form.inGap) (l := s.dropWhile form.inName), hr,
            ← List.takeWhile_append_dropWhile (p := form.inGap) (l := r), hr',
            ← List.takeWhile_append_dropWhile (p := form.inValue) (l := r'), hr'']
          simp [List.append_assoc]
        · simpa using hname
        · simp
        · simp
        · simp
        · simp
      · cases h
    · cases h
  · cases h

/-- An assignment leaves less text than there was. -/
theorem read?_suffix {form : Form} {s rest : List Char} {a : Assignment}
    (h : read? form s = some (a, rest)) : rest <:+ s ∧ rest.length < s.length := by
  obtain ⟨gap, gap', hs, -⟩ := read?_eq_some h
  refine ⟨⟨a.name.toList ++ gap ++ '=' :: gap' ++ '"' :: a.value.toList ++ ['"'], by simp [hs]⟩, ?_⟩
  rw [hs]
  simp only [List.length_append, List.length_cons]
  omega

end Assignment

end Stencil.Tag
