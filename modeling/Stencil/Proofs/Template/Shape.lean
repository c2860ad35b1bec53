import Stencil.Proofs.Tag.Written
import Stencil.Template.Placeholder

/-!
# The shape of a placeholder

A placeholder is the name of a void tag, assignments on one line with spaces in front of each,
and the end of the tag (`Matches`). The reader of placeholders finds exactly these texts
(`after?_eq_some_iff`), and every placeholder is a tag with the attributes that it assigns
(`Matches.ofTag?`).
-/

namespace Stencil

/-- The attribute stands on one line, with nothing but spaces around its sign. -/
structure Tag.Spelling.OneLine (a : Tag.Spelling) : Prop where
  name_ne_nil : a.name ≠ []
  inName : ∀ c ∈ a.name, Tag.inTagName c = true
  space : ∀ c ∈ a.gap, c = ' '
  space' : ∀ c ∈ a.gap', c = ' '
  inValue : ∀ c ∈ a.value, c ≠ '"' ∧ c ≠ '\n' ∧ c ≠ '\r'

namespace Placeholder

/-- The part of a placeholder behind the name of its tag, with the names and the values that it
assigns. -/
inductive Tail : List (String × String) → List Char → Prop
  | close {spaces close : List Char} (space : ∀ c ∈ spaces, c = ' ')
      (isClose : close = ['>'] ∨ close = ['/', '>']) : Tail [] (spaces ++ close)
  | assign {spaces tail : List Char} {a : Tag.Spelling} {pairs : List (String × String)}
      (ne_nil : spaces ≠ []) (space : ∀ c ∈ spaces, c = ' ') (oneLine : a.OneLine)
      (next : Tail pairs tail) :
      Tail ((String.ofList a.name, String.ofList a.value) :: pairs) (spaces ++ (a.text ++ tail))

/-- The text is a placeholder of the void tag `name`, with the names and the values that it
assigns. -/
def Matches (name tag : List Char) (pairs : List (String × String)) : Prop :=
  ∃ tail, tag = '<' :: (name ++ tail) ∧ Tail pairs tail

variable {name s tail rest : List Char} {pairs : List (String × String)}

/-! ## One assignment -/

theorem head?_gap {a : Tag.Spelling} (h : a.OneLine) (u : List Char) :
    ∀ c ∈ (a.gap ++ '=' :: u).head?, c = ' ' ∨ c = '=' := by
  intro c hc
  cases hgap : a.gap with
  | nil =>
    rw [hgap] at hc
    cases hc
    exact .inr rfl
  | cons d gap =>
    rw [hgap] at hc
    cases hc
    exact .inl (h.space c (by simp [hgap]))

/-- An assignment is read back whatever follows it. -/
theorem read?_text {a : Tag.Spelling} (h : a.OneLine) (t : List Char) :
    Tag.Assignment.read? form (a.text ++ t) =
      some (⟨String.ofList a.name, String.ofList a.value⟩, t) := by
  refine Tag.Spelling.read?_form h.name_ne_nil h.inName ?_ ?_ ?_ ?_ (by decide) (by decide)
    (by decide) t
  · intro c hc
    simp [form, h.space c hc]
  · intro c hc
    simp [form, h.space' c hc]
  · intro c hc
    obtain ⟨hquote, hline, hreturn⟩ := h.inValue c hc
    simp [form, hquote, hline, hreturn]
  · intro u c hc
    rcases head?_gap h u c hc with rfl | rfl <;> decide

/-- What was read is an assignment on one line. -/
theorem exists_text_of_read? {a : Tag.Assignment}
    (h : Tag.Assignment.read? form s = some (a, rest)) :
    ∃ b : Tag.Spelling, b.OneLine ∧ s = b.text ++ rest ∧ a.name = String.ofList b.name ∧
      a.value = String.ofList b.value := by
  obtain ⟨gap, gap', hs, hne, hname, hgap, hgap', hvalue⟩ := Tag.Assignment.read?_eq_some h
  refine ⟨⟨a.name.toList, gap, gap', a.value.toList⟩, ⟨hne, ?_, ?_, ?_, ?_⟩, ?_, by simp, by simp⟩
  · exact List.all_eq_true.1 hname
  · simpa [form] using hgap
  · simpa [form] using hgap'
  · simpa [form, and_assoc] using hvalue
  · simp [hs, Tag.Spelling.text]

theorem oneLine_valid {a : Tag.Spelling} (h : a.OneLine) : a.Valid := by
  have hspace : ∀ {c : Char}, c = ' ' → Text.isBlank c = true := by
    intro c hc
    rw [hc]
    decide
  refine ⟨h.name_ne_nil, fun c hc => Tag.inName_of_inTagName (h.inName c hc),
    fun c hc => hspace (h.space c hc), fun c hc => hspace (h.space' c hc), fun hquote => ?_⟩
  exact absurd rfl (h.inValue _ hquote).1

/-! ## The reader of placeholders -/

theorem dropWhile_spaces {spaces : List Char} (h : ∀ c ∈ spaces, c = ' ')
    (hrest : ∀ c ∈ rest.head?, c ≠ ' ') : (spaces ++ rest).dropWhile (· == ' ') = rest := by
  apply Text.dropWhile_run
  · intro c hc
    simp [h c hc]
  · intro c hc
    simp [hrest c hc]

theorem afterName?_close {spaces close : List Char} (h : ∀ c ∈ spaces, c = ' ')
    (hclose : close = ['>'] ∨ close = ['/', '>']) :
    afterName? (spaces ++ (close ++ rest)) = some rest := by
  rw [afterName?]
  rcases hclose with rfl | rfl
  · have hgap : (spaces ++ (['>'] ++ rest)).dropWhile (· == ' ') = '>' :: rest :=
      dropWhile_spaces h (by simp)
    split
    next heq =>
      rw [hgap] at heq
      cases heq
      rfl
    next heq =>
      rw [hgap] at heq
      cases heq
    next hno _ => exact absurd hgap (hno rest)
  · have hgap : (spaces ++ (['/', '>'] ++ rest)).dropWhile (· == ' ') = '/' :: '>' :: rest :=
      dropWhile_spaces h (by simp)
    split
    next heq =>
      rw [hgap] at heq
      cases heq
    next heq =>
      rw [hgap] at heq
      cases heq
      rfl
    next hno => exact absurd hgap (hno rest)

theorem afterName?_assign {spaces : List Char} {a : Tag.Spelling} (hne : spaces ≠ [])
    (h : ∀ c ∈ spaces, c = ' ') (ha : a.OneLine) :
    afterName? (spaces ++ (a.text ++ rest)) = afterName? rest := by
  obtain ⟨c, tail, hname⟩ := List.exists_cons_of_ne_nil ha.name_ne_nil
  have hc : Tag.inTagName c = true := ha.inName c (by simp [hname])
  have hother : ∀ d, Tag.inTagName d = false → c ≠ d := by
    intro d hd heq
    rw [heq, hd] at hc
    cases hc
  have htext : ∃ u, a.text ++ rest = c :: u := by
    rw [Tag.Spelling.text_append, hname]
    exact ⟨_, rfl⟩
  obtain ⟨u, hu⟩ := htext
  have hgap : (spaces ++ (a.text ++ rest)).dropWhile (· == ' ') = a.text ++ rest := by
    apply dropWhile_spaces h
    rw [hu]
    simpa using hother ' ' (by decide)
  have hhead : (spaces ++ (a.text ++ rest)).head? = some ' ' := by
    obtain ⟨d, more, rfl⟩ := List.exists_cons_of_ne_nil hne
    simp [h d (by simp)]
  conv => lhs; rw [afterName?]
  split
  next heq =>
    rw [hgap, hu] at heq
    exact absurd (List.cons.inj heq).1 (hother '>' (by decide))
  next heq =>
    rw [hgap, hu] at heq
    exact absurd (List.cons.inj heq).1 (hother '/' (by decide))
  next =>
    rw [if_pos hhead]
    split
    next hread =>
      rw [hgap, read?_text ha] at hread
      cases hread
      rfl
    next hread =>
      rw [hgap, read?_text ha] at hread
      cases hread

/-- The reader finds the end of every tail, whatever follows it. -/
theorem Tail.afterName? (h : Tail pairs tail) (rest : List Char) :
    Placeholder.afterName? (tail ++ rest) = some rest := by
  induction h with
  | close space isClose =>
    rw [List.append_assoc]
    exact afterName?_close space isClose
  | assign ne_nil space oneLine next ih =>
    rw [List.append_assoc, List.append_assoc, afterName?_assign ne_nil space oneLine]
    exact ih

theorem spaces_takeWhile (s : List Char) : ∀ c ∈ s.takeWhile (· == ' '), c = ' ' := by
  intro c hc
  simpa using List.all_eq_true.1 (List.all_takeWhile (p := (· == ' ')) (l := s)) c hc

/-- What the reader takes off is a tail. -/
theorem exists_tail_of_afterName? (h : afterName? s = some rest) :
    ∃ tail pairs, s = tail ++ rest ∧ Tail pairs tail := by
  have hsplit := fun s : List Char => List.takeWhile_append_dropWhile (p := (· == ' ')) (l := s)
  fun_induction afterName? s with
  | case1 s rest' hgap =>
    cases h
    refine ⟨s.takeWhile (· == ' ') ++ ['>'], [], ?_, .close (spaces_takeWhile s) (.inl rfl)⟩
    conv => lhs; rw [← hsplit s, hgap]
    simp
  | case2 s rest' hgap =>
    cases h
    refine ⟨s.takeWhile (· == ' ') ++ ['/', '>'], [], ?_, .close (spaces_takeWhile s) (.inr rfl)⟩
    conv => lhs; rw [← hsplit s, hgap]
    simp
  | case3 s hhead a rest' _ _ hread ih =>
    obtain ⟨tail, pairs, htail, hnext⟩ := ih h
    obtain ⟨b, hb, htext, -, -⟩ := exists_text_of_read? hread
    have hne : s.takeWhile (· == ' ') ≠ [] := by
      cases s with
      | nil => cases hhead
      | cons c s =>
        cases hhead
        simp
    refine ⟨_, _, ?_, .assign hne (spaces_takeWhile s) hb hnext⟩
    conv => lhs; rw [← hsplit s, htext, htail]
    simp
  | case4 | case5 => cases h

/-- The reader of placeholders takes off exactly the placeholders. -/
theorem after?_eq_some_iff :
    after? name s = some rest ↔ ∃ tag pairs, s = tag ++ rest ∧ Matches name tag pairs := by
  unfold after?
  rw [Option.bind_eq_some_iff]
  constructor
  · intro ⟨behind, hname, hafter⟩
    rw [Text.afterLead?_eq_some_iff] at hname
    obtain ⟨tail, pairs, rfl, htail⟩ := exists_tail_of_afterName? hafter
    exact ⟨_, pairs, by simp [hname], tail, rfl, htail⟩
  · intro ⟨tag, pairs, hs, tail, htag, htail⟩
    refine ⟨tail ++ rest, Text.afterLead?_eq_some_iff.2 ?_, htail.afterName? rest⟩
    simp [hs, htag]

theorem after?_eq_none_iff :
    after? name s = none ↔ ∀ tag pairs rest, s = tag ++ rest → ¬ Matches name tag pairs := by
  constructor
  · intro h tag pairs rest hs hmatches
    rw [after?_eq_some_iff.2 ⟨tag, pairs, hs, hmatches⟩] at h
    cases h
  · intro h
    cases hafter : after? name s with
    | none => rfl
    | some rest =>
      obtain ⟨tag, pairs, hs, hmatches⟩ := after?_eq_some_iff.1 hafter
      exact absurd hmatches (h tag pairs rest hs)

/-! ## A placeholder as a tag -/

theorem Matches.ne_nil {tag : List Char} (h : Matches name tag pairs) : tag ≠ [] := by
  obtain ⟨tail, rfl, -⟩ := h
  simp

/-- A tail reads as a row of attributes up to the end of the tag. -/
theorem Tail.readAll? (h : Tail pairs tail) (sofar : Tag.Attributes) :
    Tag.Attributes.readAll? sofar (Text.trimStart tail) =
      some (pairs.foldl (fun attributes a => attributes.insert a.1 a.2) sofar) := by
  have hblank : ∀ {spaces : List Char}, (∀ c ∈ spaces, c = ' ') →
      ∀ c ∈ spaces, Text.isBlank c = true := by
    intro spaces hspaces c hc
    rw [hspaces c hc]
    decide
  induction h generalizing sofar with
  | @close spaces close space isClose =>
    have hclose : Text.trimStart (spaces ++ close) = close := by
      apply Text.trimStart_run spaces (hblank space)
      intro c hc
      rcases isClose with rfl | rfl <;> cases hc <;> decide
    rw [hclose, Tag.Attributes.readAll?, if_pos isClose, List.foldl_nil]
  | @assign spaces tail a pairs ne_nil space oneLine next ih =>
    have ha := oneLine_valid oneLine
    rw [Text.trimStart_append (hblank space), Tag.Spelling.trimStart_text ha,
      Tag.Attributes.readAll?_text ha]
    exact ih _

/-- What stands behind the name of a placeholder does not go on with it. -/
theorem Tail.inTagName_head? (h : Tail pairs tail) :
    ∀ c ∈ tail.head?, Tag.inTagName c = false := by
  intro c hc
  have hother : c = ' ' ∨ c = '>' ∨ c = '/' := by
    cases h with
    | @close spaces close space isClose =>
      cases spaces with
      | nil =>
        rcases isClose with rfl | rfl
        · exact .inr (.inl (by simpa using hc.symm))
        · exact .inr (.inr (by simpa using hc.symm))
      | cons d spaces =>
        cases hc
        exact .inl (space c (by simp))
    | @assign spaces tail a pairs ne_nil space oneLine next =>
      obtain ⟨d, more, rfl⟩ := List.exists_cons_of_ne_nil ne_nil
      cases hc
      exact .inl (space c (by simp))
  rcases hother with rfl | rfl | rfl <;> decide

/-- A placeholder is a well-formed tag, and its attributes are those it assigns. -/
theorem Matches.ofTag? {tag : List Char} (h : Matches name tag pairs) (hne : name ≠ [])
    (hname : ∀ c ∈ name, Tag.inTagName c = true) :
    Tag.Attributes.ofTag? tag = some (Tag.Attributes.ofList pairs) := by
  obtain ⟨tail, rfl, htail⟩ := h
  rw [Tag.Attributes.ofTag?_of_name hne hname htail.inTagName_head?]
  exact htail.readAll? _

end Placeholder

end Stencil
