import Stencil.Proofs.Keyed

/-!
# The layout of an opening tag

A layout cuts the text of an opening tag into its pieces: the name, the attributes, the white
space around them and the end mark. A text has one layout at most (`Spells.unique`), it is a
well-formed tag exactly when it has one, and what is read from it are the attributes of the
layout (`Attributes.ofTag_layout`).
-/

namespace Stencil.Tag

/-- The end mark of an opening tag. -/
def endMark (slash : Bool) : List Char := if slash then ['/', '>'] else ['>']

/-- Attributes in a row, each with what stands behind it. -/
def rowText (row : List (Spelling × List Char)) : List Char :=
  row.flatMap fun p => p.1.text ++ p.2

/-- The pieces of an opening tag in their order. -/
structure Layout where
  /-- What stands in front of the name. -/
  lead : List Char
  name : List Char
  /-- What stands behind the name. -/
  gap : List Char
  /-- The attributes, each with what stands behind it. -/
  row : List (Spelling × List Char)
  /-- The tag ends in a slash and a bracket. -/
  slash : Bool

namespace Layout

/-- The part of the tag behind its name. -/
def behindName (l : Layout) : List Char := l.gap ++ (rowText l.row ++ endMark l.slash)

/-- The tag as it is written. -/
def text (l : Layout) : List Char := '<' :: (l.lead ++ (l.name ++ l.behindName))

/-- The names and the values of the attributes. -/
def pairs (l : Layout) : List (String × String) :=
  l.row.map fun p => (String.ofList p.1.name, String.ofList p.1.value)

end Layout

/-- The attributes of the row are written as attributes may be, with white space behind them. -/
def ValidRow (row : List (Spelling × List Char)) : Prop :=
  ∀ p ∈ row, p.1.Valid ∧ ∀ c ∈ p.2, Text.isBlank c = true

/-- The text is an opening tag with this layout. -/
structure Layout.Spells (l : Layout) (tag : List Char) : Prop where
  text : l.text = tag
  lead : ∀ c ∈ l.lead, Text.isBlank c = true
  name_ne_nil : l.name ≠ []
  inTagName : ∀ c ∈ l.name, inTagName c = true
  /-- The name is not followed by another character of names. -/
  nameEnds : ∀ c ∈ l.behindName.head?, Tag.inTagName c = false
  gap : ∀ c ∈ l.gap, Text.isBlank c = true
  row : ValidRow l.row

variable {tag s : List Char} {row row' : List (Spelling × List Char)} {slash slash' : Bool}

/-! ## Rows of attributes -/

theorem rowText_cons (p : Spelling × List Char) (row : List (Spelling × List Char))
    (t : List Char) : rowText (p :: row) ++ t = p.1.text ++ (p.2 ++ (rowText row ++ t)) := by
  simp [rowText]

theorem ValidRow.head {p : Spelling × List Char} (h : ValidRow (p :: row)) :
    p.1.Valid ∧ ∀ c ∈ p.2, Text.isBlank c = true :=
  h p List.mem_cons_self

theorem ValidRow.tail {p : Spelling × List Char} (h : ValidRow (p :: row)) : ValidRow row :=
  fun q hq => h q (List.mem_cons_of_mem p hq)

theorem Spelling.exists_cons_text {a : Spelling} (h : a.Valid) (t : List Char) :
    ∃ c u, a.text ++ t = c :: u ∧ attributeForm.inName c = true := by
  obtain ⟨c, name, hname⟩ := List.exists_cons_of_ne_nil h.name_ne_nil
  refine ⟨c, name ++ (a.gap ++ '=' :: (a.gap' ++ '"' :: (a.value ++ '"' :: t))), ?_,
    h.inName c (by simp [hname])⟩
  rw [text_append, hname, List.cons_append]

/-- A row starts with a name, or else with the end mark behind it. -/
theorem head?_rowText (h : ValidRow row) :
    ∀ c ∈ (rowText row ++ endMark slash).head?,
      attributeForm.inName c = true ∨ c = '/' ∨ c = '>' := by
  intro c hc
  cases row with
  | nil => cases slash <;> cases hc <;> simp
  | cons p row =>
    obtain ⟨d, u, hu, hd⟩ :=
      Spelling.exists_cons_text h.head.1 (p.2 ++ (rowText row ++ endMark slash))
    rw [rowText_cons, hu] at hc
    cases hc
    exact .inl hd

theorem isBlank_head?_rowText (h : ValidRow row) :
    ∀ c ∈ (rowText row ++ endMark slash).head?, Text.isBlank c = false := by
  intro c hc
  rcases head?_rowText h c hc with hname | rfl | rfl
  · exact isBlank_eq_false_of_inName hname
  · decide
  · decide

theorem spelled_rowText (h : ValidRow row) : Spelled (rowText row) := by
  induction row with
  | nil => exact .nil
  | cons p row ih =>
    have hrow := rowText_cons p row []
    rw [List.append_nil, List.append_nil] at hrow
    rw [hrow]
    exact .cons h.head.1 h.head.2 (ih h.tail)

/-! ## Reading a row -/

theorem readAll?_endMark (sofar : Attributes) (slash : Bool) :
    Attributes.readAll? sofar (endMark slash) = some sofar := by
  rw [Attributes.readAll?, if_pos]
  cases slash
  · exact .inl rfl
  · exact .inr rfl

/-- A row is read to its end mark. -/
theorem readAll?_rowText (h : ValidRow row) (sofar : Attributes) :
    Attributes.readAll? sofar (rowText row ++ endMark slash) =
      some ((row.map fun p => (String.ofList p.1.name, String.ofList p.1.value)).foldl
        (fun attributes a => attributes.insert a.1 a.2) sofar) := by
  induction row generalizing sofar with
  | nil => exact readAll?_endMark sofar slash
  | cons p row ih =>
    rw [rowText_cons, Attributes.readAll?_text h.head.1,
      Text.trimStart_run p.2 h.head.2 (isBlank_head?_rowText h.tail)]
    exact ih h.tail _

/-- What was read as an attribute is spelled as one. -/
theorem exists_spelling_of_read? {a : Assignment} {rest : List Char}
    (h : Assignment.read? attributeForm s = some (a, rest)) :
    ∃ b : Spelling, b.Valid ∧ s = b.text ++ rest ∧ a.name = String.ofList b.name ∧
      a.value = String.ofList b.value := by
  obtain ⟨gap, gap', hs, hne, hname, hgap, hgap', hvalue⟩ := Assignment.read?_eq_some h
  refine ⟨⟨a.name.toList, gap, gap', a.value.toList⟩, ⟨hne, ?_, ?_, ?_, ?_⟩, ?_, by simp, by simp⟩
  · exact List.all_eq_true.1 hname
  · exact List.all_eq_true.1 hgap
  · exact List.all_eq_true.1 hgap'
  · intro hquote
    have hin := List.all_eq_true.1 hvalue _ hquote
    simp [attributeForm] at hin
  · simp [hs, Spelling.text]

/-- What is read to an end mark is a row. -/
theorem exists_row_of_readAll? {sofar a : Attributes} (h : Attributes.readAll? sofar s = some a) :
    ∃ row slash, s = rowText row ++ endMark slash ∧ ValidRow row := by
  fun_induction Attributes.readAll? sofar s with
  | case1 sofar s hend =>
    rcases hend with rfl | rfl
    · exact ⟨[], false, rfl, by simp [ValidRow]⟩
    · exact ⟨[], true, rfl, by simp [ValidRow]⟩
  | case2 => cases h
  | case3 sofar s hend b rest hread ih =>
    obtain ⟨row, slash, hrest, hrow⟩ := ih h
    obtain ⟨p, hp, hs, -, -⟩ := exists_spelling_of_read? hread
    refine ⟨(p, rest.takeWhile Text.isBlank) :: row, slash, ?_, ?_⟩
    · rw [rowText_cons, ← hrest, Text.takeWhile_append_trimStart]
      exact hs
    · intro q hq
      rcases List.mem_cons.1 hq with rfl | hq
      · exact ⟨hp, List.all_eq_true.1 List.all_takeWhile⟩
      · exact hrow q hq

/-! ## One row only -/

/-- The text of an attribute can be cut in one way only. -/
theorem Spelling.eq_of_text {a b : Spelling} (ha : a.Valid) (hb : b.Valid) {t u : List Char}
    (h : a.text ++ t = b.text ++ u) : a = b ∧ t = u := by
  have hread := read?_text ha t
  rw [h, read?_text hb u] at hread
  simp only [Option.some.injEq, Prod.mk.injEq, Assignment.mk.injEq, String.ofList_inj] at hread
  obtain ⟨⟨hname, hvalue⟩, rfl⟩ := hread
  have htext := List.append_cancel_right h
  simp only [Spelling.text, hname, List.append_cancel_left_eq] at htext
  have hsign : ∀ v : List Char, ∀ c ∈ ('=' :: v).head?, Text.isBlank c = false := by
    intro v c hc
    cases hc
    decide
  have hquote : ∀ v : List Char, ∀ c ∈ ('"' :: v).head?, Text.isBlank c = false := by
    intro v c hc
    cases hc
    decide
  obtain ⟨hgap, htext⟩ := Text.eq_of_run ha.blank (hsign _) hb.blank (hsign _) htext
  obtain ⟨hgap', -⟩ :=
    Text.eq_of_run ha.blank' (hquote _) hb.blank' (hquote _) (List.cons.inj htext).2
  cases a
  cases b
  simp_all

/-- The end mark does not start like an attribute. -/
theorem endMark_ne_rowText {p : Spelling × List Char} (h : ValidRow (p :: row)) (t : List Char) :
    endMark slash ≠ rowText (p :: row) ++ t := by
  obtain ⟨c, u, hu, hc⟩ := Spelling.exists_cons_text h.head.1 (p.2 ++ (rowText row ++ t))
  rw [rowText_cons, hu]
  intro heq
  cases slash
  · exact ne_of_inName hc (by decide) (List.cons.inj heq).1.symm
  · exact ne_of_inName hc (by decide) (List.cons.inj heq).1.symm

/-- A text can be cut into attributes and an end mark in one way only. -/
theorem eq_of_rowText (hrow : ValidRow row) (hrow' : ValidRow row')
    (h : rowText row ++ endMark slash = rowText row' ++ endMark slash') :
    row = row' ∧ slash = slash' := by
  induction row generalizing row' with
  | nil =>
    cases row' with
    | nil => cases slash <;> cases slash' <;> simp_all [endMark]
    | cons p' row' => exact absurd h (endMark_ne_rowText hrow' _)
  | cons p row ih =>
    cases row' with
    | nil => exact absurd h.symm (endMark_ne_rowText hrow _)
    | cons p' row' =>
      rw [rowText_cons, rowText_cons] at h
      obtain ⟨hspelling, h⟩ := Spelling.eq_of_text hrow.head.1 hrow'.head.1 h
      obtain ⟨hblank, h⟩ := Text.eq_of_run hrow.head.2 (isBlank_head?_rowText hrow.tail)
        hrow'.head.2 (isBlank_head?_rowText hrow'.tail) h
      obtain ⟨rfl, rfl⟩ := ih hrow.tail hrow'.tail h
      exact ⟨by rw [Prod.ext hspelling hblank], rfl⟩

/-! ## Reading a tag -/

namespace Layout

variable {l l' : Layout}

/-- A text has one layout at most. -/
theorem Spells.unique (h : l.Spells tag) (h' : l'.Spells tag) : l = l' := by
  have hname : ∀ {l : Layout}, l.Spells tag →
      ∀ c ∈ (l.name ++ l.behindName).head?, Text.isBlank c = false := by
    intro l h c hc
    obtain ⟨d, rest, hd⟩ := List.exists_cons_of_ne_nil h.name_ne_nil
    rw [hd] at hc
    cases hc
    exact isBlank_eq_false_of_inName (inName_of_inTagName (h.inTagName c (by simp [hd])))
  have htext := h.text.trans h'.text.symm
  obtain ⟨hlead, htext⟩ :=
    Text.eq_of_run h.lead (hname h) h'.lead (hname h') (List.cons.inj htext).2
  obtain ⟨hnames, htext⟩ :=
    Text.eq_of_run h.inTagName h.nameEnds h'.inTagName h'.nameEnds htext
  obtain ⟨hgap, htext⟩ := Text.eq_of_run h.gap (isBlank_head?_rowText h.row) h'.gap
    (isBlank_head?_rowText h'.row) htext
  obtain ⟨hrow, hslash⟩ := eq_of_rowText h.row h'.row htext
  cases l
  cases l'
  simp_all

/-- The tag of a layout is read, and its attributes are those of the layout. -/
theorem Spells.ofTag? (h : l.Spells tag) :
    Attributes.ofTag? tag = some (Attributes.ofList l.pairs) := by
  have htrim : Text.trimStart l.behindName = rowText l.row ++ endMark l.slash :=
    Text.trimStart_run l.gap h.gap (isBlank_head?_rowText h.row)
  have hlead : Attributes.ofTag? ('<' :: (l.lead ++ (l.name ++ l.behindName))) =
      Attributes.ofTag? ('<' :: (l.name ++ l.behindName)) := by
    rw [Attributes.ofTag?, Attributes.ofTag?]
    simp only [Text.trimStart_append h.lead]
  rw [← h.text, Layout.text, hlead,
    Attributes.ofTag?_of_name h.name_ne_nil h.inTagName h.nameEnds, htrim]
  exact readAll?_rowText h.row Attributes.empty

theorem Spells.ofTag (h : l.Spells tag) :
    Attributes.ofTag tag = .ok (Attributes.ofList l.pairs) :=
  Attributes.ofTag_eq_ok.2 h.ofTag?

/-- A tag that is read has a layout. -/
theorem exists_spells_of_ofTag? {a : Attributes} (h : Attributes.ofTag? tag = some a) :
    ∃ l : Layout, l.Spells tag := by
  unfold Attributes.ofTag? at h
  split at h
  · next s =>
    simp only at h
    split at h
    · cases h
    next hname =>
    obtain ⟨row, slash, hrow, hvalid⟩ := exists_row_of_readAll? h
    have hgap : ((Text.trimStart s).dropWhile Tag.inTagName).takeWhile Text.isBlank ++
        (rowText row ++ endMark slash) = (Text.trimStart s).dropWhile Tag.inTagName := by
      rw [← hrow, Text.takeWhile_append_trimStart]
    refine ⟨⟨s.takeWhile Text.isBlank, (Text.trimStart s).takeWhile Tag.inTagName,
      ((Text.trimStart s).dropWhile Tag.inTagName).takeWhile Text.isBlank, row, slash⟩, ?_, ?_, ?_,
      ?_, ?_, ?_, hvalid⟩
    · simp only [text, behindName, hgap, List.takeWhile_append_dropWhile,
        Text.takeWhile_append_trimStart]
    · exact List.all_eq_true.1 List.all_takeWhile
    · simpa using hname
    · exact List.all_eq_true.1 List.all_takeWhile
    · simp only [behindName, hgap]
      exact Text.head?_dropWhile_run Tag.inTagName _
    · exact List.all_eq_true.1 List.all_takeWhile
  · cases h

end Layout

/-- The attributes list each name of the pairs once, at the place of its first pair and with the
value of its last. -/
structure Attributes.Lists (a : Attributes) (pairs : List (String × String)) : Prop where
  names : a.names = (pairs.map Prod.fst).eraseDups
  get? : ∀ name, a.get? name = Keyed.latest name pairs

/-- What is read from a text is decided by its layout, of which there is one at most: the
attributes of the layout, which are its pairs when their names are different, and without a layout
the defect with the whole text. -/
theorem Attributes.ofTag_layout (tag : List Char) :
    (∀ l l' : Layout, l.Spells tag → l'.Spells tag → l = l') ∧
    ((∃ a, ofTag tag = .ok a) ↔ ∃ l : Layout, l.Spells tag) ∧
    (∀ l : Layout, l.Spells tag → ∃ a, ofTag tag = .ok a ∧ a.Lists l.pairs ∧
      ((l.pairs.map Prod.fst).Nodup → a.entries = l.pairs)) ∧
    ((¬ ∃ l : Layout, l.Spells tag) → ofTag tag = .error (.invalidTag (String.ofList tag))) := by
  have hlayout : ∀ a, ofTag? tag = some a → ∃ l : Layout, l.Spells tag := by
    intro a ha
    exact Layout.exists_spells_of_ofTag? ha
  refine ⟨fun l l' h h' => h.unique h', ⟨?_, ?_⟩, ?_, ?_⟩
  · intro ⟨a, ha⟩
    exact hlayout a (ofTag_eq_ok.1 ha)
  · intro ⟨l, hl⟩
    exact ⟨ofList l.pairs, hl.ofTag⟩
  · intro l hl
    exact ⟨ofList l.pairs, hl.ofTag, ⟨names_ofList l.pairs, get?_ofList l.pairs⟩, entries_ofList⟩
  · intro hno
    cases hresult : ofTag? tag with
    | some found => exact absurd (hlayout found hresult) hno
    | none => rw [ofTag, hresult]

end Stencil.Tag
