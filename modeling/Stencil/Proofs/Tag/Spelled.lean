import Stencil.Proofs.Text.Classes
import Stencil.Tag.Ending
import Stencil.Tag.Opening

/-!
# Attributes as they may be spelled

White space may stand around the sign of an attribute and behind its value. Both readers of
a tag pass over such a spelling and go on with what follows it: the scan for the end of the
tag as if it were not there (`afterEnd_spelled`), the reader of the attributes with the
attributes it has found (`exists_readAll?_spelled`).
-/

namespace Stencil.Tag

/-! ## Characters of names -/

theorem inName_of_inTagName {c : Char} (h : inTagName c = true) :
    attributeForm.inName c = true := by
  simp [attributeForm, h]

theorem isBlank_eq_false_of_inName {c : Char} (h : attributeForm.inName c = true) :
    Text.isBlank c = false := by
  cases hb : Text.isBlank c with
  | false => rfl
  | true =>
    have hw := Text.isWord_eq_false_of_isBlank hb
    simp only [attributeForm, inTagName, hw, Bool.false_or, Bool.or_eq_true, beq_iff_eq] at h
    rcases h with rfl | rfl <;> revert hb <;> decide

theorem ne_of_inName {c d : Char} (h : attributeForm.inName c = true)
    (hd : attributeForm.inName d = false) : c ≠ d := by
  rintro rfl
  rw [h] at hd
  exact absurd hd (by decide)

/-! ## Characters inside a tag -/

/-- A character that means nothing to the scan for the end of a tag. -/
def Plain (c : Char) : Prop := isQuote c = false ∧ c ≠ '>' ∧ c ≠ '\\'

theorem plain_of_ne {c : Char} (hquote : c ≠ '"') (hquote' : c ≠ '\'') (hend : c ≠ '>')
    (hescape : c ≠ '\\') : Plain c :=
  ⟨by simp [isQuote, hquote, hquote'], hend, hescape⟩

theorem plain_of_inName {c : Char} (h : attributeForm.inName c = true) : Plain c :=
  plain_of_ne (ne_of_inName h (by decide)) (ne_of_inName h (by decide))
    (ne_of_inName h (by decide)) (ne_of_inName h (by decide))

theorem plain_of_isBlank {c : Char} (h : Text.isBlank c = true) : Plain c := by
  have hne : ∀ d, Text.isBlank d = false → c ≠ d := by
    rintro d hd rfl
    rw [h] at hd
    exact absurd hd (by decide)
  exact plain_of_ne (hne _ (by decide)) (hne _ (by decide)) (hne _ (by decide)) (hne _ (by decide))

theorem afterEnd_plain {s t : List Char} (h : ∀ c ∈ s, Plain c) :
    afterEnd (.outside false) (s ++ t) = afterEnd (.outside false) t := by
  induction s with
  | nil => rfl
  | cons c s ih =>
    obtain ⟨hq, hgt, hb⟩ := h c (by simp)
    rw [List.cons_append, afterEnd, hq]
    simp only [Bool.not_false, Bool.and_true, Bool.false_eq_true, if_false, if_neg hgt,
      beq_eq_false_iff_ne.2 hb]
    exact ih fun d hd => h d (List.mem_cons_of_mem _ hd)

theorem afterEnd_inside {quote : Char} {s t : List Char} (h : quote ∉ s) :
    afterEnd (.inside quote) (s ++ quote :: t) = afterEnd (.outside false) t := by
  induction s with
  | nil => simp [afterEnd]
  | cons c s ih =>
    have hc : c ≠ quote := fun hc => h (by simp [hc])
    rw [List.cons_append, afterEnd, if_neg hc]
    exact ih fun hs => h (List.mem_cons_of_mem _ hs)

/-! ## One attribute -/

/-- An attribute with the text around its sign. -/
structure Spelling where
  name : List Char
  /-- What stands between the name and the sign. -/
  gap : List Char
  /-- What stands between the sign and the value. -/
  gap' : List Char
  value : List Char

namespace Spelling

/-- The attribute as it stands in the tag. -/
def text (a : Spelling) : List Char :=
  a.name ++ (a.gap ++ '=' :: (a.gap' ++ '"' :: (a.value ++ ['"'])))

/-- The reader of attributes takes the text for an attribute. -/
structure Valid (a : Spelling) : Prop where
  name_ne_nil : a.name ≠ []
  inName : ∀ c ∈ a.name, attributeForm.inName c = true
  blank : ∀ c ∈ a.gap, Text.isBlank c = true
  blank' : ∀ c ∈ a.gap', Text.isBlank c = true
  quote_not_mem : '"' ∉ a.value

variable {a : Spelling}

theorem Valid.withValue (h : a.Valid) {value : List Char} (hquote : '"' ∉ value) :
    Valid { a with value := value } :=
  ⟨h.name_ne_nil, h.inName, h.blank, h.blank', hquote⟩

theorem text_append (a : Spelling) (t : List Char) :
    a.text ++ t = a.name ++ (a.gap ++ '=' :: (a.gap' ++ '"' :: (a.value ++ '"' :: t))) := by
  simp [text]

/-- The scan for the end of the tag passes over an attribute, whatever its value holds. -/
theorem afterEnd_text (h : a.Valid) (t : List Char) :
    afterEnd (.outside false) (a.text ++ t) = afterEnd (.outside false) t := by
  have hshape : a.text ++ t =
      (a.name ++ (a.gap ++ '=' :: a.gap')) ++ '"' :: (a.value ++ '"' :: t) := by
    simp [text]
  rw [hshape, afterEnd_plain]
  · exact afterEnd_inside h.quote_not_mem
  · intro c hc
    simp only [List.mem_append, List.mem_cons] at hc
    rcases hc with hc | hc | rfl | hc
    · exact plain_of_inName (h.inName c hc)
    · exact plain_of_isBlank (h.blank c hc)
    · exact ⟨by decide, by decide, by decide⟩
    · exact plain_of_isBlank (h.blank' c hc)

/-- The name of an attribute ends where its sign or the gap in front of it begins. -/
theorem inName_eq_false_of_head? (h : a.Valid) (t : List Char) :
    ∀ c ∈ (a.gap ++ '=' :: t).head?, attributeForm.inName c = false := by
  intro c hc
  cases hgap : a.gap with
  | nil =>
    rw [hgap] at hc
    cases hc
    decide
  | cons d gap =>
    rw [hgap] at hc
    cases hc
    cases hin : attributeForm.inName c with
    | false => rfl
    | true =>
      have hblank := h.blank c (by simp [hgap])
      rw [isBlank_eq_false_of_inName hin] at hblank
      exact absurd hblank (by decide)

/-- An attribute in the characters of a form is read back whatever follows it. -/
theorem read?_form {form : Assignment.Form} (hne : a.name ≠ [])
    (hname : ∀ c ∈ a.name, form.inName c = true) (hgap : ∀ c ∈ a.gap, form.inGap c = true)
    (hgap' : ∀ c ∈ a.gap', form.inGap c = true) (hvalue : ∀ c ∈ a.value, form.inValue c = true)
    (hstop : ∀ u, ∀ c ∈ (a.gap ++ '=' :: u).head?, form.inName c = false)
    (hsign : form.inGap '=' = false) (hquote : form.inGap '"' = false)
    (hend : form.inValue '"' = false) (t : List Char) :
    Assignment.read? form (a.text ++ t) =
      some (⟨String.ofList a.name, String.ofList a.value⟩, t) := by
  have hhead : ∀ {p : Char → Bool} {c : Char} {u : List Char}, p c = false →
      ∀ d ∈ (c :: u).head?, p d = false := by
    intro p c u hc d hd
    cases hd
    exact hc
  -- each run ends where the next character is of another kind
  rw [text_append, Assignment.read?]
  simp only [Text.takeWhile_run hname (hstop _), Text.dropWhile_run hname (hstop _),
    List.isEmpty_iff, hne, if_false, Text.dropWhile_run hgap (hhead hsign),
    Text.dropWhile_run hgap' (hhead hquote), Text.takeWhile_run hvalue (hhead hend),
    Text.dropWhile_run hvalue (hhead hend)]

/-- An attribute is read back whatever follows it. -/
theorem read?_text (h : a.Valid) (t : List Char) :
    Assignment.read? attributeForm (a.text ++ t) =
      some (⟨String.ofList a.name, String.ofList a.value⟩, t) := by
  have hvalue : ∀ c ∈ a.value, attributeForm.inValue c = true := by
    intro c hc
    have hne : c ≠ '"' := fun hq => h.quote_not_mem (hq ▸ hc)
    simp [attributeForm, hne]
  exact read?_form h.name_ne_nil h.inName h.blank h.blank' hvalue (inName_eq_false_of_head? h)
    (by decide) (by decide) (by decide) t

/-- An attribute does not start with white space. -/
theorem trimStart_text (h : a.Valid) (t : List Char) :
    Text.trimStart (a.text ++ t) = a.text ++ t := by
  obtain ⟨c, name, hname⟩ := List.exists_cons_of_ne_nil h.name_ne_nil
  have hblank : Text.isBlank c = false :=
    isBlank_eq_false_of_inName (h.inName c (by simp [hname]))
  rw [text_append, hname, List.cons_append]
  exact Text.trimStart_run [] (by simp) (by simpa using hblank)

end Spelling

namespace Attributes

variable {s rest : List Char} {sofar : Attributes}

theorem readAll?_of_some {a : Assignment} (hend : ¬ (s = ['>'] ∨ s = ['/', '>']))
    (hread : Assignment.read? attributeForm s = some (a, rest)) :
    readAll? sofar s = readAll? (sofar.insert a.name a.value) (Text.trimStart rest) := by
  rw [readAll?, if_neg hend]
  split
  next hnone => rw [hread] at hnone; cases hnone
  next hsome =>
    rw [hread] at hsome
    cases hsome
    rfl

theorem readAll?_of_none (hend : ¬ (s = ['>'] ∨ s = ['/', '>']))
    (hread : Assignment.read? attributeForm s = none) : readAll? sofar s = none := by
  rw [readAll?, if_neg hend]
  split
  next => rfl
  next hsome => rw [hread] at hsome; cases hsome

theorem ofTag_eq_ok {tag : List Char} {a : Attributes} :
    ofTag tag = .ok a ↔ ofTag? tag = some a := by
  rw [ofTag]
  cases ofTag? tag <;> simp

/-- The name of a tag is passed over in front of its attributes. -/
theorem ofTag?_of_name {name : List Char} (hne : name ≠ [])
    (hname : ∀ c ∈ name, inTagName c = true) (hstop : ∀ c ∈ s.head?, inTagName c = false) :
    ofTag? ('<' :: (name ++ s)) = readAll? empty (Text.trimStart s) := by
  obtain ⟨c, rest, rfl⟩ := List.exists_cons_of_ne_nil hne
  have hc : Text.isBlank c = false :=
    isBlank_eq_false_of_inName (inName_of_inTagName (hname c (by simp)))
  have htrim : Text.trimStart ((c :: rest) ++ s) = (c :: rest) ++ s :=
    Text.trimStart_run [] (by simp) (by simp [hc])
  rw [ofTag?]
  simp only [htrim, Text.takeWhile_run hname hstop, Text.dropWhile_run hname hstop]
  rfl

/-- The reader of attributes takes up an attribute and goes on behind it. -/
theorem readAll?_text {a : Spelling} (h : a.Valid) (sofar : Attributes) (t : List Char) :
    readAll? sofar (a.text ++ t) =
      readAll? (sofar.insert (String.ofList a.name) (String.ofList a.value)) (Text.trimStart t) := by
  refine readAll?_of_some ?_ (Spelling.read?_text h t)
  -- an attribute starts with a character of names, so it is not the end of the tag
  obtain ⟨c, name, hname⟩ := List.exists_cons_of_ne_nil h.name_ne_nil
  have hc : attributeForm.inName c = true := h.inName c (by simp [hname])
  have h1 : c ≠ '>' := ne_of_inName hc (by decide)
  have h2 : c ≠ '/' := ne_of_inName hc (by decide)
  rw [Spelling.text_append, hname]
  simp [h1, h2]

end Attributes

/-! ## A row of attributes -/

/-- The text is a row of attributes, each with any white space behind it. -/
inductive Spelled : List Char → Prop
  | nil : Spelled []
  | cons {a : Spelling} {blank rest} (valid : a.Valid)
      (isBlank : ∀ c ∈ blank, Text.isBlank c = true) (next : Spelled rest) :
      Spelled (a.text ++ (blank ++ rest))

variable {s : List Char}

theorem afterEnd_spelled (h : Spelled s) (t : List Char) :
    afterEnd (.outside false) (s ++ t) = afterEnd (.outside false) t := by
  induction h with
  | nil => rfl
  | @cons a blank rest valid isBlank next ih =>
    rw [List.append_assoc, Spelling.afterEnd_text valid, List.append_assoc,
      afterEnd_plain fun c hc => plain_of_isBlank (isBlank c hc)]
    exact ih

/-- What is read from a row of attributes does not depend on what follows it. -/
theorem Attributes.exists_readAll?_spelled (h : Spelled s) (sofar : Attributes) :
    ∃ found, ∀ t, readAll? sofar (Text.trimStart (s ++ t)) =
      readAll? found (Text.trimStart t) := by
  induction h generalizing sofar with
  | nil => exact ⟨sofar, fun t => rfl⟩
  | @cons a blank rest valid isBlank next ih =>
    obtain ⟨found, hfound⟩ := ih (sofar.insert (String.ofList a.name) (String.ofList a.value))
    refine ⟨found, fun t => ?_⟩
    rw [List.append_assoc, Spelling.trimStart_text valid, readAll?_text valid,
      List.append_assoc, Text.trimStart_append isBlank]
    exact hfound t

end Stencil.Tag
