import Stencil.Proofs.Usage.Alike

/-!
# Another value for a field

A document is revalued when one `$name="value"` of one of its usages gets another value that
its quotes can hold. The tag with the new value ends where the old one did and asks alike
(`TagRevalued.tagsAlike`), so the two documents have the same tags up to the values of fields
(`Revalued.exists_alike`).
-/

namespace Stencil.Usage

open Tag (Spelling Spelled Attributes)

/-! ## The tag -/

/-- The tag of a usage with the attribute `a` between `front` and `back`. -/
def tagWith (blank front : List Char) (a : Spelling) (back : List Char) : List Char :=
  '<' :: (tagName ++ (blank ++ (front ++ (a.text ++ back))))

/-- One field of the tag has another value. The attributes in front of it may be spelled in
any way, and what follows it need not be well formed. -/
inductive TagRevalued : List Char → List Char → Prop
  | intro {blank front back value} {a : Spelling} (blank_ne_nil : blank ≠ [])
      (isBlank : ∀ c ∈ blank, Text.isBlank c = true) (spelled : Spelled front)
      (valid : a.Valid) (field : a.name.head? = some '$') (quote_not_mem : '"' ∉ value) :
      TagRevalued (tagWith blank front a back)
        (tagWith blank front { a with value := value } back)

section TagWith

variable {blank front back tag tag' : List Char} {a : Spelling}

/-- The scan for the end of the tag does not look at the value. -/
theorem afterEnd_tagWith (hblank : ∀ c ∈ blank, Text.isBlank c = true) (hfront : Spelled front)
    (ha : a.Valid) (rest : List Char) :
    Tag.afterEnd (.outside false) (tagWith blank front a back ++ rest) =
      Tag.afterEnd (.outside false) (back ++ rest) := by
  have hlead : ∀ c ∈ '<' :: (tagName ++ blank), Tag.Plain c := by
    intro c hc
    simp only [List.mem_cons, List.mem_append] at hc
    rcases hc with rfl | hc | hc
    · exact ⟨by decide, by decide, by decide⟩
    · exact Tag.plain_of_inName (Tag.inName_of_inTagName (inTagName_tagName c hc))
    · exact Tag.plain_of_isBlank (hblank c hc)
  have hshape : tagWith blank front a back ++ rest =
      ('<' :: (tagName ++ blank)) ++ (front ++ (a.text ++ (back ++ rest))) := by
    simp [tagWith]
  rw [hshape, Tag.afterEnd_plain hlead, Tag.afterEnd_spelled hfront, Spelling.afterEnd_text ha]

theorem markHere?_tagWith (hne : blank ≠ []) (hblank : ∀ c ∈ blank, Text.isBlank c = true)
    (rest : List Char) :
    Tag.markHere? tagName (tagWith blank front a back ++ rest) = some false := by
  refine markHere?_eq_some_iff.2 ⟨blank ++ (front ++ (a.text ++ (back ++ rest))), ?_, ?_⟩
  · simp [tagWith, markOf]
  · obtain ⟨c, more, rfl⟩ := List.exists_cons_of_ne_nil hne
    simp [Tag.endsName, hblank c (by simp)]

/-- White space does not continue the name of a tag. -/
theorem inTagName_eq_false_of_head? (hne : blank ≠ [])
    (hblank : ∀ c ∈ blank, Text.isBlank c = true) (t : List Char) :
    ∀ c ∈ (blank ++ t).head?, Tag.inTagName c = false := by
  obtain ⟨d, rest, rfl⟩ := List.exists_cons_of_ne_nil hne
  rintro c ⟨⟩
  cases hin : Tag.inTagName d with
  | false => rfl
  | true =>
    have hd := hblank d (by simp)
    rw [Tag.isBlank_eq_false_of_inName (Tag.inName_of_inTagName hin)] at hd
    exact absurd hd (by decide)

/-- The attributes of the tag are those in front of `a`, then `a`, then those that follow. -/
theorem exists_ofTag?_tagWith (hne : blank ≠ []) (hblank : ∀ c ∈ blank, Text.isBlank c = true)
    (hfront : Spelled front) :
    ∃ found : Attributes, ∀ (a : Spelling) (back : List Char), a.Valid →
      Attributes.ofTag? (tagWith blank front a back) =
        Attributes.readAll? (found.insert (String.ofList a.name) (String.ofList a.value))
          (Text.trimStart back) := by
  obtain ⟨found, hfound⟩ := Attributes.exists_readAll?_spelled hfront .empty
  refine ⟨found, fun a back ha => ?_⟩
  have htrim : ∀ t, Text.trimStart (tagName ++ t) = tagName ++ t := fun t =>
    Text.trimStart_run [] (by simp) (by rintro c ⟨⟩; decide)
  have hstop := inTagName_eq_false_of_head? hne hblank
  have hname : ¬ tagName.isEmpty = true := by decide
  rw [tagWith, Attributes.ofTag?]
  simp only [htrim, Text.takeWhile_run inTagName_tagName (hstop _),
    Text.dropWhile_run inTagName_tagName (hstop _), if_neg hname, Text.trimStart_append hblank]
  rw [hfound, Spelling.trimStart_text ha, Attributes.readAll?_text ha]

end TagWith

namespace TagRevalued

variable {tag tag' : List Char}

/-- The tag with the new value is a whole tag. -/
theorem isTag (h : TagRevalued tag tag') (htag : IsTag false tag) : IsTag false tag' := by
  obtain ⟨hne, hblank, hfront, ha, -, hquote⟩ := h
  have hend := htag.ended []
  rw [afterEnd_tagWith hblank hfront ha] at hend
  exact isTag_of_afterEnd (markHere?_tagWith hne hblank [])
    ((afterEnd_tagWith hblank hfront (ha.withValue hquote) []).trans hend)

/-- The tag with the new value asks for the same template with the same fields. -/
theorem asksAlike (h : TagRevalued tag tag') : AsksAlike tag tag' := by
  obtain ⟨hne, hblank, hfront, ha, hfield, hquote⟩ := h
  obtain ⟨found, hfound⟩ := exists_ofTag?_tagWith hne hblank hfront
  apply asksAlike_of_agree
  rw [hfound _ _ ha, hfound _ _ (ha.withValue hquote)]
  exact Attributes.agree_readAll?
    ((Attributes.AgreeExcept.refl found).insert fun h => absurd (ofField_of_head? hfield) h) _

theorem tagsAlike (h : TagRevalued tag tag') (htag : IsTag false tag) :
    TagsAlike false tag tag' :=
  ⟨htag, h.isTag htag, fun _ => h.asksAlike⟩

end TagRevalued

/-- Written attributes stand in front of another one as a row. -/
theorem exists_spelled_writtenAttributes {attributes : List (String × String)}
    (h : ∀ a ∈ attributes, Tag.Writable a) :
    ∃ front, Spelled front ∧
      ∀ t, Tag.writtenAttributes attributes ++ ' ' :: t = ' ' :: (front ++ t) := by
  induction attributes with
  | nil => exact ⟨[], .nil, fun t => rfl⟩
  | cons a attributes ih =>
    obtain ⟨ha, hrest⟩ := List.forall_mem_cons.1 h
    obtain ⟨front, hfront, hshape⟩ := ih hrest
    have hspace : ∀ c ∈ [' '], Text.isBlank c = true := List.forall_mem_singleton.2 (by decide)
    refine ⟨_, .cons ha.valid_spelling hspace hfront, fun t => ?_⟩
    rw [Tag.writtenAttributes_cons, List.cons_append, List.append_assoc, hshape,
      Tag.text_spelling]
    simp

/-- A written tag with another value for one of its fields. -/
theorem tagRevalued_openTag {name field value value' : String}
    {before behind : List (String × String)} (hname : '"' ∉ name.toList)
    (hbefore : ∀ f ∈ before, FieldWritable f) (hfield : FieldWritable (field, value))
    (hvalue' : '"' ∉ value'.toList) :
    TagRevalued (openTag name (before ++ (field, value) :: behind))
      (openTag name (before ++ (field, value') :: behind)) := by
  obtain ⟨front, hfront, hshape⟩ :=
    exists_spelled_writtenAttributes
      (writable_attributesOf hname fun f hf => (hbefore f hf).writable)
  have ha : (Tag.spelling (fieldAttribute field, value)).Valid := hfield.writable.valid_spelling
  have htag : ∀ v, openTag name (before ++ (field, v) :: behind) =
      tagWith [' '] front (Tag.spelling (fieldAttribute field, v))
        (Tag.writtenAttributes (behind.map fun f => (fieldAttribute f.1, f.2)) ++ ['>']) := by
    intro v
    have hattributes : attributesOf name (before ++ (field, v) :: behind) =
        attributesOf name before ++
          (fieldAttribute field, v) :: behind.map fun f => (fieldAttribute f.1, f.2) := by
      simp [attributesOf]
    rw [openTag, Tag.written, hattributes, Tag.writtenAttributes, List.flatMap_append,
      List.flatMap_cons, ← Tag.writtenAttributes, ← Tag.writtenAttributes, List.append_assoc,
      List.cons_append, List.cons_append, hshape, tagWith, Tag.text_spelling]
    simp
  rw [htag, htag]
  exact .intro (by simp) (List.forall_mem_singleton.2 (by decide)) hfront ha
    (by simp [Tag.spelling, fieldAttribute]) hvalue'

/-! ## The document -/

/-- A row of whole tags with inert text around them. -/
inductive Delimited : List Char → Prop
  | last {s} (inert : Inert s) : Delimited s
  | tag {s tag rest closing} (inert : Inert s) (isTag : IsTag closing tag)
      (next : Delimited rest) : Delimited (s ++ (tag ++ rest))

theorem Delimited.alike {s : List Char} (h : Delimited s) : Alike s s := by
  induction h with
  | last inert => exact .last inert inert
  | @tag s tag rest closing inert isTag next ih =>
    exact .tag inert inert ⟨isTag, isTag, fun _ => .refl tag⟩ ih

theorem delimited_closeTag : Delimited closeTag := by
  have h : Delimited ([] ++ (closeTag ++ [])) := .tag .nil isTag_closeTag (.last .nil)
  simpa using h

theorem TagRevalued.alike {tag tag' rest : List Char} (h : TagRevalued tag tag')
    (htag : IsTag false tag) (hrest : Delimited rest) : Alike (tag ++ rest) (tag' ++ rest) := by
  have halike : Alike ([] ++ (tag ++ rest)) ([] ++ (tag' ++ rest)) :=
    .tag .nil .nil (h.tagsAlike htag) hrest.alike
  exact halike

/-- One field of one usage has another value. No text in front of a tag ends in the beginning
of a tag, and `tail` is what stands behind the last tag. -/
inductive Revalued : List Char → List Char → Prop
  | intro {front tag tag' back tail} (delimited : Delimited front) (isTag : IsTag false tag)
      (revalued : TagRevalued tag tag') (delimited' : Delimited back) (tagless : Tagless tail) :
      Revalued (front ++ (tag ++ (back ++ tail))) (front ++ (tag' ++ (back ++ tail)))

/-- Up to the text behind their last tags the two documents have the same tags. -/
theorem Revalued.exists_alike {s s' : List Char} (h : Revalued s s') :
    ∃ x x' tail, s = x ++ tail ∧ s' = x' ++ tail ∧ Alike x x' ∧ Tagless tail := by
  obtain ⟨hfront, htag, hrevalued, hback, htail⟩ := h
  exact ⟨_, _, _, by simp, by simp, hfront.alike.append (hrevalued.alike htag hback), htail⟩

end Stencil.Usage
