import Stencil.Proofs.Tag.Layout
import Stencil.Proofs.Usage.Bulk
import Stencil.Proofs.Usage.Written

/-!
# The spellings of a usage

A usage gives its fields in bulk, one by one, or both ways, and its attributes may come in any
order. A `Wording` is what the tag says, and `Wording.On` that a layout says it: the attributes
are those of the wording, and only the single fields keep their order. What is read is the name
and the fields of the bulk list followed by the single ones (`ofTag_wording`), so neither the way
the fields are split nor the order of attributes with different names matters.
-/

namespace Stencil

/-- Nothing but white space stands around the attributes of the layout, and its name is the name
of a tag. -/
structure Tag.Layout.Spaced (l : Tag.Layout) : Prop where
  lead : ∀ c ∈ l.lead, Text.isBlank c = true
  name_ne_nil : l.name ≠ []
  inTagName : ∀ c ∈ l.name, Tag.inTagName c = true
  /-- The name is not followed by another character of names. -/
  nameEnds : ∀ c ∈ l.behindName.head?, Tag.inTagName c = false
  gap : ∀ c ∈ l.gap, Text.isBlank c = true
  row : ∀ p ∈ l.row, (∀ c ∈ p.1.gap, Text.isBlank c = true) ∧
    (∀ c ∈ p.1.gap', Text.isBlank c = true) ∧ ∀ c ∈ p.2, Text.isBlank c = true

instance (l : Tag.Layout) : Decidable l.Spaced :=
  decidable_of_iff (l.lead.all Text.isBlank ∧ l.name ≠ [] ∧ l.name.all Tag.inTagName ∧
      l.behindName.head?.all (!Tag.inTagName ·) ∧ l.gap.all Text.isBlank ∧
      l.row.all fun p => p.1.gap.all Text.isBlank && p.1.gap'.all Text.isBlank &&
        p.2.all Text.isBlank) <| by
    simp only [List.all_eq_true, Option.all_eq_true, Bool.and_eq_true, Bool.not_eq_true',
      and_assoc]
    exact ⟨fun ⟨hlead, hne, hname, hends, hgap, hrow⟩ => ⟨hlead, hne, hname, hends, hgap, hrow⟩,
      fun h => ⟨h.lead, h.name_ne_nil, h.inTagName, h.nameEnds, h.gap, h.row⟩⟩

/-- Attributes that can be written make the layout that of a tag. -/
theorem Tag.Layout.Spaced.spells {l : Tag.Layout} (h : l.Spaced)
    (hpairs : ∀ a ∈ l.pairs, Tag.Writable a) : l.Spells l.text := by
  refine ⟨rfl, h.lead, h.name_ne_nil, h.inTagName, h.nameEnds, h.gap, fun p hp => ?_⟩
  obtain ⟨hgap, hgap', hbehind⟩ := h.row p hp
  have hwritable := hpairs _ (List.mem_map_of_mem hp)
  refine ⟨⟨?_, ?_, hgap, hgap', ?_⟩, hbehind⟩
  · simpa using hwritable.name_ne_nil
  · simpa using hwritable.inName
  · simpa using hwritable.quote_not_mem

namespace Usage

open Tag (Attributes Layout Writable)

/-! ## What a usage is read from -/

/-- What a field is given by the attributes and a bulk list in front of them. -/
theorem getElem?_insertMany_append_singleFields (bulk : List (String × String)) (a : Attributes)
    (field : String) :
    ((∅ : Fields).insertMany (bulk ++ singleFields a))[field]? =
      (a.get? (fieldAttribute field)).or (Keyed.latest field bulk) := by
  have hsingle := getElem?_insertMany_singleFields a field
  rw [Fields.getElem?_insertMany] at hsingle
  rw [Fields.getElem?_insertMany, Keyed.latest_append]
  simp only [Std.ExtTreeMap.getElem?_empty, Option.or_none] at hsingle ⊢
  rw [hsingle]

/-- A usage is read from the values of the attributes and not from their order. -/
theorem ofTag_congr {tag tag' : List Char} {a a' : Attributes} (ha : Attributes.ofTag tag = .ok a)
    (ha' : Attributes.ofTag tag' = .ok a') (h : ∀ name, a.get? name = a'.get? name) :
    ofTag tag = ofTag tag' := by
  have hbulk : bulkOf a = bulkOf a' := by rw [bulkOf, bulkOf, h]
  have hfields : ∀ bulk, (∅ : Fields).insertMany (bulk ++ singleFields a) =
      (∅ : Fields).insertMany (bulk ++ singleFields a') := by
    intro bulk
    apply Std.ExtTreeMap.ext_getElem?
    intro field
    rw [getElem?_insertMany_append_singleFields, getElem?_insertMany_append_singleFields, h]
  rw [ofTag, ofTag, ha, ha']
  simp only [Stages.ok_bind, h, hbulk, hfields]

/-! ## Wordings -/

/-- What the tag of a usage says. -/
structure Wording where
  /-- The template that is asked for. -/
  name : String
  /-- The bulk list, if there is one; it may be empty. -/
  bulk? : Option (List BulkSpelling)
  /-- The single fields in their order. -/
  single : List (String × String)

namespace Wording

/-- The pairs of the bulk list. -/
def bulk (w : Wording) : List (String × String) := (w.bulk?.getD []).map (·.pair)

/-- The fields that are given, those in bulk before the single ones. -/
def entries (w : Wording) : List (String × String) := w.bulk ++ w.single

/-- The attributes for the single fields. -/
def singleAttributes (w : Wording) : List (String × String) :=
  w.single.map fun f => (fieldAttribute f.1, f.2)

/-- The attributes of the tag. -/
def attributes (w : Wording) : List (String × String) :=
  (Template.nameAttribute, w.name) ::
    ((w.bulk?.toList.map fun bulk => (fieldsAttribute, String.ofList (bulkText bulk))) ++
      w.singleAttributes)

/-- The wording can be written: no text holds the quote that would end it, the bulk list can be
read back, and the names of single fields are made of the characters of names. -/
structure Valid (w : Wording) : Prop where
  name : '"' ∉ w.name.toList
  bulk : ∀ b ∈ w.bulk?.getD [], b.Valid ∧ '"' ∉ b.name ∧ '"' ∉ b.value
  single : ∀ f ∈ w.single,
    (∀ c ∈ f.1.toList, Tag.attributeForm.inName c = true) ∧ '"' ∉ f.2.toList

instance (w : Wording) : Decidable w.Valid :=
  decidable_of_iff ('"' ∉ w.name.toList ∧
      (∀ b ∈ w.bulk?.getD [], b.Valid ∧ '"' ∉ b.name ∧ '"' ∉ b.value) ∧
      ∀ f ∈ w.single, f.1.toList.all Tag.attributeForm.inName ∧ '"' ∉ f.2.toList) <| by
    simp only [List.all_eq_true]
    exact ⟨fun ⟨hname, hbulk, hsingle⟩ => ⟨hname, hbulk, hsingle⟩,
      fun h => ⟨h.name, h.bulk, h.single⟩⟩

/-- The tag with this layout says what the wording is: its attributes are those of the wording in
any order that keeps the single fields in theirs. -/
structure On (w : Wording) (l : Layout) : Prop where
  perm : l.pairs.Perm w.attributes
  inOrder : w.singleAttributes.Sublist l.pairs

variable {w : Wording} {l : Layout}

theorem Valid.writable (h : w.Valid) : ∀ a ∈ w.attributes, Writable a := by
  intro a ha
  rcases List.mem_cons.1 ha with rfl | ha
  · exact writable_nameAttribute h.name
  rcases List.mem_append.1 ha with ha | ha
  · obtain ⟨bulk, hbulk, rfl⟩ := List.mem_map.1 ha
    have hgiven : w.bulk?.getD [] = bulk := by rw [Option.mem_toList.1 hbulk]; rfl
    have hvalid := h.bulk
    rw [hgiven] at hvalid
    have hquote := quote_not_mem_bulkText (fun b hb => (hvalid b hb).1) fun b hb => (hvalid b hb).2
    have hne : fieldsAttribute.toList ≠ [] := by decide
    have hchars : fieldsAttribute.toList.all Tag.attributeForm.inName = true := by decide
    exact ⟨hne, List.all_eq_true.1 hchars, by rwa [String.toList_ofList]⟩
  · obtain ⟨f, hf, rfl⟩ := List.mem_map.1 ha
    obtain ⟨hname, hquote⟩ := h.single f hf
    exact writable_fieldAttribute hname hquote

/-- What is read from the tag of a wording are its attributes. -/
theorem On.ofTag (h : w.On l) (hw : w.Valid) (hl : l.Spaced) :
    Attributes.ofTag l.text = .ok (Attributes.ofList l.pairs) :=
  (hl.spells fun a ha => hw.writable a (h.perm.mem_iff.1 ha)).ofTag

/-! ## The values of the attributes -/

theorem fieldsAttribute_ne_nameAttribute : fieldsAttribute ≠ Template.nameAttribute := by decide

theorem fieldNamedBy?_nameAttribute : fieldNamedBy? Template.nameAttribute = none := by decide

theorem fieldNamedBy?_fieldsAttribute : fieldNamedBy? fieldsAttribute = none := by decide

theorem fst_ne_of_mem_singleAttributes {a : String × String} (ha : a ∈ w.singleAttributes)
    {name : String} (hname : name.toList.head? ≠ some '$') : a.1 ≠ name := by
  obtain ⟨f, -, rfl⟩ := List.mem_map.1 ha
  exact fieldAttribute_ne f.1 hname

theorem On.latest_name (h : w.On l) :
    Keyed.latest Template.nameAttribute l.pairs = some w.name := by
  refine Keyed.latest_eq_some_of_forall (h.perm.mem_iff.2 List.mem_cons_self) fun a ha hkey => ?_
  rcases List.mem_cons.1 (h.perm.mem_iff.1 ha) with rfl | ha
  · rfl
  rcases List.mem_append.1 ha with ha | ha
  · obtain ⟨bulk, -, rfl⟩ := List.mem_map.1 ha
    exact absurd hkey fieldsAttribute_ne_nameAttribute
  · exact absurd hkey (fst_ne_of_mem_singleAttributes ha (by decide))

theorem On.latest_bulk (h : w.On l) :
    Keyed.latest fieldsAttribute l.pairs =
      w.bulk?.map fun bulk => String.ofList (bulkText bulk) := by
  have hkeys : ∀ a ∈ l.pairs, a.1 = fieldsAttribute →
      ∃ bulk ∈ w.bulk?, a = (fieldsAttribute, String.ofList (bulkText bulk)) := by
    intro a ha hkey
    rcases List.mem_cons.1 (h.perm.mem_iff.1 ha) with rfl | ha
    · exact absurd hkey.symm fieldsAttribute_ne_nameAttribute
    rcases List.mem_append.1 ha with ha | ha
    · obtain ⟨bulk, hbulk, rfl⟩ := List.mem_map.1 ha
      exact ⟨bulk, Option.mem_toList.1 hbulk, rfl⟩
    · exact absurd hkey (fst_ne_of_mem_singleAttributes ha (by decide))
  cases hbulk : w.bulk? with
  | none =>
    apply Keyed.latest_eq_none
    intro a ha hkey
    obtain ⟨bulk, hmem, -⟩ := hkeys a ha hkey
    rw [hbulk] at hmem
    cases hmem
  | some bulk =>
    have hmem : (fieldsAttribute, String.ofList (bulkText bulk)) ∈ w.attributes := by
      simp [attributes, hbulk]
    refine Keyed.latest_eq_some_of_forall (h.perm.mem_iff.2 hmem) fun a ha hkey => ?_
    obtain ⟨bulk', hmem', rfl⟩ := hkeys a ha hkey
    rw [hbulk] at hmem'
    cases hmem'
    rfl

/-- The attributes for fields stand in the tag in the order of the wording. -/
theorem On.filter_pairs (h : w.On l) :
    l.pairs.filter (fun a => (fieldNamedBy? a.1).isSome) = w.singleAttributes := by
  have hkeep : ∀ a ∈ w.singleAttributes, (fieldNamedBy? a.1).isSome = true := by
    intro a ha
    obtain ⟨f, -, rfl⟩ := List.mem_map.1 ha
    rw [fieldNamedBy?_eq_some_iff.2 rfl]
    rfl
  have hbulk : (w.bulk?.toList.map fun bulk =>
      (fieldsAttribute, String.ofList (bulkText bulk))).filter
        (fun a => (fieldNamedBy? a.1).isSome) = [] := by
    rw [List.filter_eq_nil_iff]
    intro a ha
    obtain ⟨bulk, -, rfl⟩ := List.mem_map.1 ha
    rw [fieldNamedBy?_fieldsAttribute]
    decide
  have hall : w.attributes.filter (fun a => (fieldNamedBy? a.1).isSome) = w.singleAttributes := by
    rw [attributes, List.filter_cons_of_neg (by simp [fieldNamedBy?_nameAttribute]),
      List.filter_append, hbulk,
      List.filter_eq_self.2 hkeep, List.nil_append]
  have hsub := h.inOrder.filter fun a => (fieldNamedBy? a.1).isSome
  rw [List.filter_eq_self.2 hkeep] at hsub
  have hlength := (h.perm.filter fun a => (fieldNamedBy? a.1).isSome).length_eq
  rw [hall] at hlength
  exact (hsub.eq_of_length hlength.symm).symm

theorem On.latest_field (h : w.On l) (field : String) :
    Keyed.latest (fieldAttribute field) l.pairs = Keyed.latest field w.single := by
  have hkeep : ∀ a ∈ l.pairs, a.1 = fieldAttribute field →
      (fieldNamedBy? a.1).isSome = true := by
    intro a _ hkey
    rw [fieldNamedBy?_eq_some_iff.2 hkey]
    rfl
  rw [← Keyed.latest_filter hkeep, h.filter_pairs, singleAttributes, latest_fieldAttributes]

theorem On.bulkOf (h : w.On l) (hw : w.Valid) :
    bulkOf (Attributes.ofList l.pairs) = .ok w.bulk := by
  rw [Usage.bulkOf, Attributes.get?_ofList, h.latest_bulk, bulk]
  have hvalid := hw.bulk
  cases hbulk : w.bulk? with
  | none => rfl
  | some bulk =>
    rw [hbulk] at hvalid
    by_cases hnil : bulk = []
    · subst hnil
      rfl
    · have htext : String.ofList (bulkText bulk) ≠ "" := by
        rw [← String.ofList_nil, ne_eq, String.ofList_inj]
        exact bulkText_ne_nil hnil
      simp only [Option.map_some, if_neg htext, String.toList_ofList]
      exact bulkFields_bulkText (fun b hb => (hvalid b hb).1) hnil

end Wording

/-! ## Reading a wording -/

/-- The tag of a wording is read as the name and the fields of the wording, the later of two values
counting. Another tag is read alike when it gives the same fields, each once, with another split
between the bulk list and the single fields, and when it has the same attributes of different names
in another order. -/
theorem ofTag_wording {l : Layout} {w : Wording} (hl : l.Spaced) (hw : w.Valid) (h : w.On l) :
    ofTag l.text = .ok ⟨w.name, (∅ : Fields).insertMany w.entries⟩ ∧
    (∀ (l' : Layout) (w' : Wording), l'.Spaced → w'.Valid → w'.On l' → w'.name = w.name →
      (w.entries.map Prod.fst).Nodup → w'.entries.Perm w.entries →
        ofTag l'.text = ofTag l.text) ∧
    ∀ l' : Layout, l'.Spaced → (l.pairs.map Prod.fst).Nodup → l'.pairs.Perm l.pairs →
      ofTag l'.text = ofTag l.text := by
  have hread : ∀ {l : Layout} {w : Wording}, l.Spaced → w.Valid → w.On l →
      ofTag l.text = .ok ⟨w.name, (∅ : Fields).insertMany w.entries⟩ := by
    intro l w hl hw h
    have hname : (Attributes.ofList l.pairs).get? Template.nameAttribute = some w.name := by
      rw [Attributes.get?_ofList, h.latest_name]
    have hfields : (∅ : Fields).insertMany
        (w.bulk ++ singleFields (Attributes.ofList l.pairs)) =
          (∅ : Fields).insertMany w.entries := by
      apply Std.ExtTreeMap.ext_getElem?
      intro field
      rw [getElem?_insertMany_append_singleFields, Attributes.get?_ofList, h.latest_field,
        Fields.getElem?_insertMany, Wording.entries, Keyed.latest_append]
      simp
    rw [ofTag_eq_ok (h.ofTag hw hl) hname (h.bulkOf hw), hfields]
  refine ⟨hread hl hw h, fun l' w' hl' hw' h' hsame hnodup hperm => ?_,
    fun l' hl' hnodup hperm => ?_⟩
  · -- the fields are those of the entries, in whichever order these come
    have hfields : (∅ : Fields).insertMany w'.entries = (∅ : Fields).insertMany w.entries := by
      apply Std.ExtTreeMap.ext_getElem?
      intro field
      rw [Fields.getElem?_insertMany, Fields.getElem?_insertMany,
        Keyed.latest_of_perm hperm.symm hnodup]
    rw [hread hl' hw' h', hread hl hw h, hsame, hfields]
  · have hwritable : ∀ a ∈ l'.pairs, Writable a := fun a ha =>
      hw.writable a (h.perm.mem_iff.1 (hperm.mem_iff.1 ha))
    refine ofTag_congr (hl'.spells hwritable).ofTag (h.ofTag hw hl) fun name => ?_
    rw [Attributes.get?_ofList, Attributes.get?_ofList, Keyed.latest_of_perm hperm.symm hnodup]

/-- A card with two fields in bulk and one on its own. -/
def mixedCard : Wording where
  name := "card"
  bulk? := some [⟨[' '], ['a'], [' '], [' '], ['1'], [' ']⟩, ⟨[], ['c'], [], [], [], []⟩]
  single := [("b", "2")]

/-- The same card with single fields only. -/
def singleCard : Wording := ⟨"card", none, [("b", "2"), ("c", ""), ("a", "1")]⟩

def mixedCardTag : Layout where
  lead := []
  name := tagName
  gap := [' ']
  row := [(⟨"$b".toList, [], [], ['2']⟩, [' ']),
    (⟨"--fields".toList, [' '], [' '], " a : 1 ;c:".toList⟩, [' ']),
    (⟨"--name".toList, [], [], "card".toList⟩, [])]
  slash := true

def singleCardTag : Layout where
  lead := []
  name := tagName
  gap := [' ']
  row := [(⟨"$b".toList, [], [], ['2']⟩, [' ']), (⟨"$c".toList, [], [], []⟩, [' ']),
    (⟨"--name".toList, [], [], "card".toList⟩, ['\n']), (⟨"$a".toList, [], [], ['1']⟩, [])]
  slash := false

/-- Both spellings of the card are read alike. -/
theorem ofTag_wording_card :
    (mixedCardTag.Spaced ∧ mixedCard.Valid ∧ mixedCard.On mixedCardTag) ∧
    (singleCardTag.Spaced ∧ singleCard.Valid ∧ singleCard.On singleCardTag) ∧
    ofTag "<--template $b=\"2\" --fields = \" a : 1 ;c:\" --name=\"card\"/>".toList =
      .ok ⟨"card", (∅ : Fields).insertMany [("a", "1"), ("c", ""), ("b", "2")]⟩ ∧
    ofTag "<--template $b=\"2\" $c=\"\" --name=\"card\"\n$a=\"1\">".toList =
      ofTag "<--template $b=\"2\" --fields = \" a : 1 ;c:\" --name=\"card\"/>".toList := by
  have hspaced : mixedCardTag.Spaced ∧ singleCardTag.Spaced := by decide
  have hmixed : mixedCard.Valid := by decide
  have hsingle : singleCard.Valid := by decide
  have hon : mixedCard.On mixedCardTag := ⟨by decide, by decide⟩
  have hon' : singleCard.On singleCardTag := ⟨by decide, by decide⟩
  obtain ⟨hread, hsplit, -⟩ := ofTag_wording hspaced.1 hmixed hon
  exact ⟨⟨hspaced.1, hmixed, hon⟩, ⟨hspaced.2, hsingle, hon'⟩, hread,
    hsplit singleCardTag singleCard hspaced.2 hsingle hon' rfl (by decide) (by decide)⟩

end Usage

end Stencil
