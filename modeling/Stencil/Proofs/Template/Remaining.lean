import Stencil.Proofs.Template.Replaced
import Stencil.Proofs.Text.Seams

/-!
# Placeholders that remain

No placeholder stands in a literal part of a template (`Template.free_of_mem_literals`), and none
in a value without `<`. What may remain in a filled template is a placeholder in the default of a
field tag, and one that starts in a part of the filled template and ends in a later one
(`Template.absent_fill_iff`).
-/

namespace Stencil

namespace Placeholder

/-- The text is a field tag or a content slot. -/
def IsPlaceholder (tag : List Char) : Prop :=
  ∃ name ∈ [Template.fieldTag, Template.contentTag], ∃ pairs, Matches name tag pairs

/-- Neither a field tag nor a content slot is found in the text. -/
def Absent (text : List Char) : Prop :=
  occurrences Template.fieldTag text = [] ∧ occurrences Template.contentTag text = []

instance (text : List Char) : Decidable (Absent text) := inferInstanceAs (Decidable (_ ∧ _))

variable {tag text : List Char}

theorem IsPlaceholder.exists_cons (h : IsPlaceholder tag) : ∃ s, tag = '<' :: s := by
  obtain ⟨name, -, pairs, tail, rfl, -⟩ := h
  exact ⟨_, rfl⟩

theorem IsPlaceholder.ne_nil (h : IsPlaceholder tag) : tag ≠ [] := by
  obtain ⟨s, rfl⟩ := h.exists_cons
  exact List.cons_ne_nil _ _

theorem absent_iff : Absent text ↔ Text.Free IsPlaceholder text := by
  rw [Absent, occurrences_eq_nil_iff, occurrences_eq_nil_iff]
  constructor
  · rintro ⟨hfields, hslots⟩ tag ⟨name, hname, pairs, hmatches⟩
    simp only [List.mem_cons, List.not_mem_nil, or_false] at hname
    rcases hname with rfl | rfl
    · exact hfields tag pairs hmatches
    · exact hslots tag pairs hmatches
  · intro h
    exact ⟨fun tag pairs hmatches => h tag ⟨_, by simp, pairs, hmatches⟩,
      fun tag pairs hmatches => h tag ⟨_, by simp, pairs, hmatches⟩⟩

/-- A text without `<` holds no placeholder. -/
theorem free_of_not_mem (h : '<' ∉ text) : Text.Free IsPlaceholder text := by
  intro tag htag hin
  obtain ⟨s, rfl⟩ := htag.exists_cons
  exact h (hin.subset List.mem_cons_self)

/-- A text without `<` ends in the beginning of no placeholder. -/
theorem not_opens_of_not_mem (h : '<' ∉ text) : ¬ Text.Opens IsPlaceholder text := by
  rintro ⟨head, tail, hhead, hne, -, htag⟩
  obtain ⟨s, hs⟩ := htag.exists_cons
  obtain ⟨c, head, rfl⟩ := List.exists_cons_of_ne_nil hne
  obtain rfl : c = '<' := (List.cons.inj hs).1
  exact h (hhead.subset List.mem_cons_self)

end Placeholder

open Placeholder (Absent IsPlaceholder)

/-! ## The literal parts -/

theorem Substitution.mem_insertSpan {s s' : Nat × Nat} {spans : List (Nat × Nat)} :
    s' ∈ insertSpan s spans ↔ s' = s ∨ s' ∈ spans := by
  fun_induction insertSpan s spans with
  | case1 => simp
  | case2 t spans hlt => simp
  | case3 t spans hlt ih => rw [List.mem_cons, ih, List.mem_cons, or_left_comm]

namespace Template

variable {t : Template} {fields : Fields} {inner : List Char} {filling : Filling}

theorem mem_spans {s : Nat × Nat} :
    s ∈ t.spans ↔ ∃ name ∈ [fieldTag, contentTag],
      ∃ o ∈ Placeholder.occurrences name t.content.toList, spanOf o = s := by
  have hfold : ∀ (slots : List Placeholder.Occurrence) (spans : List (Nat × Nat)),
      s ∈ slots.foldl (fun spans slot => Substitution.insertSpan (spanOf slot) spans) spans ↔
        s ∈ spans ∨ ∃ o ∈ slots, spanOf o = s := by
    intro slots
    induction slots with
    | nil => simp
    | cons slot slots ih =>
      intro spans
      rw [List.foldl_cons, ih, Substitution.mem_insertSpan]
      grind
  rw [spans, hfold, List.mem_map]
  simp

/-- The placeholders of a template that can be filled are apart from each other. -/
theorem pairwise_spans_of_fill (h : t.fill fields inner = .ok filling) :
    t.spans.Pairwise fun s s' => s.2 ≤ s'.1 := by
  obtain ⟨resolved, places, hresolved, hplaces, hout⟩ := fill_eq_ok.1 h
  have hspan := (filler_of_places hresolved hplaces).1
  rw [← span_of_places hresolved hplaces, List.pairwise_map]
  exact (Substitution.pairwise_of_substitute? (fun s hs => (hspan s hs).1)
    (substitute?_of_assemble hout)).2

/-- No placeholder stands in the text between the placeholders. -/
theorem free_of_mem_literals (hpairwise : t.spans.Pairwise fun s s' => s.2 ≤ s'.1)
    {part : List Char} (hpart : part ∈ t.literals) : Text.Free IsPlaceholder part := by
  have hfound := fun name =>
    Placeholder.leftmost_occurrencesFrom name t.content.toList 0
  have hspan : ∀ s ∈ t.spans, 0 ≤ s.1 ∧ s.1 ≤ s.2 ∧ s.2 ≤ 0 + t.content.toList.length := by
    intro s hs
    obtain ⟨name, -, o, ho, rfl⟩ := mem_spans.1 hs
    obtain ⟨lead, rest, htext, hstart⟩ := (hfound name).within ho
    refine ⟨Nat.zero_le _, Nat.le_add_right _ _, ?_⟩
    rw [htext]
    simp only [spanOf, Placeholder.Occurrence.stop, List.length_append]
    omega
  rintro tag ⟨name, hname, pairs, hmatches⟩ ⟨front, behind, rfl⟩
  obtain ⟨lead, rest, htext, havoids⟩ :=
    Substitution.exists_of_mem_between hspan hpairwise hpart
  have htag : t.content.toList = (lead ++ front) ++ (tag ++ (behind ++ rest)) := by
    simp [htext]
  -- the tag starts inside a placeholder that is found, and the part meets none of these
  obtain ⟨o, ho, hstart, hstop⟩ := (hfound name).exists_covers htag hmatches
  have havoid := havoids (spanOf o) (mem_spans.2 ⟨name, hname, o, ho, rfl⟩)
  have hpos : 0 < tag.length := List.length_pos_iff.2 hmatches.ne_nil
  simp only [spanOf, List.length_append] at hstart hstop havoid
  omega

/-! ## The defaults -/

/-- The defaults that fill a place because the usage gives their field no value. -/
def usedDefaults (t : Template) (fields : Fields) : List String :=
  (Placeholder.occurrences fieldTag t.content.toList).filterMap fun o => do
    let attributes ← Tag.Attributes.ofTag? o.tag
    let name ← attributes.get? nameAttribute
    if name ∈ fields then none else attributes.get? defaultAttribute

theorem mem_usedDefaults {value : String} :
    value ∈ t.usedDefaults fields ↔
      ∃ o ∈ Placeholder.occurrences fieldTag t.content.toList, ∃ name, fields[name]? = none ∧
        t.resolveField fields o.tag = .ok (name, value) := by
  rw [usedDefaults, List.mem_filterMap]
  refine exists_congr fun o => and_congr_right fun _ => ?_
  simp only [resolveField_eq_ok, Option.bind_eq_bind, Option.bind_eq_some_iff,
    Option.ite_none_left_eq_some, Std.ExtTreeMap.mem_iff_isSome_getElem?, Bool.not_eq_true,
    Option.isSome_eq_false_iff, Option.isNone_iff_eq_none]
  constructor
  · rintro ⟨a, ha, name, hname, hfield, hdefault⟩
    exact ⟨name, hfield, a, ha, hname, by rw [hfield]; exact hdefault⟩
  · rintro ⟨name, hfield, a, ha, hname, hvalue⟩
    rw [hfield] at hvalue
    exact ⟨a, ha, name, hname, hfield, hvalue⟩

/-! ## The filled template -/

section

variable (hfields : ∀ (name value : String), fields[name]? = some value → '<' ∉ value.toList)
  (hinner : '<' ∉ inner) (h : t.fill fields inner = .ok filling)
include hfields hinner h

/-- A template is put together from its literal parts, the defaults that are used and texts
without `<`. -/
theorem exists_parts_of_plain :
    ∃ parts, t.parts fields inner = .ok parts ∧ filling.text = parts.flatten ∧
      (∀ value ∈ t.usedDefaults fields, value.toList ∈ parts) ∧
      ∀ part ∈ parts, part ∈ t.literals ∨ '<' ∉ part ∨
        ∃ value ∈ t.usedDefaults fields, part = value.toList := by
  obtain ⟨resolved, parts, hresolved, hparts, htext, hvalues, hcases⟩ := exists_parts_of_fill h
  refine ⟨parts, hparts, htext, fun value hvalue => ?_, fun part hpart => ?_⟩
  · obtain ⟨o, ho, name, -, hfound⟩ := mem_usedDefaults.1 hvalue
    exact hvalues (name, value) ((Stages.mem_of_mapM hresolved).2 ⟨o, ho, hfound⟩)
  · rcases hcases part hpart with hliteral | rfl | ⟨⟨name, value⟩, hp, rfl⟩
    · exact .inl hliteral
    · exact .inr (.inl hinner)
    · obtain ⟨o, ho, hfound⟩ := (Stages.mem_of_mapM hresolved).1 hp
      cases hfield : fields[name]? with
      | none => exact .inr (.inr ⟨value, mem_usedDefaults.2 ⟨o, ho, name, hfield, hfound⟩, rfl⟩)
      | some given =>
        obtain ⟨a, -, -, hvalue⟩ := resolveField_eq_ok.1 hfound
        obtain rfl : given = value := by simpa [hfield] using hvalue
        exact .inr (.inl (hfields name given hfield))

/-- Of the parts of a template filled with texts without `<` only the defaults that are used may
hold a placeholder, and only they and the literal parts may end in the beginning of one. -/
theorem exists_free_parts :
    ∃ parts, t.parts fields inner = .ok parts ∧ filling.text = parts.flatten ∧
      ((∀ part ∈ parts, Text.Free IsPlaceholder part) ↔
        ∀ value ∈ t.usedDefaults fields, Absent value.toList) ∧
      ∀ part ∈ parts, Text.Opens IsPlaceholder part →
        part ∈ t.literals ∨ ∃ value ∈ t.usedDefaults fields, part = value.toList := by
  obtain ⟨parts, hparts, htext, hdefaults, hcases⟩ := exists_parts_of_plain hfields hinner h
  refine ⟨parts, hparts, htext, ⟨fun hfree value hvalue => ?_, fun habsent part hpart => ?_⟩,
    fun part hpart hopens => ?_⟩
  · exact Placeholder.absent_iff.2 (hfree _ (hdefaults value hvalue))
  · rcases hcases part hpart with hliteral | hplain | ⟨value, hvalue, rfl⟩
    · exact free_of_mem_literals (pairwise_spans_of_fill h) hliteral
    · exact Placeholder.free_of_not_mem hplain
    · exact Placeholder.absent_iff.1 (habsent value hvalue)
  · rcases hcases part hpart with hliteral | hplain | hdefault
    · exact .inl hliteral
    · exact absurd hopens (Placeholder.not_opens_of_not_mem hplain)
    · exact .inr hdefault

/-- No placeholder remains in a template filled with texts without `<`, when its literal parts and
the defaults that are used do not end in the beginning of one, and these defaults hold none. -/
theorem absent_fill (hliterals : ∀ part ∈ t.literals, ¬ Text.Opens IsPlaceholder part)
    (hdefaults : ∀ value ∈ t.usedDefaults fields,
      Absent value.toList ∧ ¬ Text.Opens IsPlaceholder value.toList) : Absent filling.text := by
  obtain ⟨parts, -, htext, hfree, hopens⟩ := exists_free_parts hfields hinner h
  rw [Placeholder.absent_iff, htext, Text.free_flatten_iff fun m hm => hm.ne_nil]
  refine ⟨hfree.2 fun value hvalue => (hdefaults value hvalue).1, fun hstraddled => ?_⟩
  obtain ⟨part, hpart, hopen⟩ := hstraddled.exists_opens
  rcases hopens part hpart hopen with hliteral | ⟨value, hvalue, rfl⟩
  · exact hliterals part hliteral hopen
  · exact (hdefaults value hvalue).2 hopen

/-- Placeholders remain in a template filled with texts without `<` exactly where a default that is
used holds one, or where one starts in a part of the filled template and ends in a later one. -/
theorem absent_fill_iff :
    ∃ parts, t.parts fields inner = .ok parts ∧ filling.text = parts.flatten ∧
      (Absent filling.text ↔
        ¬ Text.Straddled IsPlaceholder parts ∧
          ∀ value ∈ t.usedDefaults fields, Absent value.toList) := by
  obtain ⟨parts, hparts, htext, hfree, -⟩ := exists_free_parts hfields hinner h
  refine ⟨parts, hparts, htext, ?_⟩
  rw [Placeholder.absent_iff, htext, Text.free_flatten_iff fun m hm => hm.ne_nil, hfree, and_comm]

end

/-- A title above the content and a rule below it, unless another end is given. -/
def article : Template :=
  ofFile ⟨"t/article.html"⟩ ⟨"article.html"⟩
    "<h1><--field --name=\"title\"></h1><--inner-html /><--field --name=\"end\" --default=\"<hr>\">"

/-- What a usage gives to the fields of an article. -/
def articleFields : Fields := (∅ : Fields).insert "title" "a > b"

/-- Nothing is left of the placeholders of an article, so no part goes over a seam. -/
theorem absent_fill_iff_article :
    ∃ filling parts, article.fill articleFields "text".toList = .ok filling ∧
      article.parts articleFields "text".toList = .ok parts ∧
      filling.text = "<h1>a > b</h1>text<hr>".toList ∧ Absent filling.text ∧
      ¬ Text.Straddled IsPlaceholder parts ∧
      ∀ value ∈ article.usedDefaults articleFields, Absent value.toList := by
  have hfields : ∀ (name value : String),
      articleFields[name]? = some value → '<' ∉ value.toList := by
    intro name value h
    rw [articleFields, Std.ExtTreeMap.getElem?_insert] at h
    split at h
    · cases h
      decide
    · simp at h
  have hfill : article.fill articleFields "text".toList =
      .ok ⟨"<h1>a > b</h1>text<hr>".toList, []⟩ := by
    decide +kernel
  obtain ⟨parts, hparts, -, hiff⟩ := absent_fill_iff hfields (by decide) hfill
  have habsent : Absent "<h1>a > b</h1>text<hr>".toList := by decide +kernel
  exact ⟨_, parts, hfill, hparts, rfl, habsent, hiff.1 habsent⟩

/-- A field tag in the default of a field tag. -/
def fieldInDefault : Template :=
  ofFile ⟨"t/default.html"⟩ ⟨"default.html"⟩ "<--field --name=\"a\" --default=\"<--field>\">"

/-- A field tag in the name of what would be a field tag. -/
def fieldInName : Template :=
  ofFile ⟨"t/name.html"⟩ ⟨"name.html"⟩ "<--field --name=\"<--field --name=\"a\">\">"

/-- Field tags may remain though nothing that a template is filled with holds `<`. -/
theorem exists_remaining_field :
    (∃ filling, fieldInDefault.fill ∅ [] = .ok filling ∧ filling.text = "<--field>".toList ∧
      ¬ Absent filling.text) ∧
    '<' ∉ "b".toList ∧
    ∃ filling, fieldInName.fill ((∅ : Fields).insert "a" "b") [] = .ok filling ∧
      filling.text = "<--field --name=\"b\">".toList ∧ ¬ Absent filling.text := by
  refine ⟨⟨⟨"<--field>".toList, []⟩, by decide +kernel, rfl, by decide +kernel⟩, by decide,
    ⟨"<--field --name=\"b\">".toList, []⟩, by decide +kernel, rfl, by decide +kernel⟩

end Template

end Stencil
