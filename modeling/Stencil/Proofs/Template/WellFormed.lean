import Stencil.Proofs.Tag.Extent
import Stencil.Proofs.Template.Filled

/-!
# Placeholders as tags

Three readers look at placeholders: the search that finds them, the reader of attributes and the
scan for the end of a tag. Whatever the search takes for a placeholder has a layout of a tag with
the same assignments (`Matches.exists_spells`), so the other two agree with it on what it assigns
and where it ends (`wellFormed_placeholders`), and filling a template never meets an invalid tag.
-/

namespace Stencil

/-- The tag of a layout ends where the scan from its start stops. -/
theorem Tag.Layout.Spells.endOffset? {l : Layout} {tag : List Char} (h : l.Spells tag)
    (lead rest : List Char) :
    Tag.endOffset? (lead ++ tag ++ rest) (Text.size lead) = some (Text.size (lead ++ tag)) := by
  have hstart : tag ++ rest = '<' :: (l.lead ++ (l.name ++ l.behindName) ++ rest) := by
    rw [← h.text, Layout.text, List.cons_append]
  have hend := endOffset?_offset (List.suffix_append lead (tag ++ rest)) hstart
  rw [Text.offset_append, h.afterEnd, Option.map_some, ← List.append_assoc,
    Text.offset_append] at hend
  exact hend

namespace Placeholder

variable {name tag tail : List Char} {pairs pairs' : List (String × String)}

/-! ## The layout of a placeholder -/

/-- What stands behind the name of a placeholder is white space, a row of attributes and an end
mark. -/
theorem Tail.exists_row (h : Tail pairs tail) :
    ∃ gap row slash, tail = gap ++ (Tag.rowText row ++ Tag.endMark slash) ∧
      (∀ c ∈ gap, Text.isBlank c = true) ∧ Tag.ValidRow row ∧
      row.map (fun p => (String.ofList p.1.name, String.ofList p.1.value)) = pairs := by
  have hblank : ∀ {spaces : List Char}, (∀ c ∈ spaces, c = ' ') →
      ∀ c ∈ spaces, Text.isBlank c = true := by
    intro spaces hspaces c hc
    rw [hspaces c hc]
    decide
  induction h with
  | @close spaces close space isClose =>
    obtain ⟨slash, hslash⟩ : ∃ slash, close = Tag.endMark slash := by
      rcases isClose with rfl | rfl
      · exact ⟨false, rfl⟩
      · exact ⟨true, rfl⟩
    exact ⟨spaces, [], slash, by simp [hslash, Tag.rowText], hblank space, by simp [Tag.ValidRow],
      rfl⟩
  | @assign spaces tail a pairs ne_nil space oneLine next ih =>
    -- the spaces in front of the next assignment are what stands behind this one
    obtain ⟨gap, row, slash, rfl, hgap, hrow, hpairs⟩ := ih
    refine ⟨spaces, (a, gap) :: row, slash, by rw [Tag.rowText_cons], hblank space, ?_, ?_⟩
    · exact List.forall_mem_cons.2 ⟨⟨oneLine_valid oneLine, hgap⟩, hrow⟩
    · rw [List.map_cons, hpairs]

/-- A placeholder has the layout of a tag, with the same assignments. -/
theorem Matches.exists_spells (h : Matches name tag pairs) (hne : name ≠ [])
    (hname : ∀ c ∈ name, Tag.inTagName c = true) :
    ∃ l : Tag.Layout, l.Spells tag ∧ l.pairs = pairs := by
  obtain ⟨tail, rfl, htail⟩ := h
  obtain ⟨gap, row, slash, rfl, hgap, hrow, hpairs⟩ := htail.exists_row
  exact ⟨⟨[], name, gap, row, slash⟩, {
    text := rfl
    lead := by simp
    name_ne_nil := hne
    inTagName := hname
    nameEnds := htail.inTagName_head?
    gap := hgap
    row := hrow }, hpairs⟩

/-- What a placeholder assigns can be read off its text in one way only. -/
theorem Matches.pairs_unique (h : Matches name tag pairs) (h' : Matches name tag pairs')
    (hne : name ≠ []) (hname : ∀ c ∈ name, Tag.inTagName c = true) : pairs' = pairs := by
  obtain ⟨l, hl, rfl⟩ := h.exists_spells hne hname
  obtain ⟨l', hl', rfl⟩ := h'.exists_spells hne hname
  rw [hl'.unique hl]

/-! ## The three readers -/

/-- Behind `lead` the text holds a placeholder with these assignments, which is a tag for the
reader of attributes and for the scan for the end of a tag too. -/
structure WellFormed (name text lead tag : List Char) (pairs : List (String × String)) :
    Prop where
  stands : lead ++ tag <+: text
  isMatch : Matches name tag pairs
  /-- The assignments can be read off the placeholder in one way only. -/
  only : ∀ pairs', Matches name tag pairs' → pairs' = pairs
  /-- They are the attributes of the tag, where a repeated name has its last value. -/
  attributes : ∃ a, Tag.Attributes.ofTag tag = .ok a ∧ a.Lists pairs ∧
    ((pairs.map Prod.fst).Nodup → a.entries = pairs)
  /-- The scan from the start of the placeholder stops at its end. -/
  stop : Tag.endOffset? text (Text.size lead) = some (Text.size (lead ++ tag))

theorem Matches.wellFormed {text lead : List Char} (h : Matches name tag pairs) (hne : name ≠ [])
    (hname : ∀ c ∈ name, Tag.inTagName c = true) (hstands : lead ++ tag <+: text) :
    WellFormed name text lead tag pairs := by
  obtain ⟨l, hl, rfl⟩ := h.exists_spells hne hname
  have hstop : Tag.endOffset? text (Text.size lead) = some (Text.size (lead ++ tag)) := by
    obtain ⟨rest, rfl⟩ := hstands
    exact hl.endOffset? lead rest
  exact {
    stands := hstands
    isMatch := h
    only := fun pairs' h' => h.pairs_unique h' hne hname
    attributes := ⟨.ofList l.pairs, hl.ofTag,
      ⟨Tag.Attributes.names_ofList l.pairs, Tag.Attributes.get?_ofList l.pairs⟩,
      Tag.Attributes.entries_ofList⟩
    stop := hstop }

end Placeholder

namespace Template

open Placeholder (Matches WellFormed occurrences)

/-- Field tags and content slots have the name of a tag. -/
theorem inTagName_of_mem {name : List Char} (h : name ∈ [fieldTag, contentTag]) :
    name ≠ [] ∧ ∀ c ∈ name, Tag.inTagName c = true := by
  have hall : ∀ name ∈ [fieldTag, contentTag],
      name ≠ [] ∧ name.all Tag.inTagName = true := by decide
  exact ⟨(hall name h).1, List.all_eq_true.1 (hall name h).2⟩

/-- Wherever a field tag or a content slot stands in the text of a template, found by the search
or not, it is a well-formed tag: the attributes read from it are its own assignments, and the scan
for the end of a tag stops where it ends. So no template is refused for an invalid tag. -/
theorem wellFormed_placeholders (t : Template) :
    (∀ name ∈ [fieldTag, contentTag],
      (∀ lead tag pairs, lead ++ tag <+: t.content.toList → Matches name tag pairs →
        WellFormed name t.content.toList lead tag pairs) ∧
      ∀ o ∈ occurrences name t.content.toList, ∃ lead pairs, lead.length = o.start ∧
        WellFormed name t.content.toList lead o.tag pairs) ∧
    ∀ fields inner warnings tag,
      (noting warnings (t.fill fields inner)).1 ≠ .error (.invalidTag tag) := by
  refine ⟨fun name hname => ?_, ?_⟩
  · obtain ⟨hne, hin⟩ := inTagName_of_mem hname
    refine ⟨fun lead tag pairs hstands hmatches => hmatches.wellFormed hne hin hstands, ?_⟩
    intro o ho
    have hfound := Placeholder.leftmost_occurrencesFrom name t.content.toList 0
    obtain ⟨pairs, hmatches⟩ := hfound.exists_matches ho
    obtain ⟨lead, rest, htext, hstart⟩ := hfound.within ho
    have hstands : lead ++ o.tag <+: t.content.toList := ⟨rest, by rw [htext, List.append_assoc]⟩
    exact ⟨lead, pairs, by omega, hmatches.wellFormed hne hin hstands⟩
  · intro fields inner warnings tag
    -- filling goes in one of the ways of `Filled`, and none of them is an invalid tag
    obtain ⟨result, after, hfilled⟩ := exists_filled t fields inner warnings
    rw [hfilled.noting_fill]
    cases hfilled <;> simp

/-- A field tag with a name in other letters, an empty value, a bracket in a value, a name twice
and spaces around a sign, behind a quote that opens nothing, and a content slot with a slash. -/
def motto : Template :=
  ofFile ⟨"t/motto.html"⟩ ⟨"motto.html"⟩
    "\\\"<--field é=\"\"  --name =  \"a\" é=\">\" ><--inner-html --name=\"\"/>"

/-- Both placeholders are found where they stand, and the field tag keeps the last value of the
repeated name. -/
theorem wellFormed_placeholders_motto :
    let field := "<--field é=\"\"  --name =  \"a\" é=\">\" >".toList
    let slot := "<--inner-html --name=\"\"/>".toList
    occurrences fieldTag motto.content.toList = [⟨2, field⟩] ∧
    occurrences contentTag motto.content.toList = [⟨38, slot⟩] ∧
    (∃ a, Tag.Attributes.ofTag field = .ok a ∧ a.entries = [("é", ">"), ("--name", "a")]) ∧
    (∃ lead pairs, lead.length = 2 ∧
      WellFormed fieldTag motto.content.toList lead field pairs) ∧
    ∃ lead pairs, lead.length = 38 ∧
      WellFormed contentTag motto.content.toList lead slot pairs := by
  intro field slot
  have hfields : occurrences fieldTag motto.content.toList = [⟨2, field⟩] := by decide +kernel
  have hslots : occurrences contentTag motto.content.toList = [⟨38, slot⟩] := by decide +kernel
  have hplaceholders := (wellFormed_placeholders motto).1
  refine ⟨hfields, hslots, ⟨⟨[("é", ">"), ("--name", "a")], by decide⟩, by decide +kernel, rfl⟩,
    ?_, ?_⟩
  · exact (hplaceholders fieldTag (by simp)).2 ⟨2, field⟩ (by simp [hfields])
  · exact (hplaceholders contentTag (by simp)).2 ⟨38, slot⟩ (by simp [hslots])

end Template

end Stencil
