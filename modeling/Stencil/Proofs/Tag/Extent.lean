import Stencil.Proofs.Tag.Layout
import Stencil.Proofs.Tag.Located

/-!
# How far a tag reaches

The scan for the end of a tag knows both kinds of quotes and backslashes, the reader of its
attributes only the quotes that enclose values. They agree on every well-formed tag: the scan
stops right behind it, whatever stands around it (`Layout.Spells.afterEnd`). So a well-formed tag
is the only one that starts at its place, and the search for pairs takes it as it is written
(`extent_of_ofTag`).
-/

namespace Stencil.Tag

/-- The scan for the end of a tag stops behind the tag of a layout. -/
theorem Layout.Spells.afterEnd {l : Layout} {tag : List Char} (h : l.Spells tag) (t : List Char) :
    Tag.afterEnd (.outside false) (tag ++ t) = some t := by
  have hlead : ∀ c ∈ '<' :: (l.lead ++ (l.name ++ l.gap)), Plain c := by
    intro c hc
    simp only [List.mem_cons, List.mem_append] at hc
    rcases hc with rfl | hc | hc | hc
    · exact ⟨by decide, by decide, by decide⟩
    · exact plain_of_isBlank (h.lead c hc)
    · exact plain_of_inName (inName_of_inTagName (h.inTagName c hc))
    · exact plain_of_isBlank (h.gap c hc)
  have hshape : tag ++ t =
      '<' :: (l.lead ++ (l.name ++ l.gap)) ++ (rowText l.row ++ (endMark l.slash ++ t)) := by
    rw [← h.text]
    simp [Layout.text, behindName]
  rw [hshape, afterEnd_plain hlead, afterEnd_spelled (spelled_rowText h.row)]
  cases l.slash <;> simp [endMark, Tag.afterEnd, isQuote]

/-- A tag that can be read ends where the scan for its end stops. -/
theorem afterEnd_of_ofTag {tag : List Char} {a : Attributes} (h : Attributes.ofTag tag = .ok a)
    (t : List Char) : afterEnd (.outside false) (tag ++ t) = some t := by
  obtain ⟨l, hl⟩ := Layout.exists_spells_of_ofTag? (Attributes.ofTag_eq_ok.1 h)
  exact hl.afterEnd t

/-- Tags that can be read start with `<`. -/
theorem exists_cons_of_ofTag {tag : List Char} {a : Attributes}
    (h : Attributes.ofTag tag = .ok a) : ∃ s, tag = '<' :: s := by
  obtain ⟨l, hl⟩ := Layout.exists_spells_of_ofTag? (Attributes.ofTag_eq_ok.1 h)
  exact ⟨_, hl.text.symm⟩

/-- Where a tag can be read the scan for its end stops right behind it, whatever stands around
it. No other piece of the text that starts there can be read, and a pair whose opening tag starts
there has this very tag. -/
theorem extent_of_ofTag {tag : List Char} {a : Attributes} (h : Attributes.ofTag tag = .ok a) :
    (∀ lead rest, endOffset? (lead ++ (tag ++ rest)) (Text.size lead) =
      some (Text.size (lead ++ tag))) ∧
    (∀ rest other b, other <+: tag ++ rest → Attributes.ofTag other = .ok b → other = tag) ∧
    (∀ name lead rest p, Pair.find? name (lead ++ (tag ++ rest)) = .ok (some p) →
      (p.span (lead ++ (tag ++ rest))).start = Text.size lead →
      p.openingTag = tag ∧
        (p.span (lead ++ (tag ++ rest))).contentStart = Text.size (lead ++ tag)) := by
  have hend := afterEnd_of_ofTag h
  have hoffset : ∀ lead rest : List Char,
      Text.offset (lead ++ (tag ++ rest)) rest = Text.size (lead ++ tag) := by
    intro lead rest
    rw [← List.append_assoc, Text.offset_append]
  refine ⟨?_, ?_, ?_⟩
  · intro lead rest
    obtain ⟨s, hs⟩ := exists_cons_of_ofTag h
    have hstart := endOffset?_offset (List.suffix_append lead (tag ++ rest))
      (show tag ++ rest = '<' :: (s ++ rest) by rw [hs, List.cons_append])
    rw [Text.offset_append, hend rest, Option.map_some, hoffset] at hstart
    exact hstart
  · intro rest other b ⟨more, hmore⟩ hother
    -- both are cut off where the same scan stops
    have hrest := afterEnd_of_ofTag hother more
    rw [hmore, hend rest] at hrest
    cases hrest
    exact List.append_cancel_right hmore
  · intro name lead rest p hfind hstart
    have hmarked := Pair.marked_of_find? hfind
    have hopening : p.opening = tag ++ rest := by
      apply Text.eq_of_offset_eq (Pair.within_of_find? hfind).opening (List.suffix_append lead _)
      rw [Text.offset_append]
      exact hstart
    have hcontent : p.content = rest := by
      have hcontent := hmarked.content
      rw [hopening, hend rest] at hcontent
      exact (Option.some.inj hcontent).symm
    refine ⟨?_, ?_⟩
    · rw [Pair.openingTag, hopening, hcontent, Text.before_append_left]
    · show Text.offset _ p.content = _
      rw [hcontent, hoffset]

/-- The value of the tag holds a quote and a bracket and ends in a backslash, another stands in
front of the tag, and a pair of the name follows. -/
theorem extent_of_ofTag_quoting :
    let tag := "<é $a=\"it's > C:\\\"/>".toList
    let text := "\\".toList ++ (tag ++ "\"</é>".toList)
    (∃ a, Attributes.ofTag tag = .ok a ∧ a.entries = [("$a", "it's > C:\\")]) ∧
      endOffset? text 1 = some 22 ∧
      ∃ p, Pair.find? ['é'] text = .ok (some p) ∧ p.openingTag = tag := by
  intro tag text
  obtain ⟨a, ha, hentries⟩ : ∃ a, Attributes.ofTag tag = .ok a ∧
      a.entries = [("$a", "it's > C:\\")] :=
    ⟨⟨[("$a", "it's > C:\\")], by decide⟩, by decide +kernel, rfl⟩
  obtain ⟨hstop, -, hpair⟩ := extent_of_ofTag ha
  obtain ⟨p, hp, hstart⟩ : ∃ p, Pair.find? ['é'] text = .ok (some p) ∧
      (p.span text).start = 1 :=
    ⟨⟨(tag ++ "\"</é>".toList), "\"</é>".toList, "</é>".toList, []⟩, by decide +kernel,
      by decide +kernel⟩
  exact ⟨⟨a, ha, hentries⟩, hstop "\\".toList "\"</é>".toList, p, hp,
    (hpair ['é'] "\\".toList "\"</é>".toList p hp hstart).1⟩

end Stencil.Tag
