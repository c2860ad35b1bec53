import Stencil.Proofs.Stages
import Stencil.Proofs.Tag.Chain

/-!
# The pair that a search finds

The result of a search is read off the chain of marks of the text (`Pair.find?_chain`). A pair
that is found consists of an opening and a closing tag with no mark between them, and the same
pair is found whatever follows the closing tag (`Span.Located`).
-/

namespace Stencil.Tag

variable {name text : List Char}

/-- The span is that of an innermost pair of tags in the text, and a search finds it whatever
stands behind it. -/
structure Span.Located (s : Span) (name text : List Char) : Prop where
  start_lt : s.start < s.contentStart
  contentStart_le : s.contentStart ≤ s.contentEnd
  contentEnd_lt : s.contentEnd < s.stop
  stop_le : s.stop ≤ Text.size text
  boundary : ∀ n ∈ [s.start, s.contentStart, s.contentEnd, s.stop], Text.IsBoundary text n
  opening : Mark.In ⟨false, s.start⟩ name text
  closing : Mark.In ⟨true, s.contentEnd⟩ name text
  pairs : s.Pairs text ⟨false, s.start⟩ ⟨true, s.contentEnd⟩
  innermost : ∀ w, Mark.In w name text → ¬ (s.contentStart ≤ w.start ∧ w.start < s.contentEnd)
  stable : ∀ kept other, kept <+: text → Text.size kept = s.stop →
    ∃ p, Pair.find? name (kept ++ other) = .ok (some p) ∧ p.span (kept ++ other) = s

namespace Pair

/-! ## The tags of a pair -/

/-- The tags of the pair are an opening and a closing tag of `name`, and the closing tag is the
first one behind the opening tag. -/
structure Marked (p : Pair) (name : List Char) : Prop where
  opening : markHere? name p.opening = some false
  content : afterEnd (.outside false) p.opening = some p.content
  closing : nextMark? name p.content = some (true, p.closing)
  after : afterEnd (.outside false) p.closing = some p.after

/-- A search that starts behind the last opening tag finds a pair of tags. -/
theorem marked_of_findFrom {s : List Char} {opened : Option (List Char × List Char)} {p : Pair}
    (hopened : ∀ o ∈ opened, markHere? name o.1 = some false ∧
      afterEnd (.outside false) o.1 = some o.2 ∧ s = o.2)
    (h : findFrom name opened s = .ok (some p)) : p.Marked name := by
  fun_induction findFrom name opened s with
  | case1 | case2 | case3 | case4 => simp at h
  | case5 s mark rest hend opening content hmark =>
    cases h
    obtain ⟨hhere, hcontent, rfl⟩ := hopened (opening, content) (by simp)
    exact ⟨hhere, hcontent, hmark, hend⟩
  | case6 opened s closes mark hmark rest hend hcloses ih =>
    refine ih ?_ h
    intro o ho
    cases ho
    obtain rfl : closes = false := by simpa using hcloses
    exact ⟨(nextMark?_eq_some_iff.1 hmark).2.1, hend, rfl⟩

theorem marked_of_find? {p : Pair} (h : find? name text = .ok (some p)) : p.Marked name :=
  marked_of_findFrom (by simp) h

/-! ## What stands behind a pair -/

/-- The pair with more text behind it. -/
def append (p : Pair) (t : List Char) : Pair :=
  ⟨p.opening ++ t, p.content ++ t, p.closing ++ t, p.after ++ t⟩

theorem span_append (p : Pair) (text t : List Char) :
    (p.append t).span (text ++ t) = p.span text := by
  have hoffset : ∀ s : List Char, Text.offset (text ++ t) (s ++ t) = Text.offset text s := by
    intro s
    simp only [Text.offset, Text.size_append]
    omega
  simp [span, append, hoffset]

theorem after_suffix_of_findFrom {s : List Char} {opened : Option (List Char × List Char)}
    {p : Pair} (h : findFrom name opened s = .ok (some p)) : p.after <:+ s := by
  fun_induction findFrom name opened s with
  | case1 | case2 | case3 | case4 => simp at h
  | case5 s mark rest hend opening content hmark =>
    cases h
    exact (afterEnd_suffix hend).trans (nextMark?_suffix hmark)
  | case6 opened s closes mark hmark rest hend hcloses ih =>
    exact (ih h).trans ((afterEnd_suffix hend).trans (nextMark?_suffix hmark))

/-- A search that ends behind `lead` ends there whatever follows. -/
theorem findFrom_append (hname : IsName name) {lead : List Char}
    (opened : Option (List Char × List Char)) {p : Pair}
    (h : findFrom name (opened.map fun o => (o.1 ++ p.after, o.2 ++ p.after)) (lead ++ p.after) =
      .ok (some p)) :
    ∃ q : Pair, p = q.append p.after ∧ ∀ other,
      findFrom name (opened.map fun o => (o.1 ++ other, o.2 ++ other)) (lead ++ other) =
        .ok (some (q.append other)) := by
  induction hlength : lead.length using Nat.strongRecOn generalizing lead opened with
  | ind n ih =>
  cases hmark : nextMark? name (lead ++ p.after) with
  | none =>
    rw [findFrom_of_none hmark] at h
    split at h <;> cases h
  | some next =>
    obtain ⟨closing, mark⟩ := next
    cases hend : afterEnd (.outside false) mark with
    | none =>
      rw [findFrom_of_unended hmark hend] at h
      cases h
    | some rest =>
      cases closing with
      | true =>
        cases opened with
        | none =>
          rw [Option.map_none, findFrom_close_none hmark hend] at h
          cases h
        | some o =>
          rw [Option.map_some, findFrom_close hmark hend] at h
          have hp : p = ⟨o.1 ++ p.after, o.2 ++ p.after, mark, rest⟩ := by simpa using h.symm
          have hafter : p.after = rest := congrArg Pair.after hp
          obtain ⟨m, r, hm, hr, -, hother⟩ :=
            hname.nextMark?_of_afterEnd hmark hend (hafter ▸ List.suffix_rfl)
          refine ⟨⟨o.1, o.2, m, r⟩, by rw [append, ← hm, ← hr, ← hp], fun other => ?_⟩
          obtain ⟨hnext, hstop⟩ := hother other
          rw [Option.map_some, findFrom_close hnext hstop]
          rfl
      | false =>
        rw [findFrom_open hmark hend] at h
        obtain ⟨m, r, rfl, rfl, hshorter, hother⟩ :=
          hname.nextMark?_of_afterEnd hmark hend (after_suffix_of_findFrom h)
        obtain ⟨q, hq, hfound⟩ := ih r.length (by omega) (some (m, r)) h rfl
        refine ⟨q, hq, fun other => ?_⟩
        obtain ⟨hnext, hstop⟩ := hother other
        rw [findFrom_open hnext hstop]
        exact hfound other

/-- A pair is found again, at the same place, whatever follows it. -/
theorem find?_append (hname : IsName name) {lead : List Char} {p : Pair}
    (h : find? name (lead ++ p.after) = .ok (some p)) (other : List Char) :
    ∃ q, find? name (lead ++ other) = .ok (some q) ∧
      q.span (lead ++ other) = p.span (lead ++ p.after) := by
  obtain ⟨q, hq, hfound⟩ := findFrom_append hname none h
  refine ⟨q.append other, hfound other, ?_⟩
  calc
    (q.append other).span (lead ++ other) = q.span lead := span_append q lead other
    _ = (q.append p.after).span (lead ++ p.after) := (span_append q lead p.after).symm
    _ = p.span (lead ++ p.after) := by rw [← hq]

/-! ## What a search finds -/

/-- The span of the pair that a search finds is that of an innermost pair of tags. -/
theorem located_of_find? (hname : IsName name) {p : Pair}
    (h : find? name text = .ok (some p)) : (p.span text).Located name text := by
  obtain ⟨hopening, hcontent, hclosing, hafter, hopeningTag, hclosingTag⟩ := within_of_find? h
  have hmarked := marked_of_find? h
  obtain ⟨-, hclosingMark, hfirst⟩ := nextMark?_eq_some_iff.1 hmarked.closing
  have hcontentText := hcontent.trans hopening
  have hclosingText := hclosing.trans hcontentText
  have hafterText := hafter.trans hclosingText
  have hne : ∀ {s t : List Char}, s.length < t.length → s ≠ t := by
    intro s t hlt heq
    rw [heq] at hlt
    omega
  refine ⟨?_, ?_, ?_, Text.offset_le_size text p.after, ?_, ?_, ?_, ⟨rfl, ?_, rfl, ?_⟩, ?_, ?_⟩
  · exact Text.offset_lt_offset hcontent (hne hopeningTag) hopening
  · exact Text.offset_le_offset hclosing hcontentText
  · exact Text.offset_lt_offset hafter (hne hclosingTag) hclosingText
  · intro n hn
    simp only [List.mem_cons, List.not_mem_nil, or_false] at hn
    rcases hn with rfl | rfl | rfl | rfl
    · exact Text.isBoundary_offset hopening
    · exact Text.isBoundary_offset hcontentText
    · exact Text.isBoundary_offset hclosingText
    · exact Text.isBoundary_offset hafterText
  · exact hname.in_offset hopening hmarked.opening
  · exact hname.in_offset hclosingText hclosingMark
  · show Mark.end? ⟨false, Text.offset text p.opening⟩ text = _
    rw [end?_offset hopening hmarked.opening, hmarked.content]
    rfl
  · show Mark.end? ⟨true, Text.offset text p.closing⟩ text = _
    rw [end?_offset hclosingText hclosingMark, hmarked.after]
    rfl
  · intro w hw ⟨hle, hlt⟩
    have hmark := hname.firstFrom_of_nextMark? hcontentText hmarked.closing
    have hclosingLe : Text.offset text p.closing ≤ w.start := hmark.first w hw hle
    have hlt : w.start < Text.offset text p.closing := hlt
    omega
  · intro kept other ⟨rest, hkept⟩ hsize
    obtain ⟨lead, hlead⟩ := hafterText
    have hstop : Text.size kept = Text.size lead := by
      rw [hsize]
      show Text.offset text p.after = _
      rw [← hlead, Text.offset_append]
    obtain ⟨rfl, rfl⟩ := Text.eq_of_size_eq (hkept.trans hlead.symm) hstop
    rw [← hkept] at h ⊢
    exact find?_append hname h other

end Pair

/-- How a chain of marks decides a search. As long as every tag of the chain has an end, it is
the first mark that closes which counts, and what stands in front of it. -/
structure Chain.Decides (ws : List Mark) (name text : List Char)
    (result : Except Defect (Option Pair)) : Prop where
  none_iff : result = .ok none ↔ ∀ w, ¬ Mark.In w name text
  missingBracket_iff : result = .error .missingBracket ↔ ∃ w ∈ ws, w.end? text = none
  unmatchedClose_iff : (∀ w ∈ ws, w.end? text ≠ none) →
    (result = .error .unmatchedClose ↔ ∃ w, ws.head? = some w ∧ w.closing = true)
  unmatchedOpen_iff : (∀ w ∈ ws, w.end? text ≠ none) →
    (result = .error .unmatchedOpen ↔ ws ≠ [] ∧ ∀ w ∈ ws, w.closing = false)
  pair : (∀ w ∈ ws, w.end? text ≠ none) →
    (¬ ∃ w, ws.head? = some w ∧ w.closing = true) → (¬ ∀ w ∈ ws, w.closing = false) →
    ∃ front u w later p, ws = front ++ u :: w :: later ∧
      (∀ v ∈ front ++ [u], v.closing = false) ∧ w.closing = true ∧
      result = .ok (some p) ∧ (p.span text).Pairs text u w

/-- A search is decided by the one chain of marks of the text, and a pair that it finds is
innermost and does not depend on what follows it. -/
theorem Pair.find?_chain (hname : IsName name) (text : List Char) :
    ∃ ws, (∀ ws', Chain name text 0 ws' ↔ ws' = ws) ∧
      Chain.Decides ws name text (find? name text) ∧
      ∀ p, find? name text = .ok (some p) → (p.span text).Located name text := by
  obtain ⟨ws, hchain, hverdict⟩ :=
    exists_chain hname none (List.suffix_rfl (l := text))
  rw [Text.offset_self] at hchain
  have hfind : verdict text none ws = (find? name text).map (·.map (·.span text)) := hverdict
  have herror : ∀ defect, find? name text = .error defect ↔ verdict text none ws = .error defect := by
    intro defect
    rw [hfind]
    cases find? name text <;> simp [Except.map]
  have hnone : find? name text = .ok none ↔ verdict text none ws = .ok none := by
    rw [hfind]
    cases find? name text <;> simp [Except.map]
  refine ⟨ws, fun ws' => ?_, ⟨?_, ?_, ?_, ?_, ?_⟩, fun p h => located_of_find? hname h⟩
  · constructor
    · intro h
      exact h.unique hname hchain
    · intro h
      exact h ▸ hchain
  · rw [hnone, verdict_eq_none_iff, hchain.eq_nil_iff]
  · rw [herror, hchain.verdict_eq_missingBracket_iff]
  · intro hended
    rw [herror, verdict_eq_unmatchedClose_iff hended]
  · intro hended
    rw [herror, verdict_eq_unmatchedOpen_iff hended]
    simp
  · intro hended hhead hsome
    obtain ⟨front, u, w, later, rfl, hopening, hclosing⟩ := exists_first_closing hhead hsome
    obtain ⟨s, hs, hpairs⟩ := exists_verdict_pairs none hended hopening hclosing
    rw [hs] at hfind
    obtain ⟨p, hp, rfl⟩ : ∃ p, find? name text = .ok (some p) ∧ p.span text = s := by
      cases hresult : find? name text with
      | error defect =>
        rw [hresult] at hfind
        cases hfind
      | ok found =>
        rw [hresult] at hfind
        cases found with
        | none => cases hfind
        | some p => exact ⟨p, rfl, by simpa [Except.map] using hfind.symm⟩
    exact ⟨front, u, w, later, p, rfl, hopening, hclosing, hp, hpairs⟩

/-- The text has a tag with a quoted mark in it, and a pair inside another. -/
theorem Pair.find?_chain_nested :
    let text := "é<t a=\"</t>\"><t>x</t>y</t>".toList
    IsName ['t'] ∧ (∃ ws, Chain ['t'] text 0 ws ∧ ∀ w ∈ ws, w.end? text ≠ none) ∧
      ∃ p, find? ['t'] text = .ok (some p) ∧ p.span text = ⟨14, 17, 18, 22⟩ ∧
        (p.span text).Located ['t'] text := by
  intro text
  have hname : IsName ['t'] := ⟨by decide, by decide, by decide, by decide⟩
  obtain ⟨ws, hchain, hdecides, hlocated⟩ := find?_chain hname text
  obtain ⟨p, hp, hspan⟩ : ∃ p, find? ['t'] text = .ok (some p) ∧
      p.span text = ⟨14, 17, 18, 22⟩ :=
    ⟨⟨"<t>x</t>y</t>".toList, "x</t>y</t>".toList, "</t>y</t>".toList, "y</t>".toList⟩,
      by decide +kernel, by decide +kernel⟩
  refine ⟨hname, ⟨ws, (hchain ws).2 rfl, fun w hw hunended => ?_⟩, p, hp, hspan, hlocated p hp⟩
  rw [hdecides.missingBracket_iff.2 ⟨w, hw, hunended⟩] at hp
  cases hp

end Stencil.Tag
