import Stencil.Proofs.Text.Offsets
import Stencil.Tag.Pair

/-!
# Marks of a name

A mark of a name is a place where `<name` or `</name` stands and the name ends. The search for
the next mark finds the first one (`nextMark?_eq_some_iff`). Whether a mark stands somewhere,
and where its tag ends, is decided by the text up to the end of the tag
(`nextMark?_of_afterEnd`).
-/

namespace Stencil.Tag

/-- Names of paired tags, which keep out of the punctuation of tags. -/
structure IsName (name : List Char) : Prop where
  ne_nil : name ≠ []
  lt_not_mem : '<' ∉ name
  gt_not_mem : '>' ∉ name
  slash_not_mem : '/' ∉ name

/-- How an opening or a closing tag of a name starts. -/
def markText (name : List Char) (closing : Bool) : List Char :=
  if closing then '<' :: '/' :: name else '<' :: name

variable {name : List Char}

namespace IsName

variable (hname : IsName name)
include hname

theorem gt_not_mem_markText (closing : Bool) : '>' ∉ markText name closing := by
  have hgt := hname.gt_not_mem
  cases closing <;> simpa [markText] using hgt

/-- Only its first character opens the text of a mark. -/
theorem lt_not_mem_tail_markText (closing : Bool) : '<' ∉ (markText name closing).tail := by
  have hlt := hname.lt_not_mem
  cases closing <;> simpa [markText] using hlt

theorem markHere?_eq_some_iff {s : List Char} {closing : Bool} :
    markHere? name s = some closing ↔
      ∃ rest, s = markText name closing ++ rest ∧ endsName rest = true := by
  have hcloses : ∀ (found : Bool) (r : Option (List Char)),
      markHere?.closes found r = some closing ↔
        ∃ rest, r = some rest ∧ endsName rest = true ∧ found = closing := by
    intro found r
    cases r with
    | none => simp [markHere?.closes]
    | some rest => simp [markHere?.closes]
  unfold markHere?
  split
  · next t =>
    rw [hcloses]
    constructor
    · rintro ⟨rest, hrest, hends, rfl⟩
      rw [Text.afterLead?_eq_some_iff] at hrest
      exact ⟨rest, by simp [markText, hrest], hends⟩
    · rintro ⟨rest, hrest, hends⟩
      cases closing with
      | true =>
        exact ⟨rest, Text.afterLead?_eq_some_iff.2 (by simpa [markText] using hrest), hends, rfl⟩
      | false =>
        -- the name would start with the slash
        have hrest : '/' :: t = name ++ rest := by simpa [markText] using hrest
        have hslash := hname.slash_not_mem
        cases name with
        | nil => exact absurd rfl hname.ne_nil
        | cons c name =>
          rw [List.cons_append, List.cons.injEq] at hrest
          exact absurd (List.mem_cons.2 (.inl hrest.1)) hslash
  · next t hslash =>
    rw [hcloses]
    constructor
    · rintro ⟨rest, hrest, hends, rfl⟩
      rw [Text.afterLead?_eq_some_iff] at hrest
      exact ⟨rest, by simp [markText, hrest], hends⟩
    · rintro ⟨rest, hrest, hends⟩
      cases closing with
      | true => exact absurd (by simpa [markText] using hrest) (hslash (name ++ rest))
      | false =>
        exact ⟨rest, Text.afterLead?_eq_some_iff.2 (by simpa [markText] using hrest), hends, rfl⟩
  · next hother =>
    constructor
    · intro h
      cases h
    · rintro ⟨rest, rfl, -⟩
      cases closing with
      | true => exact absurd rfl (hother ('/' :: (name ++ rest)))
      | false => exact absurd rfl (hother (name ++ rest))

end IsName

/-- Every mark starts with `<`. -/
theorem eq_cons_of_markHere? {s : List Char} {closing : Bool}
    (h : markHere? name s = some closing) : ∃ t, s = '<' :: t := by
  unfold markHere? at h
  split at h
  · next t => exact ⟨'/' :: t, rfl⟩
  · next t _ => exact ⟨t, rfl⟩
  · cases h

/-! ## The next mark -/

theorem nextMark?_eq_none_iff {s : List Char} :
    nextMark? name s = none ↔ ∀ t, t <:+ s → markHere? name t = none := by
  induction s with
  | nil =>
    constructor
    · intro _ t ht
      rw [List.suffix_nil.1 ht]
      rfl
    · intro _
      rfl
  | cons c s ih =>
    rw [nextMark?]
    cases hmark : markHere? name (c :: s) with
    | some closing =>
      simp only [reduceCtorEq, false_iff]
      intro h
      rw [h _ List.suffix_rfl] at hmark
      cases hmark
    | none =>
      rw [ih]
      constructor
      · intro h t ht
        rcases List.suffix_cons_iff.1 ht with rfl | ht
        · exact hmark
        · exact h t ht
      · intro h t ht
        exact h t (ht.trans (List.suffix_cons c s))

theorem nextMark?_eq_some_iff {s mark : List Char} {closing : Bool} :
    nextMark? name s = some (closing, mark) ↔
      mark <:+ s ∧ markHere? name mark = some closing ∧
        ∀ t, t <:+ s → mark <:+ t → t ≠ mark → markHere? name t = none := by
  induction s with
  | nil =>
    constructor
    · intro h
      cases h
    · rintro ⟨hmark, hhere, -⟩
      rw [List.suffix_nil.1 hmark] at hhere
      cases hhere
  | cons c s ih =>
    rw [nextMark?]
    cases hhead : markHere? name (c :: s) with
    | some found =>
      constructor
      · intro h
        cases h
        refine ⟨List.suffix_rfl, hhead, fun t ht hback hne => ?_⟩
        exact absurd (ht.eq_of_length_le hback.length_le) hne
      · rintro ⟨hmark, hhere, hfirst⟩
        by_cases heq : c :: s = mark
        · subst heq
          rw [hhead] at hhere
          cases hhere
          rfl
        · rw [hfirst _ List.suffix_rfl hmark heq] at hhead
          cases hhead
    | none =>
      rw [ih]
      constructor
      · rintro ⟨hmark, hhere, hfirst⟩
        refine ⟨hmark.trans (List.suffix_cons c s), hhere, fun t ht hback hne => ?_⟩
        rcases List.suffix_cons_iff.1 ht with rfl | ht
        · exact hhead
        · exact hfirst t ht hback hne
      · rintro ⟨hmark, hhere, hfirst⟩
        rcases List.suffix_cons_iff.1 hmark with rfl | hmark
        · rw [hhead] at hhere
          cases hhere
        · exact ⟨hmark, hhere, fun t ht => hfirst t (ht.trans (List.suffix_cons c s))⟩

/-! ## What stands behind a tag -/

/-- The end of a tag does not depend on what stands behind it. -/
theorem afterEnd_append {q : Quoting} {tag rest : List Char}
    (h : afterEnd q (tag ++ rest) = some rest) (other : List Char) :
    afterEnd q (tag ++ other) = some other := by
  induction tag generalizing q with
  | nil =>
    have hlength := afterEnd_length h
    rw [List.nil_append] at hlength
    omega
  | cons c tag ih =>
    rw [List.cons_append] at h ⊢
    cases q with
    | inside quote =>
      rw [afterEnd] at h ⊢
      split at h
      · next hquote =>
        rw [if_pos hquote]
        exact ih h
      · next hquote =>
        rw [if_neg hquote]
        exact ih h
    | outside escaped =>
      rw [afterEnd] at h ⊢
      split at h
      · next hopens =>
        rw [if_pos hopens]
        exact ih h
      · next hopens =>
        rw [if_neg hopens]
        split at h
        · next hend =>
          rw [if_pos hend]
          rw [Option.some.injEq, List.append_left_eq_self] at h
          subst h
          rfl
        · next hend =>
          rw [if_neg hend]
          exact ih h

/-- A name ends or not by the first character behind it. -/
theorem endsName_append {s t : List Char} (h : s ≠ []) : endsName (s ++ t) = endsName s := by
  cases s with
  | nil => exact absurd rfl h
  | cons c s => rfl

namespace IsName

variable (hname : IsName name)
include hname

/-- A tag that starts and ends somewhere starts as a tag everywhere. -/
theorem markHere?_of_afterEnd {tag rest : List Char} {closing : Bool}
    (hmark : markHere? name (tag ++ rest) = some closing)
    (hend : afterEnd (.outside false) (tag ++ rest) = some rest) (other : List Char) :
    markHere? name (tag ++ other) = some closing := by
  obtain ⟨behind, hbehind, hends⟩ := hname.markHere?_eq_some_iff.1 hmark
  obtain ⟨lead, hlead⟩ := eq_append_of_afterEnd hend
  have htag : tag = lead ++ ['>'] := by
    have hwhole : tag ++ rest = lead ++ ['>'] ++ rest := by
      rw [hlead]
      simp
    exact List.append_cancel_right hwhole
  -- the mark has no `>` in it, so the tag ends behind it
  obtain ⟨front, hfront⟩ : ∃ front, lead = markText name closing ++ front := by
    rw [hlead] at hbehind
    rcases List.append_eq_append_iff.1 hbehind with ⟨more, hmore, hrest⟩ | ⟨more, hmore, -⟩
    · cases more with
      | nil => exact ⟨[], by simpa using hmore.symm⟩
      | cons c more =>
        rw [List.cons_append, List.cons.injEq] at hrest
        refine absurd ?_ (hname.gt_not_mem_markText closing)
        rw [hmore, hrest.1]
        simp
    · exact ⟨more, hmore⟩
  have hrest : behind = front ++ ['>'] ++ rest := by
    rw [htag, hfront] at hbehind
    simpa using hbehind.symm
  rw [hrest, endsName_append (by simp)] at hends
  refine hname.markHere?_eq_some_iff.2 ⟨front ++ ['>'] ++ other, by simp [htag, hfront], ?_⟩
  rw [endsName_append (by simp)]
  exact hends

/-- Whether a mark stands in front of a `<` is decided by the text up to there. -/
theorem markHere?_append_lt {s : List Char} (hs : s ≠ []) (t other : List Char) :
    markHere? name (s ++ '<' :: t) = markHere? name (s ++ '<' :: other) := by
  have hmoves : ∀ {t other : List Char} {closing : Bool},
      markHere? name (s ++ '<' :: t) = some closing →
        markHere? name (s ++ '<' :: other) = some closing := by
    intro t other closing h
    obtain ⟨rest, hrest, hends⟩ := hname.markHere?_eq_some_iff.1 h
    rcases List.append_eq_append_iff.1 hrest with ⟨more, hmore, htail⟩ | ⟨more, hmore, htail⟩
    · -- the mark would reach over the `<`
      cases more with
      | nil =>
        refine hname.markHere?_eq_some_iff.2 ⟨'<' :: other, by simpa using hmore.symm, ?_⟩
        rw [List.nil_append] at htail
        rw [← htail] at hends
        exact hends
      | cons c more =>
        rw [List.cons_append, List.cons.injEq] at htail
        refine absurd ?_ (hname.lt_not_mem_tail_markText closing)
        cases s with
        | nil => exact absurd rfl hs
        | cons d s =>
          rw [hmore, htail.1]
          simp
    · refine hname.markHere?_eq_some_iff.2 ⟨more ++ '<' :: other, by simp [hmore], ?_⟩
      have hshape : ∀ u : List Char, more ++ '<' :: u = (more ++ ['<']) ++ u := by
        intro u
        simp
      rw [htail, hshape, endsName_append (by simp)] at hends
      rw [hshape, endsName_append (by simp)]
      exact hends
  cases hleft : markHere? name (s ++ '<' :: t) with
  | some closing => exact (hmoves hleft).symm
  | none =>
    cases hright : markHere? name (s ++ '<' :: other) with
    | none => rfl
    | some closing =>
      rw [hmoves hright] at hleft
      cases hleft

/-- The next mark and the end of its tag do not depend on what stands behind the tag. -/
theorem nextMark?_of_afterEnd {lead after mark rest : List Char} {closing : Bool}
    (hmark : nextMark? name (lead ++ after) = some (closing, mark))
    (hend : afterEnd (.outside false) mark = some rest) (hafter : after <:+ rest) :
    ∃ m r, mark = m ++ after ∧ rest = r ++ after ∧ r.length < lead.length ∧
      ∀ other, nextMark? name (lead ++ other) = some (closing, m ++ other) ∧
        afterEnd (.outside false) (m ++ other) = some (r ++ other) := by
  obtain ⟨hsuffix, hhere, hfirst⟩ := nextMark?_eq_some_iff.1 hmark
  obtain ⟨r, rfl⟩ := hafter
  obtain ⟨tag, rfl⟩ := afterEnd_suffix hend
  obtain ⟨front, hfront⟩ := hsuffix
  have hlead : lead = front ++ (tag ++ r) := by
    have hwhole : (front ++ (tag ++ r)) ++ after = lead ++ after := by
      rw [← hfront]
      simp
    exact (List.append_cancel_right hwhole).symm
  have hlength := afterEnd_length hend
  refine ⟨tag ++ r, r, by simp, rfl, ?_, fun other => ⟨?_, ?_⟩⟩
  · simp only [hlead, List.length_append] at hlength ⊢
    omega
  · refine nextMark?_eq_some_iff.2 ⟨?_, ?_, ?_⟩
    · exact ⟨front, by simp [hlead]⟩
    · rw [List.append_assoc]
      exact hname.markHere?_of_afterEnd hhere hend (r ++ other)
    · intro t ht hback hne
      obtain ⟨t, rfl⟩ := hback
      have htne : t ≠ [] := by
        intro hnil
        exact hne (by simp [hnil])
      obtain ⟨more, hmore⟩ := eq_cons_of_markHere? hhere
      have htag : ∃ u, tag = '<' :: u := by
        cases tag with
        | nil =>
          rw [List.nil_append] at hlength
          omega
        | cons c u =>
          rw [List.cons_append, List.cons.injEq] at hmore
          exact ⟨u, by rw [hmore.1]⟩
      obtain ⟨u, rfl⟩ := htag
      have hsame := hname.markHere?_append_lt htne (u ++ (r ++ after)) (u ++ (r ++ other))
      have hnone : markHere? name (t ++ ('<' :: u ++ (r ++ after))) = none := by
        apply hfirst
        · rw [← hfront]
          rw [hlead, List.append_assoc, List.append_assoc] at ht
          have hts : t <:+ front := by
            have hshape : t ++ ('<' :: u ++ r ++ other) <:+ front ++ ('<' :: u ++ r ++ other) := by
              simpa using ht
            exact List.suffix_append_self_iff.1 hshape
          exact List.suffix_append_self_iff.2 hts
        · exact List.suffix_append _ _
        · simpa using htne
      simp only [List.cons_append, List.append_assoc] at hnone ⊢
      rw [← hsame]
      exact hnone
  · rw [List.append_assoc]
    exact afterEnd_append hend (r ++ other)

end IsName

end Stencil.Tag
