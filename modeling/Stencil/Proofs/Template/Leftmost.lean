import Stencil.Proofs.Template.Shape

/-!
# The placeholders of a text

The placeholders of a name are met from left to right: where one starts it is taken, and the
search goes on behind it (`Leftmost`). This is what `occurrences` lists (`leftmost_iff`), so the
placeholders are in order and apart from each other (`Leftmost.pairwise`), each stands where it
says (`Leftmost.within`), and all others start inside them (`Leftmost.exists_covers`).
-/

namespace Stencil.Placeholder

/-- The placeholders of `name` in a text that starts at `position`, each taken where the search
from the left first meets one. -/
inductive Leftmost (name : List Char) : (position : Nat) → List Char → List Occurrence → Prop
  | nil {position} : Leftmost name position [] []
  | char {position c s os} (noMatch : ∀ tag pairs rest, c :: s = tag ++ rest →
        ¬ Matches name tag pairs)
      (next : Leftmost name (position + 1) s os) : Leftmost name position (c :: s) os
  | tag {position tag pairs rest os} (isMatch : Matches name tag pairs)
      (next : Leftmost name (position + tag.length) rest os) :
      Leftmost name position (tag ++ rest) (⟨position, tag⟩ :: os)

/-! ## The search -/

variable {name text rest : List Char} {position : Nat} {os : List Occurrence}

/-- The search passes over the rest of a placeholder. -/
theorem occurrencesFrom_append (name lead s : List Char) (position : Nat) :
    occurrencesFrom name lead.length position (lead ++ s) =
      occurrencesFrom name 0 (position + lead.length) s := by
  induction lead generalizing position with
  | nil => rfl
  | cons c lead ih =>
    rw [List.length_cons, List.cons_append, occurrencesFrom, ih]
    congr 1
    omega

theorem occurrencesFrom_char {c : Char} {s : List Char} (h : after? name (c :: s) = none) :
    occurrencesFrom name 0 position (c :: s) = occurrencesFrom name 0 (position + 1) s := by
  rw [occurrencesFrom, h]

theorem occurrencesFrom_tag {tag : List Char} (hne : tag ≠ [])
    (h : after? name (tag ++ rest) = some rest) :
    occurrencesFrom name 0 position (tag ++ rest) =
      ⟨position, tag⟩ :: occurrencesFrom name 0 (position + tag.length) rest := by
  obtain ⟨c, tag, rfl⟩ := List.exists_cons_of_ne_nil hne
  rw [List.cons_append] at h ⊢
  have hbefore : Text.before (c :: (tag ++ rest)) rest = c :: tag :=
    Text.before_append_left (c :: tag) rest
  have hskip : occurrencesFrom name tag.length (position + 1) (tag ++ rest) =
      occurrencesFrom name 0 (position + (c :: tag).length) rest := by
    rw [occurrencesFrom_append, List.length_cons]
    congr 1
    omega
  rw [occurrencesFrom, h]
  simp only [hbefore, List.length_cons, Nat.add_sub_cancel]
  rw [hskip, List.length_cons]

theorem leftmost_occurrencesFrom (name text : List Char) (position : Nat) :
    Leftmost name position text (occurrencesFrom name 0 position text) := by
  induction hlength : text.length using Nat.strongRecOn generalizing text position with
  | ind n ih =>
  cases text with
  | nil => exact .nil
  | cons c s =>
    cases hafter : after? name (c :: s) with
    | none =>
      rw [occurrencesFrom_char hafter]
      exact .char (after?_eq_none_iff.1 hafter) (ih _ (by simp [← hlength]) s _ rfl)
    | some rest =>
      obtain ⟨tag, pairs, htext, hmatches⟩ := after?_eq_some_iff.1 hafter
      have hpos : 0 < tag.length := List.length_pos_iff.2 hmatches.ne_nil
      rw [htext] at hafter hlength ⊢
      rw [occurrencesFrom_tag hmatches.ne_nil hafter]
      refine .tag hmatches (ih _ ?_ rest _ rfl)
      rw [← hlength, List.length_append]
      omega

theorem eq_of_leftmost (h : Leftmost name position text os) :
    os = occurrencesFrom name 0 position text := by
  induction h with
  | nil => rfl
  | char noMatch next ih => rw [occurrencesFrom_char (after?_eq_none_iff.2 noMatch), ih]
  | @tag position tag pairs rest os isMatch next ih =>
    rw [occurrencesFrom_tag isMatch.ne_nil
      (after?_eq_some_iff.2 ⟨tag, pairs, rfl, isMatch⟩), ih]

/-- The search lists the placeholders of a text. -/
theorem leftmost_iff : Leftmost name 0 text os ↔ os = occurrences name text := by
  constructor
  · intro h
    exact eq_of_leftmost h
  · intro h
    rw [h]
    exact leftmost_occurrencesFrom name text 0

/-! ## Where they stand -/

/-- The placeholder stands in the text, which starts at `position`. -/
def Occurrence.Within (o : Occurrence) (position : Nat) (text : List Char) : Prop :=
  ∃ lead rest, text = lead ++ (o.tag ++ rest) ∧ o.start = position + lead.length

namespace Leftmost

theorem exists_matches (h : Leftmost name position text os) {o : Occurrence} (ho : o ∈ os) :
    ∃ pairs, Matches name o.tag pairs := by
  induction h with
  | nil => cases ho
  | char noMatch next ih => exact ih ho
  | @tag position tag pairs rest os isMatch next ih =>
    rcases List.mem_cons.1 ho with rfl | ho
    · exact ⟨pairs, isMatch⟩
    · exact ih ho

theorem within (h : Leftmost name position text os) {o : Occurrence} (ho : o ∈ os) :
    o.Within position text := by
  induction h with
  | nil => cases ho
  | @char position c s os noMatch next ih =>
    obtain ⟨lead, rest, htext, hstart⟩ := ih ho
    refine ⟨c :: lead, rest, by simp [htext], ?_⟩
    rw [hstart, List.length_cons]
    omega
  | @tag position tag pairs rest os isMatch next ih =>
    rcases List.mem_cons.1 ho with rfl | ho
    · exact ⟨[], rest, rfl, rfl⟩
    · obtain ⟨lead, rest', htext, hstart⟩ := ih ho
      refine ⟨tag ++ lead, rest', by simp [htext], ?_⟩
      rw [hstart, List.length_append]
      omega

theorem start_lt_stop (h : Leftmost name position text os) {o : Occurrence} (ho : o ∈ os) :
    o.start < o.stop := by
  obtain ⟨pairs, hmatches⟩ := h.exists_matches ho
  have hpos : 0 < o.tag.length := List.length_pos_iff.2 hmatches.ne_nil
  simp only [Occurrence.stop]
  omega

/-- Each placeholder starts behind the one before it. -/
theorem pairwise (h : Leftmost name position text os) :
    os.Pairwise fun o o' => o.stop ≤ o'.start := by
  induction h with
  | nil => exact .nil
  | char noMatch next ih => exact ih
  | @tag position tag pairs rest os isMatch next ih =>
    refine List.pairwise_cons.2 ⟨fun o ho => ?_, ih⟩
    obtain ⟨lead, rest', -, hstart⟩ := next.within ho
    simp only [Occurrence.stop]
    omega

/-- Every placeholder of the text starts inside one that the search finds. -/
theorem exists_covers (h : Leftmost name position text os) {lead tag rest : List Char}
    {pairs : List (String × String)} (htext : text = lead ++ (tag ++ rest))
    (hmatches : Matches name tag pairs) :
    ∃ o ∈ os, o.start ≤ position + lead.length ∧ position + lead.length < o.stop := by
  induction h generalizing lead with
  | nil => simp [hmatches.ne_nil] at htext
  | @char position c s os noMatch next ih =>
    cases lead with
    | nil => exact absurd hmatches (noMatch tag pairs rest htext)
    | cons d lead =>
      obtain ⟨o, ho, hstart, hstop⟩ := ih (List.cons.inj htext).2
      refine ⟨o, ho, ?_, ?_⟩ <;> rw [List.length_cons] <;> omega
  | @tag position tag' pairs' behind os isMatch next ih =>
    by_cases hlength : lead.length < tag'.length
    · refine ⟨_, List.mem_cons_self, Nat.le_add_right _ _, ?_⟩
      simp only [Occurrence.stop]
      omega
    · -- it stands behind the placeholder that is found here
      obtain ⟨lead, rfl⟩ := List.prefix_of_prefix_length_le (List.prefix_append tag' behind)
        (htext ▸ List.prefix_append lead (tag ++ rest)) (Nat.le_of_not_lt hlength)
      rw [List.append_assoc] at htext
      obtain ⟨o, ho, hstart, hstop⟩ := ih (List.append_cancel_left htext)
      refine ⟨o, List.mem_cons_of_mem _ ho, ?_, ?_⟩ <;> rw [List.length_append] <;> omega

end Leftmost

/-- The search finds nothing when no placeholder stands in the text. -/
theorem occurrences_eq_nil_iff :
    occurrences name text = [] ↔ ∀ tag pairs, Matches name tag pairs → ¬ tag <:+: text := by
  have hfound := leftmost_occurrencesFrom name text 0
  constructor
  · rintro hnil tag pairs hmatches ⟨lead, rest, htext⟩
    rw [List.append_assoc] at htext
    obtain ⟨o, ho, -⟩ := hfound.exists_covers htext.symm hmatches
    have hmem : o ∈ occurrences name text := ho
    simp [hnil] at hmem
  · intro hfree
    rw [List.eq_nil_iff_forall_not_mem]
    intro o ho
    obtain ⟨pairs, hmatches⟩ := hfound.exists_matches ho
    obtain ⟨lead, rest, htext, -⟩ := hfound.within ho
    exact hfree o.tag pairs hmatches ⟨lead, rest, by rw [htext, List.append_assoc]⟩

end Stencil.Placeholder
