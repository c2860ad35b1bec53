import Stencil.Proofs.Template.Leftmost
import Stencil.Proofs.Template.Literals

/-!
# Placeholders replaced at once

A text with some of its placeholders replaced is made of the text between them and of what
stands beside each (`Replaces`). Filling the places gives that text when no two of them share a
character, and nothing otherwise (`substitute?_of_replaces`, `exists_replaces`,
`Substitution.pairwise_of_substitute?`).
-/

namespace Stencil

open Placeholder (Occurrence)

namespace Placeholder

/-- `out` is the text, which starts at `position`, with each placeholder replaced by what stands
beside it. -/
inductive Replaces :
    (position : Nat) → (text : List Char) → List (Occurrence × List Char) → (out : List Char) → Prop
  | nil {position s} : Replaces position s [] s
  | next {position lead rest o filler pieces out} (start : o.start = position + lead.length)
      (next : Replaces o.stop rest pieces out) :
      Replaces position (lead ++ (o.tag ++ rest)) ((o, filler) :: pieces)
        (lead ++ (filler ++ out))

/-- The placeholder with what is to be put in its place. -/
def place (p : Occurrence × List Char) : Substitution := .ofOccurrence p.1 p.2

/-- The two placeholders share text. -/
def Occurrence.Meets (o o' : Occurrence) : Prop := o.start < o'.stop ∧ o'.start < o.stop

/-- The second placeholder starts behind the first. -/
def Occurrence.Before (o o' : Occurrence) : Prop := o.stop ≤ o'.start

end Placeholder

open Placeholder (Replaces place)

/-! ## Filling the places -/

variable {position : Nat} {text out : List Char} {pieces pieces' : List (Occurrence × List Char)}

/-- Filling the places in their order puts the text together. -/
theorem Placeholder.substitute?_of_replaces (h : Replaces position text pieces out) :
    Substitution.substitute? position text (pieces.map place) = some out := by
  induction h with
  | nil => rfl
  | @next position lead rest o filler pieces out start next ih =>
    have hstart : ¬ o.start < position := by omega
    have hlead : o.start - position = lead.length := by omega
    have hstop : o.stop - position = (lead ++ o.tag).length := by
      simp only [Occurrence.stop, List.length_append]
      omega
    show (if o.start < position then none else
      (Substitution.substitute? o.stop ((lead ++ (o.tag ++ rest)).drop (o.stop - position))
        (pieces.map place)).map fun tail =>
          (lead ++ (o.tag ++ rest)).take (o.start - position) ++ filler ++ tail) = _
    rw [if_neg hstart, hlead, hstop, List.take_left', ← List.append_assoc, List.drop_left, ih]
    · simp
    · rfl

/-- Placeholders of a text that are apart from each other can all be replaced. -/
theorem Placeholder.exists_replaces (hwithin : ∀ p ∈ pieces, p.1.Within position text)
    (hbefore : pieces.Pairwise fun p q => p.1.Before q.1) :
    ∃ out, Replaces position text pieces out := by
  induction pieces generalizing position text with
  | nil => exact ⟨text, .nil⟩
  | cons p pieces ih =>
    obtain ⟨o, filler⟩ := p
    obtain ⟨hfirst, hbefore⟩ := List.pairwise_cons.1 hbefore
    obtain ⟨lead, rest, rfl, hstart⟩ : o.Within position text := hwithin _ List.mem_cons_self
    have hrest : ∀ q ∈ pieces, q.1.Within o.stop rest := by
      intro q hq
      obtain ⟨lead', rest', htext, hstart'⟩ := hwithin q (List.mem_cons_of_mem _ hq)
      have hle : o.stop ≤ q.1.start := hfirst q hq
      have hlength : (lead ++ o.tag).length ≤ lead'.length := by
        simp only [Occurrence.stop] at hle
        simp only [List.length_append]
        omega
      rw [← List.append_assoc] at htext
      obtain ⟨more, rfl⟩ := List.prefix_of_prefix_length_le
        (List.prefix_append (lead ++ o.tag) rest) (htext ▸ List.prefix_append lead' _) hlength
      refine ⟨more, rest', ?_, ?_⟩
      · rw [List.append_assoc _ more] at htext
        exact List.append_cancel_left htext
      · rw [hstart']
        simp only [Occurrence.stop, List.length_append]
        omega
    obtain ⟨out, hout⟩ := ih hrest hbefore
    exact ⟨_, .next hstart hout⟩

namespace Substitution

/-- Places that can be filled follow each other. -/
theorem pairwise_of_substitute? {places : List Substitution}
    (hspan : ∀ s ∈ places, s.start ≤ s.stop) (h : substitute? position text places = some out) :
    (∀ s ∈ places, position ≤ s.start) ∧ places.Pairwise fun s s' => s.stop ≤ s'.start := by
  induction places generalizing position text out with
  | nil => exact ⟨by simp, .nil⟩
  | cons s places ih =>
    rw [substitute?] at h
    split at h
    · cases h
    next hstart =>
    obtain ⟨tail, htail, -⟩ := Option.map_eq_some_iff.1 h
    obtain ⟨hfirst, hpairwise⟩ := ih (fun s' hs' => hspan s' (List.mem_cons_of_mem _ hs')) htail
    refine ⟨List.forall_mem_cons.2 ⟨by omega, fun s' hs' => ?_⟩,
      List.pairwise_cons.2 ⟨hfirst, hpairwise⟩⟩
    have hle := hfirst s' hs'
    have hs := hspan s List.mem_cons_self
    omega

end Substitution

/-- Pieces whose places can be filled are in order. -/
theorem Placeholder.pairwise_of_substitute?
    (h : Substitution.substitute? position text (pieces.map place) = some out) :
    pieces.Pairwise fun p q => p.1.Before q.1 := by
  have hspan : ∀ s ∈ pieces.map place, s.start ≤ s.stop := by
    intro s hs
    obtain ⟨p, -, rfl⟩ := List.mem_map.1 hs
    exact Nat.le_add_right _ _
  have hplaces := (Substitution.pairwise_of_substitute? hspan h).2
  rw [List.pairwise_map] at hplaces
  exact hplaces

/-! ## One more piece -/

/-- A piece is put among others by its place. -/
theorem Placeholder.exists_insert_place (p : Occurrence × List Char)
    (pieces : List (Occurrence × List Char)) :
    ∃ pieces' : List (Occurrence × List Char),
      Substitution.insert (place p) (pieces.map place) = pieces'.map place ∧
      pieces'.Perm (p :: pieces) := by
  induction pieces with
  | nil => exact ⟨[p], rfl, .refl _⟩
  | cons q pieces ih =>
    obtain ⟨pieces', hinsert, hperm⟩ := ih
    rw [List.map_cons, Substitution.insert]
    by_cases h : (place p).start < (place q).start
    · exact ⟨p :: q :: pieces, by rw [if_pos h]; rfl, .refl _⟩
    · refine ⟨q :: pieces', by rw [if_neg h, hinsert]; rfl, ?_⟩
      exact (hperm.cons q).trans (List.Perm.swap p q pieces)

/-- Places in order stay so when one is put among them that shares text with none. -/
theorem Substitution.pairwise_insert {s : Substitution} {places : List Substitution}
    (hspan : s.start < s.stop) (hspans : ∀ t ∈ places, t.start < t.stop)
    (hapart : ∀ t ∈ places, ¬ (s.start < t.stop ∧ t.start < s.stop))
    (h : places.Pairwise fun t t' => t.stop ≤ t'.start) :
    (Substitution.insert s places).Pairwise fun t t' => t.stop ≤ t'.start := by
  induction places with
  | nil => exact List.pairwise_singleton _ s
  | cons t places ih =>
    obtain ⟨hfirst, hrest⟩ := List.pairwise_cons.1 h
    have ht := hspans t List.mem_cons_self
    have hst := hapart t List.mem_cons_self
    rw [Substitution.insert]
    by_cases hlt : s.start < t.start
    · rw [if_pos hlt]
      refine List.pairwise_cons.2 ⟨fun t' ht' => ?_, h⟩
      rcases List.mem_cons.1 ht' with rfl | ht'
      · omega
      · have hle := hfirst t' ht'
        omega
    · rw [if_neg hlt]
      refine List.pairwise_cons.2 ⟨fun t' ht' => ?_, ?_⟩
      · rcases Substitution.mem_insert.1 ht' with rfl | ht'
        · omega
        · exact hfirst t' ht'
      · exact ih (fun t' ht' => hspans t' (List.mem_cons_of_mem _ ht'))
          (fun t' ht' => hapart t' (List.mem_cons_of_mem _ ht')) hrest

/-- The order of pieces in a text is that of their places. -/
theorem Placeholder.eq_of_perm (hperm : pieces.Perm pieces')
    (hspan : ∀ p ∈ pieces, p.1.start < p.1.stop)
    (h : pieces.Pairwise fun p q => p.1.Before q.1)
    (h' : pieces'.Pairwise fun p q => p.1.Before q.1) : pieces = pieces' := by
  apply List.Perm.eq_of_pairwise _ h h' hperm
  intro p q hp hq hpq hqp
  have hlt := hspan p hp
  have hlt' := hspan q (hperm.mem_iff.2 hq)
  have hle : p.1.stop ≤ q.1.start := hpq
  have hle' : q.1.stop ≤ p.1.start := hqp
  omega

end Stencil
