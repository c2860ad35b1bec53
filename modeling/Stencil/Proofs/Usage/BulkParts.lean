import Mathlib.Data.List.Forall2
import Stencil.Proofs.Usage.Bulk

/-!
# The parts of a bulk list

A bulk list is read part by part. A part with exactly one colon states a pair
(`bulkField_eq_ok_iff`), every other is a defect of its own (`bulkField_eq_error_iff`). So the
list is read if each part states a pair, and else fails at the first that does not
(`bulkFields_exact`).
-/

namespace Stencil.Stages

variable {ε α β : Type}

theorem mapM_eq_ok_iff {f : α → Except ε β} {as : List α} {bs : List β} :
    as.mapM f = .ok bs ↔ List.Forall₂ (fun a b => f a = .ok b) as bs := by
  induction as generalizing bs with
  | nil => rw [mapM_nil_eq_ok, List.forall₂_nil_left_iff]
  | cons a as ih =>
    rw [mapM_cons_eq_ok, List.forall₂_cons_left_iff]
    constructor
    · rintro ⟨b, rest, hb, hrest, rfl⟩
      exact ⟨b, rest, hb, ih.1 hrest, rfl⟩
    · rintro ⟨b, rest, hb, hrest, rfl⟩
      exact ⟨b, rest, hb, ih.2 hrest, rfl⟩

end Stencil.Stages

namespace Stencil.Usage

/-- The part is a name and a value with one colon between them, each with all its white space
taken off. -/
def States (part : List Char) (pair : String × String) : Prop :=
  ∃ left right, part = left ++ ':' :: right ∧ ':' ∉ left ∧ ':' ∉ right ∧
    Text.Surrounds left pair.1.toList ∧ Text.Surrounds right pair.2.toList

variable {part : List Char}

/-- A part splits at its one colon. -/
theorem splitOn_colon_eq_pair_iff {left right : List Char} :
    Text.splitOn ':' part = [left, right] ↔
      part = left ++ ':' :: right ∧ ':' ∉ left ∧ ':' ∉ right := by
  rw [eq_comm, ← Text.parted_iff]
  constructor
  · rintro ⟨-, hnot, rfl⟩
    exact ⟨by simp [Text.join], hnot left (by simp), hnot right (by simp)⟩
  · rintro ⟨rfl, hleft, hright⟩
    exact ⟨by simp, by simp [hleft, hright], by simp [Text.join]⟩

/-- A part with one colon has two sides, and no other part has. -/
theorem exists_splitOn_colon_iff :
    (∃ left right, Text.splitOn ':' part = [left, right]) ↔ part.count ':' = 1 := by
  have hlength : (Text.splitOn ':' part).length = part.count ':' + 1 := Text.length_splitOn part
  rw [← List.length_eq_two, hlength]
  omega

theorem bulkField_of_splitOn {left right : List Char}
    (h : Text.splitOn ':' part = [left, right]) :
    bulkField part =
      .ok (String.ofList (Text.trim left), String.ofList (Text.trim right)) := by
  rw [bulkField, h]

theorem bulkField_of_count_ne (h : part.count ':' ≠ 1) :
    bulkField part = .error (.invalidField (String.ofList part)) := by
  rw [bulkField]
  split
  · next left right hsplit => exact absurd (exists_splitOn_colon_iff.1 ⟨left, right, hsplit⟩) h
  · rfl

theorem bulkField_eq_ok_iff {pair : String × String} :
    bulkField part = .ok pair ↔ States part pair := by
  constructor
  · intro h
    by_cases hcount : part.count ':' = 1
    · obtain ⟨left, right, hsplit⟩ := exists_splitOn_colon_iff.2 hcount
      rw [bulkField_of_splitOn hsplit] at h
      cases h
      obtain ⟨hpart, hleft, hright⟩ := splitOn_colon_eq_pair_iff.1 hsplit
      refine ⟨left, right, hpart, hleft, hright, Text.surrounds_iff.2 ?_, Text.surrounds_iff.2 ?_⟩
      · exact String.toList_ofList
      · exact String.toList_ofList
    · rw [bulkField_of_count_ne hcount] at h
      cases h
  · rintro ⟨left, right, hpart, hleft, hright, hname, hvalue⟩
    rw [bulkField_of_splitOn (splitOn_colon_eq_pair_iff.2 ⟨hpart, hleft, hright⟩),
      ← Text.surrounds_iff.1 hname, ← Text.surrounds_iff.1 hvalue, String.ofList_toList,
      String.ofList_toList]

theorem exists_bulkField_iff : (∃ pair, bulkField part = .ok pair) ↔ part.count ':' = 1 := by
  constructor
  · rintro ⟨pair, h⟩
    by_contra hcount
    rw [bulkField_of_count_ne hcount] at h
    cases h
  · intro hcount
    obtain ⟨left, right, hsplit⟩ := exists_splitOn_colon_iff.2 hcount
    exact ⟨_, bulkField_of_splitOn hsplit⟩

theorem bulkField_eq_error_iff {d : Defect} :
    bulkField part = .error d ↔
      part.count ':' ≠ 1 ∧ d = .invalidField (String.ofList part) := by
  constructor
  · intro h
    have hcount : part.count ':' ≠ 1 := by
      intro hcount
      obtain ⟨pair, hpair⟩ := exists_bulkField_iff.2 hcount
      rw [hpair] at h
      cases h
    rw [bulkField_of_count_ne hcount] at h
    cases h
    exact ⟨hcount, rfl⟩
  · rintro ⟨hcount, rfl⟩
    exact bulkField_of_count_ne hcount

/-- How the parts of a bulk list decide what reading it gives. -/
structure ReadByParts (parts : List (List Char))
    (result : Except Defect (List (String × String))) : Prop where
  exists_ok_iff : (∃ pairs, result = .ok pairs) ↔ ∀ part ∈ parts, part.count ':' = 1
  /-- One pair for each part, in their order. -/
  eq_ok_iff : ∀ pairs, result = .ok pairs ↔ List.Forall₂ States parts pairs
  /-- The first part that states no pair is named as it stands. -/
  eq_error_iff : ∀ d, result = .error d ↔
    ∃ front part later, parts = front ++ part :: later ∧
      (∀ other ∈ front, other.count ':' = 1) ∧ part.count ':' ≠ 1 ∧
      d = .invalidField (String.ofList part)

theorem readByParts_mapM (parts : List (List Char)) :
    ReadByParts parts (parts.mapM bulkField) := by
  refine ⟨?_, fun pairs => ?_, fun d => ?_⟩
  · constructor
    · rintro ⟨pairs, h⟩ part hpart
      obtain ⟨pair, -, hpair⟩ := Stages.exists_of_mem_mapM h hpart
      exact exists_bulkField_iff.1 ⟨pair, hpair⟩
    · intro h
      exact Stages.exists_mapM_eq_ok fun part hpart => exists_bulkField_iff.2 (h part hpart)
  · simp only [Stages.mapM_eq_ok_iff, bulkField_eq_ok_iff]
  · rw [Stages.mapM_eq_error]
    constructor
    · rintro ⟨front, part, later, hparts, hpart, hfront⟩
      obtain ⟨hcount, hd⟩ := bulkField_eq_error_iff.1 hpart
      exact ⟨front, part, later, hparts,
        fun other hother => exists_bulkField_iff.1 (hfront other hother), hcount, hd⟩
    · rintro ⟨front, part, later, hparts, hfront, hcount, hd⟩
      exact ⟨front, part, later, hparts, bulkField_eq_error_iff.2 ⟨hcount, hd⟩,
        fun other hother => exists_bulkField_iff.2 (hfront other hother)⟩

/-- A bulk list is read by its parts, of which every text has one row, and a list that is written
with any white space around its names and values is read back. -/
theorem bulkFields_exact :
    (∀ bulk, ∃ parts, (∀ others, Text.Parted ';' others bulk ↔ others = parts) ∧
      ReadByParts parts (bulkFields bulk)) ∧
    ∀ pairs : List BulkSpelling, pairs ≠ [] → (∀ b ∈ pairs, b.Valid) →
      bulkFields (bulkText pairs) = .ok (pairs.map (·.pair)) := by
  refine ⟨fun bulk => ?_, fun pairs hne hvalid => bulkFields_bulkText hvalid hne⟩
  exact ⟨Text.splitOn ';' bulk, fun others => Text.parted_iff, readByParts_mapM _⟩

/-- A name comes twice, the value of the second pair is empty and stands behind an ideographic
space, and a list that ends in a semicolon has an empty part behind it. -/
theorem bulkFields_exact_repeated :
    bulkFields "a :1;a:\u3000".toList = .ok [("a", "1"), ("a", "")] ∧
      bulkFields "a:1;".toList = .error (.invalidField "") := by
  obtain ⟨hparts, hwritten⟩ := bulkFields_exact
  constructor
  · exact hwritten [⟨[], ['a'], [' '], [], ['1'], []⟩, ⟨[], ['a'], [], ['\u3000'], [], []⟩]
      (by simp) (by decide)
  · obtain ⟨parts, hunique, hread⟩ := hparts "a:1;".toList
    have heq : ["a:1".toList, []] = parts :=
      (hunique _).1 ⟨by simp, by decide, by decide⟩
    exact (hread.eq_error_iff _).2
      ⟨["a:1".toList], [], [], heq.symm, by decide, by decide, rfl⟩

end Stencil.Usage
