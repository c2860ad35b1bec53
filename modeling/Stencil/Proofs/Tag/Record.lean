import Mathlib.Data.List.Basic
import Mathlib.Data.List.Induction
import Stencil.Proofs.Keyed

/-!
# What insertions leave

Attributes that are made by insertions into none hold a record of them: each name once, at the
place of its first insertion and with the value of its last (`Records`). This is so after every
run of insertions (`records_ofList`). Inserting the entries of attributes in their order gives
the same attributes again (`ofList_entries`).
-/

namespace Stencil.Keyed

variable {α : Type}

/-- The last value of a key is that of a pair behind which the key does not come again. -/
theorem latest_eq_some_iff_exists {key : String} {value : α} {pairs : List (String × α)} :
    latest key pairs = some value ↔
      ∃ front later, pairs = front ++ (key, value) :: later ∧ key ∉ later.map Prod.fst := by
  constructor
  · intro h
    induction pairs with
    | nil => cases h
    | cons p pairs ih =>
      rw [latest_cons, Option.or_eq_some_iff] at h
      rcases h with h | ⟨hnone, h⟩
      · obtain ⟨front, later, rfl, hlater⟩ := ih h
        exact ⟨p :: front, later, rfl, hlater⟩
      · by_cases hkey : key = p.1
        · rw [if_pos hkey] at h
          cases h
          refine ⟨[], pairs, by rw [hkey]; rfl, fun hmem => ?_⟩
          obtain ⟨q, hq, hqkey⟩ := List.mem_map.1 hmem
          rw [latest, List.lookup_eq_none_iff] at hnone
          exact absurd (hnone q (List.mem_reverse.2 hq)) (by simp [hqkey])
        · rw [if_neg hkey] at h
          cases h
  · rintro ⟨front, later, rfl, hlater⟩
    have hnone : latest key later = none := by
      apply latest_eq_none
      intro p hp hkey
      exact hlater (List.mem_map.2 ⟨p, hp, hkey⟩)
    rw [latest_append, latest_cons, hnone, if_pos rfl]
    rfl

/-- Keys without their repetitions stand in the order in which they come first. -/
theorem pairwise_idxOf_eraseDups (keys : List String) :
    keys.eraseDups.Pairwise fun a b => keys.idxOf a < keys.idxOf b := by
  induction keys using List.reverseRecOn with
  | nil => exact .nil
  | append_singleton keys key ih =>
    have hkept : keys.eraseDups.Pairwise fun a b =>
        (keys ++ [key]).idxOf a < (keys ++ [key]).idxOf b := by
      refine ih.imp_of_mem fun {a b} ha hb hlt => ?_
      rw [List.mem_eraseDups] at ha hb
      rwa [List.idxOf_append_of_mem ha, List.idxOf_append_of_mem hb]
    rw [eraseDups_concat]
    split
    · exact hkept
    · next hnew =>
      -- a key that is new comes behind all others
      refine List.pairwise_append.2 ⟨hkept, List.pairwise_singleton _ _, ?_⟩
      intro a ha b hb
      obtain rfl := List.mem_singleton.1 hb
      rw [List.mem_eraseDups] at ha
      rw [List.idxOf_append_of_mem ha, List.idxOf_append_of_notMem hnew]
      have hlt := List.idxOf_lt_length_of_mem ha
      omega

/-- A new value for a key that the entries have changes the one entry of the key. -/
theorem exists_put_of_mem {key : String} {es : List (String × α)} (h : key ∈ es.map Prod.fst)
    (value : α) : ∃ lead old trail, es = lead ++ (key, old) :: trail ∧
      put key value es = lead ++ (key, value) :: trail := by
  induction es with
  | nil => cases h
  | cons e es ih =>
    rw [put]
    by_cases hkey : e.1 = key
    · subst hkey
      exact ⟨[], e.2, es, rfl, if_pos rfl⟩
    · rw [List.map_cons, List.mem_cons] at h
      obtain ⟨lead, old, trail, rfl, hput⟩ := ih (h.resolve_left (Ne.symm hkey))
      exact ⟨e :: lead, old, trail, rfl, by rw [if_neg hkey, hput, List.cons_append]⟩

end Stencil.Keyed

namespace Stencil.Tag.Attributes

/-- The attributes are a record of these insertions. -/
structure Records (a : Attributes) (inserted : List (String × String)) : Prop where
  nodup : a.names.Nodup
  mem_names_iff : ∀ name, name ∈ a.names ↔ name ∈ inserted.map Prod.fst
  /-- The name that was inserted first stands first. -/
  order : a.names.Pairwise fun m n =>
    (inserted.map Prod.fst).idxOf m < (inserted.map Prod.fst).idxOf n
  /-- The value of a name is that of its last insertion. -/
  get?_eq_some_iff : ∀ name value, a.get? name = some value ↔
    ∃ front later, inserted = front ++ (name, value) :: later ∧ name ∉ later.map Prod.fst
  get?_eq_none_iff : ∀ name, a.get? name = none ↔ name ∉ inserted.map Prod.fst

/-- Attributes are known by their entries. -/
theorem eq_of_entries_eq {a b : Attributes} (h : a.entries = b.entries) : a = b := by
  cases a
  cases b
  cases h
  rfl

/-- Inserting the entries of attributes in their order makes the attributes again. -/
theorem ofList_entries (a : Attributes) : ofList a.entries = a :=
  eq_of_entries_eq (entries_ofList a.nodup)

/-- A name that is there keeps its place and the others keep their values. -/
theorem exists_insert_of_mem {a : Attributes} {name : String} (h : name ∈ a.names)
    (value : String) : ∃ lead old trail, a.entries = lead ++ (name, old) :: trail ∧
      (a.insert name value).entries = lead ++ (name, value) :: trail :=
  Keyed.exists_put_of_mem h value

/-- Attributes made by insertions are a record of them. -/
theorem records_ofList (inserted : List (String × String)) :
    (ofList inserted).Records inserted := by
  have horder : (ofList inserted).names.Pairwise fun m n =>
      (inserted.map Prod.fst).idxOf m < (inserted.map Prod.fst).idxOf n := by
    rw [names_ofList]
    exact Keyed.pairwise_idxOf_eraseDups _
  refine ⟨horder.imp fun hlt heq => ?_, fun name => ?_, horder, fun name value => ?_,
    fun name => ?_⟩
  · rw [heq] at hlt
    exact Nat.lt_irrefl _ hlt
  · rw [names_ofList, List.mem_eraseDups]
  · rw [get?_ofList, Keyed.latest_eq_some_iff_exists]
  · rw [get?_ofList]
    constructor
    · intro hnone hmem
      obtain ⟨p, hp, rfl⟩ := List.mem_map.1 hmem
      rw [Keyed.latest, List.lookup_eq_none_iff] at hnone
      exact absurd (hnone p (List.mem_reverse.2 hp)) (by simp)
    · intro hmem
      apply Keyed.latest_eq_none
      intro p hp hname
      exact hmem (List.mem_map.2 ⟨p, hp, hname⟩)

/-- Insertions into no attributes make an ordered map: a record of the insertions, in which a
new value for a name changes nothing else, and which its own entries make again. -/
theorem ofList_ordered (inserted : List (String × String)) :
    (ofList inserted).Records inserted ∧
    (∀ name value, name ∈ (ofList inserted).names → ∃ lead old trail,
      (ofList inserted).entries = lead ++ (name, old) :: trail ∧
      ((ofList inserted).insert name value).entries = lead ++ (name, value) :: trail) ∧
    ofList (ofList inserted).entries = ofList inserted :=
  ⟨records_ofList inserted, fun _ value hname => exists_insert_of_mem hname value,
    ofList_entries _⟩

example : (ofList [("b", "1"), ("a", "2"), ("b", "3")]).entries = [("b", "3"), ("a", "2")] := by
  decide

end Stencil.Tag.Attributes
