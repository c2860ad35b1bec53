import Stencil.Proofs.Tag.Written
import Stencil.Usage

/-!
# The last value of a key

Attributes and fields are both made from pairs in order, and a key that comes twice keeps
the value it was given last. `latest` is that value, so what the two kinds of map hold is
read off the pairs (`get?_ofList`, `getElem?_insertMany`). Attributes also keep an order, that
of the first pair of each name (`names_ofList`).
-/

namespace Stencil.Keyed

variable {α : Type}

/-- The value that the last pair with this key gives. -/
def latest (key : String) (pairs : List (String × α)) : Option α := pairs.reverse.lookup key

theorem latest_cons (key : String) (p : String × α) (pairs : List (String × α)) :
    latest key (p :: pairs) =
      (latest key pairs).or (if key = p.1 then some p.2 else none) := by
  obtain ⟨first, value⟩ := p
  rw [latest, List.reverse_cons, List.lookup_append, latest, List.lookup_cons]
  by_cases h : key = first
  · simp [h]
  · simp [h, beq_eq_false_iff_ne.2 h]

/-- A key that no pair has was given no value. -/
theorem latest_eq_none {key : String} {pairs : List (String × α)}
    (h : ∀ p ∈ pairs, p.1 ≠ key) : latest key pairs = none := by
  rw [latest, List.lookup_eq_none_iff]
  intro p hp
  simpa using (h p (List.mem_reverse.1 hp)).symm

/-- The last value of a key is the value of one of its pairs. -/
theorem mem_of_latest {key : String} {pairs : List (String × α)} {value : α}
    (h : latest key pairs = some value) : (key, value) ∈ pairs := by
  induction pairs with
  | nil => cases h
  | cons p pairs ih =>
    rw [latest_cons, Option.or_eq_some_iff] at h
    rcases h with h | ⟨-, h⟩
    · exact List.mem_cons_of_mem _ (ih h)
    · by_cases hk : key = p.1
      · rw [if_pos hk] at h
        cases h
        exact hk ▸ List.mem_cons_self
      · rw [if_neg hk] at h
        cases h

/-- Where no key comes twice the last value is the first. -/
theorem latest_eq_lookup {key : String} {pairs : List (String × α)}
    (h : (pairs.map Prod.fst).Nodup) : latest key pairs = pairs.lookup key := by
  induction pairs with
  | nil => rfl
  | cons p pairs ih =>
    obtain ⟨hp, h⟩ := List.nodup_cons.1 h
    rw [latest_cons, ih h, List.lookup_cons]
    by_cases hk : key = p.1
    · have hnone : pairs.lookup p.1 = none := by
        rw [List.lookup_eq_none_iff]
        intro q hq
        have hne : p.1 ≠ q.1 := fun he => hp (List.mem_map.2 ⟨q, hq, he.symm⟩)
        simpa using hne
      simp [hk, hnone]
    · simp [hk, beq_eq_false_iff_ne.2 hk]

/-- A key that comes with one value only has that value. -/
theorem latest_eq_some_of_forall {key : String} {pairs : List (String × α)} {value : α}
    (hmem : (key, value) ∈ pairs) (h : ∀ p ∈ pairs, p.1 = key → p.2 = value) :
    latest key pairs = some value := by
  cases hlatest : latest key pairs with
  | some found => exact congrArg some (h _ (mem_of_latest hlatest) rfl)
  | none =>
    rw [latest, List.lookup_eq_none_iff] at hlatest
    exact absurd (hlatest _ (List.mem_reverse.2 hmem)) (by simp)

theorem latest_append (key : String) (pairs others : List (String × α)) :
    latest key (pairs ++ others) = (latest key others).or (latest key pairs) := by
  rw [latest, List.reverse_append, List.lookup_append]
  rfl

/-- Pairs that do not have the key do not count. -/
theorem latest_filter {key : String} {keep : String × α → Bool} {pairs : List (String × α)}
    (h : ∀ p ∈ pairs, p.1 = key → keep p = true) :
    latest key (pairs.filter keep) = latest key pairs := by
  induction pairs with
  | nil => rfl
  | cons p pairs ih =>
    have hrest := ih fun q hq => h q (List.mem_cons_of_mem p hq)
    by_cases hp : keep p = true
    · rw [List.filter_cons_of_pos hp, latest_cons, latest_cons, hrest]
    · have hkey : ¬ key = p.1 := fun he => hp (h p List.mem_cons_self he.symm)
      rw [List.filter_cons_of_neg hp, latest_cons, if_neg hkey, Option.or_none, hrest]

/-- Where no key comes twice a pair gives its key the value. -/
theorem latest_eq_some_iff {key : String} {value : α} {pairs : List (String × α)}
    (h : (pairs.map Prod.fst).Nodup) : latest key pairs = some value ↔ (key, value) ∈ pairs := by
  refine ⟨mem_of_latest, fun hmem => ?_⟩
  induction pairs with
  | nil => cases hmem
  | cons p pairs ih =>
    obtain ⟨hp, h⟩ := List.nodup_cons.1 h
    rw [latest_cons]
    rcases List.mem_cons.1 hmem with rfl | hmem
    · have hnone : latest key pairs = none := by
        apply latest_eq_none
        intro q hq he
        exact hp (List.mem_map.2 ⟨q, hq, he⟩)
      rw [hnone, if_pos rfl]
      rfl
    · rw [ih h hmem]
      rfl

/-- Where no key comes twice the order of the pairs does not count. -/
theorem latest_of_perm {key : String} {pairs others : List (String × α)}
    (hperm : pairs.Perm others) (h : (pairs.map Prod.fst).Nodup) :
    latest key pairs = latest key others := by
  have hothers : (others.map Prod.fst).Nodup := (hperm.map Prod.fst).nodup_iff.1 h
  apply Option.ext
  intro value
  rw [latest_eq_some_iff h, latest_eq_some_iff hothers, hperm.mem_iff]

/-- A key that the entries do not have comes last. -/
theorem put_of_not_mem {key : String} {es : List (String × α)} (h : key ∉ es.map Prod.fst)
    (value : α) : put key value es = es ++ [(key, value)] := by
  induction es with
  | nil => rfl
  | cons e es ih =>
    rw [List.map_cons, List.mem_cons, not_or] at h
    rw [put, if_neg (Ne.symm h.1), ih h.2, List.cons_append]

/-! ## Keys in the order of their first pairs -/

theorem eraseDups_concat (keys : List String) (key : String) :
    (keys ++ [key]).eraseDups =
      if key ∈ keys then keys.eraseDups else keys.eraseDups ++ [key] := by
  rw [List.eraseDups_append]
  by_cases h : key ∈ keys <;> simp [List.removeAll, List.eraseDups_cons, h]

end Stencil.Keyed

namespace Stencil

open Keyed (latest)

/-- What attributes made from pairs hold. -/
theorem Tag.Attributes.get?_foldl_insert (pairs : List (String × String)) (a : Tag.Attributes)
    (key : String) :
    (pairs.foldl (fun a p => a.insert p.1 p.2) a).get? key =
      (latest key pairs).or (a.get? key) := by
  induction pairs generalizing a with
  | nil => rfl
  | cons p pairs ih =>
    rw [List.foldl_cons, ih, get?_insert, Keyed.latest_cons]
    by_cases hk : key = p.1 <;> cases latest key pairs <;> simp [hk]

/-- Attributes made from pairs hold the last value of each name. -/
theorem Tag.Attributes.get?_ofList (pairs : List (String × String)) (key : String) :
    (ofList pairs).get? key = latest key pairs := by
  rw [ofList, get?_foldl_insert]
  simp [empty, get?]

/-- Attributes made from pairs have the names in the order in which they first appear. -/
theorem Tag.Attributes.names_ofList (pairs : List (String × String)) :
    (ofList pairs).names = (pairs.map Prod.fst).eraseDups := by
  have hfold : ∀ (a : Tag.Attributes) (before : List String), a.names = before.eraseDups →
      (pairs.foldl (fun a p => a.insert p.1 p.2) a).names =
        (before ++ pairs.map Prod.fst).eraseDups := by
    induction pairs with
    | nil =>
      intro a before ha
      simpa using ha
    | cons p pairs ih =>
      intro a before ha
      rw [List.foldl_cons, ih (a.insert p.1 p.2) (before ++ [p.1])]
      · simp
      · rw [names_insert, Keyed.eraseDups_concat, ha]
        simp only [List.mem_eraseDups]
  exact hfold empty [] rfl

/-- Pairs of different names are the attributes that they make. -/
theorem Tag.Attributes.entries_ofList {pairs : List (String × String)}
    (h : (pairs.map Prod.fst).Nodup) : (ofList pairs).entries = pairs := by
  have hfold : ∀ a : Tag.Attributes, ((a.entries ++ pairs).map Prod.fst).Nodup →
      (pairs.foldl (fun a p => a.insert p.1 p.2) a).entries = a.entries ++ pairs := by
    clear h
    induction pairs with
    | nil =>
      intro a ha
      simp
    | cons p pairs ih =>
      intro a ha
      have hnew : p.1 ∉ a.entries.map Prod.fst := by
        intro hmem
        rw [List.map_append, List.nodup_append] at ha
        exact ha.2.2 p.1 hmem p.1 List.mem_cons_self rfl
      have hentries : (a.insert p.1 p.2).entries = a.entries ++ [p] :=
        Keyed.put_of_not_mem hnew p.2
      rw [List.foldl_cons, ih, hentries, List.append_assoc, List.singleton_append]
      rw [hentries, List.append_assoc]
      exact ha
  exact hfold empty h

/-- Fields made from pairs hold the last value of each name. -/
theorem Fields.getElem?_insertMany (fields : Fields) (pairs : List (String × String))
    (key : String) :
    (fields.insertMany pairs)[key]? = (latest key pairs).or fields[key]? := by
  induction pairs generalizing fields with
  | nil => rw [Std.ExtTreeMap.insertMany_nil]; rfl
  | cons p pairs ih =>
    rw [Std.ExtTreeMap.insertMany_cons, ih, Keyed.latest_cons, Std.ExtTreeMap.getElem?_insert]
    by_cases hk : key = p.1
    · cases latest key pairs <;> simp [hk]
    · have hk' : ¬ p.1 = key := fun h => hk h.symm
      cases latest key pairs <;> simp [hk, hk']

end Stencil
