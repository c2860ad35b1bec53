/-!
# Lists of keyed entries

Pairs of a key and a value in an order that matters. `put` gives a key a value: at the
place of the key when it has one, else at the end. `lookup_put` and `map_fst_put` say
what that does to the values and to the order of the keys.
-/

namespace Stencil.Keyed

variable {α : Type}

/-- The entries with a value for `key`, at the place of `key` or at the end. -/
def put (key : String) (value : α) : List (String × α) → List (String × α)
  | [] => [(key, value)]
  | e :: es => if e.1 = key then (key, value) :: es else e :: put key value es

/-- A value changes no key, and a new key comes last. -/
theorem map_fst_put (key : String) (value : α) (es : List (String × α)) :
    (put key value es).map Prod.fst =
      if key ∈ es.map Prod.fst then es.map Prod.fst else es.map Prod.fst ++ [key] := by
  induction es with
  | nil => simp [put]
  | cons e es ih =>
    rw [put]
    by_cases h : e.1 = key
    · simp [h]
    · rw [if_neg h, List.map_cons, ih]
      by_cases hm : key ∈ es.map Prod.fst
      · rw [if_pos hm, if_pos (by simp only [List.map_cons]; exact List.mem_cons_of_mem _ hm),
          List.map_cons]
      · rw [if_neg hm, if_neg (by simpa [Ne.symm h] using hm), List.map_cons, List.cons_append]

/-- Keys that differ stay so. -/
theorem nodup_put {es : List (String × α)} (h : (es.map Prod.fst).Nodup) (key : String)
    (value : α) : ((put key value es).map Prod.fst).Nodup := by
  rw [map_fst_put]
  split
  · exact h
  · next hm =>
    refine List.nodup_append.2 ⟨h, by simp, ?_⟩
    rintro a ha b hb rfl
    exact hm (List.mem_singleton.1 hb ▸ ha)

/-- A key has the value it was given last; the others keep theirs. -/
theorem lookup_put (key : String) (value : α) (k : String) (es : List (String × α)) :
    (put key value es).lookup k = if k = key then some value else es.lookup k := by
  induction es with
  | nil =>
    by_cases h : k = key
    · simp [put, h]
    · simp [put, h, List.lookup_cons, beq_eq_false_iff_ne.2 h]
  | cons e es ih =>
    obtain ⟨first, old⟩ := e
    rw [put]
    by_cases h : first = key
    · subst h
      by_cases hk : k = first
      · simp [hk]
      · simp [hk, List.lookup_cons, beq_eq_false_iff_ne.2 hk]
    · rw [if_neg h, List.lookup_cons, List.lookup_cons, ih]
      by_cases hk : k = key
      · subst hk
        simp [beq_eq_false_iff_ne.2 (Ne.symm h)]
      · simp [hk]

end Stencil.Keyed
