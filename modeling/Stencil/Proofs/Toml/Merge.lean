import Stencil.Proofs.Toml.Distinct

/-!
# Tables laid over tables

What a key leads to after one table was laid over another: what the upper one has there, laid
over what the lower one has (`lookup_mergeEntries`).
-/

namespace Stencil.Toml.Value

variable {entries overlay : List (String × Value)} {key : String}

/-- A value laid over one that is no table replaces it. -/
theorem merge_of_not_table {base : Value} (h : ∀ entries, base ≠ .table entries) (v : Value) :
    base.merge v = v := by
  cases v with
  | table overlay =>
    unfold merge
    split
    · exact absurd rfl (h _)
    · rfl
  | text | integer | real | flag | moment | list => unfold merge; rfl

/-- A value with another laid over it, where there is a value. -/
def under (old : Option Value) (v : Value) : Value :=
  match old with
  | some old => old.merge v
  | none => v

theorem mergeEntry_eq (entries : List (String × Value)) (e : String × Value) :
    mergeEntry entries e = Keyed.put e.1 (under (entries.lookup e.1) e.2) entries := by
  unfold mergeEntry under
  rfl

theorem lookup_mergeEntries (h : (overlay.map Prod.fst).Nodup) :
    (mergeEntries entries overlay).lookup key =
      match overlay.lookup key with
      | none => entries.lookup key
      | some v => some (under (entries.lookup key) v) := by
  induction overlay generalizing entries with
  | nil => simp [mergeEntries]
  | cons e overlay ih =>
    obtain ⟨first, v⟩ := e
    obtain ⟨hfirst, hmore⟩ := List.nodup_cons.1 h
    rw [mergeEntries, ih hmore, mergeEntry_eq, Keyed.lookup_put, List.lookup_cons]
    by_cases hkey : key = first
    · -- no later entry has this key
      subst hkey
      have hlater : overlay.lookup key = none := by
        apply List.lookup_eq_none_iff.2
        intro e he
        have hne : key ≠ e.1 := fun heq => hfirst (List.mem_map.2 ⟨e, he, heq.symm⟩)
        simpa using hne
      simp [hlater]
    · simp [hkey, beq_eq_false_iff_ne.2 hkey]

theorem mem_keys_mergeEntries :
    key ∈ (mergeEntries entries overlay).map Prod.fst ↔
      key ∈ entries.map Prod.fst ∨ key ∈ overlay.map Prod.fst := by
  induction overlay generalizing entries with
  | nil => simp [mergeEntries]
  | cons e overlay ih =>
    have hput : key ∈ (mergeEntry entries e).map Prod.fst ↔
        key ∈ entries.map Prod.fst ∨ key = e.1 := by
      rw [mergeEntry_eq, Keyed.map_fst_put]
      split
      · next hmem =>
        constructor
        · exact .inl
        · rintro (hkey | rfl)
          · exact hkey
          · exact hmem
      · rw [List.mem_append, List.mem_singleton]
    rw [mergeEntries, ih, hput, List.map_cons, List.mem_cons, or_assoc]

end Stencil.Toml.Value
