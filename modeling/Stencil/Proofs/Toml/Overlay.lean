import Stencil.Proofs.Toml.Merge

/-!
# A value laid over another, path by path

`Overlay base overlay merged` says of every path of keys what `merged` has there: what the
overlay says where it says something, and what the base has elsewhere. `overlays_merge` is the
statement that `merge` gives such a value and that a second time changes nothing. It rests on
one step along a path (`get?_merge_cons`) and on the two walks made of such steps, where the
overlay has a value (`get?_merge_of_some`) and where it has none (`get?_merge_of_none`).
-/

namespace Stencil

namespace Keyed

variable {α : Type} {key : String} {value : α} {es : List (String × α)}

/-- Giving a key the value it has changes nothing. -/
theorem put_of_lookup (h : es.lookup key = some value) : put key value es = es := by
  induction es with
  | nil => cases h
  | cons e es ih =>
    obtain ⟨first, old⟩ := e
    rw [put]
    by_cases hkey : first = key
    · subst hkey
      have hold : old = value := by simpa using h
      rw [if_pos rfl, hold]
    · rw [List.lookup_cons, beq_eq_false_iff_ne.2 (Ne.symm hkey)] at h
      rw [if_neg hkey, ih h]

theorem lookup_of_mem (h : (es.map Prod.fst).Nodup) (hmem : (key, value) ∈ es) :
    es.lookup key = some value := by
  induction es with
  | nil => cases hmem
  | cons e es ih =>
    obtain ⟨hfirst, hmore⟩ := List.nodup_cons.1 h
    rcases List.mem_cons.1 hmem with rfl | hmem
    · simp
    · have hne : key ≠ e.1 := fun heq => hfirst (heq ▸ List.mem_map_of_mem hmem)
      rw [List.lookup_cons, beq_eq_false_iff_ne.2 hne]
      exact ih hmore hmem

end Keyed

namespace Toml.Value

variable {base overlay v w : Value} {entries o : List (String × Value)} {key : String}
  {p : List String}

/-! ## Paths -/

theorem get?_append (v : Value) (p q : List String) :
    v.get? (p ++ q) = (v.get? p).bind fun w => w.get? q := by
  induction p generalizing v with
  | nil => simp [get?]
  | cons key p ih =>
    cases v with
    | table entries => cases hkey : entries.lookup key <;> simp [get?, hkey, ih]
    | text | integer | real | flag | moment | list => simp [get?]

theorem get?_singleton (base : Value) (key : String) (p : List String) :
    base.get? (key :: p) = (base.get? [key]).bind fun old => old.get? p :=
  get?_append base [key] p

theorem get?_cons_of_not_table (h : ∀ entries, v ≠ .table entries) :
    v.get? (key :: p) = none := by
  cases v with
  | table entries => exact absurd rfl (h entries)
  | text | integer | real | flag | moment | list => simp [get?]

/-- A path leads past the first key only in a table. -/
theorem exists_table_of_get?_cons (h : v.get? (key :: p) = some w) :
    ∃ entries child, v = .table entries ∧ entries.lookup key = some child ∧
      child.get? p = some w := by
  cases v with
  | table entries =>
    obtain ⟨child, hchild, hw⟩ := Option.bind_eq_some_iff.1 (by simpa [get?] using h)
    exact ⟨entries, child, rfl, hchild, hw⟩
  | text | integer | real | flag | moment | list => simp [get?] at h

/-! ## What the overlay says -/

/-- What is no table replaces whatever is below. -/
theorem merge_leaf (h : ∀ entries, v ≠ .table entries) (base : Value) : base.merge v = v := by
  cases v with
  | table entries => exact absurd rfl (h entries)
  | text | integer | real | flag | moment | list => unfold merge; rfl

theorem under_leaf (h : ∀ entries, v ≠ .table entries) (old : Option Value) :
    under old v = v := by
  cases old with
  | none => rfl
  | some base => exact merge_leaf h base

theorem Distinct.lookup (h : Distinct (.table entries)) (hv : entries.lookup key = some v) :
    v.Distinct := by
  cases h with
  | table nodup each => exact each _ (Keyed.mem_of_lookup hv)

theorem Distinct.nodup (h : Distinct (.table entries)) : (entries.map Prod.fst).Nodup := by
  cases h with
  | table nodup each => exact nodup

/-- One key down: the overlay's value there, laid over what the base has there, or the base's
where the overlay lacks the key. -/
theorem get?_merge_cons (h : (o.map Prod.fst).Nodup) (base : Value) (key : String)
    (p : List String) :
    (base.merge (.table o)).get? (key :: p) =
      match o.lookup key with
      | none => base.get? (key :: p)
      | some w => (under (base.get? [key]) w).get? p := by
  by_cases htable : ∃ entries, base = .table entries
  · obtain ⟨entries, rfl⟩ := htable
    have hmerge : (Value.table entries).merge (.table o) = .table (mergeEntries entries o) := by
      unfold merge
      rfl
    rw [hmerge, get?, lookup_mergeEntries h]
    cases hover : o.lookup key with
    | none => rfl
    | some w => simp [get?]
  · have hleaf : ∀ entries, base ≠ .table entries := fun entries he => htable ⟨entries, he⟩
    rw [merge_of_not_table hleaf, get?_cons_of_not_table hleaf, get?_cons_of_not_table hleaf,
      get?]
    cases hover : o.lookup key with
    | none => rfl
    | some w => rfl

/-- Where the overlay has a value, the merge has it laid over what the base has there. -/
theorem get?_merge_of_some (h : overlay.Distinct) (hv : overlay.get? p = some v)
    (base : Value) : (base.merge overlay).get? p = some (under (base.get? p) v) := by
  induction p generalizing base overlay with
  | nil =>
    have hoverlay : overlay = v := by simpa [get?] using hv
    simp [get?, under, hoverlay]
  | cons key p ih =>
    obtain ⟨o, w, rfl, hw, hv⟩ := exists_table_of_get?_cons hv
    rw [get?_merge_cons h.nodup, hw, get?_singleton base key p]
    cases hold : base.get? [key] with
    | none => exact hv
    | some old => exact ih (h.lookup hw) hv old

/-- Where the overlay has nothing, and only tables on the way, the merge has what the base
has. -/
theorem get?_merge_of_none (h : overlay.Distinct) (hnone : overlay.get? p = none)
    (hway : ∀ q r v, p = q ++ r → r ≠ [] → overlay.get? q = some v →
      ∃ entries, v = .table entries) (base : Value) :
    (base.merge overlay).get? p = base.get? p := by
  induction p generalizing base overlay with
  | nil => simp [get?] at hnone
  | cons key p ih =>
    obtain ⟨o, rfl⟩ := hway [] (key :: p) overlay rfl (by simp) (by simp [get?])
    rw [get?_merge_cons h.nodup]
    cases hw : o.lookup key with
    | none => rfl
    | some w =>
      have hrest : w.get? p = none := by simpa [get?, hw] using hnone
      rw [get?_singleton base key p]
      cases hold : base.get? [key] with
      | none => exact hrest
      | some old =>
        refine ih (h.lookup hw) hrest ?_ old
        intro q r v hp hr hv
        exact hway (key :: q) r v (by rw [hp, List.cons_append]) hr (by simpa [get?, hw] using hv)

/-! ## The same overlay again -/

/-- Entries that each change nothing change nothing together. -/
theorem mergeEntries_of_absorbed
    (h : ∀ e ∈ o, ∃ old, entries.lookup e.1 = some old ∧ old.merge e.2 = old) :
    mergeEntries entries o = entries := by
  induction o with
  | nil => rw [mergeEntries]
  | cons e o ih =>
    obtain ⟨⟨old, hold, hmerge⟩, hmore⟩ := List.forall_mem_cons.1 h
    have hfirst : mergeEntry entries e = entries := by
      rw [mergeEntry_eq, hold]
      exact Keyed.put_of_lookup (by rw [hold, under, hmerge])
    rw [mergeEntries, hfirst, ih hmore]

/-- A value laid over itself. -/
theorem merge_self (h : v.Distinct) : v.merge v = v := by
  induction h with
  | table nodup each ih =>
    have habsorbed := mergeEntries_of_absorbed fun e he => ⟨e.2, Keyed.lookup_of_mem nodup he, ih e he⟩
    unfold merge
    exact congrArg Value.table habsorbed
  | text | integer | real | flag | moment | list => exact merge_leaf (by simp) _

/-- A value laid over another twice. -/
theorem merge_merge (h : overlay.Distinct) (base : Value) :
    (base.merge overlay).merge overlay = base.merge overlay := by
  induction h generalizing base with
  | @table o nodup each ih =>
    by_cases htable : ∃ entries, base = .table entries
    · obtain ⟨entries, rfl⟩ := htable
      have habsorbed : mergeEntries (mergeEntries entries o) o = mergeEntries entries o := by
        refine mergeEntries_of_absorbed fun e he => ⟨under (entries.lookup e.1) e.2, ?_, ?_⟩
        · rw [lookup_mergeEntries nodup, Keyed.lookup_of_mem nodup he]
        · cases entries.lookup e.1 with
          | none => exact merge_self (each e he)
          | some old => exact ih e he old
      unfold merge
      exact congrArg Value.table habsorbed
    · have hleaf : ∀ entries, base ≠ .table entries := fun entries he => htable ⟨entries, he⟩
      rw [merge_of_not_table hleaf, merge_self (.table nodup each)]
  | text | integer | real | flag | moment | list => rw [merge_leaf (by simp), merge_leaf (by simp)]

/-! ## Path by path -/

/-- What a value has on every path when one is laid over another. -/
structure Overlay (base overlay merged : Value) : Prop where
  /-- What the overlay has at a path, and is no table, is there. -/
  leaf : ∀ p v, overlay.get? p = some v → (∀ entries, v ≠ .table entries) →
    merged.get? p = some v
  /-- Below what is no table in the overlay there is nothing. -/
  below : ∀ p q v, overlay.get? p = some v → (∀ entries, v ≠ .table entries) → q ≠ [] →
    merged.get? (p ++ q) = none
  /-- At a table of the overlay there is a table with its keys and those of the base's table
  there, if there is one. -/
  table : ∀ p o, overlay.get? p = some (.table o) →
    ∃ m, merged.get? p = some (.table m) ∧ ∀ key, key ∈ m.map Prod.fst ↔
      key ∈ o.map Prod.fst ∨ ∃ b, base.get? p = some (.table b) ∧ key ∈ b.map Prod.fst
  /-- Where the overlay has nothing, and only tables on the way, is what the base has. -/
  kept : ∀ p, overlay.get? p = none →
    (∀ q r v, p = q ++ r → r ≠ [] → overlay.get? q = some v → ∃ entries, v = .table entries) →
    merged.get? p = base.get? p

/-- The table that a table laid over what is there leaves, and its keys. -/
theorem exists_table_under (old : Option Value) (o : List (String × Value)) :
    ∃ m, under old (.table o) = .table m ∧ ∀ key, key ∈ m.map Prod.fst ↔
      key ∈ o.map Prod.fst ∨ ∃ b, old = some (.table b) ∧ key ∈ b.map Prod.fst := by
  by_cases htable : ∃ b, old = some (.table b)
  · obtain ⟨b, rfl⟩ := htable
    refine ⟨mergeEntries b o, ?_, fun key => ?_⟩
    · unfold under merge
      rfl
    · rw [mem_keys_mergeEntries, or_comm]
      simp
  · refine ⟨o, ?_, fun key => ?_⟩
    · cases old with
      | none => rfl
      | some base => exact merge_of_not_table (fun b hb => htable ⟨b, by rw [hb]⟩) _
    · refine ⟨.inl, ?_⟩
      rintro (hkey | ⟨b, hb, -⟩)
      · exact hkey
      · exact absurd ⟨b, hb⟩ htable

/-- A value laid over another gives, at every path, what the upper one says there and else what
the lower one has. So a value laid over itself stays what it is, and the same value laid over a
second time changes nothing. No table of the upper value may have a key twice, which holds of
every settings file. -/
theorem overlays_merge (h : overlay.Distinct) (base : Value) :
    Overlay base overlay (base.merge overlay) ∧ overlay.merge overlay = overlay ∧
      (base.merge overlay).merge overlay = base.merge overlay := by
  have hleaf : ∀ p v, overlay.get? p = some v → (∀ entries, v ≠ .table entries) →
      (base.merge overlay).get? p = some v := by
    intro p v hv hv'
    rw [get?_merge_of_some h hv, under_leaf hv']
  refine ⟨⟨hleaf, ?_, ?_, fun p hnone hway => get?_merge_of_none h hnone hway base⟩,
    merge_self h, merge_merge h base⟩
  · intro p q v hv hv' hq
    obtain ⟨key, q, rfl⟩ := List.exists_cons_of_ne_nil hq
    rw [get?_append, hleaf p v hv hv', Option.bind_some, get?_cons_of_not_table hv']
  · intro p o ho
    obtain ⟨m, hm, hkeys⟩ := exists_table_under (base.get? p) o
    exact ⟨m, by rw [get?_merge_of_some h ho, hm], hkeys⟩

/-- Tables over single settings, single settings over tables, and an empty table. -/
theorem overlays_merge_groups :
    let lower : Value := .table [("a", .table [("x", .integer 0)]),
      ("t", .table [("x", .integer 1), ("y", .integer 2)]), ("s", .integer 5)]
    let upper : Value := .table [("a", .integer 1),
      ("t", .table [("y", .integer 3), ("e", .table [])]), ("s", .table [("k", .flag true)])]
    let merged : Value := .table [("a", .integer 1),
      ("t", .table [("x", .integer 1), ("y", .integer 3), ("e", .table [])]),
      ("s", .table [("k", .flag true)])]
    upper.Distinct ∧ lower.merge upper = merged ∧ Overlay lower upper merged ∧
      upper.merge upper = upper ∧ merged.merge upper = merged := by
  intro lower upper merged
  have hdistinct : upper.Distinct := by
    refine .table (by decide) (List.forall_mem_cons.2 ⟨.integer 1, ?_⟩)
    refine List.forall_mem_cons.2 ⟨.table (by decide) ?_, List.forall_mem_cons.2 ⟨?_, by simp⟩⟩
    · exact List.forall_mem_cons.2 ⟨.integer 3,
        List.forall_mem_cons.2 ⟨.table (by simp) (by simp), by simp⟩⟩
    · exact .table (by decide) (List.forall_mem_cons.2 ⟨.flag true, by simp⟩)
  have hmerge : lower.merge upper = merged := rfl
  exact ⟨hdistinct, hmerge, hmerge ▸ overlays_merge hdistinct lower⟩

end Toml.Value

end Stencil
