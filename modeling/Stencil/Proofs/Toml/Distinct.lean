import Stencil.Toml.Reader

/-!
# The keys of a settings file

What a settings file holds is a table in which no key comes twice, and so is every table
within it (`distinct_ofText?`).
-/

namespace Stencil

/-- What holds of a new entry and of the others holds of all when the new one is put in. -/
theorem Keyed.forall_mem_put {α : Type} {P : α → Prop} {key : String} {value : α}
    {es : List (String × α)} (hvalue : P value) (hes : ∀ e ∈ es, P e.2) :
    ∀ e ∈ put key value es, P e.2 := by
  induction es with
  | nil => simpa [put] using hvalue
  | cons first es ih =>
    obtain ⟨hfirst, hes⟩ := List.forall_mem_cons.1 hes
    rw [put]
    split
    · exact List.forall_mem_cons.2 ⟨hvalue, hes⟩
    · exact List.forall_mem_cons.2 ⟨hfirst, ih hes⟩

theorem Keyed.mem_of_lookup {α : Type} {key : String} {value : α} {es : List (String × α)}
    (h : es.lookup key = some value) : (key, value) ∈ es := by
  induction es with
  | nil => cases h
  | cons first es ih =>
    obtain ⟨key', value'⟩ := first
    rw [List.lookup_cons] at h
    split at h
    · next heq =>
      obtain rfl := eq_of_beq heq
      cases h
      exact List.mem_cons_self
    · exact List.mem_cons_of_mem _ (ih h)

namespace Toml

/-! ## Values -/

/-- No table in the value has a key twice. -/
inductive Value.Distinct : Value → Prop
  | text (s : String) : Distinct (.text s)
  | integer (n : Int) : Distinct (.integer n)
  | real (literal : String) : Distinct (.real literal)
  | flag (b : Bool) : Distinct (.flag b)
  | moment (m : Moment) : Distinct (.moment m)
  | list {items : List Value} (each : ∀ v ∈ items, Distinct v) : Distinct (.list items)
  | table {entries : List (String × Value)} (nodup : (entries.map Prod.fst).Nodup)
      (each : ∀ e ∈ entries, Distinct e.2) : Distinct (.table entries)

/-! ## Tables while they are read -/

/-- No table under the item has a key twice. -/
inductive Item.Distinct : Item → Prop
  | value {v : Value} (distinct : v.Distinct) : Distinct (.value v)
  | table {origin : Origin} {entries : List (String × Item)}
      (nodup : (entries.map Prod.fst).Nodup) (each : ∀ e ∈ entries, Distinct e.2) :
      Distinct (.table origin entries)
  | tables {elements : List (List (String × Item))}
      (nodup : ∀ entries ∈ elements, (entries.map Prod.fst).Nodup)
      (each : ∀ entries ∈ elements, ∀ e ∈ entries, Distinct e.2) : Distinct (.tables elements)

/-- No table in what has been read has a key twice. -/
structure Draft.Distinct (d : Draft) : Prop where
  nodup : (d.entries.map Prod.fst).Nodup
  each : ∀ e ∈ d.entries, e.2.Distinct

namespace Draft

variable {d d' : Draft} {path : List String} {key : String} {v : Value}

theorem Distinct.put (h : d.Distinct) {item : Item} (hitem : item.Distinct) :
    Distinct { d with entries := Keyed.put key item d.entries } :=
  ⟨Keyed.nodup_put h.nodup key item, Keyed.forall_mem_put hitem h.each⟩

theorem Distinct.item (h : d.Distinct) {item : Item} (hitem : d.entries.lookup key = some item) :
    item.Distinct :=
  h.each _ (Keyed.mem_of_lookup hitem)

theorem Distinct.table {entries : List (String × Item)} {origin origin' : Origin}
    (h : Item.Distinct (.table origin entries)) : Distinct ⟨origin', entries⟩ := by
  cases h with
  | table nodup each => exact ⟨nodup, each⟩

theorem Distinct.empty (origin : Origin) : Distinct ⟨origin, []⟩ := ⟨by simp, by simp⟩

theorem Distinct.toItem (h : d.Distinct) (origin : Origin) :
    Item.Distinct (.table origin d.entries) := .table h.nodup h.each

/-- A change deep inside keeps keys distinct when it does so where it happens. -/
theorem Distinct.update {way : Origin} {change : Draft → Option Draft}
    (hchange : ∀ d d' : Draft, d.Distinct → change d = some d' → d'.Distinct)
    (h : d.Distinct) (hd' : Draft.update way path change d = some d') : d'.Distinct := by
  induction path generalizing d d' with
  | nil => exact hchange d d' h hd'
  | cons key path ih =>
    rw [Draft.update] at hd'
    split at hd'
    · -- the table is missing on the way and made anew
      obtain ⟨child, hchild, hput⟩ := Option.bind_eq_some_iff.1 hd'
      cases hput
      exact h.put ((ih (.empty way) hchild).toItem _)
    · cases hd'
    · next origin entries hentries =>
      split at hd'
      · cases hd'
      · obtain ⟨child, hchild, hput⟩ := Option.bind_eq_some_iff.1 hd'
        cases hput
        exact h.put ((ih (.table (h.item hentries)) hchild).toItem _)
    · next elements helements =>
      obtain ⟨last, hlast, hd'⟩ := Option.bind_eq_some_iff.1 hd'
      obtain ⟨child, hchild, hput⟩ := Option.bind_eq_some_iff.1 hd'
      cases hput
      cases h.item helements with
      | tables nodup each =>
        have hmem : last ∈ elements := List.mem_of_getLast? hlast
        have hnew : child.Distinct := ih ⟨nodup last hmem, each last hmem⟩ hchild
        refine h.put (.tables ?_ ?_)
        · intro entries hentries
          rcases List.mem_append.1 hentries with hentries | hentries
          · exact nodup entries (List.dropLast_subset _ hentries)
          · exact List.mem_singleton.1 hentries ▸ hnew.nodup
        · intro entries hentries
          rcases List.mem_append.1 hentries with hentries | hentries
          · exact each entries (List.dropLast_subset _ hentries)
          · exact List.mem_singleton.1 hentries ▸ hnew.each

theorem Distinct.assign (h : d.Distinct) (hv : v.Distinct)
    (hd' : Draft.assign path key v d = some d') : d'.Distinct := by
  refine h.update ?_ hd'
  intro d d' h hd'
  split at hd'
  · cases hd'
  · split at hd'
    · cases hd'
      exact h.put (.value hv)
    · cases hd'

theorem Distinct.openTable (h : d.Distinct) (hd' : Draft.openTable path key d = some d') :
    d'.Distinct := by
  refine h.update ?_ hd'
  intro d d' h hd'
  split at hd'
  · cases hd'
    exact h.put ((Distinct.empty .header).toItem _)
  · next entries hentries =>
    cases hd'
    have hopened : Distinct ⟨.header, entries⟩ := Distinct.table (h.item hentries)
    exact h.put (hopened.toItem _)
  · cases hd'

theorem Distinct.openElement (h : d.Distinct) (hd' : Draft.openElement path key d = some d') :
    d'.Distinct := by
  refine h.update ?_ hd'
  intro d d' h hd'
  split at hd'
  · cases hd'
    exact h.put (.tables (by simp) (by simp))
  · next elements helements =>
    cases hd'
    cases h.item helements with
    | tables nodup each =>
      refine h.put (.tables ?_ ?_)
      · intro entries hentries
        rcases List.mem_append.1 hentries with hentries | hentries
        · exact nodup entries hentries
        · simp [List.mem_singleton.1 hentries]
      · intro entries hentries
        rcases List.mem_append.1 hentries with hentries | hentries
        · exact each entries hentries
        · simp [List.mem_singleton.1 hentries]
  · cases hd'

end Draft

/-! ## The finished value -/

theorem Item.finishEntries_eq (entries : List (String × Item)) :
    Item.finishEntries entries = entries.map fun e => (e.1, e.2.finish) := by
  induction entries with
  | nil => rfl
  | cons e entries ih =>
    rw [Item.finishEntries, ih, Item.finishEntry]
    rfl

theorem Item.finishElements_eq (elements : List (List (String × Item))) :
    Item.finishElements elements =
      elements.map fun entries => .table (Item.finishEntries entries) := by
  induction elements with
  | nil => rfl
  | cons entries elements ih => rw [Item.finishElements, ih, List.map_cons]

theorem Value.Distinct.finishEntries {entries : List (String × Item)}
    (nodup : (entries.map Prod.fst).Nodup) (each : ∀ e ∈ entries, e.2.finish.Distinct) :
    Value.Distinct (.table (Item.finishEntries entries)) := by
  rw [Item.finishEntries_eq]
  refine .table ?_ ?_
  · simpa [List.map_map, Function.comp_def] using nodup
  · intro e he
    obtain ⟨e', he', rfl⟩ := List.mem_map.1 he
    exact each e' he'

theorem Item.Distinct.finish {item : Item} (h : item.Distinct) : item.finish.Distinct := by
  induction h with
  | value distinct => exact distinct
  | table nodup each ih => exact .finishEntries nodup ih
  | @tables elements nodup each ih =>
    rw [Item.finish, Item.finishElements_eq]
    refine .list ?_
    intro v hv
    obtain ⟨entries, hentries, rfl⟩ := List.mem_map.1 hv
    exact .finishEntries (nodup entries hentries) (ih entries hentries)

theorem Draft.Distinct.finish {d : Draft} (h : d.Distinct) : d.finish.Distinct :=
  .finishEntries h.nodup fun e he => (h.each e he).finish

/-! ## Reading values -/

theorem distinct_integer? {n : Int} {rest rest' : List Char} {v : Value}
    (h : integer? n rest = some (v, rest')) : v.Distinct := by
  unfold integer? at h
  split at h
  · cases h
    exact .integer n
  · cases h

theorem distinct_decimal? {sign s rest : List Char} {v : Value}
    (h : decimal? sign s = some (v, rest)) : v.Distinct := by
  unfold decimal? at h
  split at h
  · cases h
    exact .real _
  · cases h
    exact .real _
  · split at h
    · cases h
    · simp only at h
      split at h
      · split at h <;> cases h <;> exact .real _
      · split at h
        · cases h
          exact .real _
        · exact distinct_integer? h

theorem distinct_based? {base : Nat} {isDigit : Char → Bool} {s rest : List Char} {v : Value}
    (h : based? base isDigit s = some (v, rest)) : v.Distinct := by
  unfold based? at h
  split at h
  · cases h
  · exact distinct_integer? h

theorem distinct_number? {s rest : List Char} {v : Value} (h : number? s = some (v, rest)) :
    v.Distinct := by
  unfold number? at h
  split at h
  · exact distinct_based? h
  · exact distinct_based? h
  · exact distinct_based? h
  · exact distinct_decimal? h
  · exact distinct_decimal? h
  · exact distinct_decimal? h

/-- What the readers of values, lists and tables on one line give with so many calls open. -/
structure ReadsDistinct (depth : Nat) : Prop where
  value : ∀ s v rest, value? depth s = some (v, rest) → v.Distinct
  items : ∀ s vs rest, items? depth s = some (vs, rest) → ∀ v ∈ vs, v.Distinct
  fields : ∀ d s d' rest, d.Distinct → fields? depth d s = some (d', rest) → d'.Distinct

/-- A reader that may open one more call hands on what the others give. -/
theorem ReadsDistinct.succ {depth : Nat} (ih : ReadsDistinct depth) :
    ReadsDistinct (depth + 1) := by
  refine ⟨?_, ?_, ?_⟩
  · intro s v rest h
    unfold value? at h
    split at h
    · obtain ⟨⟨vs, rest'⟩, hitems, hv⟩ := Option.map_eq_some_iff.1 h
      cases hv
      exact .list (ih.items _ _ _ hitems)
    · split at h
      · cases h
        exact .table (by simp) (by simp)
      · obtain ⟨⟨d, rest'⟩, hfields, hv⟩ := Option.map_eq_some_iff.1 h
        cases hv
        exact (ih.fields _ _ _ _ (.empty .header) hfields).finish
    · split at h
      · cases h
      · split at h
        · obtain ⟨⟨text, rest'⟩, -, hv⟩ := Option.map_eq_some_iff.1 h
          cases hv
          exact .text _
        · split at h
          · obtain ⟨rest', -, hv⟩ := Option.map_eq_some_iff.1 h
            cases hv
            exact .flag true
          · split at h
            · obtain ⟨rest', -, hv⟩ := Option.map_eq_some_iff.1 h
              cases hv
              exact .flag false
            · split at h
              · cases h
                exact .moment _
              · exact distinct_number? h
  · intro s vs rest h
    rw [items?] at h
    split at h
    · cases h
      simp
    · obtain ⟨⟨v, s'⟩, hv, h⟩ := Option.bind_eq_some_iff.1 h
      have hfirst : v.Distinct := ih.value _ _ _ hv
      simp only at h
      split at h
      · obtain ⟨⟨more, rest'⟩, hmore, hvs⟩ := Option.map_eq_some_iff.1 h
        cases hvs
        exact List.forall_mem_cons.2 ⟨hfirst, ih.items _ _ _ hmore⟩
      · cases h
        simpa using hfirst
      · cases h
  · intro d s d' rest hd h
    rw [fields?] at h
    obtain ⟨⟨⟨path, key⟩, s'⟩, -, h⟩ := Option.bind_eq_some_iff.1 h
    obtain ⟨s'', -, h⟩ := Option.bind_eq_some_iff.1 h
    obtain ⟨⟨v, s'''⟩, hv, h⟩ := Option.bind_eq_some_iff.1 h
    obtain ⟨e, he, h⟩ := Option.bind_eq_some_iff.1 h
    have hnext : e.Distinct := hd.assign (ih.value _ _ _ hv) he
    split at h
    · exact ih.fields _ _ _ _ hnext h
    · cases h
      exact hnext
    · cases h

theorem readsDistinct (depth : Nat) : ReadsDistinct depth := by
  induction depth with
  | zero => exact ⟨by simp [value?], by simp [items?], by simp [fields?]⟩
  | succ depth ih => exact ih.succ

/-! ## Reading a whole file -/

/-- The value that the statement assigns has distinct keys. -/
def Statement.Distinct : Statement → Prop
  | assign _ _ v => v.Distinct
  | table .. | element .. => True

theorem distinct_statement? {s rest : List Char} {statement : Statement}
    (h : statement? s = some (statement, rest)) : statement.Distinct := by
  unfold statement? at h
  split at h
  · obtain ⟨⟨⟨path, key⟩, s'⟩, -, h⟩ := Option.bind_eq_some_iff.1 h
    obtain ⟨rest', -, h⟩ := Option.bind_eq_some_iff.1 h
    cases h
    trivial
  · obtain ⟨⟨⟨path, key⟩, s'⟩, -, h⟩ := Option.bind_eq_some_iff.1 h
    obtain ⟨rest', -, h⟩ := Option.bind_eq_some_iff.1 h
    cases h
    trivial
  · obtain ⟨⟨⟨path, key⟩, s'⟩, -, h⟩ := Option.bind_eq_some_iff.1 h
    obtain ⟨s'', -, h⟩ := Option.bind_eq_some_iff.1 h
    obtain ⟨⟨v, rest'⟩, hv, h⟩ := Option.bind_eq_some_iff.1 h
    cases h
    exact (readsDistinct _).value _ _ _ hv

theorem distinct_statements? {lines : Nat} {s : List Char} {statements : List Statement}
    (h : statements? lines s = some statements) : ∀ st ∈ statements, st.Distinct := by
  induction lines generalizing s statements with
  | zero =>
    rw [statements?] at h
    split at h
    · cases h
      simp
    · cases h
  | succ lines ih =>
    rw [statements?] at h
    split at h
    · cases h
      simp
    · split at h
      · exact ih h
      · obtain ⟨⟨statement, s'⟩, hstatement, h⟩ := Option.bind_eq_some_iff.1 h
        obtain ⟨s'', -, h⟩ := Option.bind_eq_some_iff.1 h
        obtain ⟨rest, hrest, h⟩ := Option.bind_eq_some_iff.1 h
        cases h
        exact List.forall_mem_cons.2 ⟨distinct_statement? hstatement, ih hrest⟩

theorem Statement.distinct_run {statements : List Statement} {place : List String} {d d' : Draft}
    (hstatements : ∀ st ∈ statements, st.Distinct) (hd : d.Distinct)
    (h : run place d statements = some d') : d'.Distinct := by
  induction statements generalizing place d with
  | nil =>
    cases h
    exact hd
  | cons statement statements ih =>
    obtain ⟨hfirst, hmore⟩ := List.forall_mem_cons.1 hstatements
    cases statement with
    | table path key =>
      obtain ⟨e, he, h⟩ := Option.bind_eq_some_iff.1 h
      exact ih hmore (hd.openTable he) h
    | element path key =>
      obtain ⟨e, he, h⟩ := Option.bind_eq_some_iff.1 h
      exact ih hmore (hd.openElement he) h
    | assign path key v =>
      obtain ⟨e, he, h⟩ := Option.bind_eq_some_iff.1 h
      refine ih hmore (hd.update ?_ he) h
      intro d d' hd hd'
      exact hd.assign hfirst hd'

/-- A settings file is a table, and no table in it has a key twice. -/
theorem Value.distinct_ofText? {text : String} {v : Value} (h : Value.ofText? text = some v) :
    v.Distinct ∧ ∃ entries, v = .table entries := by
  obtain ⟨statements, hstatements, h⟩ := Option.bind_eq_some_iff.1 h
  obtain ⟨d, hd, rfl⟩ := Option.map_eq_some_iff.1 h
  have hdistinct : d.Distinct :=
    Statement.distinct_run (distinct_statements? hstatements) (.empty .header) hd
  exact ⟨hdistinct.finish, _, rfl⟩

end Toml

end Stencil
