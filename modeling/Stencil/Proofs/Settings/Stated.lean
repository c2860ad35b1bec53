import Stencil.Proofs.Toml.Merge
import Stencil.Settings

/-!
# What a settings file states

A settings file states some settings and leaves others out. Reading it over the stock settings
gives what it states, and the stock settings for the rest (`ofValue?_merge_stockValue`).
-/

namespace Stencil.Settings

open Toml (Value)

/-! ## Settings a file may leave out -/

/-- The settings that a file states. -/
structure Stated where
  docs : Option Path
  templates : Option Path
  output : Option Path
  maxExpansions : Option Nat
  maxProcesses : Option Nat
  deriving DecidableEq, Repr

/-- The setting under a key, if there is one. -/
def stated? {α : Type} (read : Value → Option α) (key : String)
    (values : List (String × Value)) : Option (Option α) :=
  match values.lookup key with
  | some v => (read v).map some
  | none => some none

/-- The count that a group of one setting states, if the group is there. -/
def statedCount? (group key : String) (values : List (String × Value)) : Option (Option Nat) :=
  match values.lookup group with
  | some v => (group? [key] v).bind (stated? countOf? key)
  | none => some none

namespace Stated

/-- Nothing is stated. -/
def nothing : Stated := ⟨none, none, none, none, none⟩

/-- The settings that a value states. -/
def ofValue? (v : Value) : Option Stated := do
  let values ← group? ["docs", "templates", "output", "expansion", "processing"] v
  return {
    docs := ← stated? pathOf? "docs" values
    templates := ← stated? pathOf? "templates" values
    output := ← stated? pathOf? "output" values
    maxExpansions := ← statedCount? "expansion" "max_expansions" values
    maxProcesses := ← statedCount? "processing" "max_processes" values }

/-- The settings with those of `below` where nothing is stated. -/
def above (f : Stated) (below : Settings) : Settings where
  docs := f.docs.getD below.docs
  templates := f.templates.getD below.templates
  output := f.output.getD below.output
  maxExpansions := f.maxExpansions.getD below.maxExpansions
  maxProcesses := f.maxProcesses.or below.maxProcesses

end Stated

/-! ## Stock settings for the rest -/

theorem setting?_eq {α : Type} (read : Value → Option α) (key : String) (default : α)
    (values : List (String × Value)) :
    setting? read key default values = (stated? read key values).map (·.getD default) := by
  unfold setting? stated?
  cases values.lookup key with
  | none => rfl
  | some v => cases hread : read v <;> simp [hread]

theorem setting?_maxExpansionsOf? (values : List (String × Value)) :
    setting? maxExpansionsOf? "expansion" stock.maxExpansions values =
      (statedCount? "expansion" "max_expansions" values).map (·.getD stock.maxExpansions) := by
  unfold setting? statedCount? maxExpansionsOf?
  cases values.lookup "expansion" with
  | none => rfl
  | some v => cases hgroup : group? ["max_expansions"] v <;> simp [hgroup, setting?_eq]

theorem setting?_maxProcessesOf? (values : List (String × Value)) :
    setting? maxProcessesOf? "processing" stock.maxProcesses values =
      (statedCount? "processing" "max_processes" values).map (·.or stock.maxProcesses) := by
  have hentries : ∀ entries : List (String × Value),
      setting? (fun v => (countOf? v).map some) "max_processes" stock.maxProcesses entries =
        (stated? countOf? "max_processes" entries).map (·.or stock.maxProcesses) := by
    intro entries
    unfold setting? stated?
    cases entries.lookup "max_processes" with
    | none => rfl
    | some v => cases hcount : countOf? v <;> simp [hcount]
  unfold setting? statedCount? maxProcessesOf?
  cases values.lookup "processing" with
  | none => rfl
  | some v => cases hgroup : group? ["max_processes"] v <;> simp [hgroup, hentries]

/-- Reading a value gives what it states, and the stock settings for the rest. -/
theorem ofValue?_eq (v : Value) :
    Settings.ofValue? v = (Stated.ofValue? v).map (·.above stock) := by
  unfold Settings.ofValue? Stated.ofValue?
  cases group? ["docs", "templates", "output", "expansion", "processing"] v with
  | none => rfl
  | some values =>
    simp only [setting?_eq pathOf?, setting?_maxExpansionsOf?, setting?_maxProcessesOf?,
      Option.bind_eq_bind, Option.bind_some, Option.pure_def]
    cases stated? pathOf? "docs" values with
    | none => rfl
    | some docs =>
    cases stated? pathOf? "templates" values with
    | none => rfl
    | some templates =>
    cases stated? pathOf? "output" values with
    | none => rfl
    | some output =>
    cases statedCount? "expansion" "max_expansions" values with
    | none => rfl
    | some maxExpansions =>
    cases statedCount? "processing" "max_processes" values with
    | none => rfl
    | some maxProcesses => rfl

/-! ## Over the stock settings -/

/-- The keys of a group, given as a table, are known when those of both layers are. -/
theorem group?_merge {keys : List String} {base : List (String × Value)}
    (hbase : ∀ e ∈ base, e.1 ∈ keys) (overlay : List (String × Value)) :
    group? keys (.table (Value.mergeEntries base overlay)) =
      (group? keys (.table overlay)).map fun _ => Value.mergeEntries base overlay := by
  have hkeys : ((Value.mergeEntries base overlay).all fun e => keys.contains e.1) =
      overlay.all fun e => keys.contains e.1 := by
    have hall : ∀ es : List (String × Value), (es.all fun e => keys.contains e.1) = true ↔
        ∀ key ∈ es.map Prod.fst, key ∈ keys := by
      intro es
      simp
    rw [Bool.eq_iff_iff, hall, hall]
    constructor
    · intro h key hkey
      exact h key (Value.mem_keys_mergeEntries.2 (.inr hkey))
    · intro h key hkey
      rcases Value.mem_keys_mergeEntries.1 hkey with hkey | hkey
      · obtain ⟨e, he, rfl⟩ := List.mem_map.1 hkey
        exact hbase e he
      · exact h key hkey
  unfold group?
  simp only [hkeys]
  split <;> rfl

/-- A setting whose stock value stands in the lower layer reads as if there were no lower
layer. -/
theorem setting?_merge {α : Type} {read : Value → Option α} {key : String} {default : α}
    {base overlay : List (String × Value)} (hoverlay : (overlay.map Prod.fst).Nodup)
    (hread : ∀ old, base.lookup key = some old → read old = some default)
    (hunder : ∀ v, (key, v) ∈ overlay → read (Value.under (base.lookup key) v) = read v) :
    setting? read key default (Value.mergeEntries base overlay) =
      setting? read key default overlay := by
  unfold setting?
  rw [Value.lookup_mergeEntries hoverlay]
  cases hlookup : overlay.lookup key with
  | some v => exact hunder v (Keyed.mem_of_lookup hlookup)
  | none =>
    cases hold : base.lookup key with
    | none => rfl
    | some old => exact hread old hold

/-- A group of one setting over a group that holds at most its stock value reads as if there
were no lower layer. -/
theorem group?_merge_bind {α : Type} {read : Value → Option α} {key : String} {default : α}
    {base : List (String × Value)} (hbase : ∀ e ∈ base, e.1 = key)
    (hread : ∀ old, base.lookup key = some old → read old = some default ∧
      ∀ entries, old ≠ .table entries) {v : Value} (hv : v.Distinct) :
    (group? [key] (Value.merge (.table base) v)).bind (setting? read key default) =
      (group? [key] v).bind (setting? read key default) := by
  cases hv with
  | @table overlay nodup each =>
    have hmerge : Value.merge (.table base) (.table overlay) =
        .table (Value.mergeEntries base overlay) := by
      unfold Value.merge
      rfl
    have hknown : ∀ e ∈ base, e.1 ∈ [key] := by
      intro e he
      simp [hbase e he]
    have hunder : ∀ v, (key, v) ∈ overlay → read (Value.under (base.lookup key) v) = read v := by
      intro v _
      cases hold : base.lookup key with
      | none => rfl
      | some old => exact congrArg read (Value.merge_of_not_table (hread old hold).2 v)
    rw [hmerge, group?_merge hknown]
    have hsetting := setting?_merge nodup (fun old hold => (hread old hold).1) hunder
    unfold group?
    simp only
    split
    · exact hsetting
    · rfl
  | text | integer | real | flag | moment | list => unfold Value.merge; rfl

/-- The stock settings by their keys. -/
def stockEntries : List (String × Value) :=
  [("docs", .text stock.docs.text), ("templates", .text stock.templates.text),
    ("output", .text stock.output.text),
    ("expansion", .table [("max_expansions", .integer stock.maxExpansions)]),
    ("processing", .table [])]

theorem stockValue_eq : stockValue = .table stockEntries := rfl

section

variable {overlay : List (String × Value)} (nodup : (overlay.map Prod.fst).Nodup)
include nodup

theorem setting?_root {key : String} {default : Path}
    (hstock : stockEntries.lookup key = some (.text default.text)) :
    setting? pathOf? key default (Value.mergeEntries stockEntries overlay) =
      setting? pathOf? key default overlay := by
  apply setting?_merge nodup
  · intro old hold
    rw [hstock] at hold
    cases hold
    rfl
  · intro v _
    rw [hstock]
    exact congrArg pathOf? (Value.merge_of_not_table (by simp) v)

theorem setting?_maxExpansions (each : ∀ e ∈ overlay, e.2.Distinct) :
    setting? maxExpansionsOf? "expansion" stock.maxExpansions
        (Value.mergeEntries stockEntries overlay) =
      setting? maxExpansionsOf? "expansion" stock.maxExpansions overlay := by
  apply setting?_merge nodup
  · intro old hold
    cases hold
    rfl
  · intro v hv
    show maxExpansionsOf? (Value.merge (.table _) v) = _
    unfold maxExpansionsOf?
    apply group?_merge_bind (by simp) _ (each _ hv)
    intro old hold
    cases hold
    exact ⟨rfl, by simp⟩

theorem setting?_maxProcesses (each : ∀ e ∈ overlay, e.2.Distinct) :
    setting? maxProcessesOf? "processing" stock.maxProcesses
        (Value.mergeEntries stockEntries overlay) =
      setting? maxProcessesOf? "processing" stock.maxProcesses overlay := by
  apply setting?_merge nodup
  · intro old hold
    cases hold
    rfl
  · intro v hv
    show maxProcessesOf? (Value.merge (.table _) v) = _
    unfold maxProcessesOf?
    apply group?_merge_bind (by simp) _ (each _ hv)
    intro old hold
    cases hold

end

/-- Nothing is lost or added when a value is laid over the stock settings first. -/
theorem ofValue?_merge_stockValue {v : Value} (hv : v.Distinct) :
    Settings.ofValue? (stockValue.merge v) = Settings.ofValue? v := by
  rw [stockValue_eq]
  cases hv with
  | @table overlay nodup each =>
    have hmerge : Value.merge (.table stockEntries) (.table overlay) =
        .table (Value.mergeEntries stockEntries overlay) := by
      unfold Value.merge
      rfl
    rw [hmerge]
    unfold Settings.ofValue?
    rw [group?_merge (by simp [stockEntries])]
    cases hgroup : group? ["docs", "templates", "output", "expansion", "processing"]
        (.table overlay) with
    | none => rfl
    | some values =>
      obtain rfl : values = overlay := by
        unfold group? at hgroup
        simp only at hgroup
        split at hgroup <;> cases hgroup
        rfl
      simp only [Option.map_some, Option.bind_eq_bind, Option.bind_some,
        setting?_maxExpansions nodup each, setting?_maxProcesses nodup each]
      rw [setting?_root nodup rfl, setting?_root nodup rfl, setting?_root nodup rfl]
  | text | integer | real | flag | moment | list => unfold Value.merge; rfl

end Stencil.Settings
