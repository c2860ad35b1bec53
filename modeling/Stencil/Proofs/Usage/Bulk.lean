import Stencil.Proofs.Text.Classes
import Stencil.Proofs.Text.Parts
import Stencil.Proofs.Stages
import Stencil.Usage

/-!
# Bulk lists as they may be spelled

A pair of a bulk list may have white space around its name and around its value. A list that
is spelled so is read back as its pairs in their order (`bulkFields_bulkText`).
-/

namespace Stencil.Usage

/-- A name or a value as it can stand in a bulk list: the marks of the list do not occur in it,
and it has no white space at its ends. -/
structure InBulk (s : List Char) : Prop where
  colon_not_mem : ':' ∉ s
  semicolon_not_mem : ';' ∉ s
  trimmed : Text.Trimmed s

instance (s : List Char) : Decidable (InBulk s) :=
  decidable_of_iff (':' ∉ s ∧ ';' ∉ s ∧ Text.Trimmed s)
    ⟨fun ⟨hcolon, hsemicolon, htrimmed⟩ => ⟨hcolon, hsemicolon, htrimmed⟩,
      fun h => ⟨h.colon_not_mem, h.semicolon_not_mem, h.trimmed⟩⟩

/-- A pair of a bulk list with the text around its name and its value. -/
structure BulkSpelling where
  /-- What stands in front of the name. -/
  lead : List Char
  name : List Char
  /-- What stands between the name and the colon. -/
  gap : List Char
  /-- What stands between the colon and the value. -/
  gap' : List Char
  value : List Char
  /-- What stands behind the value. -/
  trail : List Char

namespace BulkSpelling

/-- The part in front of the colon. -/
def left (b : BulkSpelling) : List Char := b.lead ++ (b.name ++ b.gap)

/-- The part behind the colon. -/
def right (b : BulkSpelling) : List Char := b.gap' ++ (b.value ++ b.trail)

/-- The pair as it stands in the list. -/
def text (b : BulkSpelling) : List Char := b.left ++ ':' :: b.right

def pair (b : BulkSpelling) : String × String := (String.ofList b.name, String.ofList b.value)

/-- The pair can stand in a bulk list, with nothing but white space around its texts. -/
structure Valid (b : BulkSpelling) : Prop where
  name : InBulk b.name
  value : InBulk b.value
  lead : ∀ c ∈ b.lead, Text.isBlank c = true
  gap : ∀ c ∈ b.gap, Text.isBlank c = true
  gap' : ∀ c ∈ b.gap', Text.isBlank c = true
  trail : ∀ c ∈ b.trail, Text.isBlank c = true

instance (b : BulkSpelling) : Decidable b.Valid :=
  decidable_of_iff (InBulk b.name ∧ InBulk b.value ∧ b.lead.all Text.isBlank ∧
      b.gap.all Text.isBlank ∧ b.gap'.all Text.isBlank ∧ b.trail.all Text.isBlank) <| by
    simp only [List.all_eq_true]
    exact ⟨fun ⟨hname, hvalue, hlead, hgap, hgap', htrail⟩ =>
        ⟨hname, hvalue, hlead, hgap, hgap', htrail⟩,
      fun h => ⟨h.name, h.value, h.lead, h.gap, h.gap', h.trail⟩⟩

variable {b : BulkSpelling}

/-- A character that is no white space and in neither text stands in neither part. -/
theorem Valid.not_mem (h : b.Valid) {c : Char} (hc : Text.isBlank c = false)
    (hname : c ∉ b.name) (hvalue : c ∉ b.value) : c ∉ b.left ∧ c ∉ b.right := by
  have hblank : ∀ {s : List Char}, (∀ d ∈ s, Text.isBlank d = true) → c ∉ s := by
    intro s hs hmem
    rw [hs c hmem] at hc
    cases hc
  simp only [left, right, List.mem_append, not_or]
  exact ⟨⟨hblank h.lead, hname, hblank h.gap⟩, hblank h.gap', hvalue, hblank h.trail⟩

theorem Valid.semicolon_not_mem (h : b.Valid) : ';' ∉ b.text := by
  obtain ⟨hleft, hright⟩ :=
    h.not_mem (c := ';') (by decide) h.name.semicolon_not_mem h.value.semicolon_not_mem
  simp only [text, List.mem_append, List.mem_cons, not_or]
  exact ⟨hleft, by decide, hright⟩

/-- One pair is read back. -/
theorem Valid.bulkField (h : b.Valid) : bulkField b.text = .ok b.pair := by
  obtain ⟨hleft, hright⟩ :=
    h.not_mem (c := ':') (by decide) h.name.colon_not_mem h.value.colon_not_mem
  have hparts : Text.splitOn ':' b.text = [b.left, b.right] := by
    rw [text, Text.splitOn_append_cons, Text.splitOn_of_not_mem hleft,
      Text.splitOn_of_not_mem hright, List.singleton_append]
  have hname : Text.trim b.left = b.name := Text.trim_surrounded h.name.trimmed h.lead h.gap
  have hvalue : Text.trim b.right = b.value := Text.trim_surrounded h.value.trimmed h.gap' h.trail
  simp only [Usage.bulkField, hparts, hname, hvalue, pair]

end BulkSpelling

/-- A bulk list as it is written. -/
def bulkText (bulk : List BulkSpelling) : List Char := Text.join [';'] (bulk.map (·.text))

/-- A bulk list is read back as its pairs. -/
theorem bulkFields_bulkText {bulk : List BulkSpelling} (h : ∀ b ∈ bulk, b.Valid)
    (hne : bulk ≠ []) : bulkFields (bulkText bulk) = .ok (bulk.map (·.pair)) := by
  have hparts : Text.splitOn ';' (bulkText bulk) = bulk.map (·.text) := by
    refine Text.splitOn_join ?_ (by simpa using hne)
    intro part hpart
    obtain ⟨b, hb, rfl⟩ := List.mem_map.1 hpart
    exact (h b hb).semicolon_not_mem
  rw [bulkFields, hparts]
  clear hparts hne
  induction bulk with
  | nil => rfl
  | cons b bulk ih =>
    rw [List.map_cons, List.mapM_cons, (h b List.mem_cons_self).bulkField, Stages.ok_bind,
      ih fun b' hb' => h b' (List.mem_cons_of_mem _ hb')]
    rfl

/-- A list with pairs in it is not empty. -/
theorem bulkText_ne_nil {bulk : List BulkSpelling} (hne : bulk ≠ []) : bulkText bulk ≠ [] := by
  obtain ⟨b, bulk, rfl⟩ := List.exists_cons_of_ne_nil hne
  have hb : b.text ≠ [] := by simp [BulkSpelling.text]
  cases bulk with
  | nil => exact hb
  | cons next bulk =>
    rw [bulkText, List.map_cons, List.map_cons, Text.join_cons_cons]
    exact List.append_ne_nil_of_left_ne_nil hb _

/-- A bulk list can stand between quotes when its names and values can. -/
theorem quote_not_mem_bulkText {bulk : List BulkSpelling} (h : ∀ b ∈ bulk, b.Valid)
    (hquote : ∀ b ∈ bulk, '"' ∉ b.name ∧ '"' ∉ b.value) : '"' ∉ bulkText bulk := by
  intro hmem
  rcases Text.mem_of_mem_join hmem with hjoint | ⟨part, hpart, hin⟩
  · exact absurd (List.mem_singleton.1 hjoint) (by decide)
  · obtain ⟨b, hb, rfl⟩ := List.mem_map.1 hpart
    obtain ⟨hname, hvalue⟩ := hquote b hb
    obtain ⟨hleft, hright⟩ := (h b hb).not_mem (c := '"') (by decide) hname hvalue
    rw [BulkSpelling.text, List.mem_append, List.mem_cons] at hin
    rcases hin with hin | hin | hin
    · exact hleft hin
    · exact absurd hin (by decide)
    · exact hright hin

end Stencil.Usage
