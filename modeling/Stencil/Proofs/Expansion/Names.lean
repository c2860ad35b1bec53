import Stencil.Proofs.Document
import Stencil.Proofs.Expansion.Accepted

/-!
# The names in a written document

The search for template names takes the tags of one usage after another out of the text. What it
takes out of a written document are its usages, of each the content first, and what is left in the
end are its texts (`templateNamesFrom_render`). So it finds the names of all usages at every depth
(`templateNames_render`), whatever the values of their fields look like.
-/

namespace Stencil

namespace Document

open Expansion (Waiting behind templateNamesFrom_behind)
open Usage (tagName Inert)

/-- Texts are tag-safe and everything in a tag can be written in it; a value may hold all but
the quote that ends it. -/
def Legible : Document → Prop
  | empty => True
  | text s next => Usage.TagSafe s.toList ∧ next.Legible
  | usage name fields content next =>
    '"' ∉ name.toList ∧
    (∀ f ∈ fields, Tag.Writable (Usage.fieldAttribute f.1, f.2)) ∧
    content.Legible ∧ next.Legible

/-- The names of all usages, nested or side by side. -/
def usageNames : Document → List String
  | empty => []
  | text _ next => next.usageNames
  | usage name _ content next => content.usageNames ++ name :: next.usageNames

/-- The texts of the document without any tag. -/
def plain : Document → List Char
  | empty => []
  | text s next => s.toList ++ next.plain
  | usage _ _ content next => content.plain ++ next.plain

variable {d : Document}

/-- The texts of a document can be put together. -/
theorem inert_plain (hd : d.Legible) : Inert d.plain := by
  induction d with
  | empty => exact .nil
  | text s next ih => exact hd.1.inert.append (ih hd.2)
  | usage name fields content next ihContent ihNext =>
    obtain ⟨-, -, hcontent, hnext⟩ := hd
    exact (ihContent hcontent).append (ihNext hnext)

/-- The search for names takes a written document out of a text, behind tags that wait to be
closed: it notes the names of its usages and leaves its texts. -/
theorem templateNamesFrom_render (hd : d.Legible) {ws : List Waiting} (hws : ∀ w ∈ ws, w.Valid)
    {current : List Char} (hcurrent : Inert current) (rest : List Char)
    (sofar : Std.ExtTreeSet String) :
    templateNamesFrom sofar (behind ws (current ++ (d.render ++ rest))) =
      templateNamesFrom (sofar.insertMany d.usageNames)
        (behind ws (current ++ d.plain ++ rest)) := by
  induction d generalizing ws current rest sofar with
  | empty =>
    show templateNamesFrom sofar (behind ws (current ++ rest)) =
      templateNamesFrom (sofar.insertMany []) (behind ws (current ++ [] ++ rest))
    rw [Std.ExtTreeSet.insertMany_nil, List.append_nil]
  | text s next ih =>
    have hstep := ih hd.2 hws (hcurrent.append hd.1.inert) rest sofar
    rw [render, plain, usageNames]
    simp only [List.append_assoc] at hstep ⊢
    exact hstep
  | usage name fields content next ihContent ihNext =>
    obtain ⟨hname, hfields, hcontent, hnext⟩ := hd
    -- the opening tag waits while the content is searched
    let w : Waiting := ⟨current, Usage.openTag name fields⟩
    have hwaiting : ∀ v ∈ w :: ws, v.Valid :=
      List.forall_mem_cons.2 ⟨⟨hcurrent, Usage.isTag_openTag hname hfields⟩, hws⟩
    have hopen : behind ws (current ++ ((usage name fields content next).render ++ rest)) =
        behind (w :: ws) ([] ++ (content.render ++ (Usage.closeTag ++ (next.render ++ rest)))) := by
      rw [render, List.append_assoc, List.append_assoc, List.append_assoc]
      rfl
    have hinner := ihContent hcontent hwaiting .nil (Usage.closeTag ++ (next.render ++ rest)) sofar
    -- then the closing tag takes both away
    have hclose : templateNamesFrom (sofar.insertMany content.usageNames)
          (behind (w :: ws) (content.plain ++ (Usage.closeTag ++ (next.render ++ rest)))) =
        templateNamesFrom ((sofar.insertMany content.usageNames).insert name)
          (behind ws (current ++ content.plain ++ (next.render ++ rest))) :=
      templateNamesFrom_behind hwaiting (inert_plain hcontent) Usage.isTag_closeTag
        (Usage.ofTag_openTag hname hfields)
    have hbehind := ihNext hnext hws (hcurrent.append (inert_plain hcontent)) rest
      ((sofar.insertMany content.usageNames).insert name)
    rw [hopen, hinner, List.nil_append, hclose, hbehind, usageNames, plain,
      Std.ExtTreeSet.insertMany_append, Std.ExtTreeSet.insertMany_cons]
    simp only [List.append_assoc]

/-- The names found in a written document are those of its usages. -/
theorem templateNames_render (hd : d.Legible) :
    templateNames (String.ofList d.render) = .ok (.ofList d.usageNames) := by
  have hnoWaiting : ∀ w ∈ ([] : List Waiting), w.Valid := by simp
  have hmain := templateNamesFrom_render hd hnoWaiting .nil [] ∅
  have hnone : Tag.Pair.find? tagName d.plain = .ok none :=
    Tag.Pair.findFrom_of_none (inert_plain hd).nextMark?
  simp only [behind, List.nil_append, List.append_nil] at hmain
  rw [templateNames, String.toList_ofList, hmain, Expansion.templateNamesFrom_of_none hnone,
    Std.ExtTreeSet.ofList_eq_insertMany_empty]

/-- A list with an item in it, and the list once more. The values of the fields look like tags. -/
def nestedLists : Document :=
  .usage "list" [("", "<--template>")]
    (.text "a < b" (.usage "item" [("x", "</--template>'>")] .empty .empty))
    (.text "-" (.usage "list" [] .empty .empty))

/-- Both names of the nested lists are found. -/
theorem templateNames_nestedLists :
    nestedLists.Legible ∧
    templateNames (String.ofList nestedLists.render) = .ok (.ofList ["list", "item"]) := by
  have htext : ∀ s ∈ ["a < b", "-"], Usage.TagSafe s.toList := by
    intro s hs
    simp only [List.mem_cons, List.not_mem_nil, or_false] at hs
    rcases hs with rfl | rfl <;> exact ⟨by decide +kernel, by decide +kernel⟩
  have hfield : ∀ f ∈ [("", "<--template>"), ("x", "</--template>'>")],
      Tag.Writable (Usage.fieldAttribute f.1, f.2) := by
    intro f hf
    simp only [List.mem_cons, List.not_mem_nil, or_false] at hf
    rcases hf with rfl | rfl <;>
      exact ⟨by decide, List.all_eq_true.1 (by decide), by decide⟩
  have hlegible : nestedLists.Legible :=
    ⟨by decide, List.forall_mem_singleton.2 (hfield _ (by decide)),
      ⟨htext _ (by decide), by decide, List.forall_mem_singleton.2 (hfield _ (by decide)),
        trivial, trivial⟩,
      htext _ (by decide), by decide, by simp, trivial, trivial⟩
  have hnames : Std.ExtTreeSet.ofList nestedLists.usageNames =
      Std.ExtTreeSet.ofList ["list", "item"] := by
    apply Std.ExtTreeSet.ext_mem
    intro name
    simp only [Std.ExtTreeSet.mem_ofList, List.contains_iff_mem]
    have husages : nestedLists.usageNames = ["item", "list", "list"] := rfl
    rw [husages]
    simp [or_comm]
  refine ⟨hlegible, ?_⟩
  rw [templateNames_render hlegible, hnames]

end Document

end Stencil
