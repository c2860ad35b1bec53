import Stencil.Proofs.Plan.Loading
import Stencil.Proofs.Plan.Replan

/-!
# Stray files

Outputs are looked at twice: once for the note on those that no document stands for, and once
when the documents take theirs. Both go by the components of paths, so the two passes share the
outputs between them: what a document takes is not stray (`of_matchedOutput`), and an output whose
path no other output has is taken by the first document of its path (`matchedOutput_of_first`).
`strays_exact` puts this together with the warnings of a plan.
-/

namespace Stencil

namespace Templates

variable {t : FileTree} {files : List Source} {sofar templates : Templates}

/-- Loading that comes to its end has a warning for each file that is not markup. -/
theorem loadFrom_warnings (h : (loadFrom t files sofar).2 = .ok templates) :
    (loadFrom t files sofar).1 = ignored files := by
  induction files generalizing sofar with
  | nil => rfl
  | cons file files ih =>
    rcases loadFrom_cons h with ⟨hasset, hrest⟩ | ⟨content, hmarkup, hread, hfree, hrest⟩
    · rw [loadFrom_asset hasset, ih hrest]
      simp [ignored, hasset]
    · rw [loadFrom_free hmarkup hread hfree, ih hrest]
      simp [ignored, hmarkup]

end Templates

namespace Plan

variable {t : FileTree} {templates : Templates} {force : Bool} {b doc : Source}
  {docs earlier built : List Source} {units : List PlannedUnit} {rel : Path}

/-! ## The note -/

/-- The path of the file is, by its components, that of no document. -/
def Stray (docs : List Source) (b : Source) : Prop := ∀ d ∈ docs, ¬ b.rel.Same d.rel

instance (docs : List Source) (b : Source) : Decidable (Stray docs b) :=
  inferInstanceAs (Decidable (∀ d ∈ docs, ¬ b.rel.Same d.rel))

/-- The note on stray files, with a line for each. -/
def strayListing (files : List Source) : Warning :=
  ⟨none, "\n".intercalate
    ("stray files in build directory" :: files.map fun s => "  - " ++ s.rel.text)⟩

theorem strays_eq (built docs : List Source) :
    strays built docs = built.filter fun b => decide (Stray docs b) := by
  unfold strays
  apply List.filter_congr
  intro b hb
  rw [Bool.eq_iff_iff, decide_eq_true_eq]
  simp [Stray]

theorem strayWarning?_eq (built docs : List Source) :
    strayWarning? built docs =
      if strays built docs = [] then none else some (strayListing (strays built docs)) := by
  unfold strayWarning?
  cases strays built docs with
  | nil => rfl
  | cons b stray =>
    rw [if_neg (List.cons_ne_nil b stray), strayListing, List.map_cons,
      String.intercalate_cons_cons]
    rfl

/-! ## What documents take -/

/-- What is left for a document is an output at its path, and at that of no earlier document. -/
theorem of_matchedOutput (h : matchedOutput earlier rel built = some b) :
    b ∈ built ∧ b.rel.Same rel ∧ Stray earlier b := by
  unfold matchedOutput at h
  split at h
  · cases h
  · next hfree =>
    have hsame : b.rel.Same rel := by simpa using List.find?_some h
    refine ⟨List.mem_reverse.1 (List.mem_of_find?_eq_some h), hsame, fun d hd hother => ?_⟩
    exact hfree (List.any_eq_true.2 ⟨d, hd, decide_eq_true (hother.symm.trans hsame)⟩)

/-- An output whose path no other output has is left for the first document of its path. -/
theorem matchedOutput_of_first (hpaths : built.Pairwise fun b b' => ¬ b.rel.Same b'.rel)
    (hb : b ∈ built) (hsame : b.rel.Same rel) (hfirst : Stray earlier b) :
    matchedOutput earlier rel built = some b := by
  have hfree : ¬ earlier.any (fun d => decide (d.rel.Same rel)) = true := by
    intro htaken
    obtain ⟨d, hd, hother⟩ := List.any_eq_true.1 htaken
    exact hfirst d hd (hsame.trans (of_decide_eq_true hother).symm)
  obtain ⟨found, hfound⟩ : ∃ found,
      built.reverse.find? (fun b => decide (b.rel.Same rel)) = some found :=
    Option.isSome_iff_exists.1
      (List.find?_isSome.2 ⟨b, List.mem_reverse.2 hb, decide_eq_true hsame⟩)
  have hmatched : matchedOutput earlier rel built = some found := by
    rw [matchedOutput, if_neg hfree, hfound]
  obtain ⟨hmem, hrel, -⟩ := of_matchedOutput hmatched
  rw [hmatched]
  by_contra hne
  have hsymm : Std.Symm fun b b' : Source => ¬ b.rel.Same b'.rel :=
    ⟨fun _ _ hdiff hother => hdiff hother.symm⟩
  exact hpaths.forall hmem hb (fun heq => hne (congrArg some heq)) (hrel.trans hsame.symm)

/-- The first document at the path of the file stands at place `i`. -/
structure FirstAt (docs : List Source) (b : Source) (i : Nat) (doc : Source) : Prop where
  at_place : docs[i]? = some doc
  same : b.rel.Same doc.rel
  first : Stray (docs.take i) b

theorem exists_firstAt (h : ¬ Stray docs b) : ∃ i doc, FirstAt docs b i doc := by
  induction docs with
  | nil => exact absurd (by simp [Stray]) h
  | cons d docs ih =>
    by_cases hsame : b.rel.Same d.rel
    · exact ⟨0, d, rfl, hsame, by simp [Stray]⟩
    · have hlater : ¬ Stray docs b := fun hstray => h (List.forall_mem_cons.2 ⟨hsame, hstray⟩)
      obtain ⟨i, doc, hfirst⟩ := ih hlater
      exact ⟨i + 1, doc, hfirst.at_place, hfirst.same, List.forall_mem_cons.2 ⟨hsame, hfirst.first⟩⟩

/-- No document of the path stands in front of the first. -/
theorem FirstAt.le {i j : Nat} {d d' : Source} (h : FirstAt docs b i d)
    (h' : FirstAt docs b j d') : i ≤ j := by
  by_contra hlt
  obtain ⟨hj, hd'⟩ := List.getElem?_eq_some_iff.1 h'.at_place
  have hmem : d' ∈ docs.take i := List.mem_take_iff_getElem.2 ⟨j, by omega, hd'⟩
  exact h.first d' hmem h'.same

/-- A forced selection keeps every document. -/
theorem exists_examined_of_forced (h : selectUnits t templates true docs built = .ok units) :
    units.length = docs.length ∧ ∀ i doc, docs[i]? = some doc → ∃ u, units[i]? = some u ∧
      Examined t templates (docs.take i) built doc u := by
  classical
  have hbuilt : strays built [] = built := strays_nil
  rw [← hbuilt] at h
  obtain ⟨examined, hlength, hexamined, hunits⟩ := exists_examined_of_selectUnits h
  have hall : units = examined := by
    rw [hunits, List.filter_eq_self]
    exact fun u hu => decide_eq_true (.inl rfl)
  subst hall
  exact ⟨hlength, hexamined⟩

/-- Where the path of an output is that of no other output, the unit that takes it in a forced
selection is that of the first document of the path. -/
theorem existing_eq_some_iff_of_forced (h : selectUnits t templates true docs built = .ok units)
    (hpaths : built.Pairwise fun b b' => ¬ b.rel.Same b'.rel) (hb : b ∈ built) {i : Nat} :
    (∃ u, units[i]? = some u ∧ u.existing = some b) ↔ ∃ doc, FirstAt docs b i doc := by
  obtain ⟨hlength, hexamined⟩ := exists_examined_of_forced h
  constructor
  · intro ⟨u, hu, hexisting⟩
    have hi : i < docs.length := hlength ▸ (List.getElem?_eq_some_iff.1 hu).1
    have hdoc : docs[i]? = some docs[i] := List.getElem?_eq_getElem hi
    obtain ⟨v, hv, hexaminedAt⟩ := hexamined i _ hdoc
    obtain rfl : u = v := Option.some.inj (hu.symm.trans hv)
    obtain ⟨-, hsame, hfirst⟩ := of_matchedOutput (hexaminedAt.existing.symm.trans hexisting)
    exact ⟨docs[i], hdoc, hsame, hfirst⟩
  · intro ⟨doc, hfirst⟩
    obtain ⟨u, hu, hexaminedAt⟩ := hexamined i doc hfirst.at_place
    exact ⟨u, hu, hexaminedAt.existing.trans
      (matchedOutput_of_first hpaths hb hfirst.same hfirst.first)⟩

/-! ## The plan -/

/-- The warnings of a plan are one for each file of the template root that is not markup, in their
order, and then one at most on stray files: it is there when an output has the path of no
document, and lists all such outputs in their order. Which documents are built plays no part. No
unit takes a stray output, and a forced plan takes every other output exactly once when the paths
of the outputs are different. -/
theorem strays_exact {inventory : Inventory} {plan : Plan}
    (h : make t inventory force = .ok plan) :
    (∃ note : Option Warning,
      plan.warnings = Templates.ignored inventory.templates ++ note.toList ∧
      (note.isSome ↔ ∃ b ∈ inventory.built, Stray inventory.docs b) ∧
      ∀ w ∈ note,
        w = strayListing (inventory.built.filter fun b => decide (Stray inventory.docs b))) ∧
    (∀ u ∈ plan.units, ∀ b, u.existing = some b →
      b ∈ inventory.built ∧ ¬ Stray inventory.docs b) ∧
    (force = true → inventory.built.Pairwise (fun b b' => ¬ b.rel.Same b'.rel) →
      ∀ b ∈ inventory.built, Stray inventory.docs b ∨
        ∃! i : Nat, ∃ u, plan.units[i]? = some u ∧ u.existing = some b) := by
  obtain ⟨hload, hselect, -, hwarnings⟩ := make_eq_ok_iff.1 h
  refine ⟨?_, ?_, ?_⟩
  · have hignored : (Templates.load t inventory.templates).1 =
        Templates.ignored inventory.templates := Templates.loadFrom_warnings hload
    rw [hignored, strayWarning?_eq, strays_eq] at hwarnings
    refine ⟨_, hwarnings, ?_, ?_⟩
    · split
      · next hnone => simpa using hnone
      · next hsome => simpa using hsome
    · intro w hw
      split at hw
      · cases hw
      · exact (Option.some.inj hw).symm
  · intro u hu b hexisting
    obtain ⟨i, doc, hdoc, hexamined⟩ := exists_examined_of_mem hselect hu
    obtain ⟨hb, hsame, -⟩ := of_matchedOutput (hexamined.existing.symm.trans hexisting)
    exact ⟨hb, fun hstray => hstray doc (List.mem_of_getElem? hdoc) hsame⟩
  · rintro rfl hpaths b hb
    by_cases hstray : Stray inventory.docs b
    · exact .inl hstray
    · obtain ⟨i, doc, hfirst⟩ := exists_firstAt hstray
      refine .inr ⟨i, (existing_eq_some_iff_of_forced hselect hpaths hb).2 ⟨doc, hfirst⟩, ?_⟩
      intro j hj
      obtain ⟨doc', hfirst'⟩ := (existing_eq_some_iff_of_forced hselect hpaths hb).1 hj
      exact Nat.le_antisymm (hfirst'.le hfirst) (hfirst.le hfirst')

/-- A document that is there twice, its path written in two ways, and a file that is no
template. -/
def untidyInventory (built : List Source) : Inventory where
  docs := [⟨⟨"d/a/b.txt"⟩, ⟨"a//b.txt"⟩, none, some 5⟩, ⟨⟨"e/a/b.txt"⟩, ⟨"a/b.txt"⟩, none, some 5⟩,
    ⟨⟨"d/c.txt"⟩, ⟨"c.txt"⟩, none, some 5⟩]
  templates := [⟨⟨"t/notes.txt"⟩, ⟨"notes.txt"⟩, none, none⟩]
  built := built

/-- An output that is there twice is listed twice. The output of the repeated document, whose path
is written in a third way, is taken by one unit. -/
theorem strays_exact_untidy :
    let old : Source := ⟨⟨"s/old.txt"⟩, ⟨"old.txt"⟩, none, some 4⟩
    let page : Source := ⟨⟨"s/a/b.txt"⟩, ⟨"a/./b.txt"⟩, none, some 4⟩
    (∃ plan, make .empty (untidyInventory [old, page, old]) false = .ok plan ∧
      plan.warnings = [⟨none, "ignoring non-markup file in template directory: notes.txt"⟩,
        ⟨none, "stray files in build directory\n  - old.txt\n  - old.txt"⟩]) ∧
    ∃ plan, make .empty (untidyInventory [old, page]) true = .ok plan ∧ plan.units.length = 3 ∧
      ∃! i : Nat, ∃ u, plan.units[i]? = some u ∧ u.existing = some page := by
  intro old page
  constructor
  · obtain ⟨plan, hplan, hwarnings⟩ : ∃ plan,
        make .empty (untidyInventory [old, page, old]) false = .ok plan ∧
        decide (plan.warnings = [⟨none, "ignoring non-markup file in template directory: notes.txt"⟩,
          ⟨none, "stray files in build directory\n  - old.txt\n  - old.txt"⟩]) = true :=
      Stages.exists_of_any (by decide +kernel)
    exact ⟨plan, hplan, of_decide_eq_true hwarnings⟩
  · obtain ⟨plan, hplan, hlength⟩ : ∃ plan,
        make .empty (untidyInventory [old, page]) true = .ok plan ∧
        decide (plan.units.length = 3) = true :=
      Stages.exists_of_any (by decide +kernel)
    have hpage := (strays_exact hplan).2.2 rfl (by decide +kernel) page (by simp [untidyInventory])
    exact ⟨plan, hplan, of_decide_eq_true hlength, hpage.resolve_left (by decide +kernel)⟩

end Plan

end Stencil
