import Mathlib.Data.List.Forall2
import Stencil.Proofs.Plan.Selection

/-!
# Planning again on another tree

When the texts of the documents are the same in another tree, planning there differs only in
the documents whose verdict is another one (`selectUnits_filter`).
-/

namespace Stencil

variable {t u : FileTree}

/-! ## What is read again -/

theorem Source.text_congr {s : Source} (h : u.node? s.path = t.node? s.path) :
    s.text u = s.text t := by
  unfold Source.text FileTree.readText FileTree.readBytes
  rw [h]

/-- The templates that are loaded depend on the texts of their files alone. -/
theorem Templates.load_congr {files : List Source} (h : ∀ s ∈ files, s.text u = s.text t) :
    load u files = load t files := by
  unfold load
  generalize (∅ : Templates) = sofar
  induction files generalizing sofar with
  | nil => rfl
  | cons file files ih =>
    have hrest := ih fun s hs => h s (List.mem_cons_of_mem _ hs)
    rw [loadFrom, loadFrom, h file List.mem_cons_self]
    simp only [hrest]

namespace Plan

variable {templates : Templates} {force : Bool} {doc : Source} {docs built built' : List Source}
  {units : List PlannedUnit}

theorem broken_congr (h : doc.text u = doc.text t) :
    Broken u templates doc ↔ Broken t templates doc := by
  unfold Broken
  rw [h]

/-! ## Times on another tree -/

variable {v : PlannedUnit}

theorem inputTimes_congr (hsource : v.source.time u = v.source.time t)
    (htemplates : ∀ (name : String) (template : Template), templates[name]? = some template →
      template.source.time u = template.source.time t) :
    inputTimes u templates v = inputTimes t templates v := by
  unfold inputTimes
  ext time
  rw [Set.mem_ofPred_eq, Set.mem_ofPred_eq, hsource]
  refine or_congr_right (exists_congr fun name => and_congr_right fun _ =>
    exists_congr fun template => and_congr_right fun htemplate => ?_)
  rw [htemplates name template htemplate]

theorem needsBuild_congr (hsource : v.source.time u = v.source.time t)
    (htemplates : ∀ (name : String) (template : Template), templates[name]? = some template →
      template.source.time u = template.source.time t)
    (houtput : ∀ output, v.existing = some output → output.time u = output.time t) :
    NeedsBuild u templates force v ↔ NeedsBuild t templates force v := by
  unfold NeedsBuild
  rw [inputTimes_congr hsource htemplates]
  refine or_congr_right (or_congr_right (exists_congr fun output => exists_congr fun written =>
    exists_congr fun newest => and_congr_right fun hexisting => ?_))
  rw [houtput output hexisting]

/-- A document whose output is no earlier than anything it is made from need not be built. -/
theorem not_needsBuild {output : Source} {written : Int} (hexisting : v.existing = some output)
    (htime : output.time t = .ok written)
    (hbound : ∀ time ∈ inputTimes t templates v, time ≤ written) :
    ¬ NeedsBuild t templates false v := by
  rintro (hforce | hnone | ⟨output', written', newest, houtput, hwritten, hgreatest, hlt⟩)
  · cases hforce
  · rw [hexisting] at hnone
    cases hnone
  · rw [hexisting] at houtput
    cases houtput
    rw [htime] at hwritten
    cases hwritten
    have hle := hbound newest hgreatest.1
    omega

theorem not_untimed (hsource : ∃ time, v.source.time t = .ok time)
    (htemplates : ∀ (name : String) (template : Template), templates[name]? = some template →
      ∃ time, template.source.time t = .ok time)
    (houtput : ∀ output, v.existing = some output → ∃ time, output.time t = .ok time) :
    ¬ Untimed t templates force v := by
  rintro ⟨-, output, hexisting, ⟨e, he⟩ | ⟨name, -, template, htemplate, e, he⟩ | ⟨e, he⟩⟩
  · obtain ⟨time, htime⟩ := hsource
    rw [htime] at he
    cases he
  · obtain ⟨time, htime⟩ := htemplates name template htemplate
    rw [htime] at he
    cases he
  · obtain ⟨time, htime⟩ := houtput output hexisting
    rw [htime] at he
    cases he

/-! ## Another selection -/

/-- A selection from items that were changed only where they are not to be kept. -/
theorem filter_eq_of_forall₂ {α : Type} {p q keep : α → Prop} [DecidablePred p]
    [DecidablePred q] [DecidablePred keep] {as bs : List α}
    (h : List.Forall₂ (fun a b => (q b ↔ p a ∧ keep a) ∧ (keep a → b = a)) as bs) :
    bs.filter (fun b => decide (q b)) =
      (as.filter fun a => decide (p a)).filter fun a => decide (keep a) := by
  induction h with
  | nil => rfl
  | @cons a b as bs hab _ ih =>
    obtain ⟨hverdict, hsame⟩ := hab
    rw [List.filter_filter] at ih ⊢
    by_cases hselected : p a ∧ keep a
    · obtain rfl := hsame hselected.2
      rw [List.filter_cons_of_pos (by simpa using hverdict.2 hselected),
        List.filter_cons_of_pos (by simpa using ⟨hselected.2, hselected.1⟩), ih]
    · rw [List.filter_cons_of_neg (by simpa using fun hb => hselected (hverdict.1 hb)),
        List.filter_cons_of_neg (by simpa using fun hk hp => hselected ⟨hp, hk⟩), ih]

/-- A selection on another tree and among other outputs leaves out the documents that are not
to be kept, when those it keeps are examined there with the same verdict. -/
theorem selectUnits_filter (keep : PlannedUnit → Prop) [DecidablePred keep]
    (h : selectUnits t templates force docs built = .ok units)
    (htext : ∀ doc ∈ docs, doc.text u = doc.text t)
    (hexamined : ∀ i doc v w, docs[i]? = some doc →
      Examined t templates (docs.take i) built doc v →
      Examined u templates (docs.take i) built' doc w →
      ¬ Untimed u templates force w ∧ (keep v → w = v) ∧
        (NeedsBuild u templates force w ↔ NeedsBuild t templates force v ∧ keep v)) :
    selectUnits u templates force docs built' =
      .ok (units.filter fun v => decide (keep v)) := by
  classical
  have hbuilt : strays built [] = built := strays_nil
  have hbuilt' : strays built' [] = built' := strays_nil
  rw [← hbuilt] at h
  obtain ⟨before, hlength, hbefore, rfl⟩ := exists_examined_of_selectUnits h
  -- no document is refused that was not refused before
  have hselected : ∃ units', selectUnits u templates force docs built' = .ok units' := by
    cases hselect : selectUnits u templates force docs built' with
    | ok units' => exact ⟨units', rfl⟩
    | error failure =>
      exfalso
      rw [← hbuilt'] at hselect
      obtain ⟨i, doc, hdoc, hrefused⟩ := exists_selectUnits_eq_error_iff.1 ⟨failure, hselect⟩
      have hsound : ¬ Refused t templates force ([] ++ docs.take i) built doc := by
        intro hrefused
        obtain ⟨failure, hfails⟩ := exists_selectUnits_eq_error_iff.2 ⟨i, doc, hdoc, hrefused⟩
        rw [h] at hfails
        cases hfails
      obtain ⟨v, -, hv⟩ := hbefore i doc hdoc
      rcases hrefused with hbroken | ⟨w, hw, huntimed⟩
      · rw [broken_congr (htext doc (List.mem_of_getElem? hdoc))] at hbroken
        exact hsound (.inl hbroken)
      · exact (hexamined i doc v w hdoc hv hw).1 huntimed
  obtain ⟨units', hselected⟩ := hselected
  rw [hselected]
  rw [← hbuilt'] at hselected
  obtain ⟨after, hlength', hafter, rfl⟩ := exists_examined_of_selectUnits hselected
  refine congrArg Except.ok (filter_eq_of_forall₂ ?_)
  refine List.forall₂_iff_get.2 ⟨hlength.trans hlength'.symm, ?_⟩
  intro i hi hi'
  have hdoc : docs[i]? = some docs[i] := List.getElem?_eq_getElem (hlength ▸ hi)
  obtain ⟨v, hv, hexaminedBefore⟩ := hbefore i _ hdoc
  obtain ⟨w, hw, hexaminedAfter⟩ := hafter i _ hdoc
  obtain rfl : before.get ⟨i, hi⟩ = v := (List.getElem?_eq_some_iff.1 hv).2
  obtain rfl : after.get ⟨i, hi'⟩ = w := (List.getElem?_eq_some_iff.1 hw).2
  obtain ⟨-, hkeep, hverdict⟩ := hexamined i _ _ _ hdoc hexaminedBefore hexaminedAfter
  exact ⟨hverdict, hkeep⟩

/-- A plan is put together from what was loaded and what was selected. -/
theorem make_eq_ok_iff {inventory : Inventory} {plan : Plan} :
    make t inventory force = .ok plan ↔
      (Templates.load t inventory.templates).2 = .ok plan.templates ∧
      selectUnits t plan.templates force inventory.docs inventory.built = .ok plan.units ∧
      plan.considered = inventory.docs.length ∧
      plan.warnings = (Templates.load t inventory.templates).1 ++
        (strayWarning? inventory.built inventory.docs).toList := by
  constructor
  · intro h
    obtain ⟨loaded, hload, h⟩ := Stages.bind_eq_ok.1 h
    obtain ⟨units, hselect, h⟩ := Stages.bind_eq_ok.1 h
    cases h
    exact ⟨hload, hselect, rfl, rfl⟩
  · obtain ⟨templates, units, considered, warnings⟩ := plan
    rintro ⟨hload, hselect, rfl, rfl⟩
    exact Stages.bind_eq_ok.2 ⟨_, hload, Stages.bind_eq_ok.2 ⟨_, hselect, rfl⟩⟩

end Plan

end Stencil
