import Mathlib.Data.List.Find
import Mathlib.Order.Bounds.Basic
import Stencil.Proofs.Plan.Freshness

/-!
# Which documents are selected

Each document is examined on its own: of the other documents only the earlier ones count,
and these only by having taken an output (`claimOutput_strays`). A plan selects the
examined documents that need to be built, and planning fails for no other reason than a
template that cannot be loaded or a document that must be refused (`make_exact`).
-/

namespace Stencil.Plan

variable {t : FileTree} {templates : Templates} {force : Bool} {doc : Source} {u : PlannedUnit}
  {earlier docs built : List Source} {units : List PlannedUnit} {rel : Path}

/-! ## Outputs and the documents they belong to -/

/-- The output that is left for a document at this path: the last one there, unless an
earlier document has the same path. -/
def matchedOutput (earlier : List Source) (rel : Path) (built : List Source) : Option Source :=
  if earlier.any fun d => decide (d.rel.Same rel) then none
  else built.reverse.find? fun b => decide (b.rel.Same rel)

theorem strays_nil : strays built [] = built := by
  unfold strays
  simp

/-- The outputs that are left when one more document has taken its own. -/
theorem strays_concat :
    strays built (earlier ++ [doc]) = (claimOutput doc.rel (strays built earlier)).2 := by
  show _ = (strays built earlier).filter _
  unfold strays
  rw [List.filter_filter]
  apply List.filter_congr
  intro b hb
  simp [Bool.and_comm]

/-- What a document takes of the outputs that earlier documents have left. -/
theorem claimOutput_strays :
    (claimOutput rel (strays built earlier)).1 = matchedOutput earlier rel built := by
  unfold claimOutput matchedOutput strays
  rw [List.getLast?_filter, ← List.filter_reverse, List.find?_filter]
  split
  · next htaken =>
    rw [List.find?_eq_none]
    obtain ⟨d, hd, hsame⟩ := List.any_eq_true.1 htaken
    have hrel : d.rel.Same rel := of_decide_eq_true hsame
    intro b hb hleft
    obtain ⟨hfree, hpath⟩ := of_decide_eq_true hleft
    have hother : b.rel.Same rel := of_decide_eq_true hpath
    have htook : earlier.any (fun d => decide (b.rel.Same d.rel)) = true :=
      List.any_eq_true.2 ⟨d, hd, decide_eq_true (hother.trans hrel.symm)⟩
    rw [htook] at hfree
    cases hfree
  · next hfree =>
    have hnone : ∀ d ∈ earlier, ¬ d.rel.Same rel := by
      simpa using hfree
    apply List.find?_congr
    intro b hb
    rw [Bool.eq_iff_iff]
    simp only [Bool.not_eq_true', List.any_eq_false, decide_eq_true_eq, and_iff_right_iff_imp]
    intro hother d hd hsame
    exact hnone d hd (hsame.symm.trans hother)

/-! ## Examining one document -/

/-- What the planner makes of a document that stands behind `earlier` ones. -/
structure Examined (t : FileTree) (templates : Templates) (earlier built : List Source)
    (doc : Source) (u : PlannedUnit) : Prop where
  path : u.source.path = doc.path
  rel : u.source.rel = doc.rel
  time : u.source.time t = doc.time t
  existing : u.existing = matchedOutput earlier doc.rel built
  asset : doc.isMarkup = false → u.source = doc ∧ u.templates = ∅
  markup : doc.isMarkup = true → ∃ text, doc.text t = .ok text ∧
    u.source = { doc with text? := some text } ∧ templateNames text = .ok u.templates
  known : ∀ name ∈ u.templates, name ∈ templates

theorem Considers.examined (h : Considers t templates (strays built earlier) doc u) :
    Examined t templates earlier built doc u := by
  obtain ⟨hused, hexisting⟩ := h
  obtain ⟨hpath, hrel⟩ := path_of_templatesUsed hused
  rw [claimOutput_strays] at hexisting
  cases hdoc : doc.isMarkup with
  | false =>
    obtain ⟨hsource, hnames⟩ := templatesUsed_asset hused hdoc
    refine ⟨hpath, hrel, time_of_templatesUsed hused, hexisting, fun _ => ⟨hsource, hnames⟩,
      by simp [hdoc], ?_⟩
    rw [hnames]
    intro name hname
    simp at hname
  | true =>
    obtain ⟨text, htext, hsource, hnames, hknown⟩ := templatesUsed_markup hused hdoc
    exact ⟨hpath, hrel, time_of_templatesUsed hused, hexisting, by simp [hdoc],
      fun _ => ⟨text, htext, hsource, hnames⟩, hknown⟩

/-- The document is markup that cannot be read as text, is malformed, or names a template
that does not exist. -/
def Broken (t : FileTree) (templates : Templates) (doc : Source) : Prop :=
  doc.isMarkup = true ∧
    ((∃ e, doc.text t = .error e) ∨ ∃ text, doc.text t = .ok text ∧
      ((∃ d, templateNames text = .error d) ∨
        ∃ names, templateNames text = .ok names ∧ ∃ name ∈ names, name ∉ templates))

/-- The templates of a document can be found out unless it is broken. -/
theorem exists_templatesUsed_eq_error_iff :
    (∃ e, templatesUsed t templates doc = .error e) ↔ Broken t templates doc := by
  unfold templatesUsed Broken
  cases hdoc : doc.isMarkup with
  | false => simp [pure, Except.pure]
  | true =>
    simp only [Bool.not_true, Bool.false_eq_true, if_false, true_and]
    cases htext : doc.text t with
    | error e => simp [bind, Except.bind]
    | ok text =>
      cases hnames : templateNames text with
      | error d => simp [bind, Except.bind, hnames]
      | ok names =>
        have hunknown : (∃ name ∈ names, name ∉ templates) ↔
            (names.toList.find? fun name => !templates.contains name) ≠ none := by
          rw [ne_eq, List.find?_eq_none]
          simp
        simp only [Stages.mapError_ok, Stages.ok_bind, hnames]
        cases hmissing : names.toList.find? fun name => !templates.contains name with
        | none => simp [pure, Except.pure, hnames, hunknown, hmissing]
        | some missing => simp [hnames, hunknown, hmissing]

/-- The times that count for a document: its own and those of the templates it uses. -/
def inputTimes (t : FileTree) (templates : Templates) (u : PlannedUnit) : Set Int :=
  { time | u.source.time t = .ok time ∨ ∃ name ∈ u.templates, ∃ template,
      templates[name]? = some template ∧ template.source.time t = .ok time }

/-- The document has to be built: always when that is forced or there is no output for it,
else when the latest of the times that count is strictly later than that of its output. -/
def NeedsBuild (t : FileTree) (templates : Templates) (force : Bool) (u : PlannedUnit) : Prop :=
  force = true ∨ u.existing = none ∨ ∃ output written newest, u.existing = some output ∧
    output.time t = .ok written ∧ IsGreatest (inputTimes t templates u) newest ∧ written < newest

/-- A time that decides whether the document has to be built cannot be read. -/
def Untimed (t : FileTree) (templates : Templates) (force : Bool) (u : PlannedUnit) : Prop :=
  force = false ∧ ∃ output, u.existing = some output ∧
    ((∃ e, u.source.time t = .error e) ∨
      (∃ name ∈ u.templates, ∃ template, templates[name]? = some template ∧
        ∃ e, template.source.time t = .error e) ∨
      ∃ e, output.time t = .error e)

/-- The newest time is the one it starts with or that of a template. -/
theorem eq_of_foldlM_later {names : List String} {start latest : Int}
    (h : names.foldlM (later t templates) start = .ok latest) :
    latest = start ∨ ∃ name ∈ names, ∃ template, templates[name]? = some template ∧
      template.source.time t = .ok latest := by
  induction names generalizing start with
  | nil =>
    cases h
    exact .inl rfl
  | cons name names ih =>
    obtain ⟨next, hnext, h⟩ := Stages.bind_eq_ok.1 h
    rcases ih h with hlatest | ⟨other, hother, hrest⟩
    · subst hlatest
      unfold later at hnext
      split at hnext
      · cases hnext
        exact .inl rfl
      · next template htemplate =>
        obtain ⟨time, htime, hmax⟩ := Stages.map_eq_ok.1 hnext
        rcases Int.le_total start time with hle | hle
        · rw [Int.max_eq_right hle] at hmax
          exact .inr ⟨name, List.mem_cons_self, template, htemplate, hmax ▸ htime⟩
        · rw [Int.max_eq_left hle] at hmax
          exact .inl hmax.symm
    · exact .inr ⟨other, List.mem_cons_of_mem _ hother, hrest⟩

/-- A failure to find the newest time is a failure to read that of a template. -/
theorem exists_of_foldlM_later_eq_error {names : List String} {start : Int} {e : ReadFailure}
    (h : names.foldlM (later t templates) start = .error e) :
    ∃ name ∈ names, ∃ template, templates[name]? = some template ∧
      ∃ cause, template.source.time t = .error cause := by
  induction names generalizing start with
  | nil => cases h
  | cons name names ih =>
    rcases Stages.bind_eq_error.1 h with h | ⟨next, -, h⟩
    · unfold later at h
      split at h
      · cases h
      · next template htemplate =>
        cases htime : template.source.time t with
        | ok time =>
          rw [htime] at h
          cases h
        | error cause => exact ⟨name, List.mem_cons_self, template, htemplate, cause, htime⟩
    · obtain ⟨other, hother, hrest⟩ := ih h
      exact ⟨other, List.mem_cons_of_mem _ hother, hrest⟩

theorem isGreatest_of_newest {latest : Int} (h : newest t templates u = .ok latest) :
    IsGreatest (inputTimes t templates u) latest := by
  obtain ⟨changed, hchanged, hfold⟩ := Stages.bind_eq_ok.1 h
  obtain ⟨hstart, hnames⟩ := le_of_foldlM_later hfold
  constructor
  · rcases eq_of_foldlM_later hfold with hlatest | ⟨name, hname, hrest⟩
    · exact .inl (hlatest ▸ hchanged)
    · exact .inr ⟨name, Std.ExtTreeSet.mem_toList.1 hname, hrest⟩
  · rintro time (htime | ⟨name, hname, template, htemplate, htime⟩)
    · rw [hchanged] at htime
      cases htime
      exact hstart
    · obtain ⟨stamp, hstamp, hle⟩ :=
        hnames name (Std.ExtTreeSet.mem_toList.2 hname) template htemplate
      rw [htime] at hstamp
      cases hstamp
      exact hle

/-- The newest time can be found when the times that count can be read. -/
theorem exists_newest_eq_error_iff :
    (∃ e, newest t templates u = .error e) ↔
      (∃ e, u.source.time t = .error e) ∨
      ∃ name ∈ u.templates, ∃ template, templates[name]? = some template ∧
        ∃ e, template.source.time t = .error e := by
  constructor
  · rintro ⟨e, h⟩
    rcases Stages.bind_eq_error.1 h with h | ⟨changed, -, h⟩
    · exact .inl ⟨e, h⟩
    · obtain ⟨name, hname, hrest⟩ := exists_of_foldlM_later_eq_error h
      exact .inr ⟨name, Std.ExtTreeSet.mem_toList.1 hname, hrest⟩
  · intro h
    cases hnewest : newest t templates u with
    | error e => exact ⟨e, rfl⟩
    | ok latest =>
      -- all the times were read
      obtain ⟨changed, hchanged, hfold⟩ := Stages.bind_eq_ok.1 hnewest
      rcases h with ⟨e, htime⟩ | ⟨name, hname, template, htemplate, e, htime⟩
      · rw [hchanged] at htime
        cases htime
      · obtain ⟨stamp, hstamp, -⟩ := (le_of_foldlM_later hfold).2 name
          (Std.ExtTreeSet.mem_toList.2 hname) template htemplate
        rw [htime] at hstamp
        cases hstamp

/-- Where the planner comes to a verdict it is the right one. -/
theorem isRequired_eq_ok {required : Bool} (h : isRequired t templates force u = .ok required) :
    required = true ↔ NeedsBuild t templates force u := by
  unfold isRequired at h
  unfold NeedsBuild
  cases hexisting : u.existing with
  | none =>
    rw [hexisting] at h
    cases h
    simp
  | some output =>
    rw [hexisting] at h
    cases force with
    | true =>
      cases h
      simp
    | false =>
      obtain ⟨latest, hlatest, h⟩ := Stages.bind_eq_ok.1 h
      obtain ⟨written, hwritten, h⟩ := Stages.bind_eq_ok.1 h
      have hgreatest := isGreatest_of_newest hlatest
      rw [Stages.pure_eq_ok] at h
      subst h
      simp only [needsRebuild, decide_eq_true_eq, Bool.false_eq_true, false_or,
        reduceCtorEq]
      constructor
      · intro hlt
        exact ⟨output, written, latest, rfl, hwritten, hgreatest, hlt⟩
      · rintro ⟨output', written', latest', houtput, hwritten', hgreatest', hlt⟩
        cases houtput
        rw [hwritten] at hwritten'
        cases hwritten'
        rw [hgreatest.unique hgreatest']
        exact hlt

theorem exists_isRequired_eq_error_iff :
    (∃ e, isRequired t templates force u = .error e) ↔ Untimed t templates force u := by
  unfold isRequired Untimed
  cases hexisting : u.existing with
  | none => simp [pure, Except.pure]
  | some output =>
    cases force with
    | true => simp [pure, Except.pure]
    | false =>
      simp only [Bool.false_eq_true, if_false, true_and, Option.some.injEq, exists_eq_left']
      rw [← or_assoc, ← exists_newest_eq_error_iff]
      cases newest t templates u with
      | error e => simp [bind, Except.bind]
      | ok latest => cases output.time t <;> simp [bind, Except.bind, pure, Except.pure]

/-! ## All documents in turn -/

/-- The document is refused: it is broken, or a time that decides about it cannot be read. -/
def Refused (t : FileTree) (templates : Templates) (force : Bool) (earlier built : List Source)
    (doc : Source) : Prop :=
  Broken t templates doc ∨
    ∃ u, Examined t templates earlier built doc u ∧ Untimed t templates force u

/-- What a document is and which templates it uses depends on its text alone. -/
theorem Examined.source_eq {t' : FileTree} {earlier' built' : List Source} {v : PlannedUnit}
    (hu : Examined t templates earlier built doc u)
    (hv : Examined t' templates earlier' built' doc v) (htext : doc.text t' = doc.text t) :
    v.source = u.source ∧ v.templates = u.templates := by
  cases hdoc : doc.isMarkup with
  | false =>
    obtain ⟨hsource, hnames⟩ := hu.asset hdoc
    obtain ⟨hsource', hnames'⟩ := hv.asset hdoc
    exact ⟨hsource'.trans hsource.symm, hnames'.trans hnames.symm⟩
  | true =>
    obtain ⟨text, hread, hsource, hnames⟩ := hu.markup hdoc
    obtain ⟨text', hread', hsource', hnames'⟩ := hv.markup hdoc
    rw [htext] at hread'
    obtain rfl : text = text' := Except.ok.inj (hread.symm.trans hread')
    exact ⟨hsource'.trans hsource.symm, Except.ok.inj (hnames'.symm.trans hnames)⟩

/-- There is one way to examine a document. -/
theorem Examined.unique {v : PlannedUnit} (hu : Examined t templates earlier built doc u)
    (hv : Examined t templates earlier built doc v) : u = v := by
  have hexisting : u.existing = v.existing := hu.existing.trans hv.existing.symm
  obtain ⟨hsource, hnames⟩ := hu.source_eq hv rfl
  cases u
  cases v
  simp_all

theorem refused_iff_of_considers (h : Considers t templates (strays built earlier) doc u) :
    Refused t templates force earlier built doc ↔ Untimed t templates force u := by
  have hexamined := h.examined
  constructor
  · rintro (hbroken | ⟨v, hv, huntimed⟩)
    · obtain ⟨e, he⟩ := exists_templatesUsed_eq_error_iff.2 hbroken
      rw [h.used] at he
      cases he
    · rwa [hexamined.unique hv]
  · intro huntimed
    exact .inr ⟨u, hexamined, huntimed⟩

open scoped Classical in
/-- A selection examines the documents one after the other and keeps those that need to be
built. -/
theorem exists_examined_of_selectUnits
    (h : selectUnits t templates force docs (strays built earlier) = .ok units) :
    ∃ examined : List PlannedUnit, examined.length = docs.length ∧
      (∀ i doc, docs[i]? = some doc → ∃ u, examined[i]? = some u ∧
        Examined t templates (earlier ++ docs.take i) built doc u) ∧
      units = examined.filter fun u => decide (NeedsBuild t templates force u) := by
  induction docs generalizing earlier units with
  | nil =>
    cases h
    exact ⟨[], rfl, by simp, rfl⟩
  | cons doc docs ih =>
    obtain ⟨u, required, rest, hu, hrequired, hrest, rfl⟩ := selectUnits_cons h
    rw [← strays_concat] at hrest
    obtain ⟨examined, hlength, hexamined, rfl⟩ := ih hrest
    refine ⟨u :: examined, congrArg (· + 1) hlength, ?_, ?_⟩
    · intro i other hother
      cases i with
      | zero =>
        rw [List.getElem?_cons_zero, Option.some.injEq] at hother
        subst hother
        refine ⟨u, rfl, ?_⟩
        rw [List.take_zero, List.append_nil]
        exact hu.examined
      | succ i =>
        obtain ⟨v, hv, hat⟩ := hexamined i other hother
        refine ⟨v, hv, ?_⟩
        rw [List.take_succ_cons, List.append_cons]
        exact hat
    · have hverdict : decide (NeedsBuild t templates force u) = required := by
        rw [Bool.eq_iff_iff, decide_eq_true_eq, isRequired_eq_ok hrequired]
      rw [List.filter_cons, hverdict]

/-- Every document that was selected was examined at its turn. -/
theorem exists_examined_of_mem (h : selectUnits t templates force docs built = .ok units)
    (hu : u ∈ units) : ∃ i doc, docs[i]? = some doc ∧
      Examined t templates (docs.take i) built doc u := by
  have hbuilt : strays built [] = built := strays_nil
  rw [← hbuilt] at h
  obtain ⟨examined, hlength, hexamined, rfl⟩ := exists_examined_of_selectUnits h
  obtain ⟨i, hi, rfl⟩ := List.getElem_of_mem (List.mem_of_mem_filter hu)
  have hdoc : docs[i]? = some docs[i] := List.getElem?_eq_getElem (hlength ▸ hi)
  obtain ⟨v, hv, hat⟩ := hexamined i _ hdoc
  obtain rfl : examined[i] = v := (List.getElem?_eq_some_iff.1 hv).2
  exact ⟨i, docs[i], hdoc, hat⟩

/-- A selection fails exactly when a document is refused. -/
theorem exists_selectUnits_eq_error_iff :
    (∃ failure, selectUnits t templates force docs (strays built earlier) = .error failure) ↔
      ∃ i doc, docs[i]? = some doc ∧
        Refused t templates force (earlier ++ docs.take i) built doc := by
  induction docs generalizing earlier with
  | nil => simp [selectUnits]
  | cons doc docs ih =>
    -- the first document is refused, or one of the others is
    have hsplit : (∃ i other, (doc :: docs)[i]? = some other ∧
        Refused t templates force (earlier ++ (doc :: docs).take i) built other) ↔
        Refused t templates force earlier built doc ∨ ∃ i other, docs[i]? = some other ∧
          Refused t templates force (earlier ++ [doc] ++ docs.take i) built other := by
      constructor
      · rintro ⟨i, other, hother, hrefused⟩
        cases i with
        | zero =>
          rw [List.getElem?_cons_zero, Option.some.injEq] at hother
          subst hother
          rw [List.take_zero, List.append_nil] at hrefused
          exact .inl hrefused
        | succ i =>
          rw [List.take_succ_cons, List.append_cons] at hrefused
          exact .inr ⟨i, other, hother, hrefused⟩
      · rintro (hrefused | ⟨i, other, hother, hrefused⟩)
        · refine ⟨0, doc, rfl, ?_⟩
          rw [List.take_zero, List.append_nil]
          exact hrefused
        · refine ⟨i + 1, other, hother, ?_⟩
          rw [List.take_succ_cons, List.append_cons]
          exact hrefused
    rw [hsplit, ← ih, strays_concat]
    cases hused : templatesUsed t templates doc with
    | error e =>
      have hbroken := exists_templatesUsed_eq_error_iff.1 ⟨e, hused⟩
      constructor
      · intro _
        exact .inl (.inl hbroken)
      · intro _
        exact ⟨e, by rw [selectUnits, hused]; rfl⟩
    | ok used =>
      let u : PlannedUnit := ⟨used.1, (claimOutput doc.rel (strays built earlier)).1, used.2⟩
      have hu : Considers t templates (strays built earlier) doc u := ⟨hused, rfl⟩
      rw [refused_iff_of_considers hu, ← exists_isRequired_eq_error_iff]
      have hstep : selectUnits t templates force (doc :: docs) (strays built earlier) =
          ((isRequired t templates force u).mapError .ofRead) >>= fun required =>
            selectUnits t templates force docs (claimOutput doc.rel (strays built earlier)).2 >>=
              fun rest => pure (if required then u :: rest else rest) := by
        rw [selectUnits, hused]
        rfl
      rw [hstep]
      cases isRequired t templates force u with
      | error e => simp [bind, Except.bind]
      | ok required =>
        cases selectUnits t templates force docs (claimOutput doc.rel (strays built earlier)).2 <;>
          simp [bind, Except.bind, pure, Except.pure]

/-! ## The plan -/

variable {inventory : Inventory}

theorem exists_make_eq_error_iff :
    (∃ failure, make t inventory force = .error failure) ↔
      (∃ failure, (Templates.load t inventory.templates).2 = .error failure) ∨
      ∃ templates, (Templates.load t inventory.templates).2 = .ok templates ∧
        ∃ failure, selectUnits t templates force inventory.docs inventory.built =
          .error failure := by
  constructor
  · rintro ⟨failure, h⟩
    rcases Stages.bind_eq_error.1 h with h | ⟨templates, htemplates, h⟩
    · exact .inl ⟨failure, h⟩
    rcases Stages.bind_eq_error.1 h with h | ⟨units, -, h⟩
    · exact .inr ⟨templates, htemplates, failure, h⟩
    · cases h
  · rintro (⟨failure, h⟩ | ⟨templates, htemplates, failure, h⟩)
    · exact ⟨failure, Stages.bind_eq_error.2 (.inl h)⟩
    · refine ⟨failure, Stages.bind_eq_error.2 (.inr ⟨templates, htemplates, ?_⟩)⟩
      exact Stages.bind_eq_error.2 (.inl h)

open scoped Classical in
/-- A plan has looked at all documents and selected those that need to be built, in their
order. There is a plan unless the templates cannot be loaded or a document is refused,
which does not depend on whether it needs to be built. -/
theorem make_exact (t : FileTree) (inventory : Inventory) (force : Bool) :
    (∀ plan, make t inventory force = .ok plan →
      (Templates.load t inventory.templates).2 = .ok plan.templates ∧
      plan.considered = inventory.docs.length ∧
      ∃ examined : List PlannedUnit, examined.length = inventory.docs.length ∧
        (∀ i doc, inventory.docs[i]? = some doc → ∃ u, examined[i]? = some u ∧
          Examined t plan.templates (inventory.docs.take i) inventory.built doc u) ∧
        plan.units = examined.filter fun u => decide (NeedsBuild t plan.templates force u)) ∧
    ((∃ failure, make t inventory force = .error failure) ↔
      (∃ failure, (Templates.load t inventory.templates).2 = .error failure) ∨
      ∃ templates, (Templates.load t inventory.templates).2 = .ok templates ∧
        ∃ i doc, inventory.docs[i]? = some doc ∧
          Refused t templates force (inventory.docs.take i) inventory.built doc) := by
  have hbuilt : strays inventory.built [] = inventory.built := strays_nil
  constructor
  · intro plan hplan
    obtain ⟨hload, hunits⟩ := of_make hplan
    rw [← hbuilt] at hunits
    obtain ⟨examined, hlength, hexamined, hselected⟩ := exists_examined_of_selectUnits hunits
    have hconsidered : plan.considered = inventory.docs.length := by
      obtain ⟨loaded, -, hplan⟩ := Stages.bind_eq_ok.1 hplan
      obtain ⟨units, -, hplan⟩ := Stages.bind_eq_ok.1 hplan
      cases hplan
      rfl
    exact ⟨hload, hconsidered, examined, hlength, hexamined, hselected⟩
  · rw [exists_make_eq_error_iff]
    apply or_congr Iff.rfl
    apply exists_congr
    intro templates
    rw [← hbuilt, exists_selectUnits_eq_error_iff, hbuilt]
    rfl

/-- Two documents of one path, the first up to date with the second of two outputs there, a
document that is newer than its output, and one whose template is. -/
def repeatedInventory : Inventory where
  docs := [⟨⟨"d0"⟩, ⟨"a.txt"⟩, none, some 5⟩, ⟨⟨"d1"⟩, ⟨"a.txt"⟩, none, some 5⟩,
    ⟨⟨"d2"⟩, ⟨"b.txt"⟩, none, some 5⟩,
    ⟨⟨"d3"⟩, ⟨"c.html"⟩, some "<--template --name=\"card\"></--template>", some 5⟩]
  templates := [⟨⟨"t0"⟩, ⟨"card.html"⟩, some "", some 7⟩]
  built := [⟨⟨"b0"⟩, ⟨"a.txt"⟩, none, some 4⟩, ⟨⟨"b1"⟩, ⟨"a.txt"⟩, none, some 5⟩,
    ⟨⟨"b2"⟩, ⟨"b.txt"⟩, none, some 4⟩, ⟨⟨"b3"⟩, ⟨"c.html"⟩, none, some 6⟩]

/-- The output of the first path belongs to the first document there, so the second has
none. The template is newer than the last output by the time that was read of it before,
though there is no such file. -/
theorem make_exact_repeated :
    ∃ plan, make .empty repeatedInventory false = .ok plan ∧
      plan.units.map (fun u => (u.source.path.text, u.existing.map (·.path.text))) =
        [("d1", none), ("d2", some "b2"), ("d3", some "b3")] ∧
      ∃ examined : List PlannedUnit, examined.length = 4 ∧
        (∀ u ∈ plan.units, u ∈ examined ∧ NeedsBuild .empty plan.templates false u) := by
  obtain ⟨plan, hplan, hcheck⟩ : ∃ plan, make .empty repeatedInventory false = .ok plan ∧
      decide (plan.units.map (fun u => (u.source.path.text, u.existing.map (·.path.text))) =
        [("d1", none), ("d2", some "b2"), ("d3", some "b3")]) = true :=
    Stages.exists_of_any (by decide +kernel)
  obtain ⟨-, -, examined, hlength, -, hunits⟩ :=
    (make_exact .empty repeatedInventory false).1 plan hplan
  refine ⟨plan, hplan, of_decide_eq_true hcheck, examined, hlength, ?_⟩
  classical
  intro u hu
  rw [hunits, List.mem_filter] at hu
  exact ⟨hu.1, of_decide_eq_true hu.2⟩

end Stencil.Plan
