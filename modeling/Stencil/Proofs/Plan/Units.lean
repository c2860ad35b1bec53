import Stencil.Plan
import Stencil.Proofs.Expansion.Consulted
import Stencil.Proofs.FileTree.Store

/-!
# The units of a plan

Every unit of a plan comes from a document of the inventory, and the templates it names
are those the planner found in the text of the document. `expand_restricted_iff` says when
they are all that the expansion of the unit asks for.
-/

namespace Stencil.Plan

variable {t : FileTree} {templates : Templates} {doc source : Source}
  {names : Std.ExtTreeSet String}

/-- What the planner has found out about a markup document: its text is read, its usages
are well-formed, and their templates exist. -/
theorem templatesUsed_markup (h : templatesUsed t templates doc = .ok (source, names))
    (hdoc : doc.isMarkup = true) :
    ∃ text, doc.text t = .ok text ∧ source = { doc with text? := some text } ∧
      templateNames text = .ok names ∧ ∀ name ∈ names, name ∈ templates := by
  rw [templatesUsed, hdoc] at h
  obtain ⟨text, htext, h⟩ := Stages.bind_eq_ok.1 h
  obtain ⟨found, hnames, h⟩ := Stages.bind_eq_ok.1 h
  rw [Stages.mapError_eq_ok] at htext hnames
  split at h
  · cases h
  · next hnone =>
    cases h
    refine ⟨text, htext, rfl, hnames, ?_⟩
    intro name hname
    have hlist := List.find?_eq_none.1 hnone name (Std.ExtTreeSet.mem_toList.2 hname)
    simpa using hlist

theorem templatesUsed_asset (h : templatesUsed t templates doc = .ok (source, names))
    (hdoc : doc.isMarkup = false) : source = doc ∧ names = ∅ := by
  rw [templatesUsed, hdoc] at h
  cases h
  exact ⟨rfl, rfl⟩

theorem path_of_templatesUsed (h : templatesUsed t templates doc = .ok (source, names)) :
    source.path = doc.path ∧ source.rel = doc.rel := by
  cases hdoc : doc.isMarkup with
  | true =>
    obtain ⟨text, -, rfl, -⟩ := templatesUsed_markup h hdoc
    exact ⟨rfl, rfl⟩
  | false =>
    obtain ⟨rfl, -⟩ := templatesUsed_asset h hdoc
    exact ⟨rfl, rfl⟩

theorem time_of_templatesUsed (h : templatesUsed t templates doc = .ok (source, names)) :
    source.time t = doc.time t := by
  cases hdoc : doc.isMarkup with
  | true =>
    obtain ⟨text, -, rfl, -⟩ := templatesUsed_markup h hdoc
    rfl
  | false =>
    obtain ⟨rfl, -⟩ := templatesUsed_asset h hdoc
    rfl

/-- What a document comes to when the outputs `left` are not taken yet. -/
structure Considers (t : FileTree) (templates : Templates) (left : List Source) (doc : Source)
    (u : PlannedUnit) : Prop where
  used : templatesUsed t templates doc = .ok (u.source, u.templates)
  existing : u.existing = (claimOutput doc.rel left).1

variable {force : Bool} {docs built : List Source} {units : List PlannedUnit}

/-- The first document is considered, is a unit if it has to be built, and leaves the
other outputs to the rest. -/
theorem selectUnits_cons (h : selectUnits t templates force (doc :: docs) built = .ok units) :
    ∃ u required rest, Considers t templates built doc u ∧
      isRequired t templates force u = .ok required ∧
      selectUnits t templates force docs (claimOutput doc.rel built).2 = .ok rest ∧
      units = if required then u :: rest else rest := by
  obtain ⟨used, hused, h⟩ := Stages.bind_eq_ok.1 h
  obtain ⟨required, hrequired, h⟩ := Stages.bind_eq_ok.1 h
  obtain ⟨rest, hrest, h⟩ := Stages.bind_eq_ok.1 h
  rw [Stages.mapError_eq_ok] at hrequired
  exact ⟨_, required, rest, ⟨hused, rfl⟩, hrequired, hrest, (Stages.pure_eq_ok.1 h).symm⟩

/-- Every unit is a document that has to be built. -/
theorem exists_of_mem_selectUnits (h : selectUnits t templates force docs built = .ok units)
    {u : PlannedUnit} (hu : u ∈ units) :
    ∃ doc ∈ docs, ∃ left, Considers t templates left doc u ∧
      isRequired t templates force u = .ok true := by
  induction docs generalizing built units with
  | nil =>
    cases h
    cases hu
  | cons doc docs ih =>
    obtain ⟨v, required, rest, hv, hrequired, hrest, rfl⟩ := selectUnits_cons h
    have hlater : u ∈ rest → ∃ doc' ∈ doc :: docs, ∃ left, Considers t templates left doc' u ∧
        isRequired t templates force u = .ok true := by
      intro hmem
      obtain ⟨doc', hdoc', hconsiders⟩ := ih hrest hmem
      exact ⟨doc', List.mem_cons_of_mem _ hdoc', hconsiders⟩
    cases required with
    | false => exact hlater hu
    | true =>
      rcases List.mem_cons.1 hu with rfl | hu
      · exact ⟨doc, List.mem_cons_self, built, hv, hrequired⟩
      · exact hlater hu

/-- The units follow the order of their documents. -/
theorem sublist_of_selectUnits (h : selectUnits t templates force docs built = .ok units) :
    (units.map fun u => u.source.rel).Sublist (docs.map Source.rel) := by
  induction docs generalizing built units with
  | nil =>
    cases h
    exact .slnil
  | cons doc docs ih =>
    obtain ⟨u, required, rest, hu, -, hrest, rfl⟩ := selectUnits_cons h
    have hrel := (path_of_templatesUsed hu.used).2
    cases required with
    | false => exact (ih hrest).cons _
    | true =>
      rw [if_pos rfl, List.map_cons, List.map_cons, hrel]
      exact (ih hrest).cons_cons _

variable {inventory : Inventory} {plan : Plan}

/-- A plan is made of the templates that were loaded and the units that were selected. -/
theorem of_make (h : make t inventory force = .ok plan) :
    (Templates.load t inventory.templates).2 = .ok plan.templates ∧
    selectUnits t plan.templates force inventory.docs inventory.built = .ok plan.units := by
  obtain ⟨loaded, hloaded, h⟩ := Stages.bind_eq_ok.1 h
  obtain ⟨units, hunits, h⟩ := Stages.bind_eq_ok.1 h
  cases h
  exact ⟨hloaded, hunits⟩

/-- A unit that needs expansion expands with the templates it names as with all of them,
and without a name missing, exactly when these are all that its expansion asks for. -/
theorem expand_restricted_iff (h : make t inventory force = .ok plan) {u : PlannedUnit}
    (hu : u ∈ plan.units) (hexpand : u.needsExpansion = true) :
    ∃ text, u.source.text t = .ok text ∧ templateNames text = .ok u.templates ∧
      ∀ limit,
        (expand plan.templates limit text =
            expand (plan.templates.restrict u.templates) limit text ∧
          ∀ name, expand plan.templates limit text ≠ .error (.unknownTemplate name)) ↔
        ∀ name ∈ consultedNames plan.templates limit text, name ∈ u.templates := by
  obtain ⟨-, hunits⟩ := of_make h
  obtain ⟨doc, -, left, hconsiders, -⟩ := exists_of_mem_selectUnits hunits hu
  obtain ⟨-, hrel⟩ := path_of_templatesUsed hconsiders.used
  have hmarkup : doc.isMarkup = true := by
    have hsource : u.source.isMarkup = true := (Bool.and_eq_true_iff.1 hexpand).1
    rw [Source.isMarkup, Source.kind, hrel] at hsource
    exact hsource
  obtain ⟨text, -, hsource, hnames, hknown⟩ := templatesUsed_markup hconsiders.used hmarkup
  refine ⟨text, ?_, hnames, fun limit => expand_restrict_iff hknown⟩
  rw [hsource]
  rfl

/-- A page that uses a template whose text is that of the second template given. -/
def siteWith (a b : String) : FileTree :=
  ((FileTree.empty.store ⟨"docs/index.html"⟩ "<--template --name=\"a\"></--template>".toUTF8 1).store
    ⟨"templates/a.html"⟩ a.toUTF8 1).store ⟨"templates/b.html"⟩ b.toUTF8 1

/-- The files of such a site. -/
def siteInventory : Inventory where
  docs := [⟨⟨"docs/index.html"⟩, ⟨"index.html"⟩, none, none⟩]
  templates := [⟨⟨"templates/a.html"⟩, ⟨"a.html"⟩, none, none⟩,
    ⟨⟨"templates/b.html"⟩, ⟨"b.html"⟩, none, none⟩]
  built := []

/-- Where no template uses another the templates of a unit are all it needs. -/
theorem expand_restricted_plain :
    ∃ plan u text, make (siteWith "A" "B") siteInventory false = .ok plan ∧ u ∈ plan.units ∧
      u.needsExpansion = true ∧ u.source.text (siteWith "A" "B") = .ok text ∧
      expand plan.templates 1 text = expand (plan.templates.restrict u.templates) 1 text := by
  obtain ⟨plan, hplan, hcheck⟩ : ∃ plan, make (siteWith "A" "B") siteInventory false = .ok plan ∧
      (plan.units.any fun u => u.needsExpansion &&
        (u.source.text (siteWith "A" "B")).toOption.any fun text =>
          decide (∀ name ∈ consultedNames plan.templates 1 text, name ∈ u.templates)) = true :=
    Stages.exists_of_any (by decide +kernel)
  obtain ⟨u, hu, hcheck⟩ := List.any_eq_true.1 hcheck
  obtain ⟨hexpand, hcheck⟩ := Bool.and_eq_true_iff.1 hcheck
  obtain ⟨text, htext, hall⟩ := Stages.exists_of_any hcheck
  obtain ⟨text', htext', -, hiff⟩ := expand_restricted_iff hplan hu hexpand
  obtain rfl : text = text' := Except.ok.inj (htext.symm.trans htext')
  exact ⟨plan, u, text, hplan, hu, hexpand, htext, ((hiff 1).2 (of_decide_eq_true hall)).1⟩

/-- A usage in the text of a template is expanded, though the planner does not see it. -/
theorem exists_unwatched_template :
    ∃ inventory plan u text,
      Inventory.scan (siteWith "<--template --name=\"b\"></--template>" "B")
        ⟨"docs"⟩ ⟨"templates"⟩ ⟨"site"⟩ = .ok inventory ∧
      make (siteWith "<--template --name=\"b\"></--template>" "B") inventory false = .ok plan ∧
      u ∈ plan.units ∧ u.needsExpansion = true ∧
      u.source.text (siteWith "<--template --name=\"b\"></--template>" "B") = .ok text ∧
      expand plan.templates 10000 text = .ok ⟨"B", [], 2⟩ ∧
      expand (plan.templates.restrict u.templates) 10000 text = .error (.unknownTemplate "b") := by
  let site := siteWith "<--template --name=\"b\"></--template>" "B"
  obtain ⟨inventory, hscan, hcheck⟩ : ∃ inventory,
      Inventory.scan site ⟨"docs"⟩ ⟨"templates"⟩ ⟨"site"⟩ = .ok inventory ∧
      ((make site inventory false).toOption.any fun plan => plan.units.any fun u =>
        u.needsExpansion && (u.source.text site).toOption.any fun text =>
          decide (expand plan.templates 10000 text = .ok ⟨"B", [], 2⟩ ∧
            expand (plan.templates.restrict u.templates) 10000 text =
              .error (.unknownTemplate "b"))) = true :=
    Stages.exists_of_any (by decide +kernel)
  obtain ⟨plan, hplan, hcheck⟩ := Stages.exists_of_any hcheck
  obtain ⟨u, hu, hcheck⟩ := List.any_eq_true.1 hcheck
  obtain ⟨hexpand, hcheck⟩ := Bool.and_eq_true_iff.1 hcheck
  obtain ⟨text, htext, hresults⟩ := Stages.exists_of_any hcheck
  obtain ⟨hfull, hrestricted⟩ := of_decide_eq_true hresults
  exact ⟨inventory, plan, u, text, hscan, hplan, hu, hexpand, htext, hfull, hrestricted⟩

end Stencil.Plan
