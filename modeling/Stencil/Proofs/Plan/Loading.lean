import Mathlib.Data.List.Induction
import Mathlib.Data.List.Pairwise
import Stencil.Proofs.Path.Joined
import Stencil.Proofs.Plan.Library

/-!
# Two files of one template

Files that can be read keep loading from its end for one reason only: two of them are `Rivals`,
whose joined paths differ in the markup ending alone. Files that are no rivals have different
names (`nameOf_ne_of_notRivals`), so a list without rivals is loaded to its end
(`exists_loadFrom`). A list with rivals starts with a stretch that has none, followed by the
rival of a file in it (`exists_firstRival`), and those two are reported
(`FirstRival.load_eq`). Either way there is one warning for each other file that was met.
-/

namespace Stencil

/-- A name with the one markup ending is none with the other. -/
theorem append_markupEndings_ne (name : String) : name ++ ".html" ≠ name ++ ".htm" := fun h =>
  absurd ((String.append_right_inj name).1 h) (by decide)

namespace Templates

variable {t : FileTree} {files front rest : List Source} {sofar templates : Templates}
  {a b : Source} {name : String}

/-! ## Warnings -/

/-- Loading that puts its warnings behind those there are. -/
def loadOnto (t : FileTree) :
    (files : List Source) → (warnings : List Warning) → (sofar : Templates) →
      List Warning × Except PlanFailure Templates
  | [], warnings, sofar => (warnings, .ok sofar)
  | file :: files, warnings, sofar =>
    if file.isMarkup then
      match file.text t with
      | .error e => (warnings, .error (.ofRead e))
      | .ok content =>
        let template := Template.ofSource file content
        match sofar[template.name]? with
        | some first =>
          (warnings, .error (.duplicateTemplate template.name first.path template.path))
        | none => loadOnto t files warnings (sofar.insert template.name template)
    else loadOnto t files (warnings ++ [ignoredWarning file.rel]) sofar

/-- The warnings there are stay in front, and nothing else depends on them. -/
theorem loadOnto_eq (files : List Source) (warnings : List Warning) (sofar : Templates) :
    loadOnto t files warnings sofar =
      (warnings ++ (loadFrom t files sofar).1, (loadFrom t files sofar).2) := by
  induction files generalizing warnings sofar with
  | nil => simp [loadOnto, loadFrom]
  | cons file files ih =>
    rw [loadOnto, loadFrom]
    by_cases hmarkup : file.isMarkup = true
    · rw [if_pos hmarkup, if_pos hmarkup]
      cases file.text t with
      | error e => simp
      | ok content =>
        simp only
        cases sofar[(Template.ofSource file content).name]? with
        | some first => simp
        | none => exact ih ..
    · rw [if_neg hmarkup, if_neg hmarkup, ih]
      simp

/-- The warnings on the files that are not markup. -/
def ignored (files : List Source) : List Warning :=
  (files.filter fun file => !file.isMarkup).map fun file => ignoredWarning file.rel

/-! ## Rivals -/

/-- The joined paths of two files are the name with the one and the other markup ending. -/
def Rivals (name : String) (a b : Source) : Prop :=
  (a.rel.joined = name ++ ".html" ∧ b.rel.joined = name ++ ".htm") ∨
    (a.rel.joined = name ++ ".htm" ∧ b.rel.joined = name ++ ".html")

/-- Two of the files are rivals. -/
def Clashing (files : List Source) : Prop :=
  ∃ name, ∃ a ∈ files, ∃ b ∈ files,
    a.rel.joined = name ++ ".html" ∧ b.rel.joined = name ++ ".htm"

/-- The files are no rivals. -/
def NotRivals (a b : Source) : Prop := ∀ name, ¬ Rivals name a b

theorem NotRivals.symm (h : NotRivals a b) : NotRivals b a := fun name hrivals =>
  h name (hrivals.symm.imp And.symm And.symm)

theorem NotRivals.refl (a : Source) : NotRivals a a := by
  rintro name (⟨hone, hother⟩ | ⟨hother, hone⟩) <;>
    exact append_markupEndings_ne name (hone.symm.trans hother)

theorem clashing_iff : Clashing files ↔ ¬ files.Pairwise NotRivals := by
  have hsymm : Std.Symm NotRivals := ⟨fun _ _ => NotRivals.symm⟩
  constructor
  · rintro ⟨name, a, ha, b, hb, hrivals⟩ hpairwise
    exact hpairwise.forall_of_forall (fun file _ => NotRivals.refl file) ha hb name (.inl hrivals)
  · intro hpairwise
    by_contra hclash
    refine hpairwise (List.pairwise_of_forall_mem_list fun a ha b hb name hrivals => hclash ?_)
    rcases hrivals with ⟨hone, hother⟩ | ⟨hother, hone⟩
    · exact ⟨name, a, ha, b, hb, hone, hother⟩
    · exact ⟨name, b, hb, a, ha, hone, hother⟩

/-- The earliest file that has a rival before it, with that rival. -/
structure FirstRival (files : List Source) (name : String) (front : List Source)
    (first second : Source) : Prop where
  /-- The file follows those in `front`. -/
  next : front ++ [second] <+: files
  /-- Its rival is one of them. -/
  before : first ∈ front
  rivals : Rivals name first second
  /-- No two of them are rivals. -/
  apart : front.Pairwise NotRivals

theorem exists_firstRival (h : ¬ files.Pairwise NotRivals) :
    ∃ name front first second, FirstRival files name front first second := by
  induction files using List.reverseRecOn with
  | nil => exact absurd .nil h
  | append_singleton front second ih =>
    by_cases hfront : front.Pairwise NotRivals
    · -- the front has no rivals, so one of its files is the rival of the last
      have hlast : ¬ ∀ first ∈ front, NotRivals first second := fun hall =>
        h (List.pairwise_append.2 ⟨hfront, List.pairwise_singleton .., by simpa using hall⟩)
      simp only [NotRivals, not_forall, not_not] at hlast
      obtain ⟨first, hmem, name, hrivals⟩ := hlast
      exact ⟨name, front, first, second, List.prefix_rfl, hmem, hrivals, hfront⟩
    · obtain ⟨name, init, first, second', hfirst⟩ := ih hfront
      have hnext := hfirst.next.trans (List.prefix_append front [second])
      exact ⟨name, init, first, second', { hfirst with next := hnext }⟩

/-! ## Names -/

theorem isMarkup_iff (h : a.rel.Normal) :
    a.isMarkup = true ↔ ∃ name, ∃ ending ∈ markupEndings, a.rel.joined = name ++ ending := by
  rw [← h.ofPath_eq_markup_iff, Source.isMarkup, beq_iff_eq, Source.kind]

theorem nameOf_of_joined {ending : String} (hending : ending ∈ markupEndings)
    (h : a.rel.joined = name ++ ending) : Template.nameOf a.rel = name := by
  rw [Template.nameOf, h, dropMarkupEnding_append name hending]

/-- The joined path of a markup file is its name with an ending. -/
theorem exists_joined_eq (h : a.rel.Normal) (hmarkup : a.isMarkup = true) :
    ∃ ending ∈ markupEndings, a.rel.joined = Template.nameOf a.rel ++ ending := by
  obtain ⟨name, ending, hending, hjoined⟩ := (isMarkup_iff h).1 hmarkup
  exact ⟨ending, hending, by rw [nameOf_of_joined hending hjoined, hjoined]⟩

/-- Rivals are markup, and the name is that of both. -/
theorem Rivals.spec (h : Rivals name a b) (ha : a.rel.Normal) (hb : b.rel.Normal) :
    (a.isMarkup = true ∧ Template.nameOf a.rel = name) ∧
      (b.isMarkup = true ∧ Template.nameOf b.rel = name) := by
  have hspec : ∀ {file : Source} {ending : String}, file.rel.Normal → ending ∈ markupEndings →
      file.rel.joined = name ++ ending →
      file.isMarkup = true ∧ Template.nameOf file.rel = name :=
    fun hfile hending hjoined =>
      ⟨(isMarkup_iff hfile).2 ⟨name, _, hending, hjoined⟩, nameOf_of_joined hending hjoined⟩
  rcases h with ⟨hone, hother⟩ | ⟨hone, hother⟩
  · exact ⟨hspec ha (by simp [markupEndings]) hone, hspec hb (by simp [markupEndings]) hother⟩
  · exact ⟨hspec ha (by simp [markupEndings]) hone, hspec hb (by simp [markupEndings]) hother⟩

/-- Different markup files that are no rivals have different names. -/
theorem nameOf_ne_of_notRivals (hapart : NotRivals a b) (hdiff : ¬ a.rel.Same b.rel)
    (ha : a.rel.Normal) (hb : b.rel.Normal) (hmarkup : a.isMarkup = true)
    (hmarkup' : b.isMarkup = true) :
    Template.nameOf a.rel ≠ Template.nameOf b.rel := by
  intro hname
  obtain ⟨ending, hending, hjoined⟩ := exists_joined_eq ha hmarkup
  obtain ⟨ending', hending', hjoined'⟩ := exists_joined_eq hb hmarkup'
  rw [← hname] at hjoined'
  simp only [markupEndings, List.mem_cons, List.not_mem_nil, or_false] at hending hending'
  rcases hending with rfl | rfl <;> rcases hending' with rfl | rfl
  · exact hdiff (ha.same_of_joined_eq hb (hjoined.trans hjoined'.symm))
  · exact hapart _ (.inl ⟨hjoined, hjoined'⟩)
  · exact hapart _ (.inr ⟨hjoined, hjoined'⟩)
  · exact hdiff (ha.same_of_joined_eq hb (hjoined.trans hjoined'.symm))

/-! ## Loading -/

/-- Files that can be loaded are no obstacle to those after them. -/
theorem loadFrom_append {warnings : List Warning}
    (h : loadFrom t front sofar = (warnings, .ok templates)) :
    loadFrom t (front ++ rest) sofar =
      (warnings ++ (loadFrom t rest templates).1, (loadFrom t rest templates).2) := by
  induction front generalizing sofar warnings with
  | nil =>
    cases h
    rfl
  | cons file front ih =>
    rcases loadFrom_cons (congrArg Prod.snd h) with
      ⟨hasset, hrest⟩ | ⟨content, hmarkup, hread, hfree, hrest⟩
    · rw [loadFrom_asset hasset] at h
      obtain ⟨rfl, -⟩ := Prod.mk.inj h
      rw [List.cons_append, loadFrom_asset hasset, ih (Prod.ext rfl hrest)]
      rfl
    · rw [loadFrom_free hmarkup hread hfree] at h
      rw [List.cons_append, loadFrom_free hmarkup hread hfree, ih h]

/-- Files of different names are loaded to the end. -/
theorem exists_loadFrom {text : Source → String}
    (hread : ∀ file ∈ files, file.isMarkup = true → file.text t = .ok (text file))
    (hnames : files.Pairwise fun a b => a.isMarkup = true → b.isMarkup = true →
      Template.nameOf a.rel ≠ Template.nameOf b.rel)
    (hfree : ∀ file ∈ files, file.isMarkup = true → sofar[Template.nameOf file.rel]? = none) :
    ∃ templates, loadFrom t files sofar = (ignored files, .ok templates) := by
  induction files generalizing sofar with
  | nil => exact ⟨sofar, rfl⟩
  | cons file files ih =>
    obtain ⟨hhead, hnames⟩ := List.pairwise_cons.1 hnames
    have hread' := fun other hother => hread other (List.mem_cons_of_mem _ hother)
    have hfree' := fun other hother => hfree other (List.mem_cons_of_mem _ hother)
    by_cases hmarkup : file.isMarkup = true
    · have hinsert : ∀ other ∈ files, other.isMarkup = true →
          (sofar.insert (Template.nameOf file.rel) (Template.ofSource file
            (text file)))[Template.nameOf other.rel]? = none := by
        intro other hother hmarkup'
        rw [Std.ExtTreeMap.getElem?_insert, if_neg]
        · exact hfree' other hother hmarkup'
        · exact fun heq => hhead other hother hmarkup hmarkup' (Std.LawfulEqCmp.eq_of_compare heq)
      have hignored : ignored (file :: files) = ignored files := by simp [ignored, hmarkup]
      rw [loadFrom_free hmarkup (hread file List.mem_cons_self hmarkup)
        (hfree file List.mem_cons_self hmarkup), hignored]
      exact ih hread' hnames hinsert
    · have hasset : file.isMarkup = false := by simpa using hmarkup
      have hignored : ignored (file :: files) = ignoredWarning file.rel :: ignored files := by
        simp [ignored, hasset]
      obtain ⟨templates, hload⟩ := ih hread' hnames hfree'
      exact ⟨templates, by rw [loadFrom_asset hasset, hload, hignored]⟩

/-- What the library holds of the files: one template for each markup file. -/
def entries (text : Source → String) (files : List Source) : List (String × Template) :=
  (files.filter (·.isMarkup)).map fun file =>
    (Template.nameOf file.rel, Template.ofSource file (text file))

section Readable

variable {text : Source → String}
  (hread : ∀ file ∈ files, file.isMarkup = true → file.text t = .ok (text file))
  (hnormal : ∀ file ∈ files, file.rel.Normal)
  (hdiff : files.Pairwise fun a b => ¬ a.rel.Same b.rel)

include hnormal hdiff in
theorem pairwise_nameOf (hapart : files.Pairwise NotRivals) :
    files.Pairwise fun a b => a.isMarkup = true → b.isMarkup = true →
      Template.nameOf a.rel ≠ Template.nameOf b.rel :=
  (hapart.and hdiff).imp_of_mem fun ha hb hab =>
    nameOf_ne_of_notRivals hab.1 hab.2 (hnormal _ ha) (hnormal _ hb)

include hread hnormal hdiff in
/-- Files without rivals are loaded to the end. -/
theorem exists_load_of_notRivals (hapart : files.Pairwise NotRivals) :
    ∃ templates, load t files = (ignored files, .ok templates) :=
  exists_loadFrom hread (pairwise_nameOf hnormal hdiff hapart)
    fun _ _ _ => Std.ExtTreeMap.getElem?_empty

include hread in
/-- The library holds the markup files and nothing else, each once. -/
theorem toList_perm_of_load (h : (load t files).2 = .ok templates)
    (hnames : files.Pairwise fun a b => a.isMarkup = true → b.isMarkup = true →
      Template.nameOf a.rel ≠ Template.nameOf b.rel) :
    templates.toList.Perm (entries text files) := by
  have hkeys : templates.toList.Nodup := by
    refine templates.distinct_keys_toList.imp fun hab heq => hab ?_
    rw [heq]
    exact Std.ReflCmp.compare_self
  have hentries : (entries text files).Nodup :=
    List.pairwise_map.2 <| List.pairwise_filter.2 <| hnames.imp
      fun hab ha hb heq => hab ha hb (Prod.mk.inj heq).1
  rw [List.perm_ext_iff_of_nodup hkeys hentries]
  rintro ⟨name, template⟩
  rw [Std.ExtTreeMap.mem_toList_iff_getElem?_eq_some, entries, List.mem_map]
  constructor
  · intro hname
    obtain ⟨file, hfile, content, hmarkup, htext, rfl, rfl⟩ := exists_of_getElem?_load h hname
    rw [hread file hfile hmarkup] at htext
    cases htext
    exact ⟨file, List.mem_filter.2 ⟨hfile, hmarkup⟩, rfl⟩
  · rintro ⟨file, hmem, heq⟩
    obtain ⟨rfl, rfl⟩ := Prod.mk.inj heq
    obtain ⟨hfile, hmarkup⟩ := List.mem_filter.1 hmem
    obtain ⟨content, htext, hname⟩ := of_mem_load h hfile hmarkup
    rw [hread file hfile hmarkup] at htext
    cases htext
    exact hname

include hread hnormal hdiff in
/-- Loading ends at the first file that has a rival before it. -/
theorem FirstRival.load_eq {first second : Source}
    (h : FirstRival files name front first second) :
    load t files =
      (ignored front, .error (.duplicateTemplate name first.path second.path)) := by
  obtain ⟨⟨rest, rfl⟩, hbefore, hrivals, hapart⟩ := h
  have hfront : ∀ file ∈ front, file ∈ front ++ [second] ++ rest := fun file hfile => by
    simp [hfile]
  have hsecond : second ∈ front ++ [second] ++ rest := by simp
  rw [List.append_assoc, List.pairwise_append] at hdiff
  obtain ⟨⟨hmarkup, hname⟩, hmarkup', hname'⟩ :=
    hrivals.spec (hnormal _ (hfront _ hbefore)) (hnormal _ hsecond)
  obtain ⟨templates, hload⟩ := exists_load_of_notRivals
    (fun file hfile => hread file (hfront file hfile))
    (fun file hfile => hnormal file (hfront file hfile)) hdiff.1 hapart
  obtain ⟨content, -, hfirst⟩ := of_mem_load (congrArg Prod.snd hload) hbefore hmarkup
  rw [hname, ← hname'] at hfirst
  rw [List.append_assoc, List.singleton_append, load, loadFrom_append hload,
    loadFrom_taken hmarkup' (hread second hsecond hmarkup') hfirst, List.append_nil, hname']
  rfl

/-- **Loading loses nothing**: with files that can be read, at different paths made of names,
loading fails exactly when two of them are rivals, and then reports the first that has a rival
before it, with that rival. Otherwise the library holds every markup file once, by its joined
path without the one ending. The warnings are on the other files that were met, in order, after
those there were before. -/
theorem load_exact {files : List Source} {text : Source → String}
    (hread : ∀ file ∈ files, file.isMarkup = true → file.text t = .ok (text file))
    (hnormal : ∀ file ∈ files, file.rel.Normal)
    (hdiff : files.Pairwise fun a b => ¬ a.rel.Same b.rel) :
    ((∃ name first second,
        (load t files).2 = .error (.duplicateTemplate name first second)) ↔ Clashing files) ∧
    (Clashing files → ∃ name front first second, FirstRival files name front first second ∧
      load t files =
        (ignored front, .error (.duplicateTemplate name first.path second.path))) ∧
    (¬ Clashing files → ∃ templates, load t files = (ignored files, .ok templates) ∧
      templates.toList.Perm (entries text files)) ∧
    (∀ file ∈ files, file.isMarkup = true →
      ∃ ending ∈ markupEndings, file.rel.joined = Template.nameOf file.rel ++ ending) ∧
    ∀ before : List Warning,
      loadOnto t files before ∅ = (before ++ (load t files).1, (load t files).2) := by
  have hclash : Clashing files → ∃ name front first second,
      FirstRival files name front first second ∧ load t files =
        (ignored front, .error (.duplicateTemplate name first.path second.path)) := by
    intro hclash
    obtain ⟨name, front, first, second, hfirst⟩ := exists_firstRival (clashing_iff.1 hclash)
    exact ⟨name, front, first, second, hfirst, hfirst.load_eq hread hnormal hdiff⟩
  have hloads : ¬ Clashing files → ∃ templates, load t files = (ignored files, .ok templates) ∧
      templates.toList.Perm (entries text files) := by
    intro hclash
    rw [clashing_iff, not_not] at hclash
    obtain ⟨templates, hload⟩ := exists_load_of_notRivals hread hnormal hdiff hclash
    exact ⟨templates, hload, toList_perm_of_load hread (congrArg Prod.snd hload)
      (pairwise_nameOf hnormal hdiff hclash)⟩
  refine ⟨⟨?_, fun h => ?_⟩, hclash, hloads,
    fun file hfile => exists_joined_eq (hnormal file hfile),
    fun before => loadOnto_eq files before ∅⟩
  · rintro ⟨name, first, second, hfails⟩
    by_contra hnone
    obtain ⟨templates, hload, -⟩ := hloads hnone
    rw [hload] at hfails
    cases hfails
  · obtain ⟨name, front, first, second, -, hload⟩ := hclash h
    exact ⟨name, first.path, second.path, congrArg Prod.snd hload⟩

end Readable

/-- Two files of the template `card`, with one between them that is no template. -/
def cardFiles : List Source :=
  [⟨⟨"t/card.html"⟩, ⟨"card.html"⟩, some "A", none⟩, ⟨⟨"t/card.css"⟩, ⟨"card.css"⟩, none, none⟩,
    ⟨⟨"t/card.htm"⟩, ⟨"card.htm"⟩, some "B", none⟩]

/-- The two files of one template are reported, after the warning on the one between them. -/
theorem load_exact_card :
    ((∀ file ∈ cardFiles, file.isMarkup = true →
        file.text FileTree.empty = .ok (file.text?.getD "")) ∧
      (∀ file ∈ cardFiles, file.rel.Normal) ∧
      (cardFiles.Pairwise fun a b => ¬ a.rel.Same b.rel) ∧ Clashing cardFiles) ∧
    (∃ name front first second, FirstRival cardFiles name front first second ∧
      load FileTree.empty cardFiles =
        (ignored front, .error (.duplicateTemplate name first.path second.path))) ∧
    load FileTree.empty cardFiles = ([ignoredWarning ⟨"card.css"⟩],
      .error (.duplicateTemplate "card" ⟨"t/card.html"⟩ ⟨"t/card.htm"⟩)) := by
  have hread : ∀ file ∈ cardFiles, file.isMarkup = true →
      file.text FileTree.empty = .ok (file.text?.getD "") := by decide
  have hcomponents : cardFiles.map (fun file => file.rel.components) =
      [[.name "card.html"], [.name "card.css"], [.name "card.htm"]] := by decide
  have hnormal : ∀ file ∈ cardFiles, file.rel.Normal := by
    intro file hfile c hc
    have hmem : file.rel.components ∈ cardFiles.map (fun file => file.rel.components) :=
      List.mem_map_of_mem hfile
    rw [hcomponents] at hmem
    simp only [List.mem_cons, List.not_mem_nil, or_false] at hmem
    rcases hmem with h | h | h <;> rw [h, List.mem_singleton] at hc <;> exact ⟨_, hc⟩
  have hdiff : cardFiles.Pairwise fun a b => ¬ a.rel.Same b.rel := by decide
  have hclash : Clashing cardFiles :=
    ⟨"card", _, List.mem_cons_self, _, List.mem_of_mem_getLast? rfl, by decide, by decide⟩
  obtain ⟨-, hfails, -⟩ := load_exact hread hnormal hdiff
  exact ⟨⟨hread, hnormal, hdiff, hclash⟩, hfails hclash, rfl⟩

end Templates

end Stencil
