import Stencil.Proofs.Build.Saved
import Stencil.Proofs.FileTree.Store
import Stencil.Settings

/-!
# What a run does to its sources

A run keeps the files below the document root and the template root exactly when nothing
it saves goes to such a file with other bytes (`sourcesKept_build_iff`). Roots that lie
apart are enough for that (`sourcesKept_of_apart`); roots that are merely written
differently are not.
-/

namespace Stencil

/-- The place is the document root, the template root, or below one of them. -/
def IsSource (options : BuildOptions) (home : Place) (place : Place) : Prop :=
  options.docs.place home <+: place ∨ options.templates.place home <+: place

/-- Every source file is still there with the same content. -/
def SourcesKept (options : BuildOptions) (home : Place) (files files' : Files) : Prop :=
  ∀ place content time, IsSource options home place → files place = some (content, time) →
    ∃ time', files' place = some (content, time')

/-- The output goes to a source file that has other bytes. -/
def Overwrites (options : BuildOptions) (home : Place) (files : Files)
    (p : PlannedUnit × Output) : Prop :=
  ∃ content time, IsSource options home (p.1.targetPlace options.output home) ∧
    files (p.1.targetPlace options.output home) = some (content, time) ∧
    p.1.savedBytes p.2 options.output home files ≠ some content

variable {options : BuildOptions} {home : Place} {files files' : Files} {time : Int}
  {p : PlannedUnit × Output} {ps : List (PlannedUnit × Output)}

theorem SourcesKept.refl (files : Files) : SourcesKept options home files files :=
  fun _ _ time _ h => ⟨time, h⟩

/-- The document of the pair is a source file. -/
def FromSource (options : BuildOptions) (home : Place) (files : Files)
    (p : PlannedUnit × Output) : Prop :=
  IsSource options home (p.1.sourcePlace home) ∧ (files (p.1.sourcePlace home)).isSome

/-- As long as the sources are kept, the same bytes are saved. -/
theorem SourcesKept.savedBytes_eq (h : SourcesKept options home files files')
    (hp : FromSource options home files p) :
    p.1.savedBytes p.2 options.output home files' =
      p.1.savedBytes p.2 options.output home files := by
  obtain ⟨u, output⟩ := p
  cases output with
  | text content => rfl
  | copy =>
    obtain ⟨hsource, hfile⟩ := hp
    obtain ⟨⟨content, time⟩, hsome⟩ := Option.isSome_iff_exists.1 hfile
    obtain ⟨time', hsome'⟩ := h _ _ _ hsource hsome
    simp only at hsome hsome'
    simp only [PlannedUnit.savedBytes, hsome, hsome', Option.map_some]

/-- Saving a document keeps the sources exactly when its output overwrites none. -/
theorem SourcesKept.saveFiles_iff (h : SourcesKept options home files files')
    (hp : FromSource options home files p) (time : Int) :
    SourcesKept options home files (PlannedUnit.saveFiles options.output home time files' p) ↔
      ¬ Overwrites options home files p := by
  constructor
  · rintro hkept ⟨content, old, hsource, hfile, hbytes⟩
    obtain ⟨time', hsaved⟩ := hkept _ _ _ hsource hfile
    rw [PlannedUnit.saveFiles, if_pos rfl, h.savedBytes_eq hp] at hsaved
    obtain ⟨content', hcontent, heq⟩ := Option.map_eq_some_iff.1 hsaved
    cases heq
    exact hbytes hcontent
  · intro hover place content old hsource hfile
    by_cases htarget : p.1.targetPlace options.output home = place
    · subst htarget
      have hbytes : p.1.savedBytes p.2 options.output home files = some content := by
        by_contra hne
        exact hover ⟨content, old, hsource, hfile, hne⟩
      refine ⟨time, ?_⟩
      rw [PlannedUnit.saveFiles, if_pos rfl, h.savedBytes_eq hp, hbytes]
      rfl
    · rw [PlannedUnit.saveFiles, if_neg htarget]
      exact h _ _ _ hsource hfile

theorem foldl_saveFiles_of_ne {root : Path} {place : Place}
    (h : ∀ p ∈ ps, p.1.targetPlace root home ≠ place) :
    ps.foldl (PlannedUnit.saveFiles root home time) files place = files place := by
  induction ps generalizing files with
  | nil => rfl
  | cons p ps ih =>
    rw [List.foldl_cons, ih fun q hq => h q (List.mem_cons_of_mem _ hq), PlannedUnit.saveFiles,
      if_neg (h p List.mem_cons_self)]

/-- Saving documents one after the other keeps the sources exactly when none of the outputs
overwrites one. -/
theorem SourcesKept.foldl_saveFiles_iff (h : SourcesKept options home files files')
    (hps : ∀ p ∈ ps, FromSource options home files p)
    (hne : ps.Pairwise fun p q =>
      p.1.targetPlace options.output home ≠ q.1.targetPlace options.output home) :
    SourcesKept options home files
        (ps.foldl (PlannedUnit.saveFiles options.output home time) files') ↔
      ∀ p ∈ ps, ¬ Overwrites options home files p := by
  induction ps generalizing files' with
  | nil => simpa using h
  | cons p ps ih =>
    obtain ⟨hfirst, hne⟩ := List.pairwise_cons.1 hne
    have hp := hps p List.mem_cons_self
    have hrest := fun q hq => hps q (List.mem_cons_of_mem p hq)
    have hstep := h.saveFiles_iff hp time
    rw [List.foldl_cons, List.forall_mem_cons, ← hstep]
    constructor
    · intro hkept
      -- no later output goes to the place of this one
      have hnow : SourcesKept options home files
          (PlannedUnit.saveFiles options.output home time files' p) := by
        intro place content old hsource hfile
        by_cases htarget : p.1.targetPlace options.output home = place
        · subst htarget
          obtain ⟨time', hlater⟩ := hkept _ _ _ hsource hfile
          rw [foldl_saveFiles_of_ne fun q hq => (hfirst q hq).symm] at hlater
          exact ⟨time', hlater⟩
        · rw [PlannedUnit.saveFiles, if_neg htarget]
          exact h _ _ _ hsource hfile
      exact ⟨hnow, (ih hnow hrest hne).1 hkept⟩
    · rintro ⟨hnow, hover⟩
      exact (ih hnow hrest hne).2 hover

variable {t : FileTree}

theorem fromSource_of_mem_savedOutputs (ht : t.LinkFree) (hp : p ∈ savedOutputs t options time) :
    FromSource options t.home t.file? p := by
  obtain ⟨plan, -, hplan, hu, -⟩ := of_mem_savedOutputs hp
  obtain ⟨names, hat⟩ := exists_consideredAt_of_mem_units ht hplan hu
  rw [FromSource, hat.sourcePlace ht]
  exact ⟨.inl (List.prefix_append ..), hat.file⟩

/-- A run keeps its sources exactly when nothing that it saves overwrites one. -/
theorem sourcesKept_build_iff (ht : t.LinkFree) (options : BuildOptions) (time : Int) :
    SourcesKept options t.home t.file? (build t options time).tree.file? ↔
      ∀ p ∈ savedOutputs t options time, ¬ Overwrites options t.home t.file? p := by
  rw [files_build ht]
  exact (SourcesKept.refl _).foldl_saveFiles_iff
    (fun p hp => fromSource_of_mem_savedOutputs ht hp) (pairwise_targetPlace ht)

/-! ## Roots that lie apart -/

/-- Neither place is the other or lies below it. -/
def Apart (a b : Place) : Prop := ¬ a <+: b ∧ ¬ b <+: a

instance (a b : Place) : Decidable (Apart a b) := inferInstanceAs (Decidable (_ ∧ _))

theorem Apart.not_prefix_append {a b : Place} (h : Apart a b) (names : List String) :
    ¬ a <+: b ++ names := by
  intro ha
  rcases List.prefix_or_prefix_of_prefix ha (List.prefix_append b names) with hab | hba
  · exact h.1 hab
  · exact h.2 hba

/-- Below an output root that lies apart from the other two there is no source. -/
theorem ne_of_isSource {place : Place}
    (hdocs : Apart (options.docs.place home) (options.output.place home))
    (htemplates : Apart (options.templates.place home) (options.output.place home))
    (hsource : IsSource options home place) (names : List String) :
    options.output.place home ++ names ≠ place := by
  rintro rfl
  rcases hsource with h | h
  · exact hdocs.not_prefix_append names h
  · exact htemplates.not_prefix_append names h

/-- An output root that lies apart from the other two receives nothing that is a source. -/
theorem not_isSource_target (ht : t.LinkFree)
    (hdocs : Apart (options.docs.place t.home) (options.output.place t.home))
    (htemplates : Apart (options.templates.place t.home) (options.output.place t.home))
    (hp : p ∈ savedOutputs t options time) :
    ¬ IsSource options t.home (p.1.targetPlace options.output t.home) := by
  obtain ⟨plan, -, hplan, hu, -⟩ := of_mem_savedOutputs hp
  obtain ⟨names, hat⟩ := exists_consideredAt_of_mem_units ht hplan hu
  rw [hat.target]
  intro hsource
  exact ne_of_isSource hdocs htemplates hsource names rfl

theorem target_ne_of_isSource (ht : t.LinkFree)
    (hdocs : Apart (options.docs.place t.home) (options.output.place t.home))
    (htemplates : Apart (options.templates.place t.home) (options.output.place t.home))
    {place : Place} (hsource : IsSource options t.home place) :
    ∀ p ∈ savedOutputs t options time, p.1.targetPlace options.output t.home ≠ place := by
  rintro p hp rfl
  exact not_isSource_target ht hdocs htemplates hp hsource

/-- A run whose output root lies apart from the other two keeps its sources. -/
theorem sourcesKept_of_apart (ht : t.LinkFree)
    (hdocs : Apart (options.docs.place t.home) (options.output.place t.home))
    (htemplates : Apart (options.templates.place t.home) (options.output.place t.home)) :
    SourcesKept options t.home t.file? (build t options time).tree.file? := by
  intro place content old hsource hfile
  refine ⟨old, ?_⟩
  rw [files_build ht, foldl_saveFiles_of_ne (target_ne_of_isSource ht hdocs htemplates hsource)]
  exact hfile

def onePage : FileTree := FileTree.empty.store ⟨"docs/a.txt"⟩ "x".toUTF8 1

theorem linkFree_onePage : onePage.LinkFree :=
  FileTree.linkFree_store FileTree.linkFree_empty _ _ _

/-- A run into a directory of its own keeps the page. -/
theorem sourcesKept_onePage :
    let options : BuildOptions := ⟨⟨"docs"⟩, ⟨"templates"⟩, ⟨"./site"⟩, 1, false, true⟩
    onePage.LinkFree ∧ (build onePage options 5).outcome.saved = 1 ∧
      SourcesKept options onePage.home onePage.file? (build onePage options 5).tree.file? := by
  intro options
  have hfree := linkFree_onePage
  refine ⟨hfree, by decide +kernel, (sourcesKept_build_iff hfree options 5).2 ?_⟩
  rintro p hp ⟨content, time, hsource, -⟩
  exact not_isSource_target hfree (by decide +kernel) (by decide +kernel) hp hsource

/-- Roots that pass the check because they are written differently can be one directory, and
then a run empties what it copies. -/
theorem not_sourcesKept_sameRoot :
    let settings : Settings := ⟨⟨"docs"⟩, ⟨"templates"⟩, ⟨"./docs"⟩, 10000, none⟩
    let options : BuildOptions :=
      ⟨settings.docs, settings.templates, settings.output, settings.maxExpansions, false, true⟩
    settings.check = .ok settings ∧ onePage.LinkFree ∧
      ¬ SourcesKept options onePage.home onePage.file? (build onePage options 5).tree.file? := by
  intro settings options
  refine ⟨by decide +kernel, linkFree_onePage, ?_⟩
  intro hkept
  have hbefore : onePage.file? ["docs", "a.txt"] = some ("x".toUTF8, 1) := by decide +kernel
  have hafter : (build onePage options 5).tree.file? ["docs", "a.txt"] =
      some (ByteArray.empty, 5) := by decide +kernel
  have hsource : IsSource options onePage.home ["docs", "a.txt"] := .inl (by decide +kernel)
  obtain ⟨time, hfile⟩ := hkept _ _ _ hsource hbefore
  rw [hafter] at hfile
  have hcontent : ByteArray.empty = "x".toUTF8 := (Prod.mk.inj (Option.some.inj hfile)).1
  exact absurd hcontent (by decide +kernel)

end Stencil
