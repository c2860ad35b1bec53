import Stencil.Proofs.Build.Content
import Stencil.Proofs.Build.Snapshot
import Stencil.Proofs.Expansion.Unmarked

/-!
# Copies in place of expansions

Whether a page is copied or expanded is decided by the names found in it, not by its text.
`copying_exact` says that this comes to the same: pages without marks are copied, and expanding
them would give their text back, so that every page comes to what its expansion gives. A copy reads
the file once more, though. The file written for a page holds its expansion exactly when the file
of the page still has the text that was planned and is not the one that is written
(`PlannedUnit.CopiesText`); a page copied onto itself is emptied, where an expanded one is not.
A run into a directory apart from the sources always saves the expansion (`saved_expansion`).
-/

namespace Stencil

/-! ## Writing one file -/

theorem fromUTF8?_eq_some_iff {bytes : ByteArray} {text : String} :
    String.fromUTF8? bytes = some text ↔ bytes = text.toUTF8 := by
  constructor
  · intro h
    unfold String.fromUTF8? at h
    split at h
    · cases h
      rfl
    · cases h
  · rintro rfl
    rw [String.fromUTF8?, String.toUTF8_eq_toByteArray, dif_pos text.isValidUTF8]
    rfl

namespace FileTree

variable {t u : FileTree} {p source : Path} {content : ByteArray} {text : String} {time : Int}

theorem readText_eq_ok_iff : t.readText p = .ok text ↔ t.readBytes p = .ok text.toUTF8 := by
  rw [readText, Stages.bind_eq_ok]
  constructor
  · rintro ⟨bytes, hbytes, htext⟩
    cases hchars : String.fromUTF8? bytes with
    | none => simp [hchars] at htext
    | some chars =>
      rw [hchars] at htext
      cases htext
      rw [hbytes, fromUTF8?_eq_some_iff.1 hchars]
  · intro hbytes
    refine ⟨_, hbytes, ?_⟩
    rw [fromUTF8?_eq_some_iff.2 rfl]
    rfl

theorem file?_of_writeFile (h : t.writeFile p content time = .ok u) :
    ∃ place, t.locateNew p = .ok place ∧ u.file? place = some (content, time) := by
  obtain ⟨place, hadmits, hplace, rfl⟩ := exists_put_of_writeFile h
  refine ⟨place, hplace, ?_⟩
  rw [(stores_put hadmits).files, if_pos rfl]

/-- A copy has the bytes of its source, or none when the two are one file. -/
theorem file?_of_copyFile (h : t.copyFile source p time = .ok u) :
    ∃ origin place content, t.locate source = .ok origin ∧ t.locateNew p = .ok place ∧
      t.readBytes source = .ok content ∧
      u.file? place = some (if origin = place then ByteArray.empty else content, time) := by
  obtain ⟨origin, place, content, old, hadmits, horigin, hfile, hplace, rfl⟩ :=
    exists_put_of_copyFile h
  have hread : t.readBytes source = .ok content :=
    readBytes_eq_ok_iff.2 ⟨origin, old, horigin, hfile⟩
  refine ⟨origin, place, content, horigin, hplace, hread, ?_⟩
  rw [(stores_put hadmits).files, if_pos rfl]

end FileTree

namespace PlannedUnit

variable {u : PlannedUnit} {t t' : FileTree} {path : Path} {time : Int} {text : String}

/-- A copy to `path` holds the text: the page's file still has it and is not the one that is
written, or there is nothing to lose. -/
def CopiesText (u : PlannedUnit) (text : String) (path : Path) (t : FileTree) : Prop :=
  (t.locate u.source.path ≠ t.locateNew path ∧ t.readText u.source.path = .ok text) ∨
    (t.locate u.source.path = t.locateNew path ∧ text = "")

/-- What a copy leaves at its place. -/
theorem file?_of_write_copy (h : u.write .copy path time t = .ok t') (text : String) :
    ∃ place, t.locateNew path = .ok place ∧
      (t'.file? place = some (text.toUTF8, time) ↔ u.CopiesText text path t) := by
  obtain ⟨origin, place, content, horigin, hplace, hread, hfile⟩ := FileTree.file?_of_copyFile h
  refine ⟨place, hplace, ?_⟩
  rw [hfile, CopiesText, horigin, hplace, FileTree.readText_eq_ok_iff, hread]
  by_cases hself : origin = place
  · have hempty : ByteArray.empty = text.toUTF8 ↔ text = "" := by
      rw [String.toUTF8_eq_toByteArray, show ByteArray.empty = "".toByteArray from rfl,
        String.toByteArray_inj, eq_comm]
    rw [if_pos hself, Option.some.injEq, Prod.mk.injEq, hempty]
    simp [hself]
  · simp [hself]

/-! ## Processing a page -/

variable {templates : Templates} {limit : Nat}

/-- What a document comes to, its output read as bytes. -/
def resultBytes (text : String) (result : Except PlanFailure (Output × List Warning)) :
    Except PlanFailure (ByteArray × List Warning) :=
  result.map fun r => (r.1.bytes text.toUTF8, r.2)

/-- What a page with this text comes to is what expanding the text comes to. -/
structure ComesToExpansion (u : PlannedUnit) (templates : Templates) (limit : Nat)
    (t : FileTree) (text : String) : Prop where
  /-- The same bytes, warnings and defects. -/
  bytes : resultBytes text (u.process t templates limit) =
    resultBytes text (u.processText templates limit text)
  /-- A page that is copied is left as it is by every expansion. -/
  copied : ∀ ws, u.process t templates limit = .ok (.copy, ws) → ws = [] ∧
    ∀ others any, expand others any text = .ok ⟨text, [], 0⟩
  /-- A page that is expanded has a usage. -/
  expanded : ∀ content ws, u.process t templates limit = .ok (.text content, ws) →
    ∃ e, expand templates limit text = .ok e ∧ e.text = content ∧ 0 < e.resolved
  /-- What is written holds the expansion, a copy under its condition. -/
  written : ∀ output ws, u.process t templates limit = .ok (output, ws) →
    ∃ e, expand templates limit text = .ok e ∧
      ∀ path time before after, u.write output path time before = .ok after →
        ∃ place, before.locateNew path = .ok place ∧
          (after.file? place = some (e.text.toUTF8, time) ↔
            (output = .copy → u.CopiesText text path before))

/-- A page without names is copied. -/
theorem comesToExpansion_of_unmarked (hneeds : u.needsExpansion = false)
    (hunmarked : Usage.Unmarked text.toList) : u.ComesToExpansion templates limit t text := by
  have hprocess : u.process t templates limit = .ok (.copy, []) := process_of_copied hneeds t
  have hexpand := fun others any => Expansion.expand_of_unmarked hunmarked others any
  refine ⟨?_, ?_, ?_, ?_⟩
  · rw [hprocess, processText, hexpand]
    rfl
  · intro ws hcopy
    rw [hprocess] at hcopy
    cases hcopy
    exact ⟨rfl, hexpand⟩
  · intro content ws htext
    rw [hprocess] at htext
    cases htext
  · intro output ws houtput
    rw [hprocess] at houtput
    cases houtput
    refine ⟨_, hexpand templates limit, fun path time before after h => ?_⟩
    obtain ⟨place, hplace, hfile⟩ := file?_of_write_copy h text
    exact ⟨place, hplace, by rw [hfile]; simp⟩

theorem exists_expand_of_processText {output : Output} {ws : List Warning}
    (h : u.processText templates limit text = .ok (output, ws)) :
    ∃ e, expand templates limit text = .ok e ∧ output = .text e.text := by
  rw [processText] at h
  cases hexpand : expand templates limit text with
  | error d =>
    rw [hexpand] at h
    cases h
  | ok e =>
    rw [hexpand] at h
    cases h
    exact ⟨e, rfl, rfl⟩

/-- A page with names is expanded. -/
theorem comesToExpansion_of_marked (hneeds : u.needsExpansion = true)
    (htext : u.source.text? = some text) (hmarked : ¬ Usage.Unmarked text.toList) :
    u.ComesToExpansion templates limit t text := by
  have hprocess : u.process t templates limit = u.processText templates limit text :=
    process_of_text hneeds htext t
  refine ⟨by rw [hprocess], ?_, ?_, ?_⟩
  · intro ws hcopy
    rw [hprocess] at hcopy
    obtain ⟨e, -, hcopy⟩ := exists_expand_of_processText hcopy
    cases hcopy
  · intro content ws hcontent
    rw [hprocess] at hcontent
    obtain ⟨e, he, hcontent⟩ := exists_expand_of_processText hcontent
    cases hcontent
    exact ⟨e, he, rfl, Expansion.resolved_pos_of_marked hmarked he⟩
  · intro output ws hresult
    rw [hprocess] at hresult
    obtain ⟨e, he, rfl⟩ := exists_expand_of_processText hresult
    refine ⟨e, he, fun path time before after h => ?_⟩
    obtain ⟨place, hplace, hfile⟩ := FileTree.file?_of_writeFile h
    exact ⟨place, hplace, by simp [hfile]⟩

/-- A document is copied exactly when it is not to be expanded. -/
theorem exists_process_eq_copy_iff :
    (∃ ws, u.process t templates limit = .ok (.copy, ws)) ↔ u.needsExpansion = false := by
  constructor
  · rintro ⟨ws, h⟩
    cases hneeds : u.needsExpansion with
    | false => rfl
    | true =>
      unfold process at h
      rw [hneeds] at h
      obtain ⟨text, -, h⟩ := Stages.bind_eq_ok.1 h
      obtain ⟨e, -, h⟩ := Stages.bind_eq_ok.1 h
      cases h
  · intro hneeds
    exact ⟨[], process_of_copied hneeds t⟩

end PlannedUnit

namespace Plan

variable {t : FileTree} {inventory : Inventory} {force : Bool} {plan : Plan} {u : PlannedUnit}

/-- A planned document is to be expanded exactly when it is a page that holds a mark. -/
theorem needsExpansion_eq_false_iff (h : make t inventory force = .ok plan)
    (hu : u ∈ plan.units) : u.needsExpansion = false ↔
      u.source.isMarkup = false ∨
        ∃ text, u.source.text t = .ok text ∧ Usage.Unmarked text.toList := by
  unfold PlannedUnit.needsExpansion
  cases hmarkup : u.source.isMarkup with
  | false => simp
  | true =>
    obtain ⟨-, -, -, text, -, hread, hnames⟩ := exists_text_of_isMarkup h hu hmarkup
    have htext : u.source.text t = .ok text := Source.text_of_text? hread t
    simp [htext, Expansion.isEmpty_templateNames_iff hnames]

/-- In every plan exactly the documents that are no pages, and the pages without a mark, are
copied, and every page comes to what expanding its text gives. -/
theorem copying_exact (h : make t inventory force = .ok plan) (hu : u ∈ plan.units)
    (limit : Nat) :
    ((∃ ws, u.process t plan.templates limit = .ok (.copy, ws)) ↔
      u.source.isMarkup = false ∨
        ∃ text, u.source.text t = .ok text ∧ Usage.Unmarked text.toList) ∧
    (u.source.isMarkup = true →
      ∃ text, u.source.text t = .ok text ∧ u.ComesToExpansion plan.templates limit t text) := by
  have hneeds := needsExpansion_eq_false_iff h hu
  refine ⟨PlannedUnit.exists_process_eq_copy_iff.trans hneeds, fun hmarkup => ?_⟩
  obtain ⟨-, -, -, text, -, hread, -⟩ := exists_text_of_isMarkup h hu hmarkup
  have htext : u.source.text t = .ok text := Source.text_of_text? hread t
  rw [htext, hmarkup] at hneeds
  refine ⟨text, htext, ?_⟩
  by_cases hunmarked : Usage.Unmarked text.toList
  · exact PlannedUnit.comesToExpansion_of_unmarked
      (hneeds.2 (.inr ⟨text, rfl, hunmarked⟩)) hunmarked
  · have hexpand : u.needsExpansion = true := by
      rw [← Bool.not_eq_false, hneeds]
      simpa using hunmarked
    exact PlannedUnit.comesToExpansion_of_marked hexpand hread hunmarked

/-- A page with a usage and a page with what is nearly one. -/
def nearMissSite : FileTree :=
  ((FileTree.empty.store ⟨"docs/index.html"⟩ "<--template --name=\"a\"></--template>".toUTF8 1).store
    ⟨"docs/near.html"⟩ "<--templates>".toUTF8 1).store ⟨"templates/a.html"⟩ "A".toUTF8 1

def nearMissInventory : Inventory where
  docs := [⟨⟨"docs/index.html"⟩, ⟨"index.html"⟩, none, none⟩,
    ⟨⟨"docs/near.html"⟩, ⟨"near.html"⟩, none, none⟩]
  templates := [⟨⟨"templates/a.html"⟩, ⟨"a.html"⟩, none, none⟩]
  built := []

/-- What is nearly a usage is copied even where no usage may be expanded. -/
theorem copying_exact_nearMiss :
    ∃ plan index near, make nearMissSite nearMissInventory false = .ok plan ∧
      index ∈ plan.units ∧ near ∈ plan.units ∧
      index.process nearMissSite plan.templates 1 = .ok (.text "A", []) ∧
      index.ComesToExpansion plan.templates 1 nearMissSite
        "<--template --name=\"a\"></--template>" ∧
      near.process nearMissSite plan.templates 0 = .ok (.copy, []) ∧
      Usage.Unmarked "<--templates>".toList ∧
      near.ComesToExpansion plan.templates 0 nearMissSite "<--templates>" := by
  obtain ⟨plan, hplan, hcheck⟩ : ∃ plan, make nearMissSite nearMissInventory false = .ok plan ∧
      decide (∃ index ∈ plan.units, ∃ near ∈ plan.units,
        index.source.isMarkup = true ∧ near.source.isMarkup = true ∧
        index.source.text nearMissSite = .ok "<--template --name=\"a\"></--template>" ∧
        near.source.text nearMissSite = .ok "<--templates>" ∧
        index.process nearMissSite plan.templates 1 = .ok (.text "A", []) ∧
        near.process nearMissSite plan.templates 0 = .ok (.copy, [])) = true :=
    Stages.exists_of_any (by decide +kernel)
  obtain ⟨index, hindex, near, hnear, hindexMarkup, hnearMarkup, hindexText, hnearText,
    hexpanded, hcopied⟩ := of_decide_eq_true hcheck
  obtain ⟨hiff, hpage⟩ := copying_exact hplan hnear 0
  obtain ⟨text, htext, hnearComes⟩ := hpage hnearMarkup
  obtain rfl : text = "<--templates>" := Except.ok.inj (htext.symm.trans hnearText)
  obtain ⟨text, htext, hindexComes⟩ := (copying_exact hplan hindex 1).2 hindexMarkup
  obtain rfl := Except.ok.inj (htext.symm.trans hindexText)
  refine ⟨plan, index, near, hplan, hindex, hnear, hexpanded, hindexComes, hcopied, ?_, hnearComes⟩
  rcases hiff.1 ⟨[], hcopied⟩ with hasset | ⟨text, htext, hunmarked⟩
  · rw [hnearMarkup] at hasset
    cases hasset
  · obtain rfl := Except.ok.inj (htext.symm.trans hnearText)
    exact hunmarked

/-- A page without a usage. -/
def plainPage : FileTree := FileTree.empty.store ⟨"docs/a.html"⟩ "<p>x</p>".toUTF8 1

/-- A page that is copied onto itself, since two roots are one directory, is not what its expansion
gives. -/
theorem not_written_eq_expansion_sameRoot :
    let settings : Settings := ⟨⟨"docs"⟩, ⟨"templates"⟩, ⟨"./docs"⟩, 10000, none⟩
    let options : BuildOptions :=
      ⟨settings.docs, settings.templates, settings.output, settings.maxExpansions, false, true⟩
    settings.check = .ok settings ∧ (build plainPage options 5).outcome.saved = 1 ∧
      plainPage.file? ["docs", "a.html"] = some ("<p>x</p>".toUTF8, 1) ∧
      (∀ templates limit, expand templates limit "<p>x</p>" = .ok ⟨"<p>x</p>", [], 0⟩) ∧
      (build plainPage options 5).tree.file? ["docs", "a.html"] ≠
        some ("<p>x</p>".toUTF8, 5) := by
  intro settings options
  have hunmarked : Usage.Unmarked "<p>x</p>".toList :=
    Expansion.find?_eq_none_iff.1 (by decide +kernel)
  refine ⟨by decide +kernel, by decide +kernel, by decide +kernel,
    Expansion.expand_of_unmarked hunmarked, ?_⟩
  have hafter : (build plainPage options 5).tree.file? ["docs", "a.html"] =
      some (ByteArray.empty, 5) := by decide +kernel
  rw [hafter]
  decide +kernel

end Plan

/-! ## Runs into a directory of their own -/

/-- What a page yields is its expansion, whether it is copied or not. -/
theorem exists_expand_of_yieldBytes {templates : Templates} {limit : Nat} {rel : Path}
    {content bytes : ByteArray} (hkind : FileKind.ofPath rel = .markup)
    (h : yieldBytes templates limit rel content = some bytes) :
    ∃ text e, content = text.toUTF8 ∧ expand templates limit text = .ok e ∧
      bytes = e.text.toUTF8 := by
  rw [yieldBytes, if_pos (beq_iff_eq.2 hkind)] at h
  obtain ⟨text, htext, h⟩ := Option.bind_eq_some_iff.1 h
  obtain ⟨names, hnames, h⟩ := Option.bind_eq_some_iff.1 h
  have hcontent : content = text.toUTF8 := fromUTF8?_eq_some_iff.1 htext
  split at h
  · next hempty =>
    have hunmarked : Usage.Unmarked text.toList :=
      (Expansion.isEmpty_templateNames_iff (Stages.mem_toOption.1 hnames)).1 hempty
    cases h
    exact ⟨text, _, hcontent, Expansion.expand_of_unmarked hunmarked templates limit, hcontent⟩
  · obtain ⟨e, he, rfl⟩ := Option.map_eq_some_iff.1 h
    exact ⟨text, e, hcontent, Stages.mem_toOption.1 he, rfl⟩

/-- When the output root lies apart from the sources, every page that a run saves holds what its
expansion gives. -/
theorem saved_expansion {t : FileTree} {options : BuildOptions} {time : Int}
    {p : PlannedUnit × Output} (ht : t.LinkFree)
    (hdocs : Apart (options.docs.place t.home) (options.output.place t.home))
    (htemplates : Apart (options.templates.place t.home) (options.output.place t.home))
    (hp : p ∈ savedOutputs t options time) (hmarkup : p.1.source.isMarkup = true) :
    ∃ plan text changed e, planOf t options = .ok plan ∧
      t.file? (p.1.sourcePlace t.home) = some (text.toUTF8, changed) ∧
      expand plan.templates options.limit text = .ok e ∧
      (build t options time).tree.file? (p.1.targetPlace options.output t.home) =
        some (e.text.toUTF8, time) := by
  obtain ⟨plan, names, source, changed, content, hplan, hat, hfile, hyield, hsaved⟩ :=
    saved_yields ht hdocs htemplates hp
  have hkind : FileKind.ofPath p.1.source.rel = .markup := beq_iff_eq.1 hmarkup
  rw [hat.rel] at hkind
  obtain ⟨text, e, rfl, he, rfl⟩ := exists_expand_of_yieldBytes hkind hyield
  rw [hat.sourcePlace ht, hat.target]
  exact ⟨plan, text, changed, e, hplan, hfile, he, hsaved⟩

end Stencil
