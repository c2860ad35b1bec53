import Stencil.Proofs.Build.Content
import Stencil.Proofs.FileTree.Changes

/-!
# How far a run came

A run that stops before writing leaves the whole tree as it was. A run that writes has saved
the first of the planned documents and stops at the one that fails (`build_atomic`): the
tree it leaves has their outputs, no other file is changed, and what is new besides are
directories on the way to a document that was tried.
-/

namespace Stencil

variable {root : Path} {time : Int} {t t' u : FileTree} {options : BuildOptions}
  {pairs : List (PlannedUnit × Output)} {places : Place → Prop} {q : Place}

/-! ## One node at a time -/

namespace PlannedUnit

variable {w : PlannedUnit} {output : Output}

/-- A document that could not be saved has at most left directories on its way. -/
theorem keepsNode_of_save_error (ht : t.LinkFree) {failure : WriteFailure}
    (h : w.save output root time t = (t', .error failure)) (q : Place) :
    t.KeepsNode time ((w.target root).Passes t.home) t' q := by
  have hadds : t.Adds time ((w.target root).Passes t.home) (t.makeParents time (w.target root)).1 :=
    FileTree.adds_makeParents ht
  cases save_eq_iff.1 h with
  | conflict => exact .inl rfl
  | unmade _ parents =>
    rw [parents] at hadds
    exact hadds.nodes q
  | unwritten _ parents =>
    rw [parents] at hadds
    exact hadds.nodes q

theorem getElem?_write_of_ne (ht : t.LinkFree)
    (h : w.write output (w.target root) time t = .ok t')
    (hq : w.targetPlace root t.home ≠ q) : t'.nodes[q]? = t.nodes[q]? := by
  cases output with
  | text content => exact FileTree.getElem?_writeFile_of_ne ht h hq
  | copy => exact FileTree.getElem?_copyFile_of_ne ht h hq

/-- A document that was saved has touched the place of its output and left directories on
its way. -/
theorem keepsNode_of_save (ht : t.LinkFree) (h : w.save output root time t = (t', .ok ()))
    (hq : w.targetPlace root t.home ≠ q) :
    t.KeepsNode time ((w.target root).Passes t.home) t' q := by
  have hadds : t.Adds time ((w.target root).Passes t.home) (t.makeParents time (w.target root)).1 :=
    FileTree.adds_makeParents ht
  have hgrows : t.Grows (t.makeParents time (w.target root)).1 := FileTree.grows_makeParents
  cases save_eq_iff.1 h with
  | saved _ parents write =>
    rw [parents] at hadds hgrows
    rw [← hgrows.home] at hq
    have hrest := getElem?_write_of_ne (hgrows.linkFree ht) write hq
    exact (hadds.nodes q).of_node_eq hrest

end PlannedUnit

/-- Saving one document after the other touches the places of the outputs that were saved
and leaves directories on the way to those that were tried. -/
theorem keepsNode_writeAll (ht : t.LinkFree)
    (hq : ∀ p ∈ pairs.take (writeAll root time pairs t).saved,
      p.1.targetPlace root t.home ≠ q) :
    t.KeepsNode time
      (fun q => ∃ p ∈ pairs.take ((writeAll root time pairs t).saved + 1),
        (p.1.target root).Passes t.home q) (writeAll root time pairs t).tree q := by
  induction pairs generalizing t with
  | nil => exact .inl rfl
  | cons p pairs ih =>
    obtain ⟨w, output⟩ := p
    rw [writeAll] at hq ⊢
    split at hq
    · next made failure hsave =>
      have hstep := PlannedUnit.keepsNode_of_save_error ht hsave q
      exact hstep.mono fun hpass => ⟨(w, output), by simp, hpass⟩
    · next made hsave =>
      obtain ⟨content, -, hstores, -⟩ := PlannedUnit.stores_of_save ht hsave
      rw [List.take_succ_cons, List.forall_mem_cons] at hq
      obtain ⟨hfirst, hrest⟩ := hq
      have hstep := PlannedUnit.keepsNode_of_save ht hsave hfirst
      rw [← hstores.home] at hrest
      have htail := ih (hstores.linkFree ht) hrest
      refine (hstep.mono fun hpass => ⟨(w, output), by simp, hpass⟩).trans (htail.mono ?_)
      rintro ⟨p, hp, hpass⟩
      rw [hstores.home] at hpass
      exact ⟨p, List.mem_cons_of_mem _ hp, hpass⟩

theorem saved_writeAll_le : (writeAll root time pairs t).saved ≤ pairs.length := by
  induction pairs generalizing t with
  | nil => exact Nat.le_refl 0
  | cons p pairs ih =>
    rw [writeAll]
    split
    · exact Nat.zero_le _
    · exact Nat.succ_le_succ ih

/-- Writing stops early exactly when it fails. -/
theorem failure_writeAll_eq_none_iff : (writeAll root time pairs t).failure = none ↔
    (writeAll root time pairs t).saved = pairs.length := by
  refine ⟨saved_of_writeAll, fun h => ?_⟩
  induction pairs generalizing t with
  | nil => rfl
  | cons p pairs ih =>
    rw [writeAll] at h ⊢
    split at h
    · cases h
    · exact ih (Nat.succ.inj h)

/-! ## The tree a run leaves -/

/-- `u` is `t` with the first `count` of the documents saved. -/
structure SavedUpTo (t : FileTree) (root : Path) (time : Int)
    (pairs : List (PlannedUnit × Output)) (count : Nat) (u : FileTree) : Prop where
  /-- Each of these is found with the bytes of its output, which for a copy are those that
  its source had. -/
  saved : ∀ p ∈ pairs.take count, ∃ source changed,
    t.file? (p.1.sourcePlace t.home) = some (source, changed) ∧
    u.file? (p.1.targetPlace root t.home) = some (p.2.bytes source, time) ∧
    u.readBytes (p.1.target root) = .ok (p.2.bytes source)
  /-- No other file is changed. -/
  files : ∀ q, (∀ p ∈ pairs.take count, p.1.targetPlace root t.home ≠ q) → u.file? q = t.file? q
  /-- The other documents wait at places of their own. -/
  waiting : ∀ p ∈ pairs.drop count,
    u.file? (p.1.targetPlace root t.home) = t.file? (p.1.targetPlace root t.home)
  /-- All that is new besides are directories, each passed by the path of an output that was
  tried. -/
  nodes : ∀ q, (∀ p ∈ pairs.take count, p.1.targetPlace root t.home ≠ q) →
    t.KeepsNode time (fun q => ∃ p ∈ pairs.take (count + 1), (p.1.target root).Passes t.home q ∧
      (.up ∉ root.components → q <+: p.1.targetPlace root t.home)) u q

variable {plan : Plan} {outputs : List Output} {found : List Warning}

/-- The path of an output goes up where the output root does. -/
theorem ConsideredAt.up_not_mem {templates : Templates} {names : List String} {w : PlannedUnit}
    (h : ConsideredAt t options templates names w) (hup : .up ∉ options.output.components) :
    .up ∉ (w.target options.output).components := by
  rw [PlannedUnit.target, h.rel, Path.components_join_ofNames _ h.valid]
  simp [hup]

/-- What is saved for a planned document are the bytes of its output. -/
theorem exists_source_of_mem_zip (ht : t.LinkFree)
    (hdocs : Apart (options.docs.place t.home) (options.output.place t.home))
    (hplan : planOf t options = .ok plan) {p : PlannedUnit × Output}
    (hp : p ∈ plan.units.zip outputs) :
    ∃ source changed, t.file? (p.1.sourcePlace t.home) = some (source, changed) ∧
      p.1.savedBytes p.2 options.output t.home t.file? = some (p.2.bytes source) := by
  obtain ⟨names, hat⟩ := exists_consideredAt_of_mem_units ht hplan (List.of_mem_zip hp).1
  obtain ⟨⟨source, changed⟩, hfile⟩ := Option.isSome_iff_exists.1 hat.file
  refine ⟨source, changed, ?_, hat.savedBytes_eq ht hdocs p.2 hfile⟩
  rw [hat.sourcePlace ht]
  exact hfile

/-- No planned output goes to the place of a planned document. -/
theorem target_ne_source_of_mem_units (ht : t.LinkFree)
    (hdocs : Apart (options.docs.place t.home) (options.output.place t.home))
    (hplan : planOf t options = .ok plan) {v w : PlannedUnit} (hv : v ∈ plan.units)
    (hw : w ∈ plan.units) : w.targetPlace options.output t.home ≠ v.sourcePlace t.home := by
  obtain ⟨names, hat⟩ := exists_consideredAt_of_mem_units ht hplan hv
  obtain ⟨names', hat'⟩ := exists_consideredAt_of_mem_units ht hplan hw
  rw [hat.sourcePlace ht, hat'.target]
  intro heq
  exact hdocs.not_prefix_append names' (heq ▸ List.prefix_append ..)

/-- Writing saves the first of the planned documents. -/
theorem savedUpTo_writeAll (ht : t.LinkFree)
    (hdocs : Apart (options.docs.place t.home) (options.output.place t.home))
    (hplan : planOf t options = .ok plan)
    (hprocess : plan.processAll t options.limit = .ok (outputs, found)) :
    let writing := writeAll options.output time (plan.units.zip outputs) t
    SavedUpTo t options.output time (plan.units.zip outputs) writing.saved writing.tree := by
  intro writing
  have hpairwise := pairwise_target_zip ht hplan hprocess
  have hfiles : writing.tree.file? = ((plan.units.zip outputs).take writing.saved).foldl
      (PlannedUnit.saveFiles options.output t.home time) t.file? := files_writeAll ht
  -- a file that is not the output of a saved document is not touched
  have hothers : ∀ q, (∀ p ∈ (plan.units.zip outputs).take writing.saved,
      p.1.targetPlace options.output t.home ≠ q) → writing.tree.file? q = t.file? q := by
    intro q hq
    rw [hfiles]
    exact foldl_saveFiles_of_ne hq
  refine ⟨?_, hothers, ?_, ?_⟩
  · intro p hp
    have hzip := List.mem_of_mem_take hp
    obtain ⟨source, changed, hsource, hbytes⟩ :=
      exists_source_of_mem_zip ht hdocs hplan hzip
    have hapart : ∀ v ∈ (plan.units.zip outputs).take writing.saved,
        ∀ w ∈ (plan.units.zip outputs).take writing.saved,
        w.1.targetPlace options.output t.home ≠ v.1.sourcePlace t.home := by
      intro v hv w hw
      exact target_ne_source_of_mem_units ht hdocs hplan
        (List.of_mem_zip (List.mem_of_mem_take hv)).1
        (List.of_mem_zip (List.mem_of_mem_take hw)).1
    have htarget : writing.tree.file? (p.1.targetPlace options.output t.home) =
        some (p.2.bytes source, time) := by
      rw [hfiles, foldl_saveFiles_target (hpairwise.sublist (List.take_sublist ..)) hapart hp,
        hbytes]
      rfl
    exact ⟨source, changed, hsource, htarget,
      readBytes_of_locate (locate_target_of_writeAll ht hp) htarget⟩
  · intro p hp
    refine hothers _ fun v hv => ?_
    rw [← List.take_append_drop writing.saved (plan.units.zip outputs),
      List.pairwise_append] at hpairwise
    exact hpairwise.2.2 v hv p hp
  · intro q hq
    refine (keepsNode_writeAll ht hq).mono ?_
    rintro ⟨p, hp, hpass⟩
    refine ⟨p, hp, hpass, fun hup => ?_⟩
    obtain ⟨names, hat⟩ := exists_consideredAt_of_mem_units ht hplan
      (List.of_mem_zip (List.mem_of_mem_take hp)).1
    exact hpass.isPrefix (hat.up_not_mem hup)

/-- The run at `time` has planned and processed documents and saved the first of them, all
exactly when it ends well. -/
structure SavedPlan (t : FileTree) (options : BuildOptions) (time : Int) (plan : Plan)
    (outputs : List Output) : Prop where
  planned : planOf t options = .ok plan
  processed : ∃ found, plan.processAll t options.limit = .ok (outputs, found)
  length_outputs : outputs.length = plan.units.length
  saved_le : (build t options time).outcome.saved ≤ plan.units.length
  built_iff : (build t options time).outcome.status = .built ↔
    (build t options time).outcome.saved = plan.units.length
  savedUpTo : SavedUpTo t options.output time (plan.units.zip outputs)
    (build t options time).outcome.saved (build t options time).tree

/-- A run that is told to write its plan saves it as far as it comes. -/
theorem savedPlan_build (time : Int) (ht : t.LinkFree)
    (hdocs : Apart (options.docs.place t.home) (options.output.place t.home))
    (hplan : planOf t options = .ok plan) (hunits : plan.units ≠ [])
    (hprocess : plan.processAll t options.limit = .ok (outputs, found))
    (hdry : options.dryRun = false) :
    ((build t options time).outcome.status = .built ∨
      ∃ failure, (build t options time).outcome.status = .writeFailed failure) ∧
      SavedPlan t options time plan outputs := by
  let writing := writeAll options.output time (plan.units.zip outputs) t
  have hrun := build_of_write hplan hunits hprocess hdry time
  have hstatus : (build t options time).outcome.status = writing.status := by rw [hrun]
  have hsaved : (build t options time).outcome.saved = writing.saved := by rw [hrun]
  have htree : (build t options time).tree = writing.tree := by rw [hrun]
  have hlength := length_of_processAll hprocess
  have hzip : (plan.units.zip outputs).length = plan.units.length := by
    rw [List.length_zip, hlength, Nat.min_self]
  have hall : writing.failure = none ↔ writing.saved = plan.units.length :=
    hzip ▸ failure_writeAll_eq_none_iff
  constructor
  · rw [hstatus, Writing.status]
    cases writing.failure with
    | none => exact .inl rfl
    | some failure => exact .inr ⟨failure, rfl⟩
  · refine ⟨hplan, ⟨found, hprocess⟩, hlength, ?_, ?_, ?_⟩
    · rw [hsaved]
      exact hzip ▸ saved_writeAll_le
    · rw [hstatus, hsaved, ← hall, Writing.status]
      cases writing.failure <;> simp
    · rw [hsaved, htree]
      exact savedUpTo_writeAll ht hdocs hplan hprocess

/-- A run that does not come to writing leaves the whole tree as it was. A run that writes
has saved the first of the documents it planned and nothing else. -/
theorem build_atomic (time : Int) (ht : t.LinkFree)
    (hdocs : Apart (options.docs.place t.home) (options.output.place t.home)) :
    match (build t options time).outcome.status with
    | .upToDate | .dryRun | .expansionFailed _ => (build t options time).tree = t
    | .built | .writeFailed _ => ∃ plan outputs, SavedPlan t options time plan outputs := by
  cases hplan : planOf t options with
  | error failure =>
    rw [build_of_planOf_error hplan time]
  | ok plan =>
  by_cases hunits : plan.units = []
  · rw [build_of_units_nil hplan hunits time]
  cases hprocess : plan.processAll t options.limit with
  | error failure =>
    rw [build_of_processAll_error hplan hunits hprocess time]
  | ok result =>
  obtain ⟨outputs, found⟩ := result
  cases hdry : options.dryRun with
  | true =>
    rw [build_of_dryRun hplan hunits hprocess hdry time]
  | false =>
    obtain ⟨hstatus, hsaved⟩ := savedPlan_build time ht hdocs hplan hunits hprocess hdry
    rcases hstatus with hstatus | ⟨failure, hstatus⟩
    · rw [hstatus]
      exact ⟨plan, outputs, hsaved⟩
    · rw [hstatus]
      exact ⟨plan, outputs, hsaved⟩

/-- Two documents, and a file where the output of the second one needs a directory. -/
def blockedSite : FileTree :=
  let docs := (FileTree.empty.store ⟨"docs/a.txt"⟩ "A".toUTF8 1).store ⟨"docs/b/c.txt"⟩ "C".toUTF8 1
  docs.store ⟨"site/b"⟩ "B".toUTF8 1

/-- The first document is saved, the second fails, and the file in its way is kept. -/
theorem build_atomic_blockedSite :
    let options : BuildOptions := ⟨⟨"docs"⟩, ⟨"templates"⟩, ⟨"site"⟩, 10, false, false⟩
    let run := build blockedSite options 5
    blockedSite.LinkFree ∧
      Apart (options.docs.place blockedSite.home) (options.output.place blockedSite.home) ∧
      run.outcome.status = .writeFailed (.io ⟨"site/b/c.txt"⟩ .alreadyExists) ∧
      run.outcome.saved = 1 ∧
      run.tree.file? ["site", "b"] = blockedSite.file? ["site", "b"] ∧
      ∃ plan outputs, SavedPlan blockedSite options 5 plan outputs := by
  intro options run
  have hfree : blockedSite.LinkFree :=
    FileTree.linkFree_store (FileTree.linkFree_store
      (FileTree.linkFree_store FileTree.linkFree_empty _ _ _) _ _ _) _ _ _
  have hapart : Apart (options.docs.place blockedSite.home)
      (options.output.place blockedSite.home) := by decide +kernel
  have hstatus : (build blockedSite options 5).outcome.status =
      .writeFailed (.io ⟨"site/b/c.txt"⟩ .alreadyExists) := by decide +kernel
  have hsaved := build_atomic 5 hfree hapart
  rw [hstatus] at hsaved
  exact ⟨hfree, hapart, hstatus, by decide +kernel, by decide +kernel, hsaved⟩

end Stencil
