import Stencil.Proofs.Build.Content
import Stencil.Proofs.Plan.Freshness

/-!
# Builds over a history of changes

Sources are written and deleted, and runs save outputs in between, each file with a time
that is not earlier than those before it. Whatever happened, every output can be traced
to sources that have not been changed since, unless they are newer (`History.sound`).
-/

namespace Stencil

variable {options : BuildOptions} {home : Place} {t t' : FileTree} {clock later : Int}

/-! ## Histories -/

def BuildOptions.withSwitches (options : BuildOptions) (dryRun force : Bool) : BuildOptions :=
  { options with dryRun, force }

/-- A tree to start from: nothing has been built, and the output root lies apart from the
sources. -/
structure Starts (options : BuildOptions) (t : FileTree) (clock : Int) : Prop where
  linkFree : t.LinkFree
  docs : Apart (options.docs.place t.home) (options.output.place t.home)
  templates : Apart (options.templates.place t.home) (options.output.place t.home)
  noOutput : ∀ names, t.file? (options.output.place t.home ++ names) = none
  times : ∀ place content time, t.file? place = some (content, time) → time ≤ clock

/-- What a tree to start from has to fulfil, looked up in the list of its files. -/
theorem starts_iff : Starts options t clock ↔ t.LinkFree ∧
    Apart (options.docs.place t.home) (options.output.place t.home) ∧
    Apart (options.templates.place t.home) (options.output.place t.home) ∧
    ∀ file ∈ t.fileList, ¬ options.output.place t.home <+: file.1 ∧ file.2.2 ≤ clock := by
  constructor
  · intro h
    refine ⟨h.linkFree, h.docs, h.templates, ?_⟩
    rintro ⟨place, content, time⟩ hmem
    have hfile := FileTree.mem_fileList.1 hmem
    refine ⟨?_, h.times place content time hfile⟩
    rintro ⟨names, rfl⟩
    rw [h.noOutput names] at hfile
    cases hfile
  · rintro ⟨hlinkFree, hdocs, htemplates, hfiles⟩
    refine ⟨hlinkFree, hdocs, htemplates, ?_, ?_⟩
    · intro names
      cases hfile : t.file? (options.output.place t.home ++ names) with
      | none => rfl
      | some file =>
        have hnot := (hfiles _ (FileTree.mem_fileList.2 hfile)).1
        exact absurd (List.prefix_append ..) hnot
    · intro place content time hfile
      exact (hfiles _ (FileTree.mem_fileList.2 hfile)).2

/-- `t'` is `t` with another file, or none, at one place; directories may come and go. -/
structure Edits (t : FileTree) (place : Place) (file : Option (ByteArray × Int))
    (t' : FileTree) : Prop where
  home : t'.home = t.home
  linkFree : t'.LinkFree
  files : ∀ q, t'.file? q = if q = place then file else t.file? q

/-- `t'` is what a run on `t` leaves when the files it saves get times from `clock` to
`later`. -/
structure Leaves (t : FileTree) (options : BuildOptions) (clock later : Int)
    (t' : FileTree) : Prop where
  home : t'.home = t.home
  linkFree : t'.LinkFree
  files : ∃ time,
    (∀ p ∈ savedOutputs t options time, ∃ content written saved,
      (build t options time).tree.file? (p.1.targetPlace options.output t.home) =
        some (content, written) ∧
      t'.file? (p.1.targetPlace options.output t.home) = some (content, saved) ∧
      clock ≤ saved ∧ saved ≤ later) ∧
    ∀ q, (∀ p ∈ savedOutputs t options time, p.1.targetPlace options.output t.home ≠ q) →
      t'.file? q = (build t options time).tree.file? q

theorem Edits.of_stores {place : Place} {content : ByteArray} {time : Int}
    (h : t.Stores place content time t') (ht : t.LinkFree) :
    Edits t place (some (content, time)) t' := by
  refine ⟨h.home, h.linkFree ht, ?_⟩
  intro q
  rw [h.files]
  by_cases hq : q = place
  · rw [if_pos hq, if_pos hq.symm]
  · rw [if_neg hq, if_neg fun heq => hq heq.symm]

/-- A run that is not interrupted leaves its own tree. -/
theorem leaves_build (ht : t.LinkFree)
    (hdocs : Apart (options.docs.place t.home) (options.output.place t.home))
    (htemplates : Apart (options.templates.place t.home) (options.output.place t.home))
    {time : Int} (hle : clock ≤ time) (hlater : time ≤ later) :
    Leaves t options clock later (build t options time).tree := by
  obtain ⟨hextends, hfree⟩ := extends_build ht
  refine ⟨hextends.home, hfree, time, ?_, fun _ _ => rfl⟩
  intro p hp
  obtain ⟨plan, names, source, changed, content, -, hat, -, -, hfile⟩ :=
    saved_yields ht hdocs htemplates hp
  rw [← hat.target] at hfile
  exact ⟨content, time, time, hfile, hfile, hle, hlater⟩

/-- The trees that changes and runs lead to, with the latest time given to a file. -/
inductive History (options : BuildOptions) : FileTree → Int → Prop
  | start {t : FileTree} {clock : Int} (h : Starts options t clock) : History options t clock
  /-- A source is written with a time later than all before. -/
  | write {t t' : FileTree} {clock time : Int} {place : Place} {content : ByteArray}
      (h : History options t clock) (hsource : IsSource options t.home place)
      (htime : clock < time) (hedit : Edits t place (some (content, time)) t') :
      History options t' time
  /-- A source is deleted. -/
  | delete {t t' : FileTree} {clock : Int} {place : Place} (h : History options t clock)
      (hsource : IsSource options t.home place) (hedit : Edits t place none t') :
      History options t' clock
  /-- A run saves files with times no earlier than all before. -/
  | run {t t' : FileTree} {clock later : Int} (dryRun force : Bool)
      (h : History options t clock) (hle : clock ≤ later)
      (hrun : Leaves t (options.withSwitches dryRun force) clock later t') :
      History options t' later

/-! ## Outputs and the sources they were made of -/

/-- The output of the document at `names` was made of a source and of templates of which
nothing has been changed up to `time`. -/
def Traced (options : BuildOptions) (home : Place) (files : Files) (names : List String)
    (content : ByteArray) (time : Int) : Prop :=
  ∃ (source : ByteArray) (snapshot : Templates),
    yieldBytes snapshot options.limit (.ofNames names) source = some content ∧
    (∀ current changed, files (options.docs.place home ++ names) = some (current, changed) →
      changed ≤ time → current = source) ∧
    ∀ below current changed text, below ≠ [] →
      FileKind.ofPath (.ofNames below) = .markup →
      Uses (.ofNames names) source (Template.nameOf (.ofNames below)) →
      files (options.templates.place home ++ below) = some (current, changed) →
      changed ≤ time → String.fromUTF8? current = some text →
      snapshot[Template.nameOf (.ofNames below)]? =
        some (Template.ofFile (options.templates.below below) (.ofNames below) text)

/-- An output stays traced while no source up to its time comes to be. -/
theorem Traced.mono {files files' : Files} {names : List String} {content : ByteArray}
    {time : Int} (h : Traced options home files names content time)
    (hold : ∀ place file, IsSource options home place → files' place = some file →
      file.2 ≤ time → files place = some file) :
    Traced options home files' names content time := by
  obtain ⟨source, snapshot, hyield, hdoc, htemplates⟩ := h
  refine ⟨source, snapshot, hyield, ?_, ?_⟩
  · intro current changed hfile hle
    exact hdoc current changed (hold _ _ (.inl (List.prefix_append ..)) hfile hle) hle
  · intro below current changed text hne hmarkup huses hfile hle htext
    have hbefore := hold _ _ (.inr (List.prefix_append ..)) hfile hle
    exact htemplates below current changed text hne hmarkup huses hbefore hle htext

/-- What holds of every tree of a history. -/
structure Sound (options : BuildOptions) (t : FileTree) (clock : Int) : Prop where
  linkFree : t.LinkFree
  docs : Apart (options.docs.place t.home) (options.output.place t.home)
  templates : Apart (options.templates.place t.home) (options.output.place t.home)
  times : ∀ place content time, t.file? place = some (content, time) → time ≤ clock
  traced : ∀ names content time, names ≠ [] →
    t.file? (options.output.place t.home ++ names) = some (content, time) →
    Traced options t.home t.file? names content time

theorem Sound.of_starts (h : Starts options t clock) : Sound options t clock := by
  refine ⟨h.linkFree, h.docs, h.templates, h.times, ?_⟩
  intro names content time hne hfile
  rw [h.noOutput names] at hfile
  cases hfile

/-- A change of one source to a later time, or to nothing, keeps outputs traced. -/
theorem Sound.edit (h : Sound options t clock) {place : Place}
    {file : Option (ByteArray × Int)} (hsource : IsSource options t.home place)
    (hle : clock ≤ later) (hfile : ∀ f ∈ file, clock < f.2 ∧ f.2 ≤ later)
    (hedit : Edits t place file t') : Sound options t' later := by
  refine ⟨hedit.linkFree, by rw [hedit.home]; exact h.docs, by rw [hedit.home]; exact h.templates,
    ?_, ?_⟩
  · intro q content time hq
    rw [hedit.files] at hq
    by_cases hqp : q = place
    · rw [if_pos hqp] at hq
      exact (hfile _ hq).2
    · rw [if_neg hqp] at hq
      have := h.times q content time hq
      omega
  · intro names content time hne hq
    rw [hedit.home] at hq ⊢
    rw [hedit.files, if_neg (ne_of_isSource h.docs h.templates hsource names)] at hq
    refine (h.traced names content time hne hq).mono ?_
    intro q found _ hfound hold
    rw [hedit.files] at hfound
    by_cases hqp : q = place
    · -- the file is newer than every output
      rw [if_pos hqp] at hfound
      have hnew := (hfile _ hfound).1
      have hearlier := h.times _ _ _ hq
      omega
    · rwa [if_neg hqp] at hfound

/-- What a run saves is traced to what it read. -/
theorem ConsideredAt.traced (ht : t.LinkFree) {plan : Plan}
    (hplan : planOf t options = .ok plan) {names : List String} {u : PlannedUnit}
    (hat : ConsideredAt t options plan.templates names u) {source content : ByteArray}
    {changed : Int}
    (hfile : t.file? (options.docs.place t.home ++ names) = some (source, changed))
    (hyield : yieldBytes plan.templates options.limit (.ofNames names) source = some content)
    (time : Int) : Traced options t.home t.file? names content time := by
  refine ⟨source, plan.templates, hyield, ?_, ?_⟩
  · intro current changed' hcurrent _
    rw [hfile] at hcurrent
    exact (Prod.mk.inj (Option.some.inj hcurrent)).1.symm
  · intro below current changed' text hne hmarkup huses hcurrent _ htext
    have hloaded := (hat.of_uses hfile huses).2
    exact getElem?_of_used ht hplan hne hmarkup hloaded hcurrent htext

theorem Sound.withSwitches (h : Sound options t clock) (dryRun force : Bool) :
    Sound (options.withSwitches dryRun force) t clock :=
  ⟨h.linkFree, h.docs, h.templates, h.times, h.traced⟩

theorem Sound.of_withSwitches {dryRun force : Bool}
    (h : Sound (options.withSwitches dryRun force) t clock) : Sound options t clock :=
  ⟨h.linkFree, h.docs, h.templates, h.times, h.traced⟩

/-- No output is saved in the place of a source. -/
theorem Sound.target_ne (h : Sound options t clock) {place : Place}
    (hsource : IsSource options t.home place) (time : Int) :
    ∀ p ∈ savedOutputs t options time, p.1.targetPlace options.output t.home ≠ place :=
  target_ne_of_isSource h.linkFree h.docs h.templates hsource

/-- A run keeps outputs traced: what it saves is traced to what it read, and the rest stays
as it was. -/
theorem Sound.run (h : Sound options t clock) (hle : clock ≤ later)
    (hrun : Leaves t options clock later t') : Sound options t' later := by
  obtain ⟨time, hsaved, hother⟩ := hrun.files
  have hkept : ∀ place, (∀ p ∈ savedOutputs t options time,
      p.1.targetPlace options.output t.home ≠ place) → t'.file? place = t.file? place :=
    fun place hne => (hother place hne).trans (file?_build_of_ne h.linkFree hne)
  refine ⟨hrun.linkFree, by rw [hrun.home]; exact h.docs, by rw [hrun.home]; exact h.templates,
    ?_, ?_⟩
  · intro place content changed hfile
    by_cases htarget : ∃ p ∈ savedOutputs t options time,
        p.1.targetPlace options.output t.home = place
    · obtain ⟨p, hp, rfl⟩ := htarget
      obtain ⟨_, _, saved, -, hfile', -, hlater⟩ := hsaved p hp
      have hsame := hfile'.symm.trans hfile
      cases hsame
      exact hlater
    · rw [hkept place fun p hp heq => htarget ⟨p, hp, heq⟩] at hfile
      have := h.times place content changed hfile
      omega
  · intro names content changed hne hfile
    rw [hrun.home] at hfile ⊢
    have htraced : Traced options t.home t.file? names content changed := by
      rcases file?_build_cases h.linkFree h.docs h.templates names with
        ⟨p, hp, plan, source, stamp, bytes, hplan, hat, hsource, hyield, hbytes⟩ | hnot
      · obtain ⟨content', _, saved, hcontent', hfile', -⟩ := hsaved p hp
        rw [hat.target] at hcontent' hfile'
        rw [hfile] at hfile'
        rw [hbytes] at hcontent'
        cases hfile'
        cases hcontent'
        exact hat.traced h.linkFree hplan hsource hyield changed
      · -- the output is the one of before
        rw [hkept _ hnot] at hfile
        exact h.traced names content changed hne hfile
    -- no source is a target, so none has been changed
    refine htraced.mono ?_
    intro place file hsource hplace _
    rwa [hkept place (h.target_ne hsource time)] at hplace

/-- Whatever happens in a history, outputs stay traced. -/
theorem History.sound (h : History options t clock) : Sound options t clock := by
  induction h with
  | start h => exact .of_starts h
  | write h hsource htime hedit ih =>
    refine ih.edit hsource (Int.le_of_lt htime) ?_ hedit
    rintro file ⟨⟩
    exact ⟨htime, Int.le_refl _⟩
  | delete h hsource hedit ih => exact ih.edit hsource (Int.le_refl _) (by simp) hedit
  | run dryRun force h hle hrun ih =>
    exact ((ih.withSwitches dryRun force).run hle hrun).of_withSwitches

end Stencil
