import Stencil.CommandLine.Response
import Stencil.Proofs.FileTree.Store
import Stencil.Proofs.Settings.Stated
import Stencil.Proofs.Toml.Distinct

/-!
# Roots on the command line

Settings have three layers: the command line over the settings file over the stock settings
(`effective`). A run takes the effective settings, but only after it has checked what the
settings file makes on its own. So the roots of the file must differ from each other even
where the command line replaces them, and apart from that the effective settings alone
decide (`CommandLine.Invocation.settings_precedence`).
-/

namespace Stencil

open Toml (Value)

namespace Settings

/-! ## Layers -/

/-- The roots that a command line gives. -/
def Stated.ofGiven (g : CommandLine.Given) : Stated where
  docs := g.get? .docs
  templates := g.get? .templates
  output := g.get? .output
  maxExpansions := none
  maxProcesses := none

/-- The settings of a command line over a file over the stock settings. -/
def effective (g : CommandLine.Given) (file : Stated) : Settings :=
  (Stated.ofGiven g).above (file.above stock)

/-- The settings file that is looked for where a run works. -/
def usualFile : Path := Path.join ⟨"."⟩ fileName

/-- What the settings file states: the file at `path`, or the one in the working directory. No
path and no such file state nothing. A file that is neither unreadable nor malformed states
something (`exists_fileStates_iff`). -/
inductive FileStates (t : FileTree) (path : Option Path) : Stated → Prop
  | absent (hpath : path = none) (hfile : t.pathExists usualFile = false) :
      FileStates t path .nothing
  | present {text : String} {v : Value} {file : Stated}
      (htext : t.readText (path.getD usualFile) = .ok text)
      (hvalue : Value.ofText? text = some v) (hfile : Stated.ofValue? v = some file) :
      FileStates t path file

theorem above_nothing (s : Settings) : Stated.nothing.above s = s := by
  simp [Stated.above, Stated.nothing]

/-! ## What a file makes on its own -/

theorem pathExists_of_readText {t : FileTree} {p : Path} {text : String}
    (h : t.readText p = .ok text) : t.pathExists p = true := by
  unfold FileTree.readText FileTree.readBytes at h
  unfold FileTree.pathExists
  cases hnode : t.node? p with
  | ok node => rfl
  | error e =>
    rw [hnode] at h
    cases h

theorem resolve_none : resolve none = stock.check := rfl

/-- A file that states some settings makes these and the stock settings for the rest, if they
pass the check. -/
theorem ofText_eq {text : String} {v : Value} {file : Stated}
    (hvalue : Value.ofText? text = some v) (hfile : Stated.ofValue? v = some file) :
    ofText text = (file.above stock).check := by
  have hdistinct : v.Distinct := (Value.distinct_ofText? hvalue).1
  unfold ofText resolve
  simp [hvalue, ofValue?_merge_stockValue hdistinct, ofValue?_eq, hfile]

theorem load_eq {t : FileTree} {path : Option Path} {file : Stated}
    (h : FileStates t path file) : load t path ⟨"."⟩ = (file.above stock).check := by
  cases h with
  | absent hpath hfile =>
    have hfile : t.pathExists (Path.join ⟨"."⟩ fileName) = false := hfile
    simp [load, hpath, hfile, resolve_none, above_nothing]
  | present htext hvalue hfile =>
    have hread : ¬ (path.isNone ∧ (!t.pathExists (Path.join ⟨"."⟩ fileName)) = true) := by
      intro ⟨hpath, hmissing⟩
      rw [Option.isNone_iff_eq_none.1 hpath] at htext
      have hexists : t.pathExists (Path.join ⟨"."⟩ fileName) = true :=
        pathExists_of_readText htext
      simp [hexists] at hmissing
    unfold load
    rw [if_neg hread]
    show ((t.readText (path.getD usualFile)).mapError .unreadable >>= ofText) = _
    rw [htext]
    exact ofText_eq hvalue hfile

/-- A file that can be read states something unless what it holds is refused as malformed. -/
theorem exists_stated_of_ofText {text : String} (h : ofText text ≠ .error .malformed) :
    ∃ v file, Value.ofText? text = some v ∧ Stated.ofValue? v = some file := by
  unfold ofText at h
  cases hvalue : Value.ofText? text with
  | none => simp [hvalue] at h
  | some v =>
    have hdistinct : v.Distinct := (Value.distinct_ofText? hvalue).1
    cases hfile : Stated.ofValue? v with
    | none => simp [hvalue, resolve, ofValue?_merge_stockValue hdistinct, ofValue?_eq, hfile] at h
    | some file => exact ⟨v, file, rfl, hfile⟩

/-- The settings file states something exactly when it is neither unreadable nor malformed. -/
theorem exists_fileStates_iff {t : FileTree} {path : Option Path} :
    (∃ file, FileStates t path file) ↔
      load t path ⟨"."⟩ ≠ .error .malformed ∧
        ∀ cause, load t path ⟨"."⟩ ≠ .error (.unreadable cause) := by
  constructor
  · intro ⟨file, hfile⟩
    rw [load_eq hfile]
    unfold check
    split <;> simp
  · intro ⟨hformed, hreadable⟩
    unfold load at hformed hreadable
    by_cases husual : path.isNone ∧ (!t.pathExists (Path.join ⟨"."⟩ fileName)) = true
    · exact ⟨.nothing, .absent (Option.isNone_iff_eq_none.1 husual.1)
        (by simpa [usualFile] using husual.2)⟩
    · simp only [if_neg husual] at hformed hreadable
      cases htext : t.readText (path.getD (Path.join ⟨"."⟩ fileName)) with
      | error cause =>
        rw [htext] at hreadable
        exact absurd rfl (hreadable cause)
      | ok text =>
        rw [htext] at hformed
        obtain ⟨v, file, hvalue, hfile⟩ := exists_stated_of_ofText hformed
        exact ⟨file, .present htext hvalue hfile⟩

/-! ## Two checks -/

theorem check_eq_ok {s s' : Settings} : s.check = .ok s' ↔ s.defect? = none ∧ s' = s := by
  unfold check
  cases s.defect? with
  | none => simp [eq_comm]
  | some defect => simp

theorem check_eq_error {s : Settings} {defect : SettingsDefect} (h : s.defect? = some defect) :
    s.check = .error (.invalid defect) := by
  simp [check, h]

/-- The limits come from the file alone, so a defect of theirs stays. -/
theorem defect?_effective_of_limits {g : CommandLine.Given} {file : Stated}
    {defect : SettingsDefect} (h : (file.above stock).defect? = some defect)
    (hlimits : defect ≠ .sharedDirectory) : (effective g file).defect? = some defect := by
  have hexpansions : (effective g file).maxExpansions = (file.above stock).maxExpansions := rfl
  have hprocesses : (effective g file).maxProcesses = (file.above stock).maxProcesses := rfl
  unfold defect? at h ⊢
  rw [hexpansions, hprocesses]
  by_cases hzero : (file.above stock).maxExpansions = 0
  · rwa [if_pos hzero] at h ⊢
  rw [if_neg hzero] at h ⊢
  by_cases hnone : (file.above stock).maxProcesses = some 0
  · rwa [if_pos hnone] at h ⊢
  rw [if_neg hnone] at h
  split at h <;> cases h
  exact absurd rfl hlimits

end Settings

namespace CommandLine.Invocation

open Settings

/-- The settings of a file are checked before and after the command line has its say. -/
theorem settings_eq {t : FileTree} {i : Invocation} {file : Stated}
    (h : FileStates t (i.given.get? .config) file) :
    i.settings t = (file.above stock).check >>= fun _ => (effective i.given file).check := by
  unfold settings
  rw [load_eq h]
  cases hfile : (file.above stock).check with
  | error failure => rfl
  | ok s =>
    rw [(check_eq_ok.1 hfile).2]
    rfl

/-- A run has settings exactly when the effective settings are valid, and then it has these,
unless the effective settings are valid and two roots of the file, taken on its own, are the
same. What is wrong with the file on its own is always what the run fails with. -/
theorem settings_precedence {t : FileTree} {i : Invocation} {file : Stated}
    (h : FileStates t (i.given.get? .config) file) :
    ((((∃ s, i.settings t = .ok s) ↔ (effective i.given file).defect? = none) ∧
        ∀ s, i.settings t = .ok s → s = effective i.given file) ↔
      ¬ ((file.above stock).defect? = some .sharedDirectory ∧
        (effective i.given file).defect? = none)) ∧
    ∀ defect, (file.above stock).defect? = some defect →
      i.settings t = .error (.invalid defect) := by
  have hsettings := settings_eq h
  have halone : ∀ defect, (file.above stock).defect? = some defect →
      i.settings t = .error (.invalid defect) := by
    intro defect hdefect
    rw [hsettings, check_eq_error hdefect]
    rfl
  refine ⟨?_, halone⟩
  constructor
  · intro ⟨hiff, _⟩ ⟨hshared, hvalid⟩
    obtain ⟨s, hs⟩ := hiff.2 hvalid
    rw [halone _ hshared] at hs
    cases hs
  · intro hneither
    cases hdefect : (file.above stock).defect? with
    | none =>
      have hboth : i.settings t = (effective i.given file).check := by
        rw [hsettings, check_eq_ok.2 ⟨hdefect, rfl⟩]
        rfl
      simp [hboth, check_eq_ok]
    | some defect =>
      have hinvalid : (effective i.given file).defect? ≠ none := by
        intro hvalid
        have hlimits : defect ≠ .sharedDirectory := by
          intro hshared
          exact hneither ⟨hshared ▸ hdefect, hvalid⟩
        rw [defect?_effective_of_limits hdefect hlimits] at hvalid
        cases hvalid
      simp [halone _ hdefect, hinvalid]

/-! ## A file with one root -/

/-- A tree with nothing but a settings file that names the documents root. -/
def treeNaming (docs : String) : FileTree :=
  FileTree.empty.store usualFile ("docs = \"" ++ docs ++ "\"").toUTF8 10

theorem fileStates_treeNaming {docs : String} {file : Stated} (text : String)
    (htext : (treeNaming docs).readText usualFile = .ok text)
    (hfile : (Value.ofText? text).bind Stated.ofValue? = some file) :
    FileStates (treeNaming docs) none file := by
  obtain ⟨v, hvalue, hstated⟩ := Option.bind_eq_some_iff.1 hfile
  exact .present htext hvalue hstated

/-- The root on the command line replaces that of the file. -/
theorem settings_precedence_treeNaming :
    ∃ i, parse ["build", "-d", "src"] = .ok i ∧
      i.settings (treeNaming "pages") =
        .ok ⟨⟨"src"⟩, ⟨"templates"⟩, ⟨"site"⟩, Expansion.defaultLimit, none⟩ := by
  let i : Invocation := ⟨.build, ⟨[(.docs, ⟨"src"⟩)], []⟩⟩
  have hstates : FileStates (treeNaming "pages") (i.given.get? .config)
      ⟨some ⟨"pages"⟩, none, none, none, none⟩ :=
    fileStates_treeNaming "docs = \"pages\"" (by decide +kernel) (by decide +kernel)
  obtain ⟨⟨hiff, heffective⟩, -⟩ := (settings_precedence hstates).imp_left fun h => h.2 (by decide)
  obtain ⟨s, hs⟩ := hiff.2 (by decide)
  refine ⟨i, by decide +kernel, ?_⟩
  rw [hs, heffective s hs]
  rfl

/-- A documents root that clashes with the stock output root only in the file ends the run,
although the command line replaces it. -/
theorem exists_replaced_root_refused :
    ∃ i file, parse ["build", "-d", "src"] = .ok i ∧
      FileStates (treeNaming "site") (i.given.get? .config) file ∧
      (effective i.given file).defect? = none ∧
      i.settings (treeNaming "site") = .error (.invalid .sharedDirectory) := by
  refine ⟨⟨.build, ⟨[(.docs, ⟨"src"⟩)], []⟩⟩, ⟨some ⟨"site"⟩, none, none, none, none⟩,
    by decide +kernel, ?_, by decide, by decide +kernel⟩
  exact fileStates_treeNaming "docs = \"site\"" (by decide +kernel) (by decide +kernel)

end CommandLine.Invocation

end Stencil
