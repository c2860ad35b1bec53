import Stencil.Expansion
import Stencil.FileTree.Resolve
import Stencil.Toml.Reader

/-!
# Settings

Where a run finds its files and what bounds it. A settings file is laid over the stock
settings, so it needs only what it changes; what it holds beyond the known keys is an
error. `Settings.check` says which settings a run accepts.
-/

namespace Stencil

/-- The settings of a run. -/
structure Settings where
  /-- The root of the documents. -/
  docs : Path
  /-- The root of the templates. -/
  templates : Path
  /-- The root of the built site. -/
  output : Path
  /-- Usages that may be resolved in one document. -/
  maxExpansions : Nat
  /-- Workers that may run at once; as many as there are cores when it is left open. -/
  maxProcesses : Option Nat
  deriving DecidableEq, Repr

/-- What is wrong with settings that could be read. -/
inductive SettingsDefect
  | noExpansions
  | noProcesses
  | sharedDirectory
  deriving DecidableEq, Repr

/-- The wording of a defect of the settings. -/
def SettingsDefect.message : SettingsDefect → String
  | noExpansions => "expansion.max_expansions must be at least 1"
  | noProcesses => "processing.max_processes must be at least 1"
  | sharedDirectory => "docs, templates and output must be different directories"

/-- Why there are no settings. -/
inductive SettingsFailure
  /-- The file could not be read. -/
  | unreadable (cause : IoFailure)
  /-- The file is malformed, or holds a key or a value that settings do not have. -/
  | malformed
  | invalid (defect : SettingsDefect)
  deriving DecidableEq, Repr

namespace Settings

/-- The settings of a run that is told nothing. -/
def stock : Settings := ⟨⟨"docs"⟩, ⟨"templates"⟩, ⟨"site"⟩, Expansion.defaultLimit, none⟩

/-- The name of the settings file that is looked for. -/
def fileName : Path := ⟨"hypertemplate.toml"⟩

/-! ## Validity -/

/-- What is wrong with the settings, if anything is. The roots must differ as written. -/
def defect? (s : Settings) : Option SettingsDefect :=
  if s.maxExpansions = 0 then some .noExpansions
  else if s.maxProcesses = some 0 then some .noProcesses
  else if s.docs.Same s.templates ∨ s.docs.Same s.output ∨ s.templates.Same s.output then
    some .sharedDirectory
  else none

/-- The settings, when a run accepts them. -/
def check (s : Settings) : Except SettingsFailure Settings :=
  match s.defect? with
  | some defect => .error (.invalid defect)
  | none => .ok s

/-- The number of workers on a machine with so many cores. -/
def workers (maxProcesses : Option Nat) (cores : Nat) : Nat :=
  match maxProcesses with
  | some n => min n cores
  | none => cores

/-! ## From values -/

/-- A path given as a value: a text, or a date or time as it is written. -/
def pathOf? : Toml.Value → Option Path
  | .text s => some ⟨s⟩
  | .moment m => some ⟨m.text⟩
  | _ => none

/-- A count given as a value. -/
def countOf? : Toml.Value → Option Nat
  | .integer n => if 0 ≤ n then some n.toNat else none
  | _ => none

/-- The values of a group of settings by the keys of the group. They may be given as a
table of these keys or as a list in their order, and some may be left out. -/
def group? (keys : List String) : Toml.Value → Option (List (String × Toml.Value))
  | .table entries => if entries.all fun e => keys.contains e.1 then some entries else none
  | .list items => if items.length ≤ keys.length then some (keys.zip items) else none
  | _ => none

/-- The setting under a key, or `default` when it is left out. -/
def setting? {α : Type} (read : Toml.Value → Option α) (key : String) (default : α)
    (values : List (String × Toml.Value)) : Option α :=
  match values.lookup key with
  | some v => read v
  | none => some default

/-- The group of settings for the expansion. -/
def maxExpansionsOf? (v : Toml.Value) : Option Nat := do
  setting? countOf? "max_expansions" stock.maxExpansions (← group? ["max_expansions"] v)

/-- The group of settings for the processing. -/
def maxProcessesOf? (v : Toml.Value) : Option (Option Nat) := do
  setting? (fun v => (countOf? v).map some) "max_processes" stock.maxProcesses
    (← group? ["max_processes"] v)

/-- The settings that a value states. -/
def ofValue? (v : Toml.Value) : Option Settings := do
  let values ← group? ["docs", "templates", "output", "expansion", "processing"] v
  return {
    docs := ← setting? pathOf? "docs" stock.docs values
    templates := ← setting? pathOf? "templates" stock.templates values
    output := ← setting? pathOf? "output" stock.output values
    maxExpansions := ← setting? maxExpansionsOf? "expansion" stock.maxExpansions values
    maxProcesses := ← setting? maxProcessesOf? "processing" stock.maxProcesses values }

/-- The stock settings as a value. -/
def stockValue : Toml.Value :=
  .table [("docs", .text stock.docs.text), ("templates", .text stock.templates.text),
    ("output", .text stock.output.text),
    ("expansion", .table [("max_expansions", .integer stock.maxExpansions)]),
    ("processing", .table [])]

/-- The settings that a value laid over the stock settings makes. -/
def resolve (overlay : Option Toml.Value) : Except SettingsFailure Settings :=
  let value := match overlay with
    | some overlay => stockValue.merge overlay
    | none => stockValue
  match ofValue? value with
  | some s => s.check
  | none => .error .malformed

/-- The settings that the text of a file makes. -/
def ofText (text : String) : Except SettingsFailure Settings :=
  match Toml.Value.ofText? text with
  | some overlay => resolve (some overlay)
  | none => .error .malformed

/-- The settings from the file at `path`. Without a path the settings file in `directory`
counts if there is one, and the stock settings do otherwise. -/
def load (t : FileTree) (path : Option Path) (directory : Path) :
    Except SettingsFailure Settings := do
  let usual := directory.join fileName
  if path.isNone ∧ !t.pathExists usual then resolve none
  else ofText (← (t.readText (path.getD usual)).mapError .unreadable)

end Settings

end Stencil
