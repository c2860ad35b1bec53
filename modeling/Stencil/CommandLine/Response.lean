import Stencil.CommandLine.Invocation
import Stencil.Report
import Stencil.Settings
import Stencil.Settings.Stock

/-!
# Answering a command line

`respond` carries a command line out on a tree of files: what is printed, the exit code
and the tree that is left. Roots given on the command line replace those of the
settings file, and the settings are checked once more with them.
-/

namespace Stencil

/-! ## Failures as the program ends with them -/

/-- The kind of a failure that the operating system reports. -/
def IoFailure.kind : IoFailure → String
  | notFound => "NotFound"
  | alreadyExists => "AlreadyExists"
  | notDirectory => "NotADirectory"
  | isDirectory => "IsADirectory"
  | tooManyLinks => "FilesystemLoop"
  | notText => "InvalidData"
  | notFile => "InvalidInput"
  | other _ => "Other"

/-- A failure with all that is known about it. -/
def IoFailure.details (e : IoFailure) : String :=
  let description := "kind: " ++ e.kind ++ ", message: \"" ++ e.cause ++ "\""
  match e.code? with
  | some code => "Os \x7b code: " ++ toString code ++ ", " ++ description ++ " \x7d"
  | none => "Error \x7b " ++ description ++ " \x7d"

/-- Why there are no settings, with all that is known about it. What is wrong with the
text of a file is not told. -/
def SettingsFailure.details : SettingsFailure → String
  | unreadable cause => "Io(" ++ cause.details ++ ")"
  | malformed => "Toml"
  | invalid defect => "Validation(\"" ++ defect.message ++ "\")"

namespace CommandLine

/-! ## Commands -/

/-- The settings of a run: those of the settings file with the roots of the command
line in place of its own. -/
def Invocation.settings (i : Invocation) (t : FileTree) : Except SettingsFailure Settings := do
  let s ← Settings.load t (i.given.get? .config) ⟨"."⟩
  Settings.check { s with
    docs := (i.given.get? .docs).getD s.docs
    templates := (i.given.get? .templates).getD s.templates
    output := (i.given.get? .output).getD s.output }

/-- What the settings and the switches of a command make of a run. Checking is a forced
run that writes nothing. -/
def Invocation.options (i : Invocation) (s : Settings) : BuildOptions where
  docs := s.docs
  templates := s.templates
  output := s.output
  limit := s.maxExpansions
  dryRun := i.command = .check ∨ i.given.has .dryRun
  force := i.command = .check ∨ i.given.has .forceRebuild

/-- The style of what is printed, where `colour` says whether the terminal is to have
colours. -/
def Invocation.style (i : Invocation) (colour : Bool) : Report.Style :=
  if colour ∧ !i.given.has .noColor then .coloured else .plain

/-- What the program prints, its exit code and the tree it leaves. -/
structure Response where
  exit : Nat
  stdout : List String
  stderr : List String
  tree : FileTree

/-- The name and the version of the program. -/
def versionLine : String := "hypertemplate 0.3.0"

/-- How a run is reported. The summary of a run that failed goes with the warnings. -/
def ofRun (style : Report.Style) (run : BuildRun) : Response :=
  let events := run.events.flatMap (Report.eventLines style)
  let summary := Report.outcomeLines style run.outcome
  let warnings := run.outcome.warnings.flatMap (Report.warningLines style)
  let exit := run.outcome.status.exitCode
  if exit = 0 then ⟨exit, events ++ summary, warnings, run.tree⟩
  else ⟨exit, events, summary ++ warnings, run.tree⟩

/-- Carries a command out. Files that it saves get the given time. -/
def Invocation.respond (i : Invocation) (t : FileTree) (colour : Bool) (time : Int) : Response :=
  match i.command with
  | .genConfig => ⟨0, Settings.stockLines, [], t⟩
  | .build | .check => match i.settings t with
    | .error failure => ⟨1, [], ["Error: " ++ failure.details], t⟩
    | .ok s => ofRun (i.style colour) (build t (i.options s) time)

/-- What is said about the command line itself. -/
def Ending.lines : Ending → List String
  | version => [versionLine]
  | help | misuse =>
    ["Usage: hypertemplate [OPTIONS] <COMMAND>",
     "",
     "Commands:",
     "  build [OUTPUT]   Expand changed documents into the output directory",
     "  check [OUTPUT]   Expand every document without writing, reporting any defect",
     "  gen-config       Print a stock hypertemplate.toml with all options documented",
     "",
     "Options:",
     "      --config <FILE>           Config file (default ./hypertemplate.toml)",
     "  -d, --docs <DIR>              Documents directory",
     "  -t, --templates <DIR>         Templates directory",
     "      --dry-run                 Expand and report, but write nothing",
     "      --force-rebuild           Rebuild every document regardless of timestamps",
     "      --no-color                Disable colored output",
     "  -v, --verbose                 No effect on what is printed",
     "  -h, --help                    Print help",
     "  -V, --version                 Print version"]

/-- Ends without a command. A misuse is told apart by where its lines go. -/
def Ending.respond (e : Ending) (t : FileTree) : Response :=
  match e with
  | help | version => ⟨e.exitCode, e.lines, [], t⟩
  | misuse => ⟨e.exitCode, [], e.lines, t⟩

/-- Carries a command line out. -/
def respond (args : List String) (t : FileTree) (colour : Bool) (time : Int) : Response :=
  match parse args with
  | .error ending => ending.respond t
  | .ok i => i.respond t colour time

end CommandLine

end Stencil
