import Stencil.Build

/-!
# The report of a run

What a run prints: one line for each planned document, a summary, and the warnings.
Colour marks the fixed words of a line and never the names in it, so `plain` text is
the same text without its marks.
-/

namespace Stencil.Report

/-- Whether fixed words are shown in colour. -/
inductive Style
  | plain
  | coloured
  deriving DecidableEq, Repr

/-- The colours in use, by their terminal codes. -/
inductive Colour
  | red
  | green
  | yellow
  | blue
  deriving DecidableEq, Repr

/-- The code that switches a colour on. -/
def Colour.code : Colour → Nat
  | red => 31
  | green => 32
  | yellow => 33
  | blue => 34

/-- A text in a colour, or as it is in plain style. -/
def paint (style : Style) (colour : Colour) (text : String) : String :=
  match style with
  | .plain => text
  | .coloured => "\x1b[" ++ toString colour.code ++ "m" ++ text ++ "\x1b[0m"

/-- The lines for an event. A planned document shows the file it replaces, or that it
is new, and the templates it uses; a saved one shows nothing. -/
def eventLines (style : Style) : BuildEvent → List String
  | .planned rel replaces templates =>
    let target := match replaces with
      | some existing => paint style .blue "->" ++ " " ++ existing.text
      | none => paint style .green "[new]"
    let uses := if templates.isEmpty then "" else
      " " ++ paint style .blue "with:" ++ " [" ++ ", ".intercalate templates ++ "]"
    [rel.text ++ " " ++ target ++ uses]
  | .saved _ => []

/-- How many of the planned documents were saved. -/
def savedLine (outcome : BuildOutcome) : String :=
  "Saved " ++ toString outcome.saved ++ "/" ++ toString outcome.planned ++ " files"

/-- The lines of the summary. -/
def outcomeLines (style : Style) (outcome : BuildOutcome) : List String :=
  match outcome.status with
  | .upToDate => ["nothing to do; all files up to date"]
  | .built => [paint style .blue (savedLine outcome)]
  | .dryRun =>
    [paint style .blue ("Dry run: " ++ toString outcome.planned ++ " files would be saved")]
  | .expansionFailed failure =>
    [paint style .red "Error while processing. No files altered.", "  " ++ failure.message]
  | .writeFailed failure =>
    [paint style .red "Error while saving:", "  " ++ failure.message, savedLine outcome]

/-- The lines of one warning; the first carries the mark, and a warning without text is
an empty line. -/
def warningLines (style : Style) (w : Warning) : List String :=
  match (Text.lines w.text.toList).map String.ofList with
  | [] => [""]
  | first :: rest => (paint style .yellow "Warning:" ++ " " ++ first) :: rest

/-- All lines of a run: the events, the summary and the warnings. -/
def runLines (style : Style) (run : BuildRun) : List String :=
  run.events.flatMap (eventLines style) ++ outcomeLines style run.outcome ++
    run.outcome.warnings.flatMap (warningLines style)

end Stencil.Report
