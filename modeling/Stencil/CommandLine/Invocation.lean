import Stencil.CommandLine.Argument
import Stencil.Path

/-!
# Reading the command line

A command line names a command and gives options before and after it. `parse` reads it
from the left, and the first argument that asks for help or for the version, or that is
out of place, decides. An option may be given once before the command and once after
it; for a value, the one after the command counts.
-/

namespace Stencil.CommandLine

/-! ## Commands and options -/

/-- What the program can be told to do. -/
inductive Command
  | build
  /-- Expand every document and write nothing. -/
  | check
  /-- Print the stock settings file. -/
  | genConfig
  deriving DecidableEq, Repr

/-- The command that a word stands for. -/
def Command.ofName? : String → Option Command
  | "build" => some .build
  | "check" => some .check
  | "gen-config" => some .genConfig
  | _ => none

/-- An option that takes no value. -/
inductive Switch
  | verbose
  | noColor
  | dryRun
  | forceRebuild
  deriving DecidableEq, Repr

/-- An option that takes a path. -/
inductive Setting
  | config
  | docs
  | templates
  /-- Given by a word, without a name. -/
  | output
  deriving DecidableEq, Repr

/-- What the name or the letter of an option stands for. -/
inductive Meaning
  | switch (s : Switch)
  | setting (s : Setting)
  | help
  | version
  deriving DecidableEq, Repr

/-- An option as it is written. -/
structure Spelling where
  name : String
  letter : Option Char
  meaning : Meaning

/-- The options understood before the command and after it. -/
def sharedSpellings : List Spelling :=
  [⟨"config", none, .setting .config⟩, ⟨"verbose", some 'v', .switch .verbose⟩,
   ⟨"no-color", none, .switch .noColor⟩, ⟨"help", some 'h', .help⟩]

/-- The options understood after a command, or before one. -/
def spellingsAt (command : Option Command) : List Spelling :=
  let roots : List Spelling :=
    [⟨"docs", some 'd', .setting .docs⟩, ⟨"templates", some 't', .setting .templates⟩]
  sharedSpellings ++ match command with
    | none => [⟨"version", some 'V', .version⟩]
    | some .build => roots ++
      [⟨"dry-run", none, .switch .dryRun⟩, ⟨"force-rebuild", none, .switch .forceRebuild⟩]
    | some .check => roots
    | some .genConfig => []

/-- Whether the command takes the output root. -/
def Command.takesOutput : Command → Bool
  | build | check => true
  | genConfig => false

/-! ## What has been read -/

/-- Why a command line is not carried out. -/
inductive Ending
  | help
  | version
  | misuse
  deriving DecidableEq, Repr

/-- The exit code of a program that ends so. -/
def Ending.exitCode : Ending → Nat
  | help | version => 0
  | misuse => 2

/-- The options given, each at most once. -/
structure Given where
  settings : List (Setting × Path)
  switches : List Switch
  deriving DecidableEq, Repr

namespace Given

/-- No option. -/
def none : Given := ⟨[], []⟩

/-- The options with one more value, which must not be empty. -/
def put (g : Given) (s : Setting) (value : String) : Except Ending Given :=
  if value = "" ∨ (g.settings.lookup s).isSome then .error .misuse
  else .ok { g with settings := (s, ⟨value⟩) :: g.settings }

/-- The options with one more switch. -/
def turnOn (g : Given) (s : Switch) : Except Ending Given :=
  if s ∈ g.switches then .error .misuse else .ok { g with switches := s :: g.switches }

/-- The options of two places together; the first has the say. -/
def orElse (g h : Given) : Given := ⟨g.settings ++ h.settings, g.switches ++ h.switches⟩

/-- The value of a setting. -/
def get? (g : Given) (s : Setting) : Option Path := g.settings.lookup s

/-- Whether a switch is on. -/
def has (g : Given) (s : Switch) : Bool := g.switches.contains s

end Given

/-- How far a command line has been read. The last option may still wait for its value,
and a value that is an argument of its own is taken up with the argument after it. -/
structure Reading where
  given : Given
  open? : Option (Setting × Option String)

namespace Reading

/-- What has been given when nothing more belongs to the last option. -/
def close (r : Reading) : Except Ending Given :=
  match r.open? with
  | none => .ok r.given
  | some (_, none) => .error .misuse
  | some (s, some value) => r.given.put s value

/-- Options by their letters. -/
def short (spellings : List Spelling) : List Char → Given → Except Ending Reading
  | [], g => .ok ⟨g, none⟩
  | c :: letters, g =>
    match (spellings.find? fun s => s.letter == some c).map Spelling.meaning with
    | none => .error .misuse
    | some .help => .error .help
    | some .version => .error .version
    | some (.switch s) => do short spellings letters (← g.turnOn s)
    | some (.setting s) => match letters with
      | [] => .ok ⟨g, some (s, none)⟩
      | '=' :: value => do return ⟨← g.put s (String.ofList value), none⟩
      | value => do return ⟨← g.put s (String.ofList value), none⟩

/-- An option by its name. -/
def long (spellings : List Spelling) (name : String) (value : Option String) (g : Given) :
    Except Ending Reading :=
  match (spellings.find? fun s => s.name == name).map Spelling.meaning, value with
  | none, _ => .error .misuse
  | some (.setting s), none => .ok ⟨g, some (s, none)⟩
  | some (.setting s), some value => do return ⟨← g.put s value, none⟩
  | some _, some _ => .error .misuse
  | some .help, none => .error .help
  | some .version, none => .error .version
  | some (.switch s), none => do return ⟨← g.turnOn s, none⟩

/-- A word: the value that the last option waits for, or the output root. -/
def word (r : Reading) (command : Command) (text : String) : Except Ending Reading :=
  match r.open? with
  | some (s, none) => .ok ⟨r.given, some (s, some text)⟩
  | _ => if command.takesOutput then do return ⟨← r.close, some (.output, some text)⟩
    else .error .misuse

end Reading

/-! ## Whole command lines -/

/-- The options after a command. -/
def afterCommand (command : Command) : List String → Reading → Except Ending Given
  | [], r => r.close
  | arg :: args, r => match Argument.ofText arg with
    | .word text => do afterCommand command args (← r.word command text)
    | .separator => do
      let r : Reading := ⟨← r.close, none⟩
      (← args.foldlM (fun r text => r.word command text) r).close
    | .long name value => do
      afterCommand command args
        (← Reading.long (spellingsAt command) name value (← r.close))
    | .short letters => do
      afterCommand command args (← Reading.short (spellingsAt command) letters (← r.close))

/-- What the program is told to do. -/
structure Invocation where
  command : Command
  given : Given
  deriving DecidableEq, Repr

/-- Help on the command that is named, if any. -/
def helpOn : List String → Ending
  | [] | ["help"] => .help
  | [name] => if (Command.ofName? name).isSome then .help else .misuse
  | _ => .misuse

/-- The rest of a command line before whose command `r` has been read. A value that
stands right before the command is taken up last. -/
def beforeCommand : List String → Reading → Except Ending Invocation
  | [], _ => .error .misuse
  | arg :: args, r => match Argument.ofText arg with
    | .word text => match r.open? with
      | some (s, none) => beforeCommand args ⟨r.given, some (s, some text)⟩
      | _ => match Command.ofName? text with
        | some command => do
          let after ← afterCommand command args ⟨.none, none⟩
          return ⟨command, after.orElse (← r.close)⟩
        | none => .error (if text = "help" then helpOn args else .misuse)
    | .separator => .error .misuse
    | .long name value => do
      beforeCommand args (← Reading.long (spellingsAt none) name value (← r.close))
    | .short letters => do
      beforeCommand args (← Reading.short (spellingsAt none) letters (← r.close))

/-- What a command line says, or why it is not carried out. -/
def parse (args : List String) : Except Ending Invocation := beforeCommand args ⟨.none, none⟩

end Stencil.CommandLine
