import MemberSplit.CommandLine.Settings

/-!
# Options

The table of the options: how they are spelled, what they do, and how the help describes them.
-/

namespace MemberSplit.CommandLine

/-- What can be told instead of doing anything. -/
inductive Notice where
  | help
  | version
  deriving DecidableEq, Repr

/-- Changes settings, unless the change is refused. -/
abbrev Change := Settings → Except Refusal Settings

/-- What an option does. -/
inductive Effect where
  /-- Changes the settings on its own. -/
  | mark (change : Change)
  /-- Changes the settings with the value that follows, which the help calls `placeholder`. -/
  | value (placeholder : Text) (change : Text → Change)
  /-- Ends the reading of the command line. -/
  | tell (notice : Notice)

/-- An option. -/
structure Switch where
  /-- The letter behind a single dash. -/
  letter : Option Char := none
  /-- The name behind two dashes. -/
  name : Text
  effect : Effect
  /-- What the help says. -/
  help : Text
  /-- Whether more of the option means more. -/
  counts : Bool := false

/-- The words for when the summary is coloured. -/
def colorWords : List (Text × ColorWhen) :=
  [("auto", .auto), ("always", .always), ("never", .never)]

/-- The words for scan modes. -/
def scanModeWords : List (Text × ScanMode) :=
  [("literal", .literal), ("lexical", .lexical)]

/-- A list of words for the help. -/
def wordList (words : List Text) : Text :=
  Text.concat ["[possible values: ", Text.joinWith ", " words, "]"]

namespace Switch

/-- The option with its dashes, and with the placeholder of its value. -/
def shown (switch : Switch) : Text :=
  let value : Text := match switch.effect with
    | .value placeholder _ => Text.concat [" <", placeholder, ">"]
    | _ => []
  Text.concat ["--", switch.name, value, if switch.counts then "..." else ""]

/-- The options that say where things are and how they are split. -/
def splitting : List Switch :=
  [{ name := "declarations"
     effect := .value "FILE" fun word settings => do
       let file ← Refusal.path word
       return { settings with declarations := ← Refusal.fill settings.declarations file }
     help := "Declarations file (default: sibling with a header extension)" },
   { letter := 'c', name := "config"
     effect := .value "FILE" fun word settings => do
       let file ← Refusal.path word
       return { settings with configFile := ← Refusal.fill settings.configFile file }
     help := "Config file (default: cleave.toml beside the input)" },
   { name := "owner"
     effect := .value "TYPE" fun word settings => do
       return { settings with owner := ← Refusal.fill settings.owner word }
     help := "Owning type whose members are split (default: input file stem)" },
   { letter := 'o', name := "output-dir"
     effect := .value "DIR" fun word settings => do
       let directory ← Refusal.path word
       return { settings with
         outputDirectory := ← Refusal.fill settings.outputDirectory directory }
     help := "Output directory, relative to the input's directory" },
   { name := "dispatch-method"
     effect := .value "NAME" fun word settings => do
       return { settings with dispatchMethod := ← Refusal.fill settings.dispatchMethod word }
     help := "Method overloaded once per variant type" },
   { name := "core"
     effect := .value "NAME" fun word settings =>
       .ok { settings with core := settings.core ++ [word] }
     help := "Keep this function in the core file (can be used multiple times)" },
   { name := "exclude"
     effect := .value "KEY" fun word settings =>
       .ok { settings with exclude := settings.exclude ++ [word] }
     help := Text.concat ["Route this variant key's dispatch overload to helpers ",
       "(can be used multiple times)"] },
   { name := "helper"
     effect := .value "NAME" fun word settings =>
       .ok { settings with helper := settings.helper ++ [word] }
     help := Text.concat ["Route this function to helpers without a warning ",
       "(can be used multiple times)"] },
   { name := "single-line"
     effect := .mark fun settings => do
       return { settings with singleLine := ← Refusal.raise settings.singleLine }
     help := "Require each signature and its opening brace on one line" },
   { name := "scan-mode"
     effect := .value "MODE" fun word settings => do
       let mode ← Refusal.choice scanModeWords word
       return { settings with scanMode := ← Refusal.fill settings.scanMode mode }
     help := Text.concat ["How braces inside literals and comments are treated ",
       wordList (scanModeWords.map Prod.fst)] }]

/-- The options that say what a run may do and what it shows. -/
def running : List Switch :=
  [{ letter := 'n', name := "dry-run"
     effect := .mark fun settings => do
       return { settings with dryRun := ← Refusal.raise settings.dryRun }
     help := "Report what would be written without touching any file" },
   { letter := 'f', name := "force"
     effect := .mark fun settings => do
       return { settings with force := ← Refusal.raise settings.force }
     help := "Rewrite the input even when code would be lost" },
   { name := "strict"
     effect := .mark fun settings => do
       return { settings with strict := ← Refusal.raise settings.strict }
     help := Text.concat ["Treat warnings (unrecognized shapes, default classifications) ",
       "as failures"] },
   { name := "json"
     effect := .mark fun settings => do
       return { settings with json := ← Refusal.raise settings.json }
     help := "Output the run summary as JSON" },
   { name := "color"
     effect := .value "WHEN" fun word settings => do
       let color ← Refusal.choice colorWords word
       return { settings with color := ← Refusal.fill settings.color color }
     help := Text.concat ["Control color output: auto, always, never [default: auto] ",
       wordList (colorWords.map Prod.fst)] },
   { letter := 'v', name := "verbose"
     effect := .mark fun settings => .ok { settings with verbosity := settings.verbosity + 1 }
     help := "Increase log verbosity (-v, -vv, -vvv)"
     counts := true },
   { letter := 'q', name := "quiet"
     effect := .mark fun settings => do
       return { settings with quiet := ← Refusal.raise settings.quiet }
     help := "Only print errors" }]

/-- The options that only tell something. -/
def telling : List Switch :=
  [{ letter := 'h', name := "help", effect := .tell .help, help := "Print help" },
   { letter := 'V', name := "version", effect := .tell .version, help := "Print version" }]

/-- All options, in the order of the help. -/
def all : List Switch :=
  splitting ++ running ++ telling

/-- The option with a name. -/
def named? (name : Text) : Option Switch :=
  all.find? fun switch => switch.name = name

/-- The option with a letter. -/
def lettered? (letter : Char) : Option Switch :=
  all.find? fun switch => switch.letter = some letter

end Switch

end MemberSplit.CommandLine
