import MemberSplit.CommandLine.Usage
import MemberSplit.Report.Console
import MemberSplit.Report.Json
import MemberSplit.Run.Basic

/-!
# The command line

A command line names an input and settings. The configuration is looked for and read, the settings
are laid over it, and the run is carried out; then the summary is shown. The exit code tells
whether all went well, whether something is wrong with the result, or whether there was no run.
-/

namespace MemberSplit.CommandLine

/-- What the surroundings of the program say about colours. -/
structure Environment where
  /-- Colours are unwanted. -/
  noColor : Bool
  /-- Colours are wanted even where no terminal is. -/
  forceColor : Bool
  /-- The name of the kind of terminal. -/
  terminal : Option Text
  /-- Whether the output goes to a terminal. -/
  onTerminal : Bool
  deriving DecidableEq, Repr

namespace Environment

/-- The environment that is described by variables. -/
def ofVariables (lookup : Text → Option Text) (onTerminal : Bool) : Environment where
  noColor := (lookup "NO_COLOR").isSome
  forceColor := (lookup "FORCE_COLOR").isSome
  terminal := lookup "TERM"
  onTerminal

/-- The name of a terminal without colours. -/
def plainTerminal : Text := "dumb"

/-- Whether colours are wanted. -/
def wantsColor (environment : Environment) : ColorWhen → Bool
  | .always => true
  | .never => false
  | .auto =>
    !environment.noColor &&
      (environment.forceColor ||
        environment.terminal ≠ some plainTerminal && environment.onTerminal)

/-- Whether a terminal of this kind can show colours and may do so. -/
def allowsColor (environment : Environment) : Bool :=
  !environment.noColor && environment.terminal.any (· ≠ plainTerminal)

/-- Whether the summary is coloured. -/
def colors (environment : Environment) (when : ColorWhen) : Bool :=
  environment.wantsColor when && environment.allowsColor

end Environment

/-- Why there was no run. -/
inductive Complaint where
  | misuse (misuse : Misuse)
  | failure (failure : Failure)
  deriving DecidableEq, Repr

/-- The text of a failure, and of the error behind it once more. -/
def failureText (failure : Failure) : Text :=
  match failure.cause? with
  | none => failure.message
  | some cause => Text.concat [failure.message, ": ", cause.message]

/-- The complaint as it is printed. -/
def Complaint.text : Complaint → Text
  | .misuse cause => cause.text
  | .failure cause => Text.concat [programName, ": ", failureText cause, "\n"]

/-- What the program leaves behind, its files apart. -/
structure Output where
  code : Nat
  stdout : Text := []
  log : List Log.Line := []
  complaint : Option Complaint := none
  deriving DecidableEq, Repr

/-- The exit code when there was no run. -/
def fatalCode : Nat := 2

/-- The output when the command line was not read to its end. -/
def Stop.output : Stop → Output
  | .tell notice => { code := 0, stdout := notice.text }
  | .misuse cause => { code := fatalCode, complaint := some (.misuse cause) }

/-- The least important level that is logged. -/
def Settings.logLimit (settings : Settings) : Log.Level :=
  if settings.quiet then .error
  else match settings.verbosity with
    | 0 => .warn
    | 1 => .info
    | 2 => .debug
    | _ => .trace

/-- The summary as the settings want it to be shown. -/
def Settings.show (settings : Settings) (environment : Environment) (summary : Summary) : Text :=
  if settings.json then (summary.toJson settings.strict).pretty ++ ['\n']
  else if settings.quiet then []
  else
    let spans := Report.console (0 < settings.verbosity) summary
    if environment.colors (settings.color.getD .auto) then Styled.ansi spans
    else Styled.text spans

namespace Arguments

/-- The configuration file, if there is one. -/
def configFile? (arguments : Arguments) (read : Reader) : Option Path :=
  Config.locate? read arguments.settings.configFile arguments.input

/-- The configuration before the settings are laid over it, and the log of reading it. -/
def baseConfig (arguments : Arguments) (read : Reader) :
    Except Failure Config × List Log.Line :=
  match arguments.configFile? read with
  | none =>
    (.ok {}, [Log.line .debug ["no ", Config.fileName, " beside input, using defaults"]])
  | some path =>
    match Config.load read path with
    | .ok config => (.ok config, [Log.line .debug ["loaded config from ", path]])
    | .error failure => (.error failure, [])

/-- What the run is asked to do; settings that make no sense with the configuration are a
failure. -/
def job (arguments : Arguments) (config : Config) : Except Failure Job :=
  let layered := arguments.settings.layer config
  match layered.check with
  | .error problem => .error (.invalidConfig problem)
  | .ok _ =>
    .ok {
      input := arguments.input
      declarations := arguments.settings.declarations
      config := layered
      dryRun := arguments.settings.dryRun
      force := arguments.settings.force }

/-- What the program shows of a run with the given log. -/
def output (arguments : Arguments) (environment : Environment) (log : List Log.Line) :
    Except Failure Summary → Output
  | .ok summary =>
    { code := summary.exitCode arguments.settings.strict
      stdout := arguments.settings.show environment summary
      log := Log.upTo arguments.settings.logLimit log }
  | .error failure =>
    { code := fatalCode
      log := Log.upTo arguments.settings.logLimit log
      complaint := some (.failure failure) }

/-- Plans what the arguments ask for. The log goes up to the plan, or to the failure. -/
def plan (arguments : Arguments) (read : Reader) : Except Failure Plan × List Log.Line :=
  let (base, log) := arguments.baseConfig read
  match base.bind arguments.job with
  | .error failure => (.error failure, log)
  | .ok job =>
    match Plan.ofJob read job with
    | .error (failure, more) => (.error failure, log ++ more)
    | .ok plan => (.ok plan, log)

/-- The files that a plan can depend on. -/
def sources (arguments : Arguments) : List Path :=
  let config := arguments.settings.configFile.getD (Config.fileBeside arguments.input)
  let headers := match arguments.settings.declarations with
    | some path => [path]
    | none => Header.candidates arguments.input
  config :: arguments.input :: headers

/-- Carries out what the arguments ask for. -/
def run (arguments : Arguments) (environment : Environment) (tree : FileTree) :
    Output × FileTree :=
  match arguments.plan tree.read with
  | (.error failure, log) => (arguments.output environment log (.error failure), tree)
  | (.ok plan, log) =>
    let result := tree.carryOut plan
    (arguments.output environment (log ++ result.log) result.outcome, result.tree)

end Arguments

/-- Carries out a command line. -/
def run (environment : Environment) (words : List Text) (tree : FileTree) : Output × FileTree :=
  match Arguments.read words with
  | .error stop => (stop.output, tree)
  | .ok arguments => arguments.run environment tree

end MemberSplit.CommandLine
