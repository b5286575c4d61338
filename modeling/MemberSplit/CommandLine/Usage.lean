import MemberSplit.CommandLine.Reading

/-!
# Usage

What the program tells about itself: its version, its help, and what is wrong with a command line.
-/

namespace MemberSplit.CommandLine

/-- The name of the program. -/
def programName : Text := "cleave"

/-- The line about the version. -/
def versionLine : Text :=
  Text.concat [programName, " 0.1.0\n"]

/-- The pattern of a command line. -/
def usageLine : Text :=
  Text.concat ["Usage: ", programName, " [OPTIONS] <INPUT>\n"]

namespace Switch

/-- The first column of the help. -/
def spelling (switch : Switch) : Text :=
  let letter : Text := match switch.letter with
    | some letter => ['-', letter, ',', ' ']
    | none => List.replicate 4 ' '
  Text.concat ["  ", letter, switch.shown]

/-- The widest entry in the first column. -/
def columnWidth (switches : List Switch) : Nat :=
  switches.foldl (fun width switch => max width switch.spelling.length) 0

/-- The line of the help, whose first column has the given width. -/
def helpLine (width : Nat) (switch : Switch) : Text :=
  let gap := List.replicate (width - switch.spelling.length) ' '
  Text.concat [switch.spelling, gap, "  ", switch.help, "\n"]

end Switch

/-- The help. -/
def helpText : Text :=
  Text.concat ["Split a monolithic member-function file into generated fragments\n\n", usageLine,
    "\nArguments:\n  <INPUT>  Implementation file to split\n\nOptions:\n"] ++
    Switch.all.flatMap (Switch.helpLine (Switch.columnWidth Switch.all))

/-- The text of a notice. -/
def Notice.text : Notice → Text
  | .help => helpText
  | .version => versionLine

/-- What is wrong with an option. -/
def Refusal.message (shown : Text) : Refusal → Text
  | .repeated => Text.concat ["the argument '", shown, "' cannot be used multiple times"]
  | .emptyValue => Text.concat ["a value is required for '", shown, "' but none was supplied"]
  | .unknownWord word known =>
    Text.concat ["invalid value '", word, "' for '", shown, "'\n  ", wordList known]

/-- What is wrong with a command line. -/
def Misuse.message : Misuse → Text
  | .unknownOption word | .secondInput word =>
    Text.concat ["unexpected argument '", word, "' found"]
  | .emptyInput => Refusal.message "<INPUT>" .emptyValue
  | .noInput => "the following required arguments were not provided:\n  <INPUT>"
  | .noValue shown => Refusal.message shown .emptyValue
  | .needlessValue shown value =>
    Text.concat ["unexpected value '", value, "' for '", shown,
      "' found; no more were expected"]
  | .refused shown refusal => refusal.message shown
  | .quietAndVerbose => "the argument '--quiet' cannot be used with '--verbose...'"

/-- The whole complaint about a command line. -/
def Misuse.text (misuse : Misuse) : Text :=
  Text.concat ["error: ", misuse.message, "\n\n", usageLine,
    "\nFor more information, try '--help'.\n"]

end MemberSplit.CommandLine
